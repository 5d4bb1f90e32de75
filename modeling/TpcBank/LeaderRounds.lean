import TpcBank.SoleLeaders
import TpcBank.WedgedRounds

/-! The rounds of a leader that is the only proposer of its cluster. Its calls carry the ballot
that their replies are compared with, so the end of each is counted; a server that
synchronizes has a Sync call under way, and a running round has a poll to go on with. -/
namespace TpcBank
open Transition

namespace Server

variable {c : Constants} {fs : FileSystem} {s : Server} {input : Input} {r : Handled}
  {request : TransferReq} {ph : Phase}

/-- How far a server is from the end of a round. -/
def stage (s : Server) : ℕ :=
  if s.awaitAcceptDecision then 1 else if s.awaitPrepareDecision then 2 else 3

theorem stage_congr {t : Server} (hprep : t.awaitPrepareDecision = s.awaitPrepareDecision)
    (hacc : t.awaitAcceptDecision = s.awaitAcceptDecision) : t.stage = s.stage := by
  unfold stage
  rw [hprep, hacc]

/-- Once its decisions are there, a poll of the round is answered or takes the round further. -/
theorem runPaxos_advances (fs : FileSystem) (hown : s.Owns request.tid) (hphases : s.Phases)
    (hdecided : ∀ ph : Phase, ph.awaits s = true → ph.Decided s) (isCrossShard : Bool) :
    (s.runPaxos c fs request isCrossShard).response.isSome = true ∨
      (s.runPaxos c fs request isCrossShard).server.stage < s.stage := by
  cases hprep : s.awaitPrepareDecision with
  | true =>
    have hacc := hphases.one hprep
    have hdecision : majority ≤ s.prepareSuccesses ∨ majority ≤ s.prepareFailures :=
      hdecided .prepare hprep
    by_cases hproposes : s.Proposes c request
    · rw [runPaxos_of_proposes hproposes]
      right
      cases isCrossShard <;>
        simp [stage, startAccept, prepareTransaction, insertLog, hprep, hacc]
    · left
      obtain ⟨hsync, htid⟩ := hown
      unfold runPaxos
      rw [if_neg (by simp [hsync]), if_neg (by simpa using htid), if_neg (by simp [hprep]),
        if_pos hprep]
      unfold pollPrepare
      by_cases hmaj : majority ≤ s.prepareSuccesses
      · have hcond : s.conditionsNotMet c request.txn = true := by
          by_contra hno
          exact hproposes ⟨⟨hsync, htid⟩, hprep, hmaj, by simpa using hno⟩
        rw [if_pos hmaj, if_pos (by exact hcond)]
        rfl
      · rw [if_neg hmaj, if_pos (hdecision.resolve_left hmaj)]
        rfl
  | false =>
    cases hacc : s.awaitAcceptDecision with
    | true =>
      left
      have hdecision : majority ≤ s.acceptSuccesses ∨ majority ≤ s.acceptFailures :=
        hdecided .accept hacc
      by_cases hmaj : majority ≤ s.acceptSuccesses
      · rw [runPaxos_of_commits ⟨hown, hprep, hacc, hmaj⟩]
        rfl
      · rw [runPaxos_of_fails ⟨hown, hprep, hacc, hmaj, hdecision.resolve_left hmaj⟩]
        rfl
    | false =>
      right
      obtain ⟨hsync, htid⟩ := hown
      unfold runPaxos
      rw [if_neg (by simp [hsync]), if_neg (by simpa using htid), if_pos (by simp [hprep, hacc])]
      simp [stage, startRound, hprep, hacc]

/-- A call that ends by its deadline is at most counted as a failure. -/
theorem react_deadlineExceeded (fs : FileSystem) (q : Request) (response : Response) :
    (s.react c fs (.reply q .deadlineExceeded response)).sent = [] ∧
      (s.react c fs (.reply q .deadlineExceeded response)).server.stage = s.stage := by
  have hprepare : ∀ q res, (s.handlePrepareReply .deadlineExceeded q res).2 = [] ∧
      (s.handlePrepareReply .deadlineExceeded q res).1.stage = s.stage := by
    intro q res
    unfold handlePrepareReply
    simp only [reduceCtorEq, false_and, if_false, true_and]
    split_ifs <;> exact ⟨rfl, stage_congr rfl rfl⟩
  have haccept : ∀ q res, (s.handleAcceptReply .deadlineExceeded q res).stage = s.stage := by
    intro q res
    unfold handleAcceptReply
    simp only [reduceCtorEq, false_and, if_false, true_and]
    split_ifs <;> exact stage_congr rfl rfl
  cases q with
  | prepare q => cases response <;> exact hprepare q _
  | accept q => cases response <;> exact ⟨rfl, haccept q _⟩
  | sync q => cases response <;> exact ⟨rfl, stage_congr rfl rfl⟩
  | _ => exact ⟨rfl, rfl⟩

theorem handlePrepareReply_inSync (status : Status) (q : PrepareReq) (res : PrepareRes)
    (h : (s.handlePrepareReply status q res).1.inSync = true) :
    s.inSync = true ∨ ∃ o ∈ (s.handlePrepareReply status q res).2, ∃ q, o.request = .sync q := by
  revert h
  unfold handlePrepareReply
  cases res.ack <;> cases res.latestBallotNum <;> cases res.lastInserted <;> dsimp only <;>
    split_ifs <;> intro h <;> first | exact .inl h | exact .inr ⟨_, List.mem_singleton_self _, _, rfl⟩

theorem processPrepareCall_inSync (q : PrepareReq)
    (h : (s.processPrepareCall q).server.inSync = true) :
    s.inSync = true ∨ ∃ o ∈ (s.processPrepareCall q).sent, ∃ q, o.request = .sync q := by
  unfold processPrepareCall at h ⊢
  by_cases hconn : s.iAmDisconnected = true
  · rw [if_pos hconn] at h
    exact .inl h
  rw [if_neg hconn] at h ⊢
  by_cases hok : s.ballotNum < q.ballot.num ∧ q.lastInserted = s.lastInserted
  · rw [if_pos hok] at h
    exact .inl h
  · rw [if_neg hok] at h ⊢
    by_cases hbehind : s.ballotNum < q.ballot.num ∧ s.lastInserted < q.lastInserted
    · right
      simp [hbehind]
    · left
      simpa [hbehind] using h

theorem Acted.inSync (h : Acted c fs s input r) (hrequest : ∀ q, input ≠ .request (.prepare q))
    (hreply : ∀ q status response, input ≠ .reply (.prepare q) status response)
    (hsync : r.server.inSync = true) : s.inSync = true := by
  cases h with
  | refused q => exact absurd rfl (hrequest q)
  | prepareCounted q response => exact absurd rfl (hreply q .ok response)
  | synced => cases hsync
  | syncRefused => cases hsync
  | _ => exact hsync

/-- A server begins to synchronize with a Sync call, and the end of one is the end of it. -/
theorem react_inSync (input : Input) (h : (s.react c fs input).server.inSync = true) :
    (s.inSync = true ∧ ∀ q status response, input ≠ .reply (.sync q) status response) ∨
      ∃ o ∈ (s.react c fs input).sent, ∃ q, o.request = .sync q := by
  have hacted : Acted c fs s input (s.react c fs input) := react_acted input
  cases input with
  | request q =>
    cases q with
    | prepare q => exact (processPrepareCall_inSync q h).imp_left fun h => ⟨h, by simp⟩
    | _ => exact .inl ⟨hacted.inSync (by simp) (by simp) h, by simp⟩
  | reply q status response =>
    cases q with
    | prepare q =>
      have hreply : ∀ res, (s.handlePrepareReply status q res).1.inSync = true →
          (s.inSync = true ∧ ∀ q' status' response',
            Input.reply (.prepare q) status response ≠ .reply (.sync q') status' response') ∨
          ∃ o ∈ (s.handlePrepareReply status q res).2, ∃ q, o.request = .sync q :=
        fun res h => (handlePrepareReply_inSync status q res h).imp_left fun h => ⟨h, by simp⟩
      cases response <;> exact hreply _ h
    | sync q => cases response <;> cases h
    | _ => exact .inl ⟨hacted.inSync (by simp) (by simp) h, by simp⟩

/-- A poll that is answered ends the round. -/
theorem Acted.answered_poll (h : Acted c fs s input r) {q : Request} (hinput : input = .request q)
    (hpolled : q.polled = some request) (hres : r.response ≠ none) :
    r.server.isPaxosRunning = false := by
  cases h with
  | rejected => rfl
  | finished => rfl
  | committed => rfl
  | failed => rfl
  | opened => exact absurd rfl hres
  | accepting => exact absurd rfl hres
  | idle input response hplain =>
    obtain ⟨res, hsome⟩ := Option.ne_none_iff_exists'.mp hres
    cases hplain res hsome with
    | empty _ h =>
      rcases h with ⟨r, h⟩ | ⟨isCommit, r, h⟩
      · cases Input.request.inj (h.symm.trans hinput)
        cases hpolled
      · cases Input.request.inj (h.trans hinput)
        cases isCommit <;> cases hpolled
    | _ =>
      cases Input.request.inj hinput
      cases hpolled
  | decided isCommit =>
    cases Input.request.inj hinput
    cases isCommit <;> cases hpolled
  | prepareFailed | prepareCounted | acceptFailed | acceptCounted | synced | syncRefused =>
    cases hinput
  | _ =>
    cases Input.request.inj hinput
    cases hpolled

/-- A round that runs was running before, or the poll has begun it. -/
theorem Acted.running (h : Acted c fs s input r) (hrunning : r.server.isPaxosRunning = true) :
    (s.isPaxosRunning = true ∧ r.server.paxosTid = s.paxosTid) ∨
      ∃ q request, input = .request q ∧ q.polled = some request ∧
        request.tid = r.server.paxosTid := by
  cases h with
  | opened isCrossShard request => exact .inr ⟨_, request, rfl, Request.polled_poll _ _, rfl⟩
  | rejected => cases hrunning
  | finished => cases hrunning
  | committed => cases hrunning
  | failed => cases hrunning
  | _ => exact .inl ⟨hrunning, rfl⟩

/-! ### The ballot of a round -/

/-- What a phase sends carries the ballot that its replies are compared with. -/
theorem Acted.sent_current (h : Acted c fs s input r) {o : OutCall} (ho : o ∈ r.sent) {b : Ballot}
    (hb : ph.ballot o.request = some b) : b = ph.current r.server := by
  cases h with
  | opened =>
    rw [(mem_broadcast.mp ho).2] at hb
    cases ph <;> cases hb
    rfl
  | accepting =>
    rw [(mem_broadcast.mp ho).2] at hb
    cases ph <;> cases hb
    rfl
  | finished =>
    rw [(mem_broadcast.mp ho).2] at hb
    cases ph <;> cases hb
  | committed =>
    rw [(mem_broadcast.mp ho).2] at hb
    cases ph <;> cases hb
  | refused q inSync res sent hack hballot hlatest hsent =>
    rw [(hsent o ho).1] at hb
    cases ph <;> cases hb
  | prepareCounted q response ahead sent hprep hnum hid hsent =>
    rw [hsent o ho] at hb
    cases ph <;> cases hb
  | _ => cases ho

/-- A phase that goes on keeps its ballot, at a server that gets no Prepare and no Accept. -/
theorem Acted.current_kept (h : Acted c fs s input r) (hphases : s.Phases)
    (hprepare : ∀ q, input ≠ .request (.prepare q)) (haccept : ∀ q, input ≠ .request (.accept q))
    (hbefore : ph.awaits s = true) (hafter : ph.awaits r.server = true) :
    ph.current r.server = ph.current s := by
  cases h with
  | opened isCrossShard request hown hprep hacc =>
    cases ph with
    | prepare => cases hprep.symm.trans hbefore
    | accept => rfl
  | accepting isCrossShard request d hown hprep =>
    cases ph with
    | prepare => cases hafter
    | accept => cases (hphases.one hprep).symm.trans hbefore
  | promised q => exact absurd rfl (hprepare q)
  | accepted q => exact absurd rfl (haccept q)
  | _ => cases ph <;> rfl

/-- The ballot of a phase is one of the server itself. -/
theorem Acted.current_own (h : Acted c fs s input r)
    (hprepare : ∀ q, input ≠ .request (.prepare q)) (haccept : ∀ q, input ≠ .request (.accept q))
    (hs : ∀ ph : Phase, ph.awaits s = true → (ph.current s).serverId = s.serverId)
    (hafter : ph.awaits r.server = true) : (ph.current r.server).serverId = s.serverId := by
  have hkept : ∀ {t : Server}, (ph.awaits t = true → ph.awaits s = true) →
      ph.current t = ph.current s → ph.awaits t = true → (ph.current t).serverId = s.serverId := by
    intro t hawait hcurrent ht
    rw [hcurrent]
    exact hs ph (hawait ht)
  cases h with
  | opened isCrossShard request hown hprep hacc =>
    cases ph with
    | prepare => rfl
    | accept => exact hkept id rfl hafter
  | accepting isCrossShard request d hown hprep =>
    cases ph with
    | prepare => cases hafter
    | accept => exact hs .prepare hprep
  | promised q => exact absurd rfl (hprepare q)
  | accepted q => exact absurd rfl (haccept q)
  | rejected =>
    cases ph with
    | prepare => cases hafter
    | accept => exact hkept id rfl hafter
  | finished => cases ph <;> cases hafter
  | committed => cases ph <;> cases hafter
  | failed =>
    cases ph with
    | prepare => exact hkept id rfl hafter
    | accept => cases hafter
  | prepareCounted q response ahead sent hprep =>
    cases ph with
    | prepare => exact hs .prepare hprep
    | accept => exact hkept id rfl hafter
  | _ => cases ph <;> exact hkept id rfl hafter

end Server

/-- A prepare call of the client. -/
def Request.isTpcPrepare : Request → Bool
  | .tpcPrepare _ => true
  | _ => false

namespace Network

variable {c : Constants} {L : Leaders c} {book : ℤ → Request} {n n' : Network} {e : Event}
  {ph : Phase} {p : ℤ}

/-! ### The calls of a round -/

/-- When a phase begins, its calls are those that the handler has sent. -/
theorem latest_begins {r : Handled} {calls : List Call} (hr : Server.Begins ph (n.servers p) r)
    (hserver : n'.servers p = r.server) (hstubs : r.server.stubs = (n.servers p).stubs)
    (hcalls : n'.calls = calls ++ outCalls p r.sent) {j : ℕ} (hj : j ∈ n'.latest ph p) {call : Call}
    (hcall : n'.calls[j]? = some call) : call ∈ outCalls p r.sent := by
  obtain ⟨request, b, hb, hsent⟩ := hr.sent
  have hall : ∀ call ∈ outCalls p r.sent, call.isOf ph p = true := by
    intro call hmem
    obtain ⟨ho, hsrc, -⟩ := mem_outCalls.mp hmem
    rw [hsent] at ho
    have hrequest : call.request = request := (Server.mem_broadcast.mp ho).2
    simp [Call.isOf, hsrc, hrequest, hb]
  have hlen : (n'.servers p).stubs.length =
      ((outCalls p r.sent).findIdxs (Call.isOf ph p) (0 + calls.length)).length := by
    rw [List.length_findIdxs, List.countP_eq_length.mpr hall, hserver, hstubs, hsent]
    simp [outCalls, Server.broadcast]
  rw [latest, callsOf, hcalls, List.findIdxs_append, List.rtake, List.length_append, hlen,
    Nat.add_sub_cancel, List.drop_left] at hj
  obtain ⟨hlow, -⟩ := List.mem_findIdxs_iff_getElem_sub_pos.mp hj
  rw [Nat.zero_add] at hlow
  rw [hcalls, List.getElem?_append_right hlow] at hcall
  exact List.mem_of_getElem? hcall

/-- What an event is to a phase of a server: the phase is left alone, it goes on with the calls
that it has, or it begins with those that the handler sends. -/
inductive Pace (c : Constants) (n : Network) (e : Event) (n' : Network) (ph : Phase) (p : ℤ) : Prop
  | same (hserver : n'.servers p = n.servers p) (hlatest : n'.latest ph p = n.latest ph p)
  | goesOn (fs : FileSystem) (input : Input) (r : Handled) (hacts : Acts n e p fs input)
      (hr : (n.servers p).Acted c fs input r) (hserver : n'.servers p = r.server)
      (hgoes : Server.GoesOn ph (n.servers p) r) (hlatest : n'.latest ph p = n.latest ph p)
  | begins (fs : FileSystem) (input : Input) (r : Handled) (hacts : Acts n e p fs input)
      (hr : (n.servers p).Acted c fs input r) (hserver : n'.servers p = r.server)
      (hsent : ∀ j ∈ n'.latest ph p, ∀ call, n'.calls[j]? = some call →
        ⟨call.dst, call.request⟩ ∈ r.sent)

theorem latest_congr (hcalls : n'.callsOf ph p = n.callsOf ph p)
    (hstubs : (n'.servers p).stubs = (n.servers p).stubs) : n'.latest ph p = n.latest ph p := by
  rw [latest, latest, hcalls, hstubs]

theorem pace_of_handled {fs : FileSystem} {input : Input} {r : Handled} {i : ℕ} {b b' : Call}
    (hacts : Acts n e p fs input) (hr : (n.servers p).Acted c fs input r)
    (hserver : n'.servers p = r.server) (hcall : n.calls[i]? = some b)
    (hcalls : n'.calls = n.calls.set i b' ++ outCalls p r.sent) (hb : b'.isOf ph p = b.isOf ph p) :
    Pace c n e n' ph p := by
  have hstubs : r.server.stubs = (n.servers p).stubs := congrArg (fun x => x.2.2) hr.identity
  rcases hr.phase_cases ph with hbegins | hgoes
  · refine .begins fs input r hacts hr hserver fun j hj call hj' => ?_
    exact (mem_outCalls.mp (latest_begins hbegins hserver hstubs hcalls hj hj')).1
  · refine .goesOn fs input r hacts hr hserver hgoes (latest_congr ?_ (by rw [hserver, hstubs]))
    exact callsOf_set hcall hcalls hb (isOf_of_goesOn hgoes)

theorem Stepped.pace (h : Stepped c n e n') (ph : Phase) (p : ℤ) : Pace c n e n' ph p := by
  cases h with
  | called dst request =>
    refine .same rfl (latest_congr ?_ rfl)
    unfold callsOf
    rw [List.findIdxs_append]
    simp [Call.isOf]
  | ended i status fs call hcall hopen hsrc =>
    exact .same rfl (latest_congr (callsOf_set hcall (List.append_nil _).symm rfl (by simp)) rfl)
  | delivered i fs call r hcall hnew hr =>
    by_cases hdst : call.dst = p
    · subst hdst
      exact pace_of_handled (.deliver hcall hnew) hr (Function.update_self _ _ _) hcall rfl rfl
    · have hserver : Function.update n.servers call.dst r.server p = n.servers p :=
        Function.update_of_ne (Ne.symm hdst) _ _
      refine .same hserver (latest_congr ?_ (congrArg Server.stubs hserver))
      exact callsOf_set hcall rfl rfl (isOf_outCalls hdst r.sent)
  | completed i status fs call src r hcall hopen hsrc hr =>
    by_cases hp : src = p
    · subst hp
      exact pace_of_handled (.complete hcall hopen hsrc) hr (Function.update_self _ _ _) hcall rfl rfl
    · have hserver : Function.update n.servers src r.server p = n.servers p :=
        Function.update_of_ne (Ne.symm hp) _ _
      refine .same hserver (latest_congr ?_ (congrArg Server.stubs hserver))
      exact callsOf_set hcall rfl rfl (isOf_outCalls hp r.sent)

/-- The calls of a phase that is awaited carry the ballot that their replies are compared with,
a ballot of the server. -/
structure Current (ph : Phase) (n : Network) (p : ℤ) : Prop where
  own : ph.awaits (n.servers p) = true → (ph.current (n.servers p)).serverId = p
  calls : ph.awaits (n.servers p) = true → ∀ j ∈ n.latest ph p, ∀ call, n.calls[j]? = some call →
    ph.ballot call.request = some (ph.current (n.servers p))

theorem current_init (c : Constants) (disk : ℤ → Disk) (ph : Phase) (p : ℤ) :
    Current ph (init c disk) p := by
  have hawaits : ph.awaits ((init c disk).servers p) ≠ true := by cases ph <;> exact nofun
  exact ⟨fun ha => absurd ha hawaits, fun ha => absurd ha hawaits⟩

theorem Current.step (h : ∀ ph, Current ph n p) (hrouted : Routed c n) (hstep : Stepped c n e n')
    (hphases : (n.servers p).Phases)
    (hprepare : ∀ fs q, ¬ Acts n e p fs (.request (.prepare q)))
    (haccept : ∀ fs q, ¬ Acts n e p fs (.request (.accept q))) (ph : Phase) :
    Current ph n' p := by
  have hown : ∀ ph : Phase, ph.awaits (n.servers p) = true →
      (ph.current (n.servers p)).serverId = (n.servers p).serverId := by
    intro ph hawait
    rw [(h ph).own hawait, hrouted.serverId]
  have hcurrent : ∀ {fs : FileSystem} {input : Input} {r : Handled}, Acts n e p fs input →
      (n.servers p).Acted c fs input r → n'.servers p = r.server →
      ph.awaits (n'.servers p) = true → (ph.current (n'.servers p)).serverId = p := by
    intro fs input r hacts hr hserver hawait
    rw [hserver] at hawait ⊢
    rw [hr.current_own (fun q hq => hprepare fs q (hq ▸ hacts))
      (fun q hq => haccept fs q (hq ▸ hacts)) hown hawait, hrouted.serverId]
  have hold : ∀ j ∈ n.latest ph p, ∀ call, n'.calls[j]? = some call →
      ph.awaits (n.servers p) = true →
        ph.ballot call.request = some (ph.current (n.servers p)) := by
    intro j hj call hcall hawait
    obtain ⟨call', hcall', -⟩ := exists_of_mem_latest hj
    obtain ⟨call'', hcall'', hlater⟩ := hstep.later hcall'
    obtain rfl := Option.some.inj (hcall.symm.trans hcall'')
    rw [hlater.request]
    exact (h ph).calls hawait j hj call' hcall'
  cases hstep.pace ph p with
  | same hserver hlatest =>
    refine ⟨fun hawait => ?_, fun hawait j hj call hcall => ?_⟩ <;> rw [hserver] at hawait ⊢
    · exact (h ph).own hawait
    · exact hold j (hlatest ▸ hj) call hcall hawait
  | goesOn fs input r hacts hr hserver hgoes hlatest =>
    refine ⟨hcurrent hacts hr hserver, fun hawait j hj call hcall => ?_⟩
    rw [hlatest] at hj
    rw [hserver] at hawait ⊢
    have hbefore := (hgoes.kept hawait).1
    rw [hold j hj call hcall hbefore, hr.current_kept hphases (fun q hq => hprepare fs q (hq ▸ hacts))
      (fun q hq => haccept fs q (hq ▸ hacts)) hbefore hawait]
  | begins fs input r hacts hr hserver hsent =>
    refine ⟨hcurrent hacts hr hserver, fun hawait j hj call hcall => ?_⟩
    obtain ⟨call', hcall', hof⟩ := exists_of_mem_latest hj
    obtain rfl := Option.some.inj (hcall.symm.trans hcall')
    obtain ⟨b, hb⟩ := Option.isSome_iff_exists.mp (Bool.and_eq_true_iff.mp hof).2
    rw [hb, hserver, ← hr.sent_current (hsent j hj call hcall) hb]

/-- No call of a server ends with another error than its deadline, and no prepare call of the
client with any. -/
def Timely (n : Network) : Event → Prop
  | .complete i status _ => ∀ call ∈ n.calls[i]?,
      (call.src.isSome = true → status ≠ .otherError) ∧
        (call.request.isTpcPrepare = true → status = .ok)
  | _ => True

instance (n : Network) (e : Event) : Decidable (Timely n e) :=
  match e with
  | .call _ _ => inferInstanceAs (Decidable True)
  | .deliver _ _ => inferInstanceAs (Decidable True)
  | .complete i status _ => inferInstanceAs (Decidable (∀ call ∈ n.calls[i]?,
      (call.src.isSome = true → status ≠ .otherError) ∧
        (call.request.isTpcPrepare = true → status = .ok)))

/-- The ends of the calls of a round are counted. -/
theorem countsReplies_of_current (h : ∀ ph, Current ph n p) (htimely : Timely n e) :
    CountsReplies p n e := by
  cases e with
  | complete i status fs =>
    intro ph hi call hcall b hb hawait _
    have hof := isOf_of_mem_latest hcall hi
    have hsrc : call.src = some p := of_decide_eq_true (Bool.and_eq_true_iff.mp hof).1
    obtain rfl := Option.some.inj (((h ph).calls hawait i hi call hcall).symm.trans hb)
    exact ⟨(htimely call hcall).1 (by simp [hsrc]), rfl, (h ph).own hawait⟩
  | _ => trivial

/-! ### Calls under way -/

theorem mem_set_of_ne {calls : List Call} (b : Call) {i j : ℕ} {call : Call} (hij : i ≠ j)
    (hj : calls[j]? = some call) : call ∈ calls.set i b :=
  List.mem_of_getElem? ((List.getElem?_set_ne hij).trans hj)

/-- A call under way stays so, or the server that has sent it learns of its end. -/
theorem Stepped.underWay (h : Stepped c n e n') {call : Call} (hmem : call ∈ n.calls)
    (hopen : call.completed = false) (hsrc : call.src = some p) :
    (∃ call' ∈ n'.calls, Later call call' ∧ call'.completed = false) ∨
      ∃ fs status response, Acts n e p fs (.reply call.request status response) := by
  obtain ⟨j, hj⟩ := List.mem_iff_getElem?.mp hmem
  cases h with
  | called dst request => exact .inl ⟨call, List.mem_append_left _ hmem, .refl call, hopen⟩
  | delivered i fs b r hi hnew hr =>
    left
    by_cases hij : i = j
    · subst hij
      obtain rfl := Option.some.inj (hi.symm.trans hj)
      exact ⟨_, List.mem_append_left _ (List.mem_set (List.getElem?_eq_some_iff.mp hi).1 _),
        ⟨rfl, rfl, rfl, by simp [hnew], id⟩, hopen⟩
    · exact ⟨call, List.mem_append_left _ (mem_set_of_ne _ hij hj), .refl call, hopen⟩
  | ended i status fs b hi hopen' hsrc' =>
    have hij : i ≠ j := by
      rintro rfl
      rw [Option.some.inj (hi.symm.trans hj), hsrc] at hsrc'
      cases hsrc'
    exact .inl ⟨call, mem_set_of_ne _ hij hj, .refl call, hopen⟩
  | completed i status fs b src r hi hopen' hsrc' hr =>
    by_cases hij : i = j
    · subst hij
      obtain rfl := Option.some.inj (hi.symm.trans hj)
      obtain rfl := Option.some.inj (hsrc.symm.trans hsrc')
      exact .inr ⟨fs, status, _, .complete hi hopen' hsrc'⟩
    · exact .inl ⟨call, List.mem_append_left _ (mem_set_of_ne _ hij hj), .refl call, hopen⟩

/-- A call that is not answered stays so, or its server answers it. -/
theorem Stepped.unanswered (h : Stepped c n e n') {call : Call} (hmem : call ∈ n.calls)
    (hopen : call.response = none) :
    (∃ call' ∈ n'.calls, Later call call' ∧ call'.response = none) ∨
      ∃ fs r, Acts n e call.dst fs (.request call.request) ∧
        (n.servers call.dst).Acted c fs (.request call.request) r ∧
        n'.servers call.dst = r.server ∧ r.response ≠ none := by
  obtain ⟨j, hj⟩ := List.mem_iff_getElem?.mp hmem
  cases h with
  | called dst request => exact .inl ⟨call, List.mem_append_left _ hmem, .refl call, hopen⟩
  | delivered i fs b r hi hnew hr =>
    by_cases hij : i = j
    · subst hij
      obtain rfl := Option.some.inj (hi.symm.trans hj)
      by_cases hres : r.response = none
      · exact .inl ⟨_, List.mem_append_left _ (List.mem_set (List.getElem?_eq_some_iff.mp hi).1 _),
          ⟨rfl, rfl, rfl, by simp [hnew], id⟩, hres⟩
      · exact .inr ⟨fs, r, .deliver hi hnew, hr, Function.update_self _ _ _, hres⟩
    · exact .inl ⟨call, List.mem_append_left _ (mem_set_of_ne _ hij hj), .refl call, hopen⟩
  | ended i status fs b hi hopen' hsrc' =>
    left
    by_cases hij : i = j
    · subst hij
      obtain rfl := Option.some.inj (hi.symm.trans hj)
      exact ⟨_, List.mem_set (List.getElem?_eq_some_iff.mp hi).1 _,
        ⟨rfl, rfl, rfl, fun _ h => h, fun _ => rfl⟩, hopen⟩
    · exact ⟨call, mem_set_of_ne _ hij hj, .refl call, hopen⟩
  | completed i status fs b src r hi hopen' hsrc' hr =>
    left
    by_cases hij : i = j
    · subst hij
      obtain rfl := Option.some.inj (hi.symm.trans hj)
      exact ⟨_, List.mem_append_left _ (List.mem_set (List.getElem?_eq_some_iff.mp hi).1 _),
        ⟨rfl, rfl, rfl, fun _ h => h, fun _ => rfl⟩, hopen⟩
    · exact ⟨call, List.mem_append_left _ (mem_set_of_ne _ hij hj), .refl call, hopen⟩

/-- What the handler sends is under way. -/
theorem step_sends (h : step c n e = some n') {fs : FileSystem} {input : Input}
    (hacts : Acts n e p fs input) :
    outCalls p ((n.servers p).react c fs input).sent ⊆ n'.calls := by
  cases hacts with
  | deliver hcall hnew =>
    simp only [step, hcall, Option.bind_eq_bind, Option.bind_some, hnew, Option.isNone_none,
      if_true, Option.some.injEq] at h
    rw [← h]
    exact List.subset_append_right _ _
  | complete hcall hopen hsrc =>
    simp only [step, hcall, Option.bind_eq_bind, Option.bind_some, hopen, if_true, hsrc,
      Option.some.injEq] at h
    rw [← h]
    exact List.subset_append_right _ _

/-- A server that synchronizes has a Sync call under way. -/
def Syncing (n : Network) (p : ℤ) : Prop :=
  (n.servers p).inSync = true → ∃ call ∈ n.calls, call.src = some p ∧ call.completed = false ∧
    ∃ q, call.request = .sync q

/-- A server that runs a round has a poll of it that it has not answered. -/
def Polled (n : Network) (p : ℤ) : Prop :=
  (n.servers p).isPaxosRunning = true → ∃ call ∈ n.calls, call.dst = p ∧ call.response = none ∧
    ∃ r, call.request.polled = some r ∧ r.tid = (n.servers p).paxosTid

theorem Syncing.step (h : Syncing n p) (hs : step c n e = some n') : Syncing n' p := by
  intro hsync
  have hstep := step_stepped hs
  have hold : (n.servers p).inSync = true →
      (∀ fs q status response, ¬ Acts n e p fs (.reply (.sync q) status response)) →
        ∃ call ∈ n'.calls, call.src = some p ∧ call.completed = false ∧
          ∃ q, call.request = .sync q := by
    intro hbefore hno
    obtain ⟨call, hmem, hsrc, hopen, q, hrequest⟩ := h hbefore
    rcases hstep.underWay hmem hopen hsrc with ⟨call', hmem', hlater, hopen'⟩ | ⟨fs, status, res, hacts⟩
    · exact ⟨call', hmem', hlater.src.trans hsrc, hopen', q, hlater.request.trans hrequest⟩
    · rw [hrequest] at hacts
      exact absurd hacts (hno fs q status res)
  by_cases hact : ∃ fs input, Acts n e p fs input
  · obtain ⟨fs, input, hacts⟩ := hact
    rw [step_acts hs hacts, Function.update_self] at hsync
    rcases Server.react_inSync input hsync with ⟨hbefore, hno⟩ | ⟨o, ho, q, hq⟩
    · refine hold hbefore fun fs' q status response hacts' => ?_
      exact hno q status response (hacts.unique hacts').2
    · exact ⟨⟨some p, o.dst, o.request, none, false⟩,
        step_sends hs hacts (mem_outCalls.mpr ⟨ho, rfl, rfl, rfl⟩), rfl, rfl, q, hq⟩
  · refine hold ?_ fun fs q status response hacts => hact ⟨fs, _, hacts⟩
    cases hstep.changeAt p with
    | same hserver => rwa [hserver] at hsync
    | handled fs input r hacts => exact absurd ⟨fs, input, hacts⟩ hact

theorem Polled.step (h : Polled n p) (hstep : Stepped c n e n') : Polled n' p := by
  intro hrunning
  -- a poll that is answered would have ended the round
  have hkept : ∀ {call : Call} {r : TransferReq}, call ∈ n.calls → call.dst = p →
      call.response = none → call.request.polled = some r → r.tid = (n'.servers p).paxosTid →
        ∃ call' ∈ n'.calls, call'.dst = p ∧ call'.response = none ∧
          ∃ r, call'.request.polled = some r ∧ r.tid = (n'.servers p).paxosTid := by
    intro call r hmem hdst hopen hpolled htid
    rcases hstep.unanswered hmem hopen with
      ⟨call', hmem', hlater, hopen'⟩ | ⟨fs, r', hacts, hr, hserver, hres⟩
    · exact ⟨call', hmem', hlater.dst.trans hdst, hopen', r, by rw [hlater.request, hpolled], htid⟩
    · have hended := hr.answered_poll rfl hpolled hres
      rw [← hserver, hdst, hrunning] at hended
      cases hended
  have hold : (n.servers p).isPaxosRunning = true →
      (n'.servers p).paxosTid = (n.servers p).paxosTid →
        ∃ call ∈ n'.calls, call.dst = p ∧ call.response = none ∧
          ∃ r, call.request.polled = some r ∧ r.tid = (n'.servers p).paxosTid := by
    intro hbefore hsame
    obtain ⟨call, hmem, hdst, hopen, r, hpolled, htid⟩ := h hbefore
    exact hkept hmem hdst hopen hpolled (htid.trans hsame.symm)
  cases hstep.changeAt p with
  | same hserver => exact hold (by rwa [hserver] at hrunning) (by rw [hserver])
  | handled fs input r hacts hr hserver =>
    rw [hserver] at hrunning
    rcases hr.running hrunning with ⟨hbefore, hsame⟩ | ⟨q, request, rfl, hpolled, htid⟩
    · exact hold hbefore (by rw [hserver, hsame])
    · obtain ⟨call, hmem, hdst, hopen, rfl⟩ : ∃ call ∈ n.calls, call.dst = p ∧
          call.response = none ∧ call.request = q := by
        cases hacts with
        | deliver hcall hnew => exact ⟨_, List.mem_of_getElem? hcall, rfl, hnew, rfl⟩
      exact hkept hmem hdst hopen hpolled (htid.trans (by rw [hserver]))

/-! ### The invariant -/

/-- Whoever waits has a call to wait for. -/
structure Paced (L : Leaders c) (n : Network) : Prop where
  proposals : ∀ p dst q, n.Sent (some p) dst (.prepare q) → L.Leads p
  current : ∀ p, L.Leads p → ∀ ph, Current ph n p
  counted : ∀ p, L.Leads p → ∀ ph, Counted ph n p
  syncing : ∀ p, Syncing n p
  polled : ∀ p, Polled n p

theorem paced_init (L : Leaders c) (disk : ℤ → Disk) : Paced L (init c disk) where
  proposals := by
    rintro p dst q ⟨call, hmem, -⟩
    cases hmem
  current := fun p _ ph => current_init c disk ph p
  counted := fun p _ ph => counted_init c disk ph p
  syncing := by
    intro p hsync
    cases hsync
  polled := by
    intro p hrunning
    cases hrunning

theorem Paced.step (h : Paced L n) (hled : SoleLed c L book n) (hfits : Fits c L book n)
    (hprov : Provenance c n) (hs : step c n e = some n') (htimely : Timely n e) : Paced L n' := by
  have hstep := step_stepped hs
  constructor
  · intro p dst q hsent
    rcases hstep.sent_before hsent with hsent | ⟨fs, input, r, hacts, hr, -, ho⟩
    · exact h.proposals p dst q hsent
    · obtain ⟨-, x, request, hinput, -⟩ := hr.sent_prepare ho
      exact (hfits.poll hprov hacts x hinput).2
  · intro p hleads
    refine Current.step (h.current p hleads) hprov.routed hstep (hled.lone p hleads).phases ?_ ?_
    · intro fs q hacts
      obtain ⟨src, hsent⟩ := hacts.request_sent
      obtain ⟨rfl, hpeer⟩ := hprov.routed.prepare hsent
      exact SoleLed.not_peer hleads (h.proposals _ p q hsent) hpeer
    · intro fs q hacts
      obtain ⟨src, hsent⟩ := hacts.request_sent
      obtain ⟨p', rfl, hpeer⟩ := hprov.routed.accept hsent
      exact SoleLed.not_peer hleads (hled.proposals p' p q hsent) hpeer
  · intro p hleads ph
    exact (h.counted p hleads ph).step hprov.routed hs
      (countsReplies_of_current (h.current p hleads) htimely)
  · exact fun p => (h.syncing p).step hs
  · exact fun p => (h.polled p).step hstep

/-- In a cluster of at least three, a round all of whose calls have ended is decided. -/
theorem Paced.decided (h : Paced L n) (hrouted : Routed c n) (hsize : 3 ≤ c.clusterSize)
    (hleads : L.Leads p) (hp : 1 ≤ p ∧ p ≤ c.numClusters * c.clusterSize)
    (hended : ∀ call ∈ n.calls, call.src = some p → call.completed = true)
    (hawait : ph.awaits (n.servers p) = true) : ph.Decided (n.servers p) := by
  by_contra hundecided
  have hcounted := h.counted p hleads ph
  have hall : ∀ j ∈ n.latest ph p, n.ended j = true := by
    intro j hj
    obtain ⟨call, hcall, hof⟩ := exists_of_mem_latest hj
    have hsrc : call.src = some p := of_decide_eq_true (Bool.and_eq_true_iff.mp hof).1
    rw [ended, hcall, Option.any_some, hended call (List.mem_of_getElem? hcall) hsrc]
  have hlength : (n.latest ph p).length + 1 = c.clusterSize := by
    have hpeers := c.length_peers hp
    rw [hcounted.length hawait, hrouted.stubs p]
    omega
  have hcount := hcounted.ends hawait hundecided
  rw [List.countP_eq_length.mpr hall] at hcount
  unfold Phase.Decided Server.majority at hundecided
  omega

end Network

namespace System

variable {c : Constants} {L : Leaders c}

/-- What the client sends is no call of a server. -/
theorem paced_send {n : Network} (calls : List OutCall) (h : Network.Paced L n) :
    Network.Paced L (send n calls) := by
  have hcalls : ∀ ph p, (send n calls).callsOf ph p = n.callsOf ph p := by
    intro ph p
    unfold Network.callsOf send
    rw [List.findIdxs_append, List.append_right_eq_self, List.findIdxs_eq_nil_iff]
    rintro call hmem
    obtain ⟨o, -, rfl⟩ := List.mem_map.mp hmem
    rfl
  have hlatest : ∀ ph p, (send n calls).latest ph p = n.latest ph p :=
    fun ph p => Network.latest_congr (hcalls ph p) rfl
  have hget : ∀ {ph p j}, j ∈ n.latest ph p → (send n calls).calls[j]? = n.calls[j]? := by
    intro ph p j hj
    obtain ⟨call, hcall, -⟩ := Network.exists_of_mem_latest hj
    exact List.getElem?_append_left (List.getElem?_eq_some_iff.mp hcall).1
  constructor
  · rintro p dst q ⟨call, hmem, hsrc, hcall⟩
    rcases List.mem_append.mp hmem with hold | hnew
    · exact h.proposals p dst q ⟨call, hold, hsrc, hcall⟩
    · obtain ⟨o, -, rfl⟩ := List.mem_map.mp hnew
      cases hsrc
  · intro p hleads ph
    refine ⟨(h.current p hleads ph).own, fun hawait j hj call hcall => ?_⟩
    rw [hlatest] at hj
    exact (h.current p hleads ph).calls hawait j hj call ((hget hj).symm.trans hcall)
  · intro p hleads ph
    refine (h.counted p hleads ph).quiet rfl (hcalls ph p) fun j hj => ?_
    unfold Network.ended
    rw [hget hj]
  · intro p hsync
    obtain ⟨call, hmem, hcall⟩ := h.syncing p hsync
    exact ⟨call, List.mem_append_left _ hmem, hcall⟩
  · intro p hrunning
    obtain ⟨call, hmem, hcall⟩ := h.polled p hrunning
    exact ⟨call, List.mem_append_left _ hmem, hcall⟩

end System
end TpcBank
