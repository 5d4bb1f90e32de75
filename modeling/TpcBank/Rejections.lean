import TpcBank.Quorums

/-! What becomes of the transfers that were answered: a COMMITTED entry goes back to a poll
that answered `ack = true`, or to a 2PC decision. -/
namespace TpcBank
open Transition

namespace Server

/-- A poll commits only while `accept_num` is still its own ballot. -/
def CommitsOwn (s : Server) (_ : FileSystem) : Input → Prop
  | .request r => ∀ request ∈ r.polled, s.Commits request → s.acceptNum.serverId = s.serverId
  | _ => True

instance (s : Server) (fs : FileSystem) (input : Input) : Decidable (s.CommitsOwn fs input) := by
  refine Input.decidable (fun r => ?_) (fun r status response => isTrue trivial) input
  dsimp only [CommitsOwn]
  infer_instance

variable {c : Constants} {fs : FileSystem} {s : Server} {input : Input} {r : Handled}

theorem Acted.sent_commit (h : Acted c fs s input r) {dst : ℤ} {q : CommitReq}
    (ho : ⟨dst, .commit q⟩ ∈ r.sent) :
    ∃ isCrossShard request, input = .request (.poll isCrossShard request) ∧ s.Commits request ∧
      dst ∈ s.stubs ∧ q = ⟨s.acceptNum⟩ ∧ r.response = transferRes true request.tid := by
  cases h with
  | finished request hown hprep hacc hmaj =>
    obtain ⟨hdst, hrequest⟩ := mem_broadcast.mp ho
    simp only [Request.commit.injEq] at hrequest
    exact ⟨true, request, rfl, ⟨hown, hprep, hacc, hmaj⟩, hdst, hrequest, rfl⟩
  | committed request d hown hprep hacc hmaj =>
    obtain ⟨hdst, hrequest⟩ := mem_broadcast.mp ho
    simp only [Request.commit.injEq] at hrequest
    exact ⟨false, request, rfl, ⟨hown, hprep, hacc, hmaj⟩, hdst, hrequest, rfl⟩
  | refused request inSync res sent hack hballot hlatest hsent => cases (hsent _ ho).1
  | prepareCounted request response ahead sent hprep hnum hid hsent => cases hsent _ ho
  | opened => simp [startRound, mem_broadcast] at ho
  | accepting => simp [mem_broadcast] at ho
  | _ => simp at ho

/-- Where the accepted ballot and request come from. -/
theorem Acted.accept_cases (h : Acted c fs s input r) :
    (r.server.acceptNum = s.acceptNum ∧ r.server.acceptVal = s.acceptVal) ∨
      (r.sent = s.broadcast (.accept ⟨r.server.acceptNum, r.server.acceptVal⟩) ∧
        r.server.acceptNum = s.promisedNum) ∨
      input = .request (.accept ⟨r.server.acceptNum, r.server.acceptVal⟩) := by
  cases h with
  | accepting isCrossShard request d hown hprep hmaj hcond =>
    exact .inr (.inl ⟨rfl, rfl⟩)
  | accepted request => exact .inr (.inr rfl)
  | _ => exact .inl ⟨rfl, rfl⟩

/-- A server that awaits accept replies did so before for the same round, has just proposed,
or has just accepted the proposal of a peer. -/
theorem Acted.awaitAccept_cases (h : Acted c fs s input r) (hs : s.Phases)
    (hafter : r.server.awaitAcceptDecision = true) :
    (s.awaitAcceptDecision = true ∧ r.server.acceptNum = s.acceptNum ∧
        r.server.acceptVal = s.acceptVal ∧ r.server.paxosTid = s.paxosTid) ∨
      (s.Proposes c r.server.acceptVal ∧ r.server.paxosTid = s.paxosTid ∧
        r.sent = s.broadcast (.accept ⟨r.server.acceptNum, r.server.acceptVal⟩)) ∨
      input = .request (.accept ⟨r.server.acceptNum, r.server.acceptVal⟩) := by
  cases h with
  | accepting isCrossShard request d hown hprep hmaj hcond =>
    exact .inr (.inl ⟨⟨hown, hprep, hmaj, hcond⟩, rfl, rfl⟩)
  | accepted request => exact .inr (.inr rfl)
  | opened isCrossShard request hown hprep hacc =>
    have hafter : s.awaitAcceptDecision = true := hafter
    rw [hacc] at hafter
    cases hafter
  | rejected isCrossShard request hown hprep =>
    have hafter : s.awaitAcceptDecision = true := hafter
    rw [hs.one hprep] at hafter
    cases hafter
  | finished => cases hafter
  | committed => cases hafter
  | failed => cases hafter
  | _ => exact .inl ⟨hafter, rfl, rfl, rfl⟩

end Server

/-- The tid of a Transfer. -/
def Request.transferTid : Request → Option ℤ
  | .transfer r => some r.tid
  | _ => none

/-- The tid that a request of the client names. -/
def Request.namedTid : Request → Option ℤ
  | .transfer r | .tpcPrepare r => some r.tid
  | .tpcCommit r | .tpcAbort r => some r.tid
  | _ => none

namespace Network

/-- A poll for a tid was answered with `ack = true`. -/
def AnsweredYes (n : Network) (tid : ℤ) : Prop :=
  ∃ src dst isCrossShard request, request.tid = tid ∧
    n.Answered src dst (.poll isCrossShard request) (.transfer ⟨true, tid⟩)

/-- The client sent a commit decision for a tid. -/
def CommitSent (n : Network) (tid : ℤ) : Prop :=
  ∃ src dst, n.Sent src dst (.tpcCommit ⟨tid⟩)

/-- A tid that may be COMMITTED somewhere. -/
def Committable (n : Network) (tid : ℤ) : Prop :=
  n.AnsweredYes tid ∨ n.CommitSent tid

/-- What is accounted for of the accept phases and of the committed entries. -/
structure Accounted (c : Constants) (n : Network) : Prop where
  proposals : Proposals c n
  indexed : ∀ x, (n.servers x).wal.Indexed
  phases : ∀ p, (n.servers p).Phases
  own : ∀ p, (n.servers p).awaitAcceptDecision = true → (n.servers p).acceptNum.serverId = p →
    (n.servers p).acceptVal.tid = (n.servers p).paxosTid ∧
      ∀ y ∈ c.peers p, n.Sent (some p) y
        (.accept ⟨(n.servers p).acceptNum, (n.servers p).acceptVal⟩)
  held : ∀ x, (n.servers x).acceptNum.num = 0 ∨
    (∀ y ∈ c.peers x, n.Sent (some x) y
      (.accept ⟨(n.servers x).acceptNum, (n.servers x).acceptVal⟩)) ∨
    ∃ p, n.Sent (some p) x (.accept ⟨(n.servers x).acceptNum, (n.servers x).acceptVal⟩)
  commits : ∀ p dst q, n.Sent (some p) dst (.commit q) →
    ∃ v, n.Sent (some p) dst (.accept ⟨q.ballot, v⟩) ∧ n.AnsweredYes v.tid
  logs : ∀ x, ∀ e ∈ (n.servers x).log, e.status = .committed → n.Committable e.tid
  syncs : ∀ src dst q res, n.Answered src dst (.sync q) (.sync res) →
    ∀ e ∈ res.logs, (Server.fromLogEntry e).status = .committed → n.Committable e.tid

variable {c : Constants} {n n' : Network} {e : Event}

theorem Committable.step {tid : ℤ} (h : n.Committable tid) (hstep : Stepped c n e n') :
    n'.Committable tid := by
  rcases h with ⟨src, dst, x, request, htid, hans⟩ | ⟨src, dst, hsent⟩
  · exact .inl ⟨src, dst, x, request, htid, hans.step hstep⟩
  · exact .inr ⟨src, dst, hsent.step hstep⟩

theorem AnsweredYes.step {tid : ℤ} (h : n.AnsweredYes tid) (hstep : Stepped c n e n') :
    n'.AnsweredYes tid := by
  obtain ⟨src, dst, x, request, htid, hans⟩ := h
  exact ⟨src, dst, x, request, htid, hans.step hstep⟩

theorem accounted_init (c : Constants) (disk : ℤ → Disk) : Accounted c (init c disk) where
  proposals := proposals_init c disk
  indexed := by
    intro x tid position h
    cases h
  phases := fun _ => ⟨nofun, nofun, nofun⟩
  own := by
    intro p h
    cases h
  held := fun x => .inl rfl
  commits := by
    rintro p dst q ⟨call, hmem, -⟩
    cases hmem
  logs := by
    intro x e he
    cases he
  syncs := by
    rintro src dst q res ⟨call, hmem, -⟩
    cases hmem

/-- The handlers that apply a transfer only when its poll is answered with `ack = true`. -/
def SettlesOwn (c : Constants) (s : Server) (fs : FileSystem) (input : Input) : Prop :=
  OneRound c s fs input ∧ s.CommitsOwn fs input

namespace Accounted

variable {fs : FileSystem} {input : Input} {r : Handled} {p : ℤ}

/-- The own round of a server after one of its handlers. -/
theorem own_handled (h : Accounted c n) (hstep : Stepped c n e n') (hacts : Acts n e p fs input)
    (hr : (n.servers p).Acted c fs input r)
    (hsends : ∀ o ∈ r.sent, n'.Sent (some p) o.dst o.request)
    (hawait : r.server.awaitAcceptDecision = true) (hself : r.server.acceptNum.serverId = p) :
    r.server.acceptVal.tid = r.server.paxosTid ∧
      ∀ y ∈ c.peers p, n'.Sent (some p) y (.accept ⟨r.server.acceptNum, r.server.acceptVal⟩) := by
  have hrouted := h.proposals.routed
  rcases hr.awaitAccept_cases (h.phases p) hawait with ⟨hbefore, hnum, hval, htid⟩ |
    ⟨hproposes, htid, hsent⟩ | rfl
  · rw [hnum] at hself
    obtain ⟨hown, hpeers⟩ := h.own p hbefore hself
    rw [hnum, hval, htid]
    exact ⟨hown, fun y hy => (hpeers y hy).step hstep⟩
  · obtain ⟨hown, hprep, -⟩ := hproposes
    refine ⟨?_, fun y hy => ?_⟩
    · rw [htid]
      exact (hown.2 ((h.phases p).prepare hprep)).symm
    · refine hsends ⟨y, _⟩ ?_
      rw [hsent, Server.mem_broadcast, hrouted.stubs p]
      exact ⟨hy, rfl⟩
  · -- an Accept of a peer has a ballot of the peer
    obtain ⟨src, hs⟩ := hacts.request_sent
    obtain ⟨p', rfl, hpeer⟩ := hrouted.accept hs
    have hballot := ((h.proposals.proposing p').own p _ hs).1
    obtain rfl : p' = p := hballot.symm.trans hself
    exact absurd rfl (Constants.mem_peers.mp hpeer).2.1

/-- The accepted request of a server after one of its handlers. -/
theorem held_handled (h : Accounted c n) (hstep : Stepped c n e n') (hacts : Acts n e p fs input)
    (hr : (n.servers p).Acted c fs input r)
    (hsends : ∀ o ∈ r.sent, n'.Sent (some p) o.dst o.request) :
    r.server.acceptNum.num = 0 ∨
      (∀ y ∈ c.peers p, n'.Sent (some p) y (.accept ⟨r.server.acceptNum, r.server.acceptVal⟩)) ∨
      ∃ p', n'.Sent (some p') p (.accept ⟨r.server.acceptNum, r.server.acceptVal⟩) := by
  have hrouted := h.proposals.routed
  rcases hr.accept_cases with ⟨hnum, hval⟩ | ⟨hsent, -⟩ | rfl
  · rw [hnum, hval]
    rcases h.held p with hzero | hpeers | ⟨p', hs⟩
    · exact .inl hzero
    · exact .inr (.inl fun y hy => (hpeers y hy).step hstep)
    · exact .inr (.inr ⟨p', hs.step hstep⟩)
  · refine .inr (.inl fun y hy => hsends ⟨y, _⟩ ?_)
    rw [hsent, Server.mem_broadcast, hrouted.stubs p]
    exact ⟨hy, rfl⟩
  · obtain ⟨src, hs⟩ := hacts.request_sent
    obtain ⟨p', rfl, -⟩ := hrouted.accept hs
    exact .inr (.inr ⟨p', hs.step hstep⟩)

/-- A Commit that a server sends is for the request whose poll it answers. -/
theorem commits_handled (h : Accounted c n) (hstep : Stepped c n e n') (hacts : Acts n e p fs input)
    (hr : (n.servers p).Acted c fs input r) (hown : (n.servers p).CommitsOwn fs input)
    (hanswers : ∀ request response, input = .request request → r.response = some response →
      ∃ src, n'.Answered src p request response) {dst : ℤ} {q : CommitReq}
    (ho : ⟨dst, .commit q⟩ ∈ r.sent) :
    ∃ v, n'.Sent (some p) dst (.accept ⟨q.ballot, v⟩) ∧ n'.AnsweredYes v.tid := by
  have hrouted := h.proposals.routed
  obtain ⟨x, request, rfl, hcommits, hdst, rfl, hresponse⟩ := hr.sent_commit ho
  have hself := hown request (by simp) hcommits
  rw [hrouted.serverId p] at hself
  obtain ⟨howns, -, hacc, -⟩ := hcommits
  obtain ⟨htid, hpeers⟩ := h.own p hacc hself
  rw [hrouted.stubs p] at hdst
  refine ⟨_, (hpeers dst hdst).step hstep, ?_⟩
  have hrequest : request.tid = (n.servers p).acceptVal.tid := by
    rw [htid, howns.2 ((h.phases p).accept hacc)]
  obtain ⟨src, hans⟩ := hanswers _ _ rfl hresponse
  rw [← hrequest]
  exact ⟨src, p, x, request, rfl, hans⟩

/-- A Commit that releases a request was sent for that request. -/
theorem released_answered (h : Accounted c n) (hsize : c.clusterSize = 3) {src : Option ℤ}
    {q : CommitReq} (hs : n.Sent src p (.commit q))
    (hreleases : (n.servers p).Releases q) : n.AnsweredYes (n.servers p).acceptVal.tid := by
  have hrouted := h.proposals.routed
  obtain ⟨p', rfl, hpeer⟩ := hrouted.commit hs
  obtain ⟨v, hv, hyes⟩ := h.commits p' p q hs
  have hpos : 0 < q.ballot.num := by
    obtain ⟨peer, -, hpromised, -⟩ := h.proposals.quorum hv
    exact ((h.proposals.promising p').bound _ hpromised).1
  have hcluster := (Constants.mem_peers.mp hpeer).2.2
  have hheld : ∃ a b, n.Sent (some a) b
      (.accept ⟨(n.servers p).acceptNum, (n.servers p).acceptVal⟩) ∧
      c.getClusterIdFromServerId a = c.getClusterIdFromServerId p := by
    rcases h.held p with hzero | hpeers | ⟨a, ha⟩
    · rw [← hreleases.2.2, hzero] at hpos
      exact absurd hpos (lt_irrefl _)
    · exact ⟨p, p', hpeers p' (Constants.mem_peers_symm hpeer), rfl⟩
    · obtain ⟨a', ha', hpeer'⟩ := hrouted.accept ha
      cases ha'
      exact ⟨a, p, ha, (Constants.mem_peers.mp hpeer').2.2.symm⟩
  obtain ⟨a, b, hab, hcluster'⟩ := hheld
  have hsame := (h.proposals.unique hsize (hcluster'.trans hcluster) hab hv hreleases.2.2).2
  rw [AcceptReq.mk.injEq] at hsame
  rw [hsame.2]
  exact hyes

/-- The committed entries that a handler appends are accounted for. -/
theorem logs_handled (h : Accounted c n) (hsize : c.clusterSize = 3) (hstep : Stepped c n e n')
    (hacts : Acts n e p fs input) {response : Option Response} {log : List WALEntry}
    {pending : ℤ → Option WALEntry} (heffect : (n.servers p).LogEffect c input response log pending)
    (hanswers : ∀ request res, input = .request request → response = some res →
      ∃ src, n'.Answered src p request res) {e : WALEntry} (he : e ∈ log)
    (hstatus : e.status = .committed) : n'.Committable e.tid := by
  have hold : ∀ e ∈ (n.servers p).log, e.status = .committed → n'.Committable e.tid :=
    fun e he hstatus => (h.logs p e he hstatus).step hstep
  have happend : ∀ {new : List WALEntry},
      (∀ e ∈ new, e.status = .committed → n'.Committable e.tid) →
        ∀ e ∈ (n.servers p).log ++ new, e.status = .committed → n'.Committable e.tid :=
    fun hnew => List.forall_mem_append.mpr ⟨hold, hnew⟩
  revert e
  cases heffect with
  | kept =>
    intro e
    exact hold e
  | leaderPrepared request hproposes =>
    apply happend
    intro e he hstatus
    obtain rfl := List.mem_singleton.mp he
    cases hstatus
  | followerPrepared request response hconn hprom hnum hone =>
    apply happend
    intro e he hstatus
    obtain rfl := List.mem_singleton.mp he
    cases hstatus
  | leaderCommitted request hcommits =>
    apply happend
    intro e he _
    obtain rfl := List.mem_singleton.mp he
    obtain ⟨src, hans⟩ := hanswers _ _ rfl rfl
    exact .inl ⟨src, p, false, request, rfl, hans⟩
  | followerCommitted request response hreleases htwo =>
    apply happend
    intro e he _
    obtain rfl := List.mem_singleton.mp he
    obtain ⟨src, hs⟩ := hacts.request_sent
    exact .inl ((h.released_answered hsize hs hreleases).step hstep)
  | decided isCommit request e' response hconn hpending htid htype =>
    split_ifs
    · apply happend
      intro e he hstatus
      obtain rfl := List.mem_singleton.mp he
      obtain ⟨src, hs⟩ := hacts.request_sent
      cases isCommit with
      | false => cases hstatus
      | true =>
        refine .inr ⟨src, p, ?_⟩
        have hs := hs.step hstep
        rw [show (⟨e'.tid⟩ : TpcTid) = request by rw [htid]]
        exact hs
    · exact hold _
  | synced request res hack =>
    apply happend
    intro e he hstatus
    obtain ⟨entry, hentry, rfl⟩ := List.mem_map.mp he
    obtain ⟨dst, ha⟩ := hacts.reply_answered
    exact (h.syncs _ _ _ _ ha entry hentry hstatus).step hstep

theorem step (h : Accounted c n) (hsize : c.clusterSize = 3) (hstep : Stepped c n e n')
    (hworking : e.working) (hguard : Each (SettlesOwn c) n e) : Accounted c n' := by
  have hproposals := h.proposals.step hstep (hguard.mono fun _ _ _ hg => hg.1)
  have hphases := hstep.server_invariant (I := fun _ s => s.Phases) h.phases
    fun id _ _ _ _ hr => hr.phases (h.phases id)
  have hindexed := hstep.server_invariant (I := fun _ s => s.wal.Indexed) h.indexed
    fun id _ _ _ hacts hr => (hr.effect.logEffect (hacts.working hworking) (h.indexed id)).1
  refine ⟨hproposals, hindexed, hphases, ?_, ?_, ?_, ?_, ?_⟩
  · intro p hawait hself
    cases hstep.changeAt p with
    | same hserver =>
      rw [hserver] at hawait hself ⊢
      obtain ⟨hown, hpeers⟩ := h.own p hawait hself
      exact ⟨hown, fun y hy => (hpeers y hy).step hstep⟩
    | handled fs input r hacts hr hserver hsent hans hsends =>
      rw [hserver] at hawait hself ⊢
      exact h.own_handled hstep hacts hr hsends hawait hself
  · intro x
    cases hstep.changeAt x with
    | same hserver =>
      rw [hserver]
      rcases h.held x with hzero | hpeers | ⟨p, hs⟩
      · exact .inl hzero
      · exact .inr (.inl fun y hy => (hpeers y hy).step hstep)
      · exact .inr (.inr ⟨p, hs.step hstep⟩)
    | handled fs input r hacts hr hserver hsent hans hsends =>
      rw [hserver]
      exact h.held_handled hstep hacts hr hsends
  · intro p dst q hs
    have hold : n.Sent (some p) dst (.commit q) →
        ∃ v, n'.Sent (some p) dst (.accept ⟨q.ballot, v⟩) ∧ n'.AnsweredYes v.tid := by
      intro hs
      obtain ⟨v, hv, hyes⟩ := h.commits p dst q hs
      exact ⟨v, hv.step hstep, hyes.step hstep⟩
    cases hstep.changeAt p with
    | same hserver hsent => exact hold (hsent _ _ hs)
    | handled fs input r hacts hr hserver hsent hans hsends hanswers =>
      rcases hsent _ _ hs with hs | ho
      · exact hold hs
      · exact h.commits_handled hstep hacts hr (hguard.acts hacts).2 hanswers ho
  · intro x e' he hstatus
    cases hstep.changeAt x with
    | same hserver =>
      rw [hserver] at he
      exact (h.logs x e' he hstatus).step hstep
    | handled fs input r hacts hr hserver hsent hans hsends hanswers =>
      rw [hserver] at he
      exact h.logs_handled hsize hstep hacts
        (hr.effect.logEffect (hacts.working hworking) (h.indexed x)).2 hanswers he hstatus
  · intro src dst q res ha e' he hstatus
    rcases hstep.answered_before ha with hold | ⟨fs, r, hacts, hr, -, -, hres⟩
    · exact (h.syncs src dst q res hold e' he hstatus).step hstep
    · have hsync := hr.response_sync rfl hres
      simp only [Response.sync.injEq] at hsync
      rw [hsync] at he
      exact (h.logs dst _ (Server.mem_processSyncCall he) hstatus).step hstep

end Accounted

/-! ### Distinct tids -/

/-- A Transfer names a tid that no other request names. -/
def DistinctTransfers (n : Network) : Event → Prop
  | .call _ request => ∀ call ∈ n.calls,
      (∀ tid ∈ request.transferTid, call.request.namedTid ≠ some tid) ∧
        ∀ tid ∈ call.request.transferTid, request.namedTid ≠ some tid
  | _ => True

instance (n : Network) (e : Event) : Decidable (DistinctTransfers n e) := by
  exact e.casesOn (motive := fun e => Decidable (DistinctTransfers n e))
    (fun dst request => inferInstanceAs (Decidable (∀ call ∈ n.calls, _)))
    (fun _ _ => isTrue trivial) fun _ _ _ => isTrue trivial

/-- The call of a Transfer is the only one that names its tid. -/
def TransferUnique (n : Network) : Prop :=
  ∀ (i j : ℕ) (a b : Call) (tid : ℤ), n.calls[i]? = some a → n.calls[j]? = some b →
    a.request.transferTid = some tid → b.request.namedTid = some tid → i = j

theorem namedTid_of_transferTid {request : Request} {tid : ℤ}
    (h : request.transferTid = some tid) : request.namedTid = some tid := by
  cases request <;> first | exact h | cases h

theorem namedTid_of_not_fromClient {request : Request} (h : request.fromClient = false) :
    request.namedTid = none := by
  cases request <;> first | rfl | cases h

theorem TransferUnique.step (h : TransferUnique n) (hstep : Stepped c n e n')
    (hdistinct : DistinctTransfers n e) : TransferUnique n' := by
  intro i j a' b' tid ha' hb' hatid hbtid
  have hserver : ∀ {call : Call}, call.request.fromClient = false →
      call.request.namedTid ≠ some tid := by
    intro call hcall hname
    rw [namedTid_of_not_fromClient hcall] at hname
    cases hname
  rcases hstep.earlier ha' with ⟨a, ha, hlater⟩ | ⟨dst, request, rfl, rfl, rfl⟩ | ⟨-, hsent⟩
  · rw [hlater.request] at hatid
    rcases hstep.earlier hb' with ⟨b, hb, hlater'⟩ | ⟨dst, request, rfl, rfl, rfl⟩ | ⟨-, hsent⟩
    · rw [hlater'.request] at hbtid
      exact h i j a b tid ha hb hatid hbtid
    · exact absurd hbtid ((hdistinct a (List.mem_of_getElem? ha)).2 tid hatid)
    · exact absurd hbtid (hserver hsent)
  · rcases hstep.earlier hb' with ⟨b, hb, hlater'⟩ | ⟨dst', request', -, rfl, -⟩ | ⟨-, hsent⟩
    · rw [hlater'.request] at hbtid
      exact absurd hbtid ((hdistinct b (List.mem_of_getElem? hb)).1 tid hatid)
    · rfl
    · exact absurd hbtid (hserver hsent)
  · exact absurd (namedTid_of_transferTid hatid) (hserver hsent)

/-- A Transfer answered with `ack = false` is COMMITTED in no log. As logs only grow, it was
not there before the answer either. -/
def RejectedNeverApplied (n : Network) : Prop :=
  ∀ src dst r, n.Answered src dst (.transfer r) (.transfer ⟨false, r.tid⟩) →
    ∀ x, ∀ e ∈ (n.servers x).log, e.status = .committed → e.tid ≠ r.tid

theorem Accounted.rejectedNeverApplied (h : Accounted c n) (hunique : TransferUnique n) :
    RejectedNeverApplied n := by
  rintro src dst r ⟨a, ha, -, -, hrequest, hresponse⟩ x e he hstatus htid
  have hatid : a.request.transferTid = some r.tid := by
    rw [hrequest]
    rfl
  obtain ⟨i, hi⟩ := List.mem_iff_getElem?.mp ha
  have hsame : ∀ b ∈ n.calls, b.request.namedTid = some r.tid → a = b := by
    intro b hb hbtid
    obtain ⟨j, hj⟩ := List.mem_iff_getElem?.mp hb
    obtain rfl := hunique i j a b r.tid hi hj hatid hbtid
    exact Option.some.inj (hi.symm.trans hj)
  rcases h.logs x e he hstatus with ⟨src', dst', isCrossShard, request, hreq, hans⟩ |
    ⟨src', dst', hsent⟩
  · obtain ⟨b, hb, -, -, hb', hyes⟩ := hans
    obtain rfl := hsame b hb (by cases isCrossShard <;> simp [hb', Request.poll, Request.namedTid,
      hreq, htid])
    rw [hresponse] at hyes
    simp at hyes
  · obtain ⟨b, hb, -, -, hb'⟩ := hsent
    obtain rfl := hsame b hb (by simp [hb', Request.namedTid, htid])
    rw [hrequest] at hb'
    cases hb'

/-- In a cluster of three servers a rejected transfer is never applied, in every run whose
steps never lower a ballot number, and in which servers propose and commit only under their
own ballots. -/
theorem reaches_rejectedNeverApplied (hsize : c.clusterSize = 3) {disk : ℤ → Disk}
    {es : List Event} (h : Reaches c (fun n e => (e.working ∧ DistinctTransfers n e) ∧
      Each (SettlesOwn c) n e) disk es n) : RejectedNeverApplied n := by
  have hinv : Accounted c n ∧ TransferUnique n := by
    refine h.invariant (I := fun n => Accounted c n ∧ TransferUnique n)
      ⟨accounted_init c disk, ?_⟩ ?_
    · intro i j a b tid ha
      simp [init] at ha
    · rintro n e n' ⟨hacc, hunique⟩ ⟨⟨hworking, hdistinct⟩, hguard⟩ hstep
      have hstepped := step_stepped hstep
      exact ⟨hacc.step hsize hstepped hworking hguard, hunique.step hstepped hdistinct⟩
  exact hinv.1.rejectedNeverApplied hinv.2

instance (c : Constants) (s : Server) (fs : FileSystem) (input : Input) :
    Decidable (SettlesOwn c s fs input) :=
  inferInstanceAs (Decidable (_ ∧ _))

/-- After a committed transfer, a second one asks for more than the balance. -/
def overdrawnRun : List Event :=
  promisedRun ++ [.call 1 (.transfer ⟨⟨1, 2, 50⟩, 2⟩), .arrives 7, .arrives 8, .returns 8, .arrives 7]

theorem rejectedNeverApplied_overdrawnRun :
    ∃ n, run (step .single) (init .single fun _ => .empty) overdrawnRun = some n ∧
      n.Answered none 1 (.transfer ⟨⟨1, 2, 50⟩, 2⟩) (.transfer ⟨false, 2⟩) ∧
      RejectedNeverApplied n := by
  obtain ⟨n, hn, hans⟩ := (Option.any_eq_true _ _).mp
    (show (runIf (step .single) (fun n e => DistinctTransfers n e ∧ Each (SettlesOwn .single) n e)
      (init .single fun _ => .empty) overdrawnRun).any (fun n => decide
        (n.Answered none 1 (.transfer ⟨⟨1, 2, 50⟩, 2⟩) (.transfer ⟨false, 2⟩))) = true by
      decide +kernel)
  have hguard := runs_of_runIf hn
  have hworking : Runs (step .single) (fun _ e => e.working) (init .single fun _ => .empty)
      overdrawnRun n := by
    refine runs_of_forall hguard.run_eq ?_
    simp [overdrawnRun, promisedRun, Event.arrives, Event.returns, Event.working,
      FileSystem.allOpen_working]
  refine ⟨n, hguard.run_eq, of_decide_eq_true hans, ?_⟩
  exact reaches_rejectedNeverApplied rfl
    ((hworking.and hguard).mono fun _ _ h => ⟨⟨h.1, h.2.1⟩, h.2.2⟩)

/-- Server 3 has a majority of accepts for its own transfer when it accepts the transfer of
server 1 under ballot (2,1). Both accept replies to server 1 time out, and it rejects its
transfer. Then server 3 commits and broadcasts the ballot (2,1), which releases the rejected
transfer at server 2. -/
def releasedRun : List Event :=
  [.call 3 (.transfer ⟨⟨3, 4, 1⟩, 2⟩), .arrives 0, .arrives 1, .arrives 2, .returns 1, .arrives 0,
    .arrives 4, .returns 4, .call 1 (.transfer ⟨⟨1, 2, 3⟩, 1⟩), .arrives 5, .arrives 6, .arrives 7,
    .returns 6, .arrives 5, .arrives 8, .arrives 9, .complete 8 .deadlineExceeded .allOpen,
    .complete 9 .deadlineExceeded .allOpen, .arrives 5, .arrives 0, .arrives 11]

theorem not_rejectedNeverApplied_releasedRun :
    ∃ n, Reaches .single (fun n e => e.working ∧ DistinctTransfers n e) (fun _ => .empty)
      releasedRun n ∧ ¬ RejectedNeverApplied n := by
  obtain ⟨n, hn, hbad⟩ := (Option.any_eq_true _ _).mp
    (show (runIf (step .single) DistinctTransfers (init .single fun _ => .empty) releasedRun).any
      (fun n => decide (n.Answered none 1 (.transfer ⟨⟨1, 2, 3⟩, 1⟩) (.transfer ⟨false, 1⟩) ∧
        ∃ e ∈ (n.servers 2).log, e.status = .committed ∧ e.tid = 1)) = true by decide +kernel)
  have hdistinct := runs_of_runIf hn
  have hworking : Runs (step .single) (fun _ e => e.working) (init .single fun _ => .empty)
      releasedRun n := by
    refine runs_of_forall hdistinct.run_eq ?_
    simp [releasedRun, Event.arrives, Event.returns, Event.working, FileSystem.allOpen_working]
  refine ⟨n, hworking.and hdistinct, fun hnever => ?_⟩
  obtain ⟨hans, e, he, hstatus, htid⟩ := of_decide_eq_true hbad
  exact hnever none 1 _ hans 2 e he hstatus htid

end Network
end TpcBank
