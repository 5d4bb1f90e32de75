import TpcBank.Ballots

/-! The accept phase of a round: which Accept messages a server sends, and with which
ballots, when it only proposes under a promise of its own. -/
namespace TpcBank
open Transition

namespace Server

/-- A poll goes on to the accept phase only while `promised_num` is still its own ballot. -/
def ProposesOwn (c : Constants) (s : Server) (_ : FileSystem) : Input → Prop
  | .request r => ∀ request ∈ r.polled, s.Proposes c request → s.promisedNum.serverId = s.serverId
  | _ => True

instance (c : Constants) (s : Server) (fs : FileSystem) (input : Input) :
    Decidable (s.ProposesOwn c fs input) := by
  refine Input.decidable (fun r => ?_) (fun r status response => isTrue trivial) input
  dsimp only [ProposesOwn]
  infer_instance

variable {c : Constants} {fs : FileSystem} {s : Server} {input : Input} {r : Handled}

theorem Acted.promisedNum_le (h : Acted c fs s input r) (hkeeps : s.KeepsBallot fs input)
    (hle : s.promisedNum.num ≤ s.ballotNum) : r.server.promisedNum.num ≤ r.server.ballotNum := by
  cases h with
  | opened => exact le_rfl
  | promised => exact le_rfl
  | prepareCounted request response ahead sent hprep hnum hid hsent hdst =>
    have hacted : Acted c fs s _ _ :=
      .prepareCounted request response ahead sent hprep hnum hid hsent hdst
    exact hle.trans (hacted.ballotNum_le hkeeps)
  | synced request response d hack => exact hle.trans (hkeeps rfl hack)
  | _ => exact hle

/-- A server that awaits prepare replies did so before, has just opened a round, or has just
promised to a peer. -/
theorem Acted.awaitPrepare_cases (h : Acted c fs s input r)
    (hafter : r.server.awaitPrepareDecision = true) :
    s.awaitPrepareDecision = true ∧ r.server.promisedNum = s.promisedNum ∨
      r.server.promisedNum = ⟨s.ballotNum + 1, s.serverId⟩ ∨
      ∃ request, input = .request (.prepare request) ∧ r.server.promisedNum = request.ballot := by
  cases h with
  | opened => exact .inr (.inl rfl)
  | promised request => exact .inr (.inr ⟨request, rfl, rfl⟩)
  | prepareCounted request response ahead sent hprep => exact .inl ⟨hprep, rfl⟩
  | rejected => cases hafter
  | accepting => cases hafter
  | finished => cases hafter
  | committed => cases hafter
  | _ => exact .inl ⟨hafter, rfl⟩

theorem Acted.sent_accept (h : Acted c fs s input r) {dst : ℤ} {q : AcceptReq}
    (ho : ⟨dst, .accept q⟩ ∈ r.sent) :
    ∃ isCrossShard, input = .request (.poll isCrossShard q.r) ∧ s.Proposes c q.r ∧
      q.ballot = s.promisedNum ∧ r.server.awaitPrepareDecision = false ∧
      r.server.ballotNum = s.ballotNum := by
  cases h with
  | accepting isCrossShard request d hown hprep hmaj hcond =>
    obtain ⟨-, hrequest⟩ := mem_broadcast.mp ho
    simp only [Request.accept.injEq] at hrequest
    subst hrequest
    exact ⟨isCrossShard, rfl, ⟨hown, hprep, hmaj, hcond⟩, rfl, rfl, rfl⟩
  | refused request inSync res sent hack hballot hlatest hsent => cases (hsent _ ho).1
  | prepareCounted request response ahead sent hprep hnum hid hsent => cases hsent _ ho
  | opened => simp [startRound, mem_broadcast] at ho
  | finished => simp [mem_broadcast] at ho
  | committed => simp [mem_broadcast] at ho
  | _ => simp at ho

end Server

namespace Network

/-- What the Accept messages of a server have to do with its ballots. -/
structure Proposing (n : Network) (p : ℤ) : Prop where
  promised_le : (n.servers p).promisedNum.num ≤ (n.servers p).ballotNum
  own : ∀ dst q, n.Sent (some p) dst (.accept q) →
    q.ballot.serverId = p ∧ q.ballot.num ≤ (n.servers p).ballotNum
  fresh : (n.servers p).awaitPrepareDecision = true → (n.servers p).promisedNum.serverId = p →
    ∀ dst q, n.Sent (some p) dst (.accept q) → q.ballot.num < (n.servers p).promisedNum.num
  value : ∀ dst dst' q q', n.Sent (some p) dst (.accept q) → n.Sent (some p) dst' (.accept q') →
    q.ballot = q'.ballot → q = q'

variable {c : Constants} {n n' : Network} {e : Event} {p : ℤ}

theorem proposing_init (c : Constants) (disk : ℤ → Disk) (p : ℤ) : Proposing (init c disk) p where
  promised_le := le_rfl
  own := by rintro dst q ⟨call, hmem, -⟩; cases hmem
  fresh := by rintro - - dst q ⟨call, hmem, -⟩; cases hmem
  value := by rintro dst dst' q q' ⟨call, hmem, -⟩; cases hmem

theorem Proposing.quiet (h : Proposing n p) (hserver : n'.servers p = n.servers p)
    (hsent : ∀ dst q, n'.Sent (some p) dst (.accept q) → n.Sent (some p) dst (.accept q)) :
    Proposing n' p where
  promised_le := by
    rw [hserver]
    exact h.promised_le
  own := by
    intro dst q hs
    rw [hserver]
    exact h.own dst q (hsent dst q hs)
  fresh := by
    intro hawait hid dst q hs
    rw [hserver] at hawait hid ⊢
    exact h.fresh hawait hid dst q (hsent dst q hs)
  value := by
    intro dst dst' q q' hs hs'
    exact h.value dst dst' q q' (hsent dst q hs) (hsent dst' q' hs')

theorem Proposing.handled {fs : FileSystem} {input : Input} {r : Handled} (h : Proposing n p)
    (hrouted : Routed c n) (hacts : Acts n e p fs input)
    (hr : (n.servers p).Acted c fs input r) (hkeeps : (n.servers p).KeepsBallot fs input)
    (hown : (n.servers p).ProposesOwn c fs input) (hserver : n'.servers p = r.server)
    (hsent : ∀ dst q, n'.Sent (some p) dst (.accept q) → n.Sent (some p) dst (.accept q) ∨
      ⟨dst, .accept q⟩ ∈ r.sent) : Proposing n' p := by
  have hid := hrouted.serverId p
  have hle : (n.servers p).ballotNum ≤ r.server.ballotNum := hr.ballotNum_le hkeeps
  have hnew : ∀ dst q, ⟨dst, .accept q⟩ ∈ r.sent → (n.servers p).awaitPrepareDecision = true ∧
      (n.servers p).promisedNum.serverId = p ∧ q.ballot = (n.servers p).promisedNum ∧
      r.server.awaitPrepareDecision = false := by
    intro dst q ho
    obtain ⟨isCrossShard, rfl, hproposes, hballot, hafter, -⟩ := hr.sent_accept ho
    refine ⟨hproposes.2.1, ?_, hballot, hafter⟩
    exact (hown q.r (by simp) hproposes).trans hid
  have hnewValue : ∀ dst dst' q q', ⟨dst, .accept q⟩ ∈ r.sent → ⟨dst', .accept q'⟩ ∈ r.sent →
      q = q' := by
    intro dst dst' q q' ho ho'
    obtain ⟨x, hinput, -, hballot, -⟩ := hr.sent_accept ho
    obtain ⟨x', hinput', -, hballot', -⟩ := hr.sent_accept ho'
    have hpolled := congrArg (fun i => match i with | .request r => r.polled | _ => none)
      (hinput.symm.trans hinput')
    simp only [Request.polled_poll, Option.some.injEq] at hpolled
    cases q
    cases q'
    simp_all
  have hmixed : ∀ dst dst' q q', n.Sent (some p) dst (.accept q) → ⟨dst', .accept q'⟩ ∈ r.sent →
      q.ballot ≠ q'.ballot := by
    intro dst dst' q q' hold ho heq
    obtain ⟨hawait, hself, hballot, -⟩ := hnew dst' q' ho
    have hlt := h.fresh hawait hself dst q hold
    rw [heq, hballot] at hlt
    exact lt_irrefl _ hlt
  constructor
  · rw [hserver]
    exact hr.promisedNum_le hkeeps h.promised_le
  · intro dst q hs
    rw [hserver]
    rcases hsent dst q hs with hold | ho
    · exact ⟨(h.own dst q hold).1, (h.own dst q hold).2.trans hle⟩
    · obtain ⟨-, hself, hballot, -⟩ := hnew dst q ho
      rw [hballot]
      exact ⟨hself, h.promised_le.trans hle⟩
  · intro hawait hself dst q hs
    rw [hserver] at hawait hself ⊢
    rcases hsent dst q hs with hold | ho
    · rcases hr.awaitPrepare_cases hawait with ⟨hbefore, heq⟩ | heq | ⟨request, rfl, heq⟩
      · rw [heq] at hself ⊢
        exact h.fresh hbefore hself dst q hold
      · rw [heq]
        have := (h.own dst q hold).2
        dsimp only
        omega
      · -- a promise to a peer is under the ballot of the peer
        rw [heq] at hself
        obtain ⟨src, hs'⟩ := hacts.request_sent
        exact absurd hself (hrouted.prepare_foreign hs')
    · rw [(hnew dst q ho).2.2.2] at hawait
      cases hawait
  · intro dst dst' q q' hs hs' heq
    rcases hsent dst q hs with hold | ho <;> rcases hsent dst' q' hs' with hold' | ho'
    · exact h.value dst dst' q q' hold hold' heq
    · exact absurd heq (hmixed dst dst' q q' hold ho')
    · exact absurd heq.symm (hmixed dst' dst q' q hold' ho)
    · exact hnewValue dst dst' q q' ho ho'

/-- The handlers that keep to one value for each ballot. -/
def OneRound (c : Constants) (s : Server) (fs : FileSystem) (input : Input) : Prop :=
  s.KeepsBallot fs input ∧ s.ProposesOwn c fs input

theorem Proposing.step (h : Proposing n p) (hrouted : Routed c n) (hstep : Stepped c n e n')
    (hguard : Each (OneRound c) n e) : Proposing n' p := by
  cases hstep.changeAt p with
  | same hserver hsent => exact h.quiet hserver fun dst q => hsent dst _
  | handled fs input r hacts hr hserver hsent =>
    obtain ⟨hkeeps, hown⟩ := hguard.acts hacts
    exact h.handled hrouted hacts hr hkeeps hown hserver fun dst q => hsent dst _

theorem reaches_proposing {disk : ℤ → Disk} {es : List Event}
    (h : Reaches c (Each (OneRound c)) disk es n) (p : ℤ) : Proposing n p := by
  have hboth : Routed c n ∧ ∀ p, Proposing n p := by
    refine h.invariant (I := fun n => Routed c n ∧ ∀ p, Proposing n p)
      ⟨routed_init c disk, proposing_init c disk⟩ ?_
    rintro n e n' ⟨hrouted, hproposing⟩ hguard hstep
    have hstepped := step_stepped hstep
    exact ⟨hrouted.step hstepped, fun p => (hproposing p).step hrouted hstepped hguard⟩
  exact hboth.2 p

/-- Every Accept ever broadcast carries a ballot of its sender, and two Accepts with the same
ballot carry the same request. -/
def OneValuePerBallot (n : Network) : Prop :=
  ∀ src src' dst dst' q q', n.Sent src dst (.accept q) → n.Sent src' dst' (.accept q') →
    src = some q.ballot.serverId ∧ (q.ballot = q'.ballot → q.r = q'.r)

/-- One value per ballot, in every run whose steps never lower a ballot number and never
propose under the promise of a peer. -/
theorem reaches_oneValuePerBallot {disk : ℤ → Disk} {es : List Event}
    (h : Reaches c (Each (OneRound c)) disk es n) : OneValuePerBallot n := by
  intro src src' dst dst' q q' hs hs'
  have hrouted := reaches_routed h
  obtain ⟨p, rfl, -⟩ := hrouted.accept hs
  obtain ⟨p', rfl, -⟩ := hrouted.accept hs'
  have hp := ((reaches_proposing h p).own dst q hs).1
  have hp' := ((reaches_proposing h p').own dst' q' hs').1
  refine ⟨by rw [hp], fun heq => ?_⟩
  obtain rfl : p = p' := by rw [← hp, ← hp', heq]
  rw [(reaches_proposing h p).value dst dst' q q' hs hs' heq]

instance (c : Constants) (s : Server) (fs : FileSystem) (input : Input) :
    Decidable (OneRound c s fs input) :=
  inferInstanceAs (Decidable (_ ∧ _))

theorem oneValuePerBallot_promisedRun :
    ∃ n, run (step .single) (init .single fun _ => .empty) promisedRun = some n ∧
      OneValuePerBallot n := by
  obtain ⟨n, hn⟩ := Option.isSome_iff_exists.mp
    (show (runIf (step .single) (Each (OneRound .single)) (init .single fun _ => .empty)
      promisedRun).isSome = true by decide +kernel)
  have hguard := runs_of_runIf hn
  exact ⟨n, hguard.run_eq, reaches_oneValuePerBallot hguard⟩

/-- Server 1 has a majority for its ballot (1,1) when it promises (2,3) to server 3, and
sends its Accept under (2,3); server 3 sends its own. -/
def stolenRun : List Event :=
  [.call 1 (.transfer ⟨⟨1, 2, 3⟩, 1⟩), .arrives 0, .arrives 1, .arrives 2, .returns 1,
    .call 3 (.transfer ⟨⟨3, 4, 1⟩, 2⟩), .arrives 3, .arrives 4, .arrives 0, .returns 4, .arrives 3]

theorem not_oneValuePerBallot_stolenRun :
    ∃ n, run (step .single) (init .single fun _ => .empty) stolenRun = some n ∧
      ¬ OneValuePerBallot n := by
  obtain ⟨n, hn, hsent⟩ := (Option.any_eq_true _ _).mp
    (show (run (step .single) (init .single fun _ => .empty) stolenRun).any (fun n => decide
      (n.Sent (some 1) 2 (.accept ⟨⟨2, 3⟩, ⟨⟨1, 2, 3⟩, 1⟩⟩) ∧
        n.Sent (some 3) 2 (.accept ⟨⟨2, 3⟩, ⟨⟨3, 4, 1⟩, 2⟩⟩))) = true by decide +kernel)
  obtain ⟨h, h'⟩ := of_decide_eq_true hsent
  exact ⟨n, hn, fun hone => absurd (hone _ _ _ _ _ _ h h').1 (by decide)⟩

end Network
end TpcBank
