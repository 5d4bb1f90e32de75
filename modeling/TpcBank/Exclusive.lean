import TpcBank.Replay

/-! The rounds of a server exclude each other: while a request is in its round, the polls of the
other requests do nothing, and what its own polls do is done for it. The exception is a Commit
that goes out for what another proposer had accepted at the server meanwhile. -/
namespace TpcBank
open Transition

/-- A poll of `runPaxos`, with whether it is a cross-shard prepare. -/
def Input.poll : Input → Option (TransferReq × Bool)
  | .request (.transfer r) => some (r, false)
  | .request (.tpcPrepare r) => some (r, true)
  | _ => none

theorem Input.poll_eq_some {input : Input} {r : TransferReq} {isCrossShard : Bool} :
    input.poll = some (r, isCrossShard) ↔ input = .request (.poll isCrossShard r) := by
  constructor
  · intro h
    unfold Input.poll at h
    split at h
    all_goals cases h
    · rfl
    · rfl
  · rintro rfl
    cases isCrossShard <;> rfl

namespace Server

variable {c : Constants} {fs : FileSystem} {s : Server} {request : TransferReq}
  {isCrossShard : Bool}

/-- The tid whose round it is: from the poll that broadcasts Prepare for it to the poll that
returns true for it. -/
def round (c : Constants) (s : Server) (e : Input × FileSystem) (tid : Option ℤ) : Option ℤ :=
  match e.1.poll with
  | none => tid
  | some (request, isCrossShard) =>
      let r := s.runPaxos c e.2 request isCrossShard
      if !s.awaitPrepareDecision && r.server.awaitPrepareDecision then some request.tid
      else if r.response.isSome ∧ tid = some request.tid then none
      else tid

/-- A server beside which the round is kept. -/
abbrev roundStep (c : Constants) : Server × Option ℤ → Input × FileSystem →
    Option (Server × Option ℤ) :=
  withGhost (step c) (round c)

/-! ### The property -/

/-- At most one decision is awaited, and it is awaited for the tid whose round it is. -/
structure AwaitsOwn (p : Server × Option ℤ) : Prop where
  one : ¬ (p.1.awaitPrepareDecision = true ∧ p.1.awaitAcceptDecision = true)
  running : p.1.awaitPrepareDecision = true ∨ p.1.awaitAcceptDecision = true →
    p.1.isPaxosRunning = true ∧ p.2 = some p.1.paxosTid

/-- An Accept for the request of a poll, or a Commit for what the server has accepted when that
is of the tid of the poll. -/
def SentFor (s : Server) (request : TransferReq) (o : OutCall) : Prop :=
  match o.request with
  | .accept r => r.r = request
  | .commit r => r.ballot = s.acceptNum ∧ s.acceptVal.tid = request.tid
  | _ => True

/-- What a poll sends, locks and logs is for its request. -/
structure DoneFor (s : Server) (request : TransferReq) (r : Handled) : Prop where
  sent : ∀ o ∈ r.sent, s.SentFor request o
  locks : ∀ x, x ≠ request.txn.sender → x ≠ request.txn.receiver →
    (x ∈ r.server.locks ↔ x ∈ s.locks)
  log : r.server.log = s.log ∨ ∃ e, e.tid = request.tid ∧ r.server.log = s.log ++ [e]

/-- In the round of a tid, a poll of another one only asks to be retried, and a poll of the tid
itself works for its request. -/
def PollsExclusively (c : Constants) (p : Server × Option ℤ) (e : Input × FileSystem) : Prop :=
  match e.1.poll with
  | none => True
  | some (request, isCrossShard) => ∀ tid, p.2 = some tid →
      if request.tid = tid then p.1.DoneFor request (p.1.runPaxos c e.2 request isCrossShard)
      else p.1.runPaxos c e.2 request isCrossShard = ⟨p.1, none, []⟩

/-- The rounds of a run exclude each other. -/
def ExclusiveRounds (c : Constants) (s : Server) (es : List (Input × FileSystem))
    (p : Server × Option ℤ) : Prop :=
  Throughout (roundStep c) AwaitsOwn (s, none) es ∧
    Runs (roundStep c) (PollsExclusively c) (s, none) es p

/-- A poll that finds a majority of accepts still has its own request accepted, no other
proposer's, and for a transfer the WAL file opens. A Commit is only seen when there are peers. -/
def CommitsOwnRound (p : Server × Option ℤ) (e : Input × FileSystem) : Prop :=
  match e.1.poll with
  | none => True
  | some (request, isCrossShard) => p.1.Commits request →
      (p.1.stubs ≠ [] → p.1.acceptVal.tid = request.tid) ∧
        (isCrossShard = false → e.2.opens 0 = true ∨ request.tid = -1)

/-! ### The invariant -/

/-- The round is the one that the server says it runs. -/
structure InRound (p : Server × Option ℤ) : Prop where
  phases : p.1.Phases
  tid : p.2 = if p.1.isPaxosRunning then some p.1.paxosTid else none

theorem inRound_init (c : Constants) (id : ℤ) (disk : Disk) : InRound (init c id disk, none) :=
  ⟨⟨nofun, nofun, nofun⟩, rfl⟩

theorem InRound.awaitsOwn {p : Server × Option ℤ} (h : InRound p) : AwaitsOwn p where
  one := by
    rintro ⟨hprep, hacc⟩
    rw [h.phases.one hprep] at hacc
    cases hacc
  running := by
    intro hawait
    have hrunning : p.1.isPaxosRunning = true := hawait.elim h.phases.prepare h.phases.accept
    refine ⟨hrunning, ?_⟩
    rw [h.tid, if_pos hrunning]

theorem runPaxos_of_not_owns (h : ¬ s.Owns request.tid) (isCrossShard : Bool) :
    s.runPaxos c fs request isCrossShard = ⟨s, none, []⟩ := by
  unfold runPaxos
  by_cases hsync : s.inSync = true
  · rw [if_pos hsync]
  · rw [if_neg hsync, if_pos]
    unfold Owns at h
    simpa [hsync] using h

/-- A poll that does not commit works for its request. -/
theorem runPaxos_doneFor (h : ¬ s.Commits request) :
    s.DoneFor request (s.runPaxos c fs request isCrossShard) := by
  have hresult : PollResult c fs s request isCrossShard _ := runPaxos_result request isCrossShard
  generalize s.runPaxos c fs request isCrossShard = r at hresult ⊢
  cases hresult with
  | retry => exact ⟨by simp, fun _ _ _ => Iff.rfl, .inl rfl⟩
  | opened hown hprep hacc =>
    refine ⟨?_, fun _ _ _ => Iff.rfl, .inl rfl⟩
    intro o ho
    obtain ⟨dst, -, rfl⟩ := List.mem_map.mp ho
    trivial
  | rejected hown hprep => exact ⟨by simp, fun _ _ _ => Iff.rfl, .inl rfl⟩
  | accepting hown hprep hmaj hcond =>
    constructor
    · intro o ho
      obtain ⟨dst, -, rfl⟩ := List.mem_map.mp ho
      rfl
    · intro x hsender hreceiver
      simp only [startAccept, lockItems_eq, prepareTransaction_eq]
      cases isCrossShard <;> simp [hsender, hreceiver]
    · simp only [startAccept, lockItems_eq, prepareTransaction_eq]
      cases isCrossShard with
      | false => exact .inl rfl
      | true => exact .inr ⟨_, rfl, rfl⟩
  | committed hown hprep hacc hmaj => exact absurd ⟨hown, hprep, hacc, hmaj⟩ h
  | failed hown hprep hacc hmaj hfail =>
    refine ⟨by simp, ?_, ?_⟩
    · intro x hsender hreceiver
      cases isCrossShard <;> simp [unlockBoth, unlock, endPaxos, hsender, hreceiver]
    · cases isCrossShard <;> exact .inl rfl

/-- What a poll that commits has to meet to work for its request. -/
theorem finishCommit_doneFor : s.DoneFor request (s.finishCommit fs request isCrossShard) ↔
    (s.stubs ≠ [] → s.acceptVal.tid = request.tid) ∧
      (isCrossShard = false → fs.opens 0 = true ∨ request.tid = -1) := by
  constructor
  · intro h
    constructor
    · intro hstubs
      obtain ⟨dst, hdst⟩ := List.exists_mem_of_ne_nil _ hstubs
      exact (h.sent _ (List.mem_map.mpr ⟨dst, hdst, rfl⟩)).2
    · rintro rfl
      by_contra hneg
      obtain ⟨hopen, htid⟩ := not_or.mp hneg
      have hlog := h.log
      rw [finishCommit_intra] at hlog
      simp only [WAL.commitTransaction, hopen, Bool.false_eq_true, if_false] at hlog
      rcases hlog with hlog | ⟨e, he, hlog⟩
      · simp at hlog
      · have heq : WALEntry.notFound = e := by simpa using hlog
        exact htid (he ▸ heq ▸ rfl)
  · rintro ⟨hval, hopen⟩
    constructor
    · intro o ho
      obtain ⟨dst, hdst, rfl⟩ := List.mem_map.mp ho
      exact ⟨rfl, hval (List.ne_nil_of_mem hdst)⟩
    · intro x hsender hreceiver
      cases isCrossShard with
      | true => rfl
      | false =>
        rw [finishCommit_intra]
        simp [hsender, hreceiver]
    · cases isCrossShard with
      | true => exact .inl rfl
      | false =>
        rw [finishCommit_intra]
        refine .inr ⟨_, ?_, rfl⟩
        unfold WAL.commitTransaction
        split_ifs with hfs
        · rfl
        · exact ((hopen rfl).resolve_left hfs).symm

theorem InRound.polls_iff {p : Server × Option ℤ} (h : InRound p) (e : Input × FileSystem) :
    PollsExclusively c p e ↔ CommitsOwnRound p e := by
  unfold PollsExclusively CommitsOwnRound
  split
  · rfl
  rename_i request isCrossShard _
  constructor
  · intro hpolls hcommits
    have hrunning : p.1.isPaxosRunning = true := h.phases.accept hcommits.2.2.1
    have htid : p.2 = some request.tid := by
      rw [h.tid, if_pos hrunning, hcommits.1.2 hrunning]
    have hdone := hpolls _ htid
    rw [if_pos rfl, runPaxos_of_commits hcommits] at hdone
    exact finishCommit_doneFor.mp hdone
  · intro hown tid htid
    by_cases hsame : request.tid = tid
    · rw [if_pos hsame]
      by_cases hcommits : p.1.Commits request
      · rw [runPaxos_of_commits hcommits]
        exact finishCommit_doneFor.mpr (hown hcommits)
      · exact runPaxos_doneFor hcommits
    · rw [if_neg hsame]
      apply runPaxos_of_not_owns
      rintro ⟨-, howns⟩
      rw [h.tid] at htid
      split_ifs at htid with hrunning
      exact hsame ((howns hrunning).symm.trans (Option.some.inj htid))

/-- The round follows a poll as the server's own fields do. -/
theorem InRound.poll {tid : Option ℤ} (h : InRound (s, tid)) (request : TransferReq)
    (isCrossShard : Bool) :
    let r := s.runPaxos c fs request isCrossShard
    (if !s.awaitPrepareDecision && r.server.awaitPrepareDecision then some request.tid
      else if r.response.isSome ∧ tid = some request.tid then none
      else tid) = if r.server.isPaxosRunning then some r.server.paxosTid else none := by
  have htid : tid = if s.isPaxosRunning then some s.paxosTid else none := h.tid
  have hresult : PollResult c fs s request isCrossShard _ := runPaxos_result request isCrossShard
  generalize s.runPaxos c fs request isCrossShard = r at hresult ⊢
  have hends : ∀ {t : Server}, s.Owns request.tid → s.isPaxosRunning = true →
      t.awaitPrepareDecision = false → t.isPaxosRunning = false →
      (if !s.awaitPrepareDecision && t.awaitPrepareDecision then some request.tid
        else if (transferRes false request.tid).isSome ∧ tid = some request.tid then none
        else tid) = if t.isPaxosRunning then some t.paxosTid else none := by
    intro t hown hrunning hprep hstopped
    have hsome : tid = some request.tid := by
      rw [htid, if_pos hrunning, hown.2 hrunning]
    simp [hprep, hstopped, hsome, transferRes]
  cases hresult with
  | retry => simpa using htid
  | opened hown hprep hacc => simp [startRound, hprep]
  | rejected hown hprep => exact hends hown (h.phases.prepare hprep) rfl rfl
  | accepting hown hprep hmaj hcond =>
    simp only [startAccept, lockItems_eq, prepareTransaction_eq]
    cases isCrossShard <;> simpa [hprep] using htid
  | committed hown hprep hacc hmaj =>
    have hrunning : s.isPaxosRunning = true := h.phases.accept hacc
    cases isCrossShard with
    | true => exact hends hown hrunning rfl rfl
    | false =>
      have hserver : (s.finishCommit fs request false).server = _ := finishCommit_intra request
      exact hends hown hrunning (by rw [hserver]) (by rw [hserver])
  | failed hown hprep hacc hmaj hfail =>
    have hrunning : s.isPaxosRunning = true := h.phases.accept hacc
    cases isCrossShard with
    | true => exact hends hown hrunning hprep rfl
    | false => exact hends hown hrunning hprep rfl

/-- Only a poll begins or ends a round. -/
theorem Acted.kept_round {input : Input} {r : Handled} (h : Acted c fs s input r)
    (hpoll : input.poll = none) :
    r.server.isPaxosRunning = s.isPaxosRunning ∧ r.server.paxosTid = s.paxosTid := by
  cases h with
  | opened isCrossShard request => simp [Input.poll_eq_some.mpr rfl] at hpoll
  | rejected isCrossShard request => simp [Input.poll_eq_some.mpr rfl] at hpoll
  | accepting isCrossShard request => simp [Input.poll_eq_some.mpr rfl] at hpoll
  | failed isCrossShard request => simp [Input.poll_eq_some.mpr rfl] at hpoll
  | finished => cases hpoll
  | committed => cases hpoll
  | _ => exact ⟨rfl, rfl⟩

theorem InRound.step {p q : Server × Option ℤ} {e : Input × FileSystem} (h : InRound p)
    (hstep : roundStep c p e = some q) : InRound q := by
  obtain ⟨s, tid⟩ := p
  obtain ⟨input, fs⟩ := e
  obtain ⟨hnext, hround⟩ := withGhost_eq_some.mp hstep
  have hserver : s.handle c fs input = q.1 := Option.some.inj hnext
  have hacted : Acted c fs s input (s.react c fs input) := react_acted input
  constructor
  · rw [← hserver]
    exact hacted.phases h.phases
  · rw [hround, ← hserver]
    unfold round
    cases hpoll : input.poll with
    | none =>
      obtain ⟨hrunning, htid⟩ := hacted.kept_round hpoll
      show tid = if (s.react c fs input).server.isPaxosRunning then _ else _
      rw [hrunning]
      exact h.tid.trans (by rw [← htid]; rfl)
    | some poll =>
      obtain ⟨request, isCrossShard⟩ := poll
      obtain rfl := Input.poll_eq_some.mp hpoll
      have hkept := @InRound.poll c fs s tid h request isCrossShard
      cases isCrossShard <;> exact hkept

/-- The rounds of a run exclude each other exactly when every poll that commits still has its own
request accepted. -/
theorem exclusiveRounds_iff (c : Constants) (id : ℤ) (disk : Disk) (es : List (Input × FileSystem))
    (p : Server × Option ℤ) :
    ExclusiveRounds c (init c id disk) es p ↔
      Runs (roundStep c) CommitsOwnRound (init c id disk, none) es p := by
  have hinit := inRound_init c id disk
  have hstep : ∀ p e q, InRound p → roundStep c p e = some q → InRound q :=
    fun _ _ _ hp hs => hp.step hs
  have hawaits : Throughout (roundStep c) AwaitsOwn (init c id disk, none) es := by
    intro es₁ es₂ q hes hrun
    exact (throughout_of_invariant hinit hstep es es₁ es₂ q hes hrun).awaitsOwn
  have hpolls : Runs (roundStep c) (PollsExclusively c) (init c id disk, none) es p ↔
      Runs (roundStep c) CommitsOwnRound (init c id disk, none) es p :=
    runs_congr hinit hstep fun _ e hp => hp.polls_iff e
  exact ⟨fun h => hpolls.mp h.2, fun h => ⟨hawaits, hpolls.mpr h⟩⟩

/-- While server 1 awaits the accepts of tid 1, server 2 has it accept tid 2. -/
def overwrittenInputs : List (Input × FileSystem) :=
  [.request (.transfer ⟨⟨1, 2, 3⟩, 1⟩),
    .reply (.prepare ⟨⟨1, 1⟩, -1⟩) .ok (.prepare { ack := true, ballot := ⟨1, 1⟩ }),
    .request (.transfer ⟨⟨1, 2, 3⟩, 1⟩),
    .reply (.accept ⟨⟨1, 1⟩, ⟨⟨1, 2, 3⟩, 1⟩⟩) .ok (.accept ⟨true, ⟨1, 1⟩⟩),
    .request (.prepare ⟨⟨2, 2⟩, -1⟩),
    .request (.accept ⟨⟨2, 2⟩, ⟨⟨3, 4, 1⟩, 2⟩⟩)].map fun input => (input, .allOpen)

/-- The next poll of tid 1 sends a Commit for the ballot of server 2. -/
theorem not_exclusiveRounds_overwritten :
    ¬ ∃ p, ExclusiveRounds .standard (init .standard 1 .empty)
      (overwrittenInputs ++ [(.request (.transfer ⟨⟨1, 2, 3⟩, 1⟩), .allOpen)]) p := by
  rintro ⟨p, -, hrun⟩
  obtain ⟨q, hq, hcheck⟩ := (Option.any_eq_true _ _).mp
    (show (run (roundStep .standard) (init .standard 1 .empty, none) overwrittenInputs).any
      (fun q => decide (q.2 = some 1 ∧ q.1.acceptVal.tid = 2 ∧ ⟨2, .commit ⟨⟨2, 2⟩⟩⟩ ∈
        (q.1.runPaxos .standard .allOpen ⟨⟨1, 2, 3⟩, 1⟩ false).sent)) = true by decide +kernel)
  obtain ⟨hround, hval, hsent⟩ := of_decide_eq_true hcheck
  have hpoll := (hrun.of_snoc (runs_of_run hq)).2 1 hround
  rw [if_pos rfl] at hpoll
  obtain ⟨-, htid⟩ : _ ∧ q.1.acceptVal.tid = 1 := hpoll.sent _ hsent
  rw [hval] at htid
  cases htid

end Server
end TpcBank
