import TpcBank.Replay

/-! What a disconnected server still does. The calls of its peers and the decisions find it
inert; its own rounds and the replies to its own calls do not consult the flag. -/
namespace TpcBank
open Transition

namespace Server

variable {c : Constants} {fs : FileSystem} {s t u : Server} {request : TransferReq}
  {isCrossShard : Bool} {e : Input × FileSystem}

/-! ### The property -/

/-- The request names the server as disconnected. -/
def Names (c : Constants) (s : Server) (request : DisconnectReq) : Prop :=
  ∃ name ∈ request.servers, idOfName c name = s.serverId

instance (c : Constants) (s : Server) (request : DisconnectReq) : Decidable (s.Names c request) :=
  inferInstanceAs (Decidable (∃ name ∈ request.servers, _))

/-- No DisconnectReq comes that does not name the server. -/
def StaysDisconnected (c : Constants) (s : Server) (e : Input × FileSystem) : Prop :=
  match e.1 with
  | .request (.disconnect request) => s.Names c request
  | _ => True

/-- The log, the balances, the locks, the WAL and the numbers of the protocol are the same. -/
structure Unchanged (s t : Server) : Prop where
  log : t.log = s.log
  balances : t.balances = s.balances
  locks : t.locks = s.locks
  wal : t.wal = s.wal
  ballotNum : t.ballotNum = s.ballotNum
  promisedNum : t.promisedNum = s.promisedNum
  acceptNum : t.acceptNum = s.acceptNum
  acceptVal : t.acceptVal = s.acceptVal
  lastInserted : t.lastInserted = s.lastInserted

theorem Unchanged.refl (s : Server) : s.Unchanged s := by
  constructor <;> rfl

theorem Unchanged.trans_iff (h : s.Unchanged t) : s.Unchanged u ↔ t.Unchanged u := by
  obtain ⟨hlog, hbalances, hlocks, hwal, hballot, hpromised, haccept, hval, hlast⟩ := h
  constructor
  · rintro ⟨hlog', hbalances', hlocks', hwal', hballot', hpromised', haccept', hval', hlast'⟩
    exact ⟨hlog'.trans hlog.symm, hbalances'.trans hbalances.symm, hlocks'.trans hlocks.symm,
      hwal'.trans hwal.symm, hballot'.trans hballot.symm, hpromised'.trans hpromised.symm,
      haccept'.trans haccept.symm, hval'.trans hval.symm, hlast'.trans hlast.symm⟩
  · rintro ⟨hlog', hbalances', hlocks', hwal', hballot', hpromised', haccept', hval', hlast'⟩
    exact ⟨hlog'.trans hlog, hbalances'.trans hbalances, hlocks'.trans hlocks, hwal'.trans hwal,
      hballot'.trans hballot, hpromised'.trans hpromised, haccept'.trans haccept, hval'.trans hval,
      hlast'.trans hlast⟩

/-! ### The condition -/

/-- A poll that opens a round. -/
def Opens (s : Server) (request : TransferReq) : Prop :=
  s.Owns request.tid ∧ s.awaitPrepareDecision = false ∧ s.awaitAcceptDecision = false

instance (s : Server) (request : TransferReq) : Decidable (s.Opens request) :=
  inferInstanceAs (Decidable (_ ∧ _))

/-- What the accept phase would set is set already: the request is of other clusters and was
accepted under the same ballot. -/
def HasAccepted (c : Constants) (s : Server) (request : TransferReq) : Prop :=
  s.acceptNum = s.promisedNum ∧ s.acceptVal = request ∧
    insert request.txn.receiver (s.locks ∪ c.items s.clusterId request.txn) = s.locks

instance (c : Constants) (s : Server) (request : TransferReq) :
    Decidable (s.HasAccepted c request) :=
  inferInstanceAs (Decidable (_ ∧ _))

/-- A poll neither opens a round nor goes on to a new accept phase, and ends an accept phase only
where that releases no lock and commits no transfer. -/
def PollsIdly (c : Constants) (s : Server) (request : TransferReq) (isCrossShard : Bool) : Prop :=
  if s.Opens request then False
  else if s.Proposes c request then isCrossShard = false ∧ s.HasAccepted c request
  else if s.Commits request then isCrossShard = true
  else if s.Fails request then isCrossShard = true ∨
    (request.txn.sender ∉ s.locks ∧ request.txn.receiver ∉ s.locks)
  else True

instance (c : Constants) (s : Server) (request : TransferReq) (isCrossShard : Bool) :
    Decidable (s.PollsIdly c request isCrossShard) := by
  dsimp only [PollsIdly]
  infer_instance

/-- A reply to a Prepare that counts in the round. -/
def CountsPrepare (s : Server) (status : Status) (response : PrepareRes) : Prop :=
  s.awaitPrepareDecision = true ∧ status = .ok ∧ response.ballot.num = s.promisedNum.num ∧
    response.ballot.serverId = s.serverId

instance (s : Server) (status : Status) (response : PrepareRes) :
    Decidable (s.CountsPrepare status response) :=
  inferInstanceAs (Decidable (_ ∧ _))

/-- The events that leave a disconnected server as it is: idle polls, counted replies that bring
no other ballot number, and synchronizations that bring nothing. -/
def Idles (c : Constants) (s : Server) (e : Input × FileSystem) : Prop :=
  match e.1 with
  | .request (.transfer request) => s.PollsIdly c request false
  | .request (.tpcPrepare request) => s.PollsIdly c request true
  | .reply (.prepare _) status response => s.CountsPrepare status response.toPrepare →
      ∀ num ∈ response.toPrepare.latestBallotNum, num = s.ballotNum
  | .reply (.sync _) status response => status = .ok → response.toSync.ack = true →
      response.toSync.logs = [] ∧ response.toSync.lastInsertedBallot.num = s.ballotNum
  | _ => True

instance (c : Constants) (s : Server) (e : Input × FileSystem) : Decidable (s.Idles c e) := by
  obtain ⟨input, fs⟩ := e
  refine Input.decidable (P := fun input => s.Idles c (input, fs)) (fun r => ?_)
    (fun r status response => ?_) input
  · apply Request.decidable (P := fun r => s.Idles c (.request r, fs))
    all_goals
      intros
      dsimp only [Idles]
      infer_instance
  · apply Request.decidable (P := fun r => s.Idles c (.reply r status response, fs))
    all_goals
      intros
      dsimp only [Idles]
      infer_instance

/-! ### Polls -/

theorem runPaxos_of_opens (h : s.Opens request) (isCrossShard : Bool) :
    s.runPaxos c fs request isCrossShard = s.startRound request := by
  obtain ⟨⟨hsync, htid⟩, hprep, hacc⟩ := h
  unfold runPaxos
  rw [if_neg (by simp [hsync]), if_neg (by simpa using htid), if_pos (by simp [hprep, hacc])]

theorem startAccept_unchanged : s.Unchanged
    (({ s with awaitPrepareDecision := false }).startAccept c fs request isCrossShard).server ↔
      isCrossShard = false ∧ s.HasAccepted c request := by
  simp only [startAccept, lockItems_eq]
  cases isCrossShard with
  | true =>
    simp only [if_true, prepareTransaction_eq, Bool.true_eq_false, false_and, iff_false]
    intro h
    have hlog := h.log
    simp at hlog
  | false =>
    constructor
    · intro h
      exact ⟨rfl, h.acceptNum.symm, h.acceptVal.symm, h.locks⟩
    · rintro ⟨-, hnum, hval, hlocks⟩
      exact ⟨rfl, rfl, hlocks, rfl, rfl, rfl, hnum.symm, hval.symm, rfl⟩

theorem finishCommit_unchanged :
    s.Unchanged (s.finishCommit fs request isCrossShard).server ↔ isCrossShard = true := by
  cases isCrossShard with
  | true =>
    rw [finishCommit_cross]
    exact ⟨fun _ => rfl, fun _ => ⟨rfl, rfl, rfl, rfl, rfl, rfl, rfl, rfl, rfl⟩⟩
  | false =>
    rw [finishCommit_intra]
    simp only [Bool.false_eq_true, iff_false]
    intro h
    have hlog := h.log
    simp at hlog

theorem erase_both_eq {locks : Finset ℤ} {x y : ℤ} :
    (locks.erase x).erase y = locks ↔ x ∉ locks ∧ y ∉ locks := by
  constructor
  · intro h
    constructor
    · intro hx
      rw [← h] at hx
      simp at hx
    · intro hy
      rw [← h] at hy
      simp at hy
  · rintro ⟨hx, hy⟩
    rw [Finset.erase_eq_of_notMem hx, Finset.erase_eq_of_notMem hy]

theorem runPaxos_unchanged :
    s.Unchanged (s.runPaxos c fs request isCrossShard).server ↔
      s.PollsIdly c request isCrossShard := by
  unfold PollsIdly
  split_ifs with hopens hproposes hcommits hfails
  · rw [runPaxos_of_opens hopens, iff_false]
    intro h
    have hnum : s.ballotNum + 1 = s.ballotNum := h.ballotNum
    omega
  · rw [runPaxos_of_proposes hproposes]
    exact startAccept_unchanged
  · rw [runPaxos_of_commits hcommits]
    exact finishCommit_unchanged
  · rw [runPaxos_of_fails hfails, ← erase_both_eq]
    cases isCrossShard with
    | true => exact ⟨fun _ => .inl rfl, fun _ => ⟨rfl, rfl, rfl, rfl, rfl, rfl, rfl, rfl, rfl⟩⟩
    | false =>
      constructor
      · intro h
        exact .inr h.locks
      · rintro (h | hlocks)
        · cases h
        · exact ⟨rfl, rfl, hlocks, rfl, rfl, rfl, rfl, rfl, rfl⟩
  · have hresult : PollResult c fs s request isCrossShard _ := runPaxos_result request isCrossShard
    rw [iff_true]
    generalize s.runPaxos c fs request isCrossShard = r at hresult ⊢
    cases hresult with
    | retry => exact .refl s
    | opened hown hprep hacc => exact absurd ⟨hown, hprep, hacc⟩ hopens
    | rejected => exact ⟨rfl, rfl, rfl, rfl, rfl, rfl, rfl, rfl, rfl⟩
    | accepting hown hprep hmaj hcond => exact absurd ⟨hown, hprep, hmaj, hcond⟩ hproposes
    | committed hown hprep hacc hmaj => exact absurd ⟨hown, hprep, hacc, hmaj⟩ hcommits
    | failed hown hprep hacc hmaj hfail => exact absurd ⟨hown, hprep, hacc, hmaj, hfail⟩ hfails

/-! ### Replies and the calls of peers -/

theorem handlePrepareReply_unchanged (status : Status) (request : PrepareReq)
    (response : PrepareRes) :
    s.Unchanged (s.handlePrepareReply status request response).1 ↔
      (s.CountsPrepare status response → ∀ num ∈ response.latestBallotNum, num = s.ballotNum) := by
  have hresult := handlePrepareReply_result (s := s) status request response
  by_cases hcounts : s.CountsPrepare status response
  · have hcounted : (s.handlePrepareReply status request response).1.ballotNum =
        response.latestBallotNum.getD s.ballotNum := by
      obtain ⟨hprep, rfl, hnum, hid⟩ := hcounts
      unfold handlePrepareReply
      rw [if_neg (by simp [hprep]), if_neg (by simp), if_pos ⟨rfl, hnum, hid⟩]
      cases response.ack <;> cases response.latestBallotNum <;> cases response.lastInserted <;>
        simp only [Option.getD_none, Option.getD_some, Bool.false_eq_true, if_true, if_false] <;>
        split_ifs <;> rfl
    constructor
    · intro h _ num hlatest
      have hkept := h.ballotNum
      rwa [hcounted, Option.mem_def.mp hlatest, Option.getD_some] at hkept
    · intro h
      have hkept : response.latestBallotNum.getD s.ballotNum = s.ballotNum := by
        cases hlatest : response.latestBallotNum with
        | none => rfl
        | some num => exact h hcounts num hlatest
      rw [hkept] at hcounted
      generalize s.handlePrepareReply status request response = r at hresult hcounted ⊢
      cases hresult with
      | ignored => exact .refl s
      | failed => exact ⟨rfl, rfl, rfl, rfl, rfl, rfl, rfl, rfl, rfl⟩
      | counted => exact ⟨rfl, rfl, rfl, rfl, hcounted, rfl, rfl, rfl, rfl⟩
  · refine ⟨fun _ h => absurd h hcounts, fun _ => ?_⟩
    generalize s.handlePrepareReply status request response = r at hresult ⊢
    cases hresult with
    | ignored => exact .refl s
    | failed => exact ⟨rfl, rfl, rfl, rfl, rfl, rfl, rfl, rfl, rfl⟩
    | counted ahead sent hprep hok hnum hid => exact absurd ⟨hprep, hok, hnum, hid⟩ hcounts

theorem handleAcceptReply_unchanged (status : Status) (request : AcceptReq)
    (response : AcceptRes) : s.Unchanged (s.handleAcceptReply status request response) := by
  have hresult := handleAcceptReply_result (s := s) status request response
  generalize s.handleAcceptReply status request response = r at hresult ⊢
  cases hresult with
  | ignored => exact .refl s
  | failed => exact ⟨rfl, rfl, rfl, rfl, rfl, rfl, rfl, rfl, rfl⟩
  | succeeded => exact ⟨rfl, rfl, rfl, rfl, rfl, rfl, rfl, rfl, rfl⟩

theorem handleSyncReply_unchanged (status : Status) (response : SyncRes) :
    s.Unchanged (s.handleSyncReply c fs status response) ↔ (status = .ok → response.ack = true →
      response.logs = [] ∧ response.lastInsertedBallot.num = s.ballotNum) := by
  unfold handleSyncReply
  by_cases hack : status = .ok ∧ response.ack = true
  · simp only [hack, and_self, if_true, forall_const]
    rw [syncEntries_eq]
    constructor
    · intro h
      have hlast : s.lastInserted + response.logs.length = s.lastInserted := h.lastInserted
      exact ⟨List.length_eq_zero_iff.mp (by omega), h.ballotNum⟩
    · rintro ⟨hlogs, hnum⟩
      rw [hlogs]
      exact ⟨rfl, rfl, rfl, rfl, hnum, rfl, rfl, rfl, add_zero _⟩
  · have hnever : ¬ (status = .ok ∧ response.ack = true) := hack
    simp only [hack, if_false]
    exact ⟨fun _ hok hacked => absurd ⟨hok, hacked⟩ hnever,
      fun _ => ⟨rfl, rfl, rfl, rfl, rfl, rfl, rfl, rfl, rfl⟩⟩

/-- One handler of a disconnected server. -/
theorem handle_unchanged (hdisc : s.iAmDisconnected = true) (fs : FileSystem) (input : Input) :
    s.Unchanged (s.handle c fs input) ↔ s.Idles c (input, fs) := by
  cases input with
  | request r =>
    cases r with
    | transfer request => exact runPaxos_unchanged
    | tpcPrepare request => exact runPaxos_unchanged
    | tpcCommit request =>
      refine iff_of_true ?_ trivial
      show s.Unchanged (s.processTpcDecision c fs request true)
      rw [processTpcDecision_disconnected request true hdisc]
      exact .refl s
    | tpcAbort request =>
      refine iff_of_true ?_ trivial
      show s.Unchanged (s.processTpcDecision c fs request false)
      rw [processTpcDecision_disconnected request false hdisc]
      exact .refl s
    | prepare request =>
      refine iff_of_true ?_ trivial
      show s.Unchanged (s.processPrepareCall request).server
      rw [processPrepareCall, if_pos hdisc]
      exact .refl s
    | accept request =>
      refine iff_of_true ?_ trivial
      show s.Unchanged (s.processAcceptCall c fs request).server
      rw [processAcceptCall, if_pos hdisc]
      exact .refl s
    | commit request =>
      refine iff_of_true ?_ trivial
      show s.Unchanged (s.processCommitCall c fs request)
      rw [processCommitCall, if_pos hdisc]
      exact .refl s
    | disconnect request => exact iff_of_true ⟨rfl, rfl, rfl, rfl, rfl, rfl, rfl, rfl, rfl⟩ trivial
    | balance request => exact iff_of_true (.refl s) trivial
    | logs => exact iff_of_true (.refl s) trivial
    | sync request => exact iff_of_true (.refl s) trivial
  | reply r status response =>
    cases r with
    | prepare request =>
      have h := handlePrepareReply_unchanged (s := s) status request response.toPrepare
      cases response <;> exact h
    | accept request =>
      refine iff_of_true ?_ trivial
      have h := handleAcceptReply_unchanged (s := s) status request response.toAccept
      cases response <;> exact h
    | sync request =>
      have h : s.Unchanged (s.handleSyncReply c fs status response.toSync) ↔ _ :=
        handleSyncReply_unchanged status response.toSync
      cases response <;> exact h
    | _ => exact iff_of_true (.refl s) trivial

/-! ### Runs -/

/-- Only a DisconnectReq changes the flag. -/
theorem Acted.iAmDisconnected {input : Input} {r : Handled} (h : Acted c fs s input r)
    (hne : ∀ request, input ≠ .request (.disconnect request)) :
    r.server.iAmDisconnected = s.iAmDisconnected := by
  cases h with
  | disconnected request => exact absurd rfl (hne request)
  | _ => rfl

theorem StaysDisconnected.handle (h : s.StaysDisconnected c e) (hdisc : s.iAmDisconnected = true) :
    (s.handle c e.2 e.1).iAmDisconnected = true := by
  obtain ⟨input, fs⟩ := e
  by_cases hrequest : ∃ request, input = .request (.disconnect request)
  · obtain ⟨request, rfl⟩ := hrequest
    obtain ⟨name, hname, hid⟩ : s.Names c request := h
    exact List.any_eq_true.mpr ⟨name, hname, decide_eq_true hid⟩
  · have hacted : Acted c fs s input _ := react_acted input
    exact (hacted.iAmDisconnected fun request heq => hrequest ⟨request, heq⟩).trans hdisc

/-- From a DisconnectReq that names it, a server stays as it is until the next one that does not
exactly as long as its own polls and the replies to its own calls are idle. -/
theorem disconnected_inert_iff (c : Constants) (s : Server) {request : DisconnectReq}
    (hnames : s.Names c request) {es : List (Input × FileSystem)} {t : Server}
    (h : Runs (step c) (StaysDisconnected c) (s.processDisconnectCall c request) es t) :
    Throughout (step c) (Unchanged s) (s.processDisconnectCall c request) es ↔
      Runs (step c) (Idles c) (s.processDisconnectCall c request) es t := by
  obtain ⟨name, hname, hid⟩ := hnames
  have hdisc : (s.processDisconnectCall c request).iAmDisconnected = true :=
    List.any_eq_true.mpr ⟨name, hname, decide_eq_true hid⟩
  apply h.throughout_iff (J := fun t => t.iAmDisconnected = true)
    ⟨rfl, rfl, rfl, rfl, rfl, rfl, rfl, rfl, rfl⟩ hdisc
  · intro s e t hs hstays hstep
    obtain rfl := Option.some.inj hstep
    exact hstays.handle hs
  · intro t e u ht hsame hstep
    obtain rfl := Option.some.inj hstep
    rw [hsame.trans_iff]
    exact handle_unchanged ht e.2 e.1

/-- Server 1 is disconnected. -/
def disconnectFirst : DisconnectReq := ⟨["S1".toList]⟩

/-- What reaches server 1 while it is disconnected in the round of tid 1. -/
def ignoredInputs : List (Input × FileSystem) :=
  [.request (.transfer ⟨⟨3, 4, 2⟩, 2⟩),
    .reply (.prepare ⟨⟨1, 1⟩, -1⟩) .ok (.prepare { ack := true, ballot := ⟨1, 1⟩ }),
    .request (.prepare ⟨⟨2, 2⟩, -1⟩),
    .request (.accept ⟨⟨2, 2⟩, ⟨⟨3, 4, 2⟩, 2⟩⟩),
    .request (.commit ⟨⟨2, 2⟩⟩),
    .request (.tpcCommit ⟨2⟩)].map fun input => (input, .allOpen)

theorem disconnected_inert_ignored :
    Throughout (step .standard)
      (Unchanged ((init .standard 1 .empty).startRound ⟨⟨1, 2, 3⟩, 1⟩).server)
      (((init .standard 1 .empty).startRound ⟨⟨1, 2, 3⟩, 1⟩).server.processDisconnectCall .standard
        disconnectFirst) ignoredInputs := by
  obtain ⟨t, ht, -⟩ := (Option.any_eq_true _ _).mp
    (show (runIf (step .standard) (Idles .standard)
      (((init .standard 1 .empty).startRound ⟨⟨1, 2, 3⟩, 1⟩).server.processDisconnectCall .standard
        disconnectFirst) ignoredInputs).any (fun t => decide (t.prepareSuccesses = 2)) = true by
      decide +kernel)
  have hrun := runs_of_runIf ht
  refine (disconnected_inert_iff .standard _ (by decide +kernel)
    ((runs_of_forall (P := fun e => ∀ request, e.1 ≠ .request (.disconnect request)) hrun.run_eq
      (by simp [ignoredInputs])).mono ?_)).mpr hrun
  rintro s ⟨input, fs⟩ hne
  unfold StaysDisconnected
  split
  · rename_i request heq
    exact absurd heq (hne request)
  · trivial

/-- A disconnected server opens a round for the first transfer it is asked for. -/
theorem not_disconnected_inert_transfer :
    ¬ Throughout (step .standard) (Unchanged (init .standard 1 .empty))
      ((init .standard 1 .empty).processDisconnectCall .standard disconnectFirst)
      [(.request (.transfer ⟨⟨1, 2, 3⟩, 1⟩), .allOpen)] := by
  intro h
  have hnum := (h _ [] _ (List.append_nil _).symm rfl).ballotNum
  exact absurd hnum (by decide +kernel)

end Server
end TpcBank
