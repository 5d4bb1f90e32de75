import TpcBank.LogEffects

/-! What is left of an operation whose WAL file does not open. A decision leaves everything as it
was; the other writers of the log go on with the entry that stands for the failure, or with an
entry that is in no file. -/
namespace TpcBank
open Decimal

namespace Server

variable {c : Constants} {fs : FileSystem} {s t : Server}

/-- The Accept is taken. -/
def Accepts (s : Server) (request : AcceptReq) : Prop :=
  s.iAmDisconnected = false ∧ s.promised = true ∧ request.ballot.num = s.promisedNum.num

/-- The operations that write to the WAL: the polls and the calls in which a leader or a follower
prepares or commits, the decisions, and each turn of the loop over synchronized entries. -/
inductive WalOperation
  | poll (isCrossShard : Bool) (request : TransferReq)
  | accept (request : AcceptReq)
  | commit (request : CommitReq)
  | decision (isCommit : Bool) (request : TpcTid)
  | insert (e : LogEntry)

namespace WalOperation

def perform (c : Constants) (fs : FileSystem) (s : Server) : WalOperation → Handled
  | poll isCrossShard request => s.runPaxos c fs request isCrossShard
  | accept request => s.processAcceptCall c fs request
  | commit request => ⟨s.processCommitCall c fs request, some .empty, []⟩
  | decision isCommit request => ⟨s.processTpcDecision c fs request isCommit, some .empty, []⟩
  | insert e => ⟨s.syncEntry c (fs.opens 0) e, none, []⟩

/-- The operation comes to append to the file, and the file does not open. -/
def AppendFails (c : Constants) (fs : FileSystem) (s : Server) : WalOperation → Prop
  | poll false request => s.Commits request ∧ fs.opens 0 = false
  | poll true request => s.Proposes c request ∧ fs.opens 0 = false
  | accept request => (s.Accepts request ∧ s.inCluster c request.r.txn = 1) ∧ fs.opens 0 = false
  | commit request =>
      (s.Releases request ∧ s.inCluster c s.acceptVal.txn = 2) ∧ fs.opens 0 = false
  | decision _ request => (s.iAmDisconnected = false ∧ s.wal.transferIndex request.tid ≠ none) ∧
      fs.opens 1 = false
  | insert _ => fs.opens 0 = false

end WalOperation

/-! ### The property -/

/-- The log, the balances, the locks and the indices are as they were, and the answer is not that
the transfer is done. -/
structure Intact (s : Server) (r : Handled) : Prop where
  log : r.server.log = s.log
  balances : r.server.balances = s.balances
  locks : r.server.locks = s.locks
  lastInserted : r.server.lastInserted = s.lastInserted
  transferIndex : r.server.wal.transferIndex = s.wal.transferIndex
  unanswered : ∀ tid, r.response ≠ transferRes true tid

/-- An entry added to the log is recorded at the end of the file. -/
def Written (s t : Server) : Prop :=
  ∀ e, t.log = s.log ++ [e] → t.wal.HoldsAt s.wal.walFile.length e

/-- A failed append leaves the server intact, and nothing is logged that is not recorded. -/
def SurvivesFailure (c : Constants) (fs : FileSystem) (s : Server) (op : WalOperation) : Prop :=
  (op.AppendFails c fs s → s.Intact (op.perform c fs s)) ∧ s.Written (op.perform c fs s).server

/-- No append fails but that of a decision, at a server that does not hold client -1 locked as one
of its own; and a decision reads back an entry of its own tid, or none. -/
def Spared (c : Constants) (fs : FileSystem) (s : Server) : WalOperation → Prop
  | .decision _ request => s.iAmDisconnected = false →
      ∀ position, s.wal.transferIndex request.tid = some position →
        if fs.opens 1 then (s.wal.getTransactionFromFile fs position).tid = request.tid ∨
          (s.wal.getTransactionFromFile fs position).tid = -1
        else c.getClusterIdFromClientId (-1) = s.clusterId → -1 ∉ s.locks
  | op => ¬ op.AppendFails c fs s

/-! ### Logs and records -/

theorem written_of_log (h : t.log = s.log) : s.Written t := by
  intro e he
  rw [h] at he
  simp at he

theorem written_of_append {entry : WALEntry} (hlog : t.log = s.log ++ [entry])
    (hwal : t.wal.HoldsAt s.wal.walFile.length entry) : s.Written t := by
  intro e he
  rw [hlog, List.append_cancel_left_eq, List.singleton_inj] at he
  exact he ▸ hwal

theorem not_intact_of_append {r : Handled} {entry : WALEntry}
    (h : r.server.log = s.log ++ [entry]) : ¬ s.Intact r := by
  intro hintact
  have hlog := hintact.log
  rw [h] at hlog
  simp at hlog

/-- An operation that adds an entry whether or not the file opens. -/
theorem survives_iff {op : WalOperation} (hfails : op.AppendFails c fs s →
      ∃ e, (op.perform c fs s).server.log = s.log ++ [e])
    (hwritten : ¬ op.AppendFails c fs s → s.Written (op.perform c fs s).server) :
    s.SurvivesFailure c fs op ↔ ¬ op.AppendFails c fs s := by
  constructor
  · rintro ⟨hintact, -⟩ h
    obtain ⟨e, he⟩ := hfails h
    exact not_intact_of_append he (hintact h)
  · intro h
    exact ⟨fun hf => absurd hf h, hwritten h⟩

end Server

namespace WAL

variable {fs : FileSystem} {w : WAL}

theorem prepareTransaction_holds (hopen : fs.opens 0 = true) (request : TransferReq)
    (ballot : Ballot) : (w.prepareTransaction fs request ballot).1.HoldsAt w.walFile.length
      (w.prepareTransaction fs request ballot).2 := by
  have hc : ∀ d ∈ "CS_PREPARE".toList, d.isWhitespace = false := by simp
  unfold prepareTransaction
  rw [hopen]
  exact holdsAt_end (w := w.setIndex request.tid _) (by decide) hc

theorem commitTransaction_holds (hopen : fs.opens 0 = true) (request : TransferReq)
    (ballot : Ballot) : (w.commitTransaction fs request ballot).1.HoldsAt w.walFile.length
      (w.commitTransaction fs request ballot).2 := by
  have hc : ∀ d ∈ "IN_COMMIT".toList, d.isWhitespace = false := by simp
  unfold commitTransaction
  rw [if_pos hopen]
  exact holdsAt_end (by decide) hc

theorem insertEntry_holds (e : WALEntry) : (w.insertEntry true e).HoldsAt w.walFile.length e := by
  obtain ⟨hne, hc⟩ := entryTag_word e
  unfold insertEntry
  rw [if_pos rfl]
  cases e.status with
  | prepared => exact holdsAt_end (w := w.setIndex e.tid _) hne hc
  | committed => exact holdsAt_end (w := w.setIndex e.tid none) hne hc
  | aborted => exact holdsAt_end (w := w.setIndex e.tid none) hne hc
  | noStatus => exact holdsAt_end hne hc

/-- The position determines what is recorded there. -/
theorem HoldsAt.tid_eq {position : ℤ} {e e' : WALEntry} (h : w.HoldsAt position e)
    (h' : w.HoldsAt position e') : e.tid = e'.tid := by
  have htid := congrArg WALEntry.tid (Option.some.inj (h.recordAt.symm.trans h'.recordAt))
  exact htid

end WAL

namespace Server

variable {c : Constants} {fs : FileSystem} {s t : Server}

/-! ### The operations, one by one -/

theorem prepareTransaction_written (hopen : fs.opens 0 = true) {request : TransferReq}
    {ballot : Ballot} (hlog : t.log = s.log ++ [(s.wal.prepareTransaction fs request ballot).2])
    (hwal : t.wal = (s.wal.prepareTransaction fs request ballot).1) : s.Written t := by
  apply written_of_append hlog
  rw [hwal]
  exact WAL.prepareTransaction_holds hopen request ballot

theorem commitTransaction_written (hopen : fs.opens 0 = true) {request : TransferReq}
    {ballot : Ballot} (hlog : t.log = s.log ++ [(s.wal.commitTransaction fs request ballot).2])
    (hwal : t.wal = (s.wal.commitTransaction fs request ballot).1) : s.Written t := by
  apply written_of_append hlog
  rw [hwal]
  exact WAL.commitTransaction_holds hopen request ballot

/-- Only a commit of a transfer and the accept phase of a cross-shard prepare write the log. -/
theorem runPaxos_log {request : TransferReq} {isCrossShard : Bool}
    (h : if isCrossShard then ¬ s.Proposes c request else ¬ s.Commits request) :
    (s.runPaxos c fs request isCrossShard).server.log = s.log := by
  have hresult : PollResult c fs s request isCrossShard _ := runPaxos_result request isCrossShard
  generalize s.runPaxos c fs request isCrossShard = r at hresult ⊢
  cases hresult with
  | retry => rfl
  | opened => rfl
  | rejected => rfl
  | accepting hown hprep hmaj hcond =>
    simp only [startAccept, lockItems_eq]
    cases isCrossShard with
    | true => exact absurd ⟨hown, hprep, hmaj, hcond⟩ h
    | false => rfl
  | committed hown hprep hacc hmaj =>
    cases isCrossShard with
    | true => rfl
    | false => exact absurd ⟨hown, hprep, hacc, hmaj⟩ h
  | failed => cases isCrossShard <;> rfl

theorem transfer_survives (request : TransferReq) :
    s.SurvivesFailure c fs (.poll false request) ↔
      ¬ (WalOperation.poll false request).AppendFails c fs s := by
  have hcommit : s.Commits request → (s.runPaxos c fs request false).server = _ := fun hcommits =>
    (congrArg Handled.server (runPaxos_of_commits hcommits false)).trans (finishCommit_intra request)
  apply survives_iff
  · rintro ⟨hcommits, -⟩
    exact ⟨_, congrArg Server.log (hcommit hcommits)⟩
  · intro hneg
    by_cases hcommits : s.Commits request
    · have hopen : fs.opens 0 = true := by
        by_contra hclosed
        exact hneg ⟨hcommits, by simpa using hclosed⟩
      exact commitTransaction_written hopen (congrArg Server.log (hcommit hcommits))
        (congrArg Server.wal (hcommit hcommits))
    · exact written_of_log (runPaxos_log hcommits)

theorem tpcPrepare_survives (request : TransferReq) :
    s.SurvivesFailure c fs (.poll true request) ↔
      ¬ (WalOperation.poll true request).AppendFails c fs s := by
  have hprepare : s.Proposes c request → (s.runPaxos c fs request true).server.log =
      s.log ++ [(s.wal.prepareTransaction fs request s.promisedNum).2] ∧
      (s.runPaxos c fs request true).server.wal =
        (s.wal.prepareTransaction fs request s.promisedNum).1 := by
    intro hproposes
    rw [runPaxos_of_proposes hproposes]
    simp only [startAccept, lockItems_eq, prepareTransaction_eq, if_true]
    exact ⟨rfl, trivial⟩
  apply survives_iff
  · rintro ⟨hproposes, -⟩
    exact ⟨_, (hprepare hproposes).1⟩
  · intro hneg
    by_cases hproposes : s.Proposes c request
    · have hopen : fs.opens 0 = true := by
        by_contra hclosed
        exact hneg ⟨hproposes, by simpa using hclosed⟩
      exact prepareTransaction_written hopen (hprepare hproposes).1 (hprepare hproposes).2
    · exact written_of_log (runPaxos_log hproposes)

theorem accept_survives (request : AcceptReq) :
    s.SurvivesFailure c fs (.accept request) ↔
      ¬ (WalOperation.accept request).AppendFails c fs s := by
  have haccept : s.Accepts request → (s.processAcceptCall c fs request).server =
      s.acceptRequest c fs request := by
    rintro ⟨hconn, hprom, hnum⟩
    unfold processAcceptCall
    rw [if_neg (by simp [hconn]), if_pos ⟨hprom, hnum⟩]
  have hprepare : s.Accepts request ∧ s.inCluster c request.r.txn = 1 →
      (s.processAcceptCall c fs request).server.log =
        s.log ++ [(s.wal.prepareTransaction fs request.r request.ballot).2] ∧
      (s.processAcceptCall c fs request).server.wal =
        (s.wal.prepareTransaction fs request.r request.ballot).1 := by
    rintro ⟨haccepts, hone⟩
    rw [haccept haccepts, acceptRequest_eq]
    simp only [hone, if_true, prepareTransaction_eq]
    exact ⟨rfl, trivial⟩
  apply survives_iff
  · rintro ⟨hprepares, -⟩
    exact ⟨_, (hprepare hprepares).1⟩
  · intro hneg
    by_cases hprepares : s.Accepts request ∧ s.inCluster c request.r.txn = 1
    · have hopen : fs.opens 0 = true := by
        by_contra hclosed
        exact hneg ⟨hprepares, by simpa using hclosed⟩
      exact prepareTransaction_written hopen (hprepare hprepares).1 (hprepare hprepares).2
    · apply written_of_log
      have hresult : AcceptResult c fs s request _ := processAcceptCall_result request
      show (s.processAcceptCall c fs request).server.log = s.log
      generalize s.processAcceptCall c fs request = r at hresult ⊢
      cases hresult with
      | refused => rfl
      | accepted hconn hprom hnum =>
        have hother : s.inCluster c request.r.txn ≠ 1 := fun hone =>
          hprepares ⟨⟨hconn, hprom, hnum⟩, hone⟩
        rw [acceptRequest_eq]
        simp only [hother, if_false]

theorem commit_survives (request : CommitReq) :
    s.SurvivesFailure c fs (.commit request) ↔
      ¬ (WalOperation.commit request).AppendFails c fs s := by
  have hcommit : s.Releases request ∧ s.inCluster c s.acceptVal.txn = 2 →
      (s.processCommitCall c fs request).log =
        s.log ++ [(s.wal.commitTransaction fs s.acceptVal s.acceptNum).2] ∧
      (s.processCommitCall c fs request).wal =
        (s.wal.commitTransaction fs s.acceptVal s.acceptNum).1 := by
    rintro ⟨hreleases, htwo⟩
    rw [processCommitCall_of_releases hreleases, releaseAccepted_intra htwo, commitTransaction_eq]
    exact ⟨rfl, rfl⟩
  apply survives_iff
  · rintro ⟨hcommits, -⟩
    exact ⟨_, (hcommit hcommits).1⟩
  · intro hneg
    by_cases hcommits : s.Releases request ∧ s.inCluster c s.acceptVal.txn = 2
    · have hopen : fs.opens 0 = true := by
        by_contra hclosed
        exact hneg ⟨hcommits, by simpa using hclosed⟩
      exact commitTransaction_written hopen (hcommit hcommits).1 (hcommit hcommits).2
    · apply written_of_log
      have hresult : CommitResult c fs s request _ := processCommitCall_result request
      show (s.processCommitCall c fs request).log = s.log
      generalize s.processCommitCall c fs request = r at hresult ⊢
      cases hresult with
      | ignored => rfl
      | released hconn hprom hacc =>
        rw [releaseAccepted_other fun htwo => hcommits ⟨⟨hconn, hprom, hacc⟩, htwo⟩]

theorem insert_survives (e : LogEntry) :
    s.SurvivesFailure c fs (.insert e) ↔ ¬ (WalOperation.insert e).AppendFails c fs s := by
  apply survives_iff
  · exact fun _ => ⟨_, syncEntry_log _ e⟩
  · intro hneg
    have hopen : fs.opens 0 = true := by
      by_contra hclosed
      exact hneg (by simpa [WalOperation.AppendFails] using hclosed)
    apply written_of_append (syncEntry_log _ e)
    rw [syncEntry_wal, hopen]
    exact WAL.insertEntry_holds _

/-! ### Decisions -/

/-- The not-found entry releases no lock, unless it is one of client -1. -/
theorem sdiff_notFound {locks : Finset ℤ} {clusterId : ℤ} :
    locks \ c.items clusterId WALEntry.notFound.txn = locks ↔
      (c.getClusterIdFromClientId (-1) = clusterId → -1 ∉ locks) := by
  rw [Finset.sdiff_eq_self_iff_disjoint, Finset.disjoint_right]
  constructor
  · intro h hcluster
    exact h (Constants.mem_items.mpr ⟨.inl rfl, hcluster⟩)
  · intro h x hx
    obtain ⟨rfl | rfl, hcluster⟩ := Constants.mem_items.mp hx
    · exact h hcluster
    · exact h hcluster

/-- A decision that gets no entry from the WAL. -/
theorem decision_unfound {isCommit : Bool} {request : TpcTid} (hconn : s.iAmDisconnected = false)
    (hwal : (if isCommit then s.wal.commitTransactionTid fs request
      else s.wal.abortTransaction fs request) = (s.wal, WALEntry.notFound)) :
    (s.processTpcDecision c fs request isCommit).log = s.log ∧
      (s.processTpcDecision c fs request isCommit).balances = s.balances ∧
      (s.processTpcDecision c fs request isCommit).locks =
        s.locks \ c.items s.clusterId WALEntry.notFound.txn ∧
      (s.processTpcDecision c fs request isCommit).lastInserted = s.lastInserted ∧
      (s.processTpcDecision c fs request isCommit).wal = s.wal := by
  rw [processTpcDecision_eq request isCommit hconn, hwal]
  cases isCommit with
  | false => exact ⟨rfl, rfl, rfl, rfl, rfl⟩
  | true => exact ⟨rfl, clusterBalances_notFound _ _, rfl, rfl, rfl⟩

/-- A decision ends a transaction in the WAL, under the command of its kind. -/
theorem decision_command (fs : FileSystem) (s : Server) (isCommit : Bool) (request : TpcTid) :
    ∃ command : Text, command ≠ [] ∧
    (∀ d ∈ command, d.isWhitespace = false) ∧
    (if isCommit then s.wal.commitTransactionTid fs request
      else s.wal.abortTransaction fs request) =
      s.wal.endTransaction command (decision isCommit) fs request := by
  cases isCommit with
  | false => exact ⟨"CS_ABORT".toList, by decide, by simp, rfl⟩
  | true => exact ⟨"CS_COMMIT".toList, by decide, by simp, rfl⟩

/-- The file cannot be opened for reading: no entry is appended, but locks may be released. -/
theorem decision_closed {isCommit : Bool} {request : TpcTid} {position : ℤ}
    (hconn : s.iAmDisconnected = false) (hposition : s.wal.transferIndex request.tid = some position)
    (hopen : fs.opens 1 = false) : s.SurvivesFailure c fs (.decision isCommit request) ↔
      (c.getClusterIdFromClientId (-1) = s.clusterId → -1 ∉ s.locks) := by
  obtain ⟨command, -, -, hw⟩ := decision_command fs s isCommit request
  have hend : s.wal.endTransaction command (decision isCommit) fs request =
      (s.wal, WALEntry.notFound) := by
    simp only [WAL.endTransaction, hposition, hopen, Bool.false_eq_true, if_false]
  obtain ⟨hlog, hbalances, hlocks, hlast, hwal⟩ := decision_unfound (c := c) hconn (hw.trans hend)
  rw [← sdiff_notFound]
  constructor
  · rintro ⟨hintact, -⟩
    have hkept := (hintact ⟨⟨hconn, by simp [hposition]⟩, hopen⟩).locks
    exact hlocks.symm.trans hkept
  · intro hkept
    refine ⟨fun _ => ⟨hlog, hbalances, hlocks.trans hkept, hlast, ?_, ?_⟩, written_of_log hlog⟩
    · exact congrArg WAL.transferIndex hwal
    · intro _ hack
      cases hack

/-- The file can be read: the entry that is appended is the one the decision was written for, or
none is. -/
theorem decision_opened {isCommit : Bool} {request : TpcTid} {position : ℤ}
    (hconn : s.iAmDisconnected = false) (hposition : s.wal.transferIndex request.tid = some position)
    (hopen : fs.opens 1 = true) : s.SurvivesFailure c fs (.decision isCommit request) ↔
      (s.wal.getTransactionFromFile fs position).tid = request.tid ∨
        (s.wal.getTransactionFromFile fs position).tid = -1 := by
  obtain ⟨command, hne, hc, hw⟩ := decision_command fs s isCommit request
  generalize hread : s.wal.getTransactionFromFile fs position = e
  let w := (s.wal.write true command { e with tid := request.tid }).setIndex request.tid none
  have hend : s.wal.endTransaction command (decision isCommit) fs request =
      (w, { e with status := decision isCommit }) := by
    simp only [WAL.endTransaction, hposition, hopen, if_true, hread, w]
  have hafter : (s.processTpcDecision c fs request isCommit).log =
        (if e.tid ≠ -1 then s.log ++ [{ e with status := decision isCommit }] else s.log) ∧
      (s.processTpcDecision c fs request isCommit).wal = w := by
    rw [processTpcDecision_eq request isCommit hconn, hw, hend]
    cases isCommit <;> exact ⟨rfl, rfl⟩
  have hholds : w.HoldsAt s.wal.walFile.length { e with tid := request.tid } :=
    (WAL.holdsAt_end hne hc : (s.wal.write true command _).HoldsAt (s.wal.tellp true) _)
  obtain ⟨hlog, hwal⟩ := hafter
  constructor
  · rintro ⟨-, hwritten⟩
    by_contra hneither
    obtain ⟨htid, hfound⟩ := not_or.mp hneither
    rw [if_pos hfound] at hlog
    have hentry := hwritten _ hlog
    rw [show ((WalOperation.decision isCommit request).perform c fs s).server.wal = w from hwal]
      at hentry
    exact htid (hentry.tid_eq hholds)
  · intro hor
    refine ⟨fun hfails => absurd (hopen.symm.trans hfails.2) (by decide), ?_⟩
    by_cases hfound : e.tid = -1
    · rw [if_neg (not_not.mpr hfound)] at hlog
      exact written_of_log hlog
    · rw [if_pos hfound] at hlog
      apply written_of_append hlog
      rw [hwal]
      have htid : e.tid = request.tid := hor.resolve_right hfound
      rw [← htid] at hholds
      exact hholds

theorem decision_survives (isCommit : Bool) (request : TpcTid) :
    s.SurvivesFailure c fs (.decision isCommit request) ↔
      s.Spared c fs (.decision isCommit request) := by
  by_cases hdisc : s.iAmDisconnected = true
  · have hsame : (s.processTpcDecision c fs request isCommit) = s :=
      processTpcDecision_disconnected request isCommit hdisc
    refine iff_of_true ⟨fun hfails => ?_, written_of_log (congrArg Server.log hsame)⟩ fun hconn => ?_
    · simp [hfails.1.1] at hdisc
    · simp [hconn] at hdisc
  have hconn : s.iAmDisconnected = false := by simpa using hdisc
  cases hposition : s.wal.transferIndex request.tid with
  | none =>
    obtain ⟨command, -, -, hw⟩ := decision_command fs s isCommit request
    have hend : s.wal.endTransaction command (decision isCommit) fs request =
        (s.wal, WALEntry.notFound) := by
      simp only [WAL.endTransaction, hposition]
    obtain ⟨hlog, -⟩ := decision_unfound (c := c) hconn (hw.trans hend)
    refine iff_of_true ⟨fun hfails => absurd hposition hfails.1.2, written_of_log hlog⟩ ?_
    intro _ position hsome
    rw [hposition] at hsome
    cases hsome
  | some position =>
    have hspared : s.Spared c fs (.decision isCommit request) ↔
        if fs.opens 1 then (s.wal.getTransactionFromFile fs position).tid = request.tid ∨
          (s.wal.getTransactionFromFile fs position).tid = -1
        else c.getClusterIdFromClientId (-1) = s.clusterId → -1 ∉ s.locks := by
      constructor
      · exact fun h => h hconn position hposition
      · intro h _ position' hsome
        obtain rfl := Option.some.inj (hposition.symm.trans hsome)
        exact h
    rw [hspared]
    cases hopen : fs.opens 1 with
    | false =>
      rw [if_neg (by decide)]
      exact decision_closed hconn hposition hopen
    | true =>
      rw [if_pos rfl]
      exact decision_opened hconn hposition hopen

/-- An operation leaves the server intact when its append fails, and logs nothing that is not
recorded, exactly in the cases that are spared. -/
theorem survivesFailure_iff (c : Constants) (fs : FileSystem) (s : Server) (op : WalOperation) :
    s.SurvivesFailure c fs op ↔ s.Spared c fs op := by
  cases op with
  | poll isCrossShard request =>
    cases isCrossShard with
    | false => exact transfer_survives request
    | true => exact tpcPrepare_survives request
  | accept request => exact accept_survives request
  | commit request => exact commit_survives request
  | decision isCommit request => exact decision_survives isCommit request
  | insert e => exact insert_survives e

/-- Nothing opens. -/
def noneOpen : FileSystem := { FileSystem.allOpen with opens := fun _ => false }

/-- Server 1 has a majority of accepts for a transfer. -/
def acceptedByMajority : Server :=
  [.request (.transfer ⟨⟨1, 2, 3⟩, 1⟩),
    .reply (.prepare ⟨⟨1, 1⟩, -1⟩) .ok (.prepare { ack := true, ballot := ⟨1, 1⟩ }),
    .request (.transfer ⟨⟨1, 2, 3⟩, 1⟩),
    .reply (.accept ⟨⟨1, 1⟩, ⟨⟨1, 2, 3⟩, 1⟩⟩) .ok (.accept ⟨true, ⟨1, 1⟩⟩)].foldl
      (fun s input => s.handle .standard .allOpen input) (init .standard 1 .empty)

/-- The transfer is answered with `ack = true` though its commit was not recorded. -/
theorem not_survivesFailure_transfer : ¬ acceptedByMajority.SurvivesFailure .standard noneOpen
    (.poll false ⟨⟨1, 2, 3⟩, 1⟩) := by
  rintro ⟨hintact, -⟩
  have hlog := (hintact ⟨by decide +kernel, rfl⟩).log
  have hlength := congrArg List.length hlog
  exact absurd hlength (by decide +kernel)

end Server
end TpcBank
