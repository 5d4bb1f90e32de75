import TpcBank.LogEffects

/-! The undecided transactions of a server: the tids in the index of its WAL, each with the entry
that the log last has for its prepare. The index has them also where the file did not open, so
nothing here depends on what the file holds. -/
namespace TpcBank
open Decimal

/-- A transaction is prepared and undecided: its tid is in the index. -/
def WAL.Has (w : WAL) (tid : ℤ) : Prop := w.transferIndex tid ≠ none

instance (w : WAL) (tid : ℤ) : Decidable (w.Has tid) := inferInstanceAs (Decidable (_ ≠ _))

/-- The entry is a decision of a transaction. -/
def WALEntry.Decides (e : WALEntry) (tid : ℤ) : Prop :=
  e.tid = tid ∧ (e.status = .committed ∨ e.status = .aborted)

namespace WAL

variable {w : WAL} {fs : FileSystem} {tid : ℤ}

theorem has_setIndex_some {tid' position : ℤ} :
    (w.setIndex tid' (some position)).Has tid ↔ tid' = tid ∨ w.Has tid := by
  unfold Has setIndex
  by_cases h : tid = tid'
  · subst h
    simp
  · simp [Function.update_of_ne h, Ne.symm h]

theorem has_setIndex_none {tid' : ℤ} :
    (w.setIndex tid' none).Has tid ↔ tid' ≠ tid ∧ w.Has tid := by
  unfold Has setIndex
  by_cases h : tid = tid'
  · subst h
    simp
  · simp [Function.update_of_ne h, Ne.symm h]

theorem has_write {isOpen : Bool} {command : Text} {e : WALEntry} :
    (w.write isOpen command e).Has tid ↔ w.Has tid := by
  unfold Has
  rw [write_transferIndex]

theorem has_prepareTransaction {request : TransferReq} {ballot : Ballot} :
    (w.prepareTransaction fs request ballot).1.Has tid ↔ request.tid = tid ∨ w.Has tid := by
  unfold prepareTransaction
  rw [has_write, has_setIndex_some]

theorem has_commitTransaction {request : TransferReq} {ballot : Ballot} :
    (w.commitTransaction fs request ballot).1.Has tid ↔ w.Has tid := by
  unfold commitTransaction
  split_ifs
  · dsimp only
    exact has_write
  · exact Iff.rfl

/-- A decision makes nothing undecided, and decides its own transaction if the file opens. -/
theorem has_endTransaction {command : Text} {status : TransactionStatus} {request : TpcTid} :
    (w.endTransaction command status fs request).1.Has tid ↔
      w.Has tid ∧ (fs.opens 1 = true → request.tid ≠ tid) := by
  unfold endTransaction
  cases hi : w.transferIndex request.tid with
  | none =>
    refine ⟨fun h => ⟨h, fun _ htid => ?_⟩, fun h => h.1⟩
    subst htid
    exact h hi
  | some position =>
    dsimp only
    split_ifs with hopen
    · rw [has_setIndex_none, has_write]
      tauto
    · exact ⟨fun h => ⟨h, fun hopen' => absurd hopen' hopen⟩, fun h => h.1⟩

theorem has_insertEntry {e : WALEntry} :
    (w.insertEntry true e).Has tid ↔
      e.tid = tid ∧ e.status = .prepared ∨ w.Has tid ∧ ¬ e.Decides tid := by
  unfold insertEntry WALEntry.Decides
  rw [if_pos rfl]
  dsimp only
  rw [has_write]
  cases e.status with
  | prepared =>
    rw [has_setIndex_some]
    simp
  | committed =>
    rw [has_setIndex_none]
    simp only [reduceCtorEq, and_false, false_or, or_false, and_true]
    tauto
  | aborted =>
    rw [has_setIndex_none]
    simp only [reduceCtorEq, and_false, or_true, and_true, false_or]
    tauto
  | noStatus => simp

end WAL

/-- The last prepared entry of a tid. -/
def lastPrepared (log : List WALEntry) (tid : ℤ) : Option WALEntry :=
  (log.filter fun e => e.tid = tid ∧ e.status = .prepared).getLast?

theorem lastPrepared_snoc (log : List WALEntry) (e : WALEntry) (tid : ℤ) :
    lastPrepared (log ++ [e]) tid =
      if e.tid = tid ∧ e.status = .prepared then some e else lastPrepared log tid := by
  unfold lastPrepared
  by_cases h : e.tid = tid ∧ e.status = .prepared <;> simp [h]

/-- The entries of a list whose opens succeed, counted from `i`. -/
def writtenEntries (fs : FileSystem) : ℕ → List LogEntry → List LogEntry
  | _, [] => []
  | i, e :: es => if fs.opens i then e :: writtenEntries fs (i + 1) es else writtenEntries fs (i + 1) es

namespace WAL

/-- The undecided transaction of a tid, as the log has it. -/
def undecided (w : WAL) (log : List WALEntry) (tid : ℤ) : Option WALEntry :=
  if w.Has tid then lastPrepared log tid else none

/-- Every tid in the index has been prepared. -/
def Logged (w : WAL) (log : List WALEntry) : Prop :=
  ∀ tid, w.Has tid → (lastPrepared log tid).isSome = true

/-- The undecided transactions after a synchronized entry. An entry whose open fails is not put
into the index, but the log has it. -/
def insertUndecided (isOpen : Bool) (undecided : ℤ → Option WALEntry) (e : WALEntry) :
    ℤ → Option WALEntry :=
  match e.status with
  | .prepared =>
      if isOpen || (undecided e.tid).isSome then Function.update undecided e.tid (some e)
      else undecided
  | .committed | .aborted => if isOpen then Function.update undecided e.tid none else undecided
  | .noStatus => undecided

variable {w w' : WAL} {log : List WALEntry} {e : WALEntry}

theorem Logged.isSome_iff (h : w.Logged log) (tid : ℤ) :
    (w.undecided log tid).isSome = true ↔ w.Has tid := by
  unfold undecided
  split_ifs with hhas
  · exact iff_of_true (h tid hhas) hhas
  · exact iff_of_false (by simp) hhas

theorem undecided_congr (hhas : ∀ tid, w'.Has tid ↔ w.Has tid) :
    w'.undecided log = w.undecided log := by
  funext tid
  simp only [undecided, hhas]

theorem undecided_snoc (hstatus : e.status ≠ .prepared) :
    w.undecided (log ++ [e]) = w.undecided log := by
  funext tid
  simp only [undecided, lastPrepared_snoc, hstatus, and_false, if_false]

theorem undecided_prepared (hstatus : e.status = .prepared)
    (hhas : ∀ tid, w'.Has tid ↔ e.tid = tid ∨ w.Has tid) :
    w'.undecided (log ++ [e]) = Function.update (w.undecided log) e.tid (some e) := by
  funext tid
  simp only [undecided, lastPrepared_snoc, hhas, hstatus, and_true]
  by_cases ht : e.tid = tid
  · subst ht
    simp
  · simp [undecided, ht, Function.update_of_ne (Ne.symm ht)]

theorem undecided_forget {tid : ℤ} (hhas : ∀ tid', w'.Has tid' ↔ w.Has tid' ∧ tid ≠ tid') :
    w'.undecided log = Function.update (w.undecided log) tid none := by
  funext tid'
  simp only [undecided, hhas]
  by_cases ht : tid = tid'
  · subst ht
    simp
  · simp [undecided, ht, Function.update_of_ne (Ne.symm ht)]

theorem Logged.snoc (h : w.Logged log) (e : WALEntry)
    (hhas : ∀ tid, w'.Has tid → w.Has tid ∨ e.tid = tid ∧ e.status = .prepared) :
    w'.Logged (log ++ [e]) := by
  intro tid htid
  rw [lastPrepared_snoc]
  split_ifs with hlast
  · rfl
  · exact h tid ((hhas tid htid).resolve_right hlast)

theorem Logged.sub (h : w.Logged log) (hhas : ∀ tid, w'.Has tid → w.Has tid) : w'.Logged log :=
  fun tid htid => h tid (hhas tid htid)

theorem Logged.insertEntry (h : w.Logged log) (isOpen : Bool) (e : WALEntry) :
    (w.insertEntry isOpen e).Logged (log ++ [e]) := by
  refine h.snoc e fun tid htid => ?_
  cases isOpen with
  | false => exact .inl htid
  | true => exact (has_insertEntry.mp htid).symm.imp_left And.left

theorem Logged.undecided_insertEntry (h : w.Logged log) (isOpen : Bool) (e : WALEntry) :
    (w.insertEntry isOpen e).undecided (log ++ [e]) =
      insertUndecided isOpen (w.undecided log) e := by
  unfold insertUndecided
  cases isOpen with
  | false =>
    show w.undecided (log ++ [e]) = _
    cases hs : e.status with
    | prepared =>
      simp only [Bool.false_or, h.isSome_iff]
      split_ifs with hhas
      · refine undecided_prepared hs fun tid => ⟨.inr, ?_⟩
        rintro (rfl | htid)
        · exact hhas
        · exact htid
      · funext tid
        simp only [undecided, lastPrepared_snoc]
        by_cases ht : e.tid = tid
        · subst ht
          simp [hhas]
        · simp [ht]
    | committed => exact undecided_snoc (by simp [hs])
    | aborted => exact undecided_snoc (by simp [hs])
    | noStatus => exact undecided_snoc (by simp [hs])
  | true =>
    have hhas : ∀ tid, (w.insertEntry true e).Has tid ↔
        e.tid = tid ∧ e.status = .prepared ∨ w.Has tid ∧ ¬ e.Decides tid := fun _ => has_insertEntry
    unfold WALEntry.Decides at hhas
    cases hs : e.status with
    | prepared =>
      refine undecided_prepared hs fun tid => ?_
      simp [hhas, hs]
    | committed =>
      rw [undecided_snoc (by simp [hs])]
      refine undecided_forget fun tid => ?_
      simp [hhas, hs]
    | aborted =>
      rw [undecided_snoc (by simp [hs])]
      refine undecided_forget fun tid => ?_
      simp [hhas, hs]
    | noStatus =>
      rw [undecided_snoc (by simp [hs])]
      refine undecided_congr fun tid => ?_
      simp [hhas, hs]

end WAL

namespace Server

variable {c : Constants} {fs : FileSystem} {s : Server} {input : Input} {tid : ℤ}

/-- The undecided transactions of a server. -/
def undecided (s : Server) : ℤ → Option WALEntry := s.wal.undecided s.log

/-- The undecided transactions after a list of synchronized entries. -/
def syncUndecided (fs : FileSystem) : ℕ → (ℤ → Option WALEntry) → List LogEntry →
    ℤ → Option WALEntry
  | _, undecided, [] => undecided
  | i, undecided, e :: logs =>
      syncUndecided fs (i + 1)
        (WAL.insertUndecided (fs.opens i) undecided (fromLogEntry e)) logs

/-- What is undecided after a synchronization was so before, or came with it. -/
theorem syncUndecided_cases {i : ℕ} {logs : List LogEntry} {undecided : ℤ → Option WALEntry}
    {e : WALEntry} (h : syncUndecided fs i undecided logs tid = some e) :
    undecided tid = some e ∨ ∃ entry ∈ logs, e = fromLogEntry entry := by
  induction logs generalizing i undecided with
  | nil => exact .inl h
  | cons entry logs ih =>
    rcases ih h with hold | ⟨entry', hmem, rfl⟩
    · have hsame : ∀ {o : Option WALEntry}, Function.update undecided (fromLogEntry entry).tid o tid =
          some e → undecided tid = some e ∨ o = some e := by
        intro o ho
        by_cases ht : tid = (fromLogEntry entry).tid
        · subst ht
          rw [Function.update_self] at ho
          exact .inr ho
        · rw [Function.update_of_ne ht] at ho
          exact .inl ho
      unfold WAL.insertUndecided at hold
      cases hs : (fromLogEntry entry).status <;> simp only [hs] at hold
      case prepared =>
        split_ifs at hold
        · rcases hsame hold with hold | heq
          · exact .inl hold
          · exact .inr ⟨entry, List.mem_cons_self, (Option.some.inj heq).symm⟩
        · exact .inl hold
      case noStatus => exact .inl hold
      all_goals
        split_ifs at hold
        · exact .inl ((hsame hold).resolve_right (by simp))
        · exact .inl hold
    · exact .inr ⟨entry', List.mem_cons_of_mem _ hmem, rfl⟩

theorem has_processTpcDecision {request : TpcTid} {isCommit : Bool}
    (hconn : s.iAmDisconnected = false) :
    (s.processTpcDecision c fs request isCommit).wal.Has tid ↔
      s.wal.Has tid ∧ (fs.opens 1 = true → request.tid ≠ tid) := by
  rw [processTpcDecision_eq request isCommit hconn]
  cases isCommit <;> exact WAL.has_endTransaction

theorem prepareTransaction_undecided (fs : FileSystem) (s : Server) (request : TransferReq)
    (ballot : Ballot) :
    (s.prepareTransaction fs request ballot).undecided =
      Function.update s.undecided request.tid (some (preparedEntry request ballot)) :=
  WAL.undecided_prepared (e := preparedEntry request ballot) rfl
    fun _ => WAL.has_prepareTransaction

theorem commitTransaction_undecided (fs : FileSystem) (s : Server) (request : TransferReq)
    (ballot : Ballot) : (s.commitTransaction fs request ballot).undecided = s.undecided := by
  rw [commitTransaction_eq]
  have hstatus : (s.wal.commitTransaction fs request ballot).2.status ≠ .prepared := by
    unfold WAL.commitTransaction
    split_ifs <;> simp [WALEntry.notFound]
  exact (WAL.undecided_snoc hstatus).trans (WAL.undecided_congr fun _ => WAL.has_commitTransaction)

theorem endTransaction_status (command : Text) {status : TransactionStatus}
    (hstatus : status ≠ .prepared) (w : WAL) (request : TpcTid) :
    (w.endTransaction command status fs request).2.status ≠ .prepared := by
  unfold WAL.endTransaction
  split
  · simp [WALEntry.notFound]
  · dsimp only
    split_ifs
    · exact hstatus
    · simp [WALEntry.notFound]

/-- A decision forgets its transaction if the file opens. -/
theorem processTpcDecision_undecided (hconn : s.iAmDisconnected = false) (request : TpcTid)
    (isCommit : Bool) :
    (s.processTpcDecision c fs request isCommit).undecided =
      if fs.opens 1 then Function.update s.undecided request.tid none else s.undecided := by
  have hw : ∃ command, (if isCommit then s.wal.commitTransactionTid fs request
      else s.wal.abortTransaction fs request) =
        s.wal.endTransaction command (decision isCommit) fs request := by
    cases isCommit <;> exact ⟨_, rfl⟩
  obtain ⟨command, hw⟩ := hw
  have hstatus : decision isCommit ≠ .prepared := by cases isCommit <;> decide
  have heq : s.processTpcDecision c fs request isCommit = _ :=
    processTpcDecision_eq request isCommit hconn
  rw [hw] at heq
  have hlog : (s.processTpcDecision c fs request isCommit).undecided =
      (s.processTpcDecision c fs request isCommit).wal.undecided s.log := by
    have hsame : (s.processTpcDecision c fs request isCommit).log = s.log ∨
        (s.processTpcDecision c fs request isCommit).log = s.log ++
          [(s.wal.endTransaction command (decision isCommit) fs request).2] := by
      rw [heq]
      cases isCommit <;> dsimp only [applyTxn] <;> split_ifs <;> simp
    unfold undecided
    rcases hsame with hsame | hsame
    · rw [hsame]
    · rw [hsame]
      exact WAL.undecided_snoc (endTransaction_status command hstatus _ _)
  rw [hlog]
  split_ifs with hopen
  · refine WAL.undecided_forget fun tid => ?_
    rw [has_processTpcDecision hconn]
    simp [hopen]
  · refine WAL.undecided_congr fun tid => ?_
    rw [has_processTpcDecision hconn]
    simp [hopen]

theorem syncEntries_undecided (i : ℕ) (logs : List LogEntry) (h : s.wal.Logged s.log) :
    (s.syncEntries c fs i logs).wal.Logged (s.syncEntries c fs i logs).log ∧
      (s.syncEntries c fs i logs).undecided = syncUndecided fs i s.undecided logs := by
  induction logs generalizing i s with
  | nil => exact ⟨h, rfl⟩
  | cons e logs ih =>
    have hlogged := h.insertEntry (fs.opens i) (fromLogEntry e)
    have hundecided := h.undecided_insertEntry (fs.opens i) (fromLogEntry e)
    rw [← syncEntry_wal (c := c), ← syncEntry_log (c := c) (fs.opens i) e] at hlogged hundecided
    obtain ⟨htail, hlast⟩ := ih (s := s.syncEntry c (fs.opens i) e) (i + 1) hlogged
    refine ⟨htail, ?_⟩
    rw [syncEntries, hlast, undecided, hundecided]
    rfl

/-- Every handler keeps the index within what the log has prepared. -/
theorem Acted.logged {r : Handled} (h : Acted c fs s input r) (hlogged : s.wal.Logged s.log) :
    r.server.wal.Logged r.server.log := by
  have heffect := h.effect
  rw [← data_wal r.server, ← data_log r.server]
  generalize r.response = response, r.server.data = d at heffect
  cases heffect with
  | kept => exact hlogged
  | leaderPrepared request =>
    refine hlogged.snoc _ fun tid htid => ?_
    exact (WAL.has_prepareTransaction.mp htid).symm.imp_right fun ht => ⟨ht, rfl⟩
  | followerPrepared request =>
    refine hlogged.snoc _ fun tid htid => ?_
    exact (WAL.has_prepareTransaction.mp htid).symm.imp_right fun ht => ⟨ht, rfl⟩
  | leaderCommitted request =>
    rw [commitTransaction_eq]
    exact hlogged.snoc _ fun tid htid => .inl (WAL.has_commitTransaction.mp htid)
  | followerCommitted =>
    rw [commitTransaction_eq]
    exact hlogged.snoc _ fun tid htid => .inl (WAL.has_commitTransaction.mp htid)
  | decided request isCommit response hconn =>
    have hsub : ∀ tid, (s.processTpcDecision c fs request isCommit).wal.Has tid → s.wal.Has tid :=
      fun tid htid => ((has_processTpcDecision hconn).mp htid).1
    have hlog : (s.processTpcDecision c fs request isCommit).log = s.log ∨
        ∃ e, (s.processTpcDecision c fs request isCommit).log = s.log ++ [e] := by
      rw [processTpcDecision_eq request isCommit hconn]
      cases isCommit <;> dsimp only [applyTxn] <;> split_ifs <;> simp
    rw [data_wal, data_log]
    rcases hlog with hlog | ⟨e, hlog⟩
    · rw [hlog]
      exact hlogged.sub hsub
    · rw [hlog]
      exact hlogged.snoc e fun tid htid => .inl (hsub tid htid)
  | synced request response => exact (syncEntries_undecided 0 response.logs hlogged).1

end Server
end TpcBank
