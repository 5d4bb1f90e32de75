import TpcBank.Utils

/-! The write-ahead log of `wal.cc`: a text file of records and an index from the tid of
every undecided prepared transaction to the position of its record. -/
namespace TpcBank
open Decimal

structure WAL where
  walFile : Text
  transferIndex : ℤ → Option ℤ

/-- The entry returned when a transaction is not found or the file cannot be opened. -/
def WALEntry.notFound : WALEntry :=
  ⟨-1, -1, -1, ⟨-1, -1, -1⟩, .cross, .noStatus⟩

/-- One line of the file. -/
def record (command : Text) (e : WALEntry) : Text :=
  command ++ ' ' :: decimal e.tid ++ ' ' :: decimal e.ballotNum ++ ' ' :: decimal e.ballotServerId ++
    ' ' :: decimal e.txn.sender ++ ' ' :: decimal e.txn.receiver ++ ' ' :: decimal e.txn.amount ++
    ['\n']

/-- `iss >> command >> tid >> ballot_num >> ballot_server_id >> sender >> receiver >> amount`. -/
def parseRecord (line : Text) : Option WALEntry := do
  let (_, line) ← readWord line
  let (tid, line) ← readInt line
  let (ballotNum, line) ← readInt line
  let (ballotServerId, line) ← readInt line
  let (sender, line) ← readInt line
  let (receiver, line) ← readInt line
  let (amount, _) ← readInt line
  some ⟨tid, ballotNum, ballotServerId, ⟨sender, receiver, amount⟩, .cross, .prepared⟩

namespace WAL

/-- Seek to a position and parse the line there. A seek to a negative position fails. -/
def recordAt (w : WAL) (position : ℤ) : Option WALEntry :=
  if position < 0 then none
  else parseRecord ((w.walFile.drop position.toNat).takeWhile (· ≠ '\n'))

def getTransactionFromFile (fs : FileSystem) (w : WAL) (position : ℤ) : WALEntry :=
  if fs.opens 0 then
    { (w.recordAt position).getD fs.indeterminate with type := .cross, status := .prepared }
  else WALEntry.notFound

/-- `tellp` of the file opened for append. -/
def tellp (w : WAL) (isOpen : Bool) : ℤ :=
  if isOpen then w.walFile.length else -1

/-- Write a record; writing to a stream that is not open does nothing. -/
def write (w : WAL) (isOpen : Bool) (command : Text) (e : WALEntry) : WAL :=
  if isOpen then { w with walFile := w.walFile ++ record command e } else w

def setIndex (w : WAL) (tid : ℤ) (position : Option ℤ) : WAL :=
  { w with transferIndex := Function.update w.transferIndex tid position }

/-- Inserts a 2PC prepared transaction. A failed open is logged and not returned on. -/
def prepareTransaction (fs : FileSystem) (w : WAL) (request : TransferReq) (ballot : Ballot) :
    WAL × WALEntry :=
  let entry : WALEntry :=
    ⟨request.tid, ballot.num, ballot.serverId, request.txn, .cross, .prepared⟩
  let position := w.tellp (fs.opens 0)
  ((w.setIndex request.tid (some position)).write (fs.opens 0) "CS_PREPARE".toList entry, entry)

/-- Commits an intra shard transaction: `commitTransaction(TransferReq&, Ballot&)`. -/
def commitTransaction (fs : FileSystem) (w : WAL) (request : TransferReq) (ballot : Ballot) :
    WAL × WALEntry :=
  let entry : WALEntry :=
    ⟨request.tid, ballot.num, ballot.serverId, request.txn, .intra, .committed⟩
  if fs.opens 0 then (w.write true "IN_COMMIT".toList entry, entry)
  else (w, WALEntry.notFound)

/-- The common body of `commitTransaction(TpcTid&)` and `abortTransaction(TpcTid&)`. -/
def endTransaction (command : Text) (status : TransactionStatus) (fs : FileSystem) (w : WAL)
    (request : TpcTid) : WAL × WALEntry :=
  match w.transferIndex request.tid with
  | none => (w, WALEntry.notFound)
  | some position =>
      let txn := w.getTransactionFromFile fs position
      if fs.opens 1 then
        ((w.write true command { txn with tid := request.tid }).setIndex request.tid none,
          { txn with status := status })
      else (w, WALEntry.notFound)

/-- Commits a cross shard transaction: `commitTransaction(TpcTid&)`. -/
def commitTransactionTid : FileSystem → WAL → TpcTid → WAL × WALEntry :=
  endTransaction "CS_COMMIT".toList .committed

def abortTransaction : FileSystem → WAL → TpcTid → WAL × WALEntry :=
  endTransaction "CS_ABORT".toList .aborted

/-- The tag of a synchronized entry in the file. -/
def entryTag (e : WALEntry) : Text :=
  (if e.type = .intra then "IS_".toList else "CS_".toList) ++
    match e.status with
    | .prepared => "PREPARE".toList
    | .committed => "COMMIT".toList
    | .aborted => "ABORT".toList
    | .noStatus => []

/-- Inserts an entry during synchronization. -/
def insertEntry (isOpen : Bool) (w : WAL) (e : WALEntry) : WAL :=
  if isOpen then
    let w' := match e.status with
      | .prepared => w.setIndex e.tid (some (w.tellp true))
      | .committed | .aborted => w.setIndex e.tid none
      | .noStatus => w
    w'.write true (entryTag e) e
  else w

/-! ### The prepared transactions a WAL holds -/

/-- The undecided prepared transaction of a tid, as a decision would read it back. -/
def pending (w : WAL) (tid : ℤ) : Option WALEntry :=
  (w.transferIndex tid).bind w.recordAt

/-- The file holds a complete record of `e` at `position`. -/
def HoldsAt (w : WAL) (position : ℤ) (e : WALEntry) : Prop :=
  0 ≤ position ∧ ∃ command rest, command ≠ [] ∧ (∀ d ∈ command, d.isWhitespace = false) ∧
    w.walFile.drop position.toNat = record command e ++ rest

/-- Every indexed position holds a record of its tid. -/
def Indexed (w : WAL) : Prop :=
  ∀ tid position, w.transferIndex tid = some position → ∃ e, w.HoldsAt position e ∧ e.tid = tid

/-- Every indexed position holds a record of its tid, but for those of a failed open. -/
def Recorded (w : WAL) : Prop :=
  ∀ tid position, w.transferIndex tid = some position → 0 ≤ position →
    ∃ e, w.HoldsAt position e ∧ e.tid = tid

end WAL

/-- A written record parses back to its fields, whatever follows it in the file. -/
theorem parseRecord_record {command rest : Text} (e : WALEntry) (hne : command ≠ [])
    (hc : ∀ d ∈ command, d.isWhitespace = false) :
    parseRecord ((record command e ++ rest).takeWhile (· ≠ '\n')) =
      some { e with type := .cross, status := .prepared } := by
  have hnl : ∀ d ∈ command, d ≠ '\n' := by
    rintro d hd rfl
    exact absurd (hc _ hd) (by decide)
  have hdec : ∀ z, ∀ d ∈ decimal z, d ≠ '\n' := by
    rintro z d hd rfl
    exact decimal_no_newline z hd
  let line : Text := command ++ ' ' :: decimal e.tid ++ ' ' :: decimal e.ballotNum ++
    ' ' :: decimal e.ballotServerId ++ ' ' :: decimal e.txn.sender ++
    ' ' :: decimal e.txn.receiver ++ ' ' :: decimal e.txn.amount
  have hline : (record command e ++ rest).takeWhile (· ≠ '\n') = line := by
    have hsplit : record command e ++ rest = line ++ '\n' :: rest := by
      simp [record, line]
    rw [hsplit]
    apply takeWhile_append_front
    · intro d hd
      simp only [line, List.mem_append, List.mem_cons] at hd
      have : d ≠ '\n' := by
        rcases hd with ((((((hd | rfl | hd) | rfl | hd) | rfl | hd) | rfl | hd) | rfl | hd) |
          rfl | hd)
        · exact hnl d hd
        all_goals first | decide | exact hdec _ d hd
      simpa using this
    · simp
  rw [hline]
  simp only [line, List.append_assoc, List.cons_append, parseRecord, readWord_append hc hne,
    readInt_field, readInt_last, Option.bind_eq_bind, Option.bind_some]

namespace WAL

variable {w : WAL} {e : WALEntry} {position : ℤ}

theorem HoldsAt.recordAt (h : w.HoldsAt position e) :
    w.recordAt position = some { e with type := .cross, status := .prepared } := by
  obtain ⟨hpos, command, rest, hne, hc, hdrop⟩ := h
  rw [WAL.recordAt, if_neg (by omega), hdrop]
  exact parseRecord_record e hne hc

/-- Appending to the file does not move the records in it. -/
theorem HoldsAt.append {v : WAL} {suffix : Text} (h : w.HoldsAt position e)
    (hv : v.walFile = w.walFile ++ suffix) : v.HoldsAt position e := by
  obtain ⟨hpos, command, rest, hne, hc, hdrop⟩ := h
  refine ⟨hpos, command, rest ++ suffix, hne, hc, ?_⟩
  have hle : position.toNat ≤ w.walFile.length := by
    by_contra hlt
    rw [List.drop_eq_nil_of_le (by omega)] at hdrop
    simp [record] at hdrop
  rw [hv, List.drop_append_of_le_length hle, hdrop, List.append_assoc]

theorem holdsAt_end {command : Text} (hne : command ≠ [])
    (hc : ∀ d ∈ command, d.isWhitespace = false) :
    (w.write true command e).HoldsAt (w.tellp true) e := by
  refine ⟨by simp [tellp], command, [], hne, hc, ?_⟩
  simp [write, tellp]

@[simp] theorem write_transferIndex {b : Bool} {command : Text} :
    (w.write b command e).transferIndex = w.transferIndex := by
  cases b <;> rfl

theorem write_walFile {command : Text} :
    (w.write true command e).walFile = w.walFile ++ record command e := rfl

@[simp] theorem setIndex_walFile {tid : ℤ} {p : Option ℤ} :
    (w.setIndex tid p).walFile = w.walFile := rfl

theorem Indexed.recorded (h : w.Indexed) : w.Recorded := fun tid position hi _ => h tid position hi

theorem Indexed.pending {tid : ℤ} (h : w.Indexed) (hi : w.transferIndex tid = some position) :
    ∃ e, w.HoldsAt position e ∧ e.tid = tid ∧
      w.pending tid = some { e with type := .cross, status := .prepared } := by
  obtain ⟨e, he, htid⟩ := h tid position hi
  refine ⟨e, he, htid, ?_⟩
  simp [WAL.pending, hi, he.recordAt]

theorem Indexed.pending_eq_none {tid : ℤ} (h : w.Indexed) :
    w.pending tid = none ↔ w.transferIndex tid = none := by
  constructor
  · intro hp
    cases hi : w.transferIndex tid with
    | none => rfl
    | some position =>
      obtain ⟨e, -, -, hpe⟩ := h.pending hi
      simp [hp] at hpe
  · intro hi
    simp [WAL.pending, hi]

theorem Indexed.pending_fields {tid : ℤ} (h : w.Indexed) (hp : w.pending tid = some e) :
    e.tid = tid ∧ e.type = .cross ∧ e.status = .prepared := by
  obtain ⟨position, hi, -⟩ := Option.bind_eq_some_iff.mp hp
  obtain ⟨e', -, htid, hpe⟩ := h.pending hi
  obtain rfl : _ = e := Option.some.inj (hpe.symm.trans hp)
  exact ⟨htid, rfl, rfl⟩

/-- Writing a record keeps the index valid and every pending transaction what it was. -/
theorem Indexed.write {command : Text} (h : w.Indexed) : (w.write true command e).Indexed := by
  intro tid position hi
  obtain ⟨e', he', htid⟩ := h tid position (by simpa using hi)
  exact ⟨e', he'.append write_walFile, htid⟩

theorem Recorded.write {b : Bool} {command : Text} (h : w.Recorded) :
    (w.write b command e).Recorded := by
  cases b with
  | false => exact h
  | true =>
    intro tid position hi hpos
    obtain ⟨e', he', htid⟩ := h tid position (by simpa using hi) hpos
    exact ⟨e', he'.append write_walFile, htid⟩

theorem Recorded.pending_write {b : Bool} {command : Text} (h : w.Recorded) :
    (w.write b command e).pending = w.pending := by
  cases b with
  | false => rfl
  | true =>
    funext tid
    cases hi : w.transferIndex tid with
    | none => simp [WAL.pending, hi]
    | some position =>
      by_cases hpos : 0 ≤ position
      · obtain ⟨e', he', -⟩ := h tid position hi hpos
        have hw := he'.append (v := w.write true command e) write_walFile
        simp [WAL.pending, hi, he'.recordAt, hw.recordAt]
      · have hneg : position < 0 := by omega
        simp [WAL.pending, hi, recordAt, hneg]

theorem Recorded.clear {tid : ℤ} (h : w.Recorded) : (w.setIndex tid none).Recorded := by
  intro tid' position hi
  by_cases ht : tid' = tid
  · subst ht
    simp [setIndex] at hi
  · exact h tid' position (by simpa [setIndex, ht] using hi)

theorem Indexed.clear {tid : ℤ} (h : w.Indexed) : (w.setIndex tid none).Indexed := by
  intro tid' position hi
  by_cases ht : tid' = tid
  · subst ht
    simp [setIndex] at hi
  · exact h tid' position (by simpa [setIndex, ht] using hi)

theorem pending_clear {tid : ℤ} :
    (w.setIndex tid none).pending = Function.update w.pending tid none := by
  funext tid'
  by_cases ht : tid' = tid
  · subst ht
    simp [WAL.pending, setIndex]
  · simp only [WAL.pending, setIndex, ht, ne_eq, not_false_eq_true, Function.update_of_ne]
    rfl

/-- Writing a record at an indexed end of file makes it the pending transaction of its tid. -/
theorem Indexed.push {command : Text} (h : w.Indexed) (hne : command ≠ [])
    (hc : ∀ d ∈ command, d.isWhitespace = false) :
    ((w.setIndex e.tid (some (w.tellp true))).write true command e).Indexed := by
  intro tid position hi
  rw [write_transferIndex] at hi
  by_cases ht : tid = e.tid
  · subst ht
    obtain rfl : w.tellp true = position := by simpa [setIndex] using hi
    exact ⟨e, holdsAt_end hne hc, rfl⟩
  · obtain ⟨e', he', htid⟩ := h tid position (by simpa [setIndex, ht] using hi)
    exact ⟨e', he'.append (v := (w.setIndex e.tid _).write true command e) write_walFile, htid⟩

theorem Recorded.push {command : Text} (h : w.Recorded) (hne : command ≠ [])
    (hc : ∀ d ∈ command, d.isWhitespace = false) :
    ((w.setIndex e.tid (some (w.tellp true))).write true command e).Recorded := by
  intro tid position hi hpos
  rw [write_transferIndex] at hi
  by_cases ht : tid = e.tid
  · subst ht
    obtain rfl : w.tellp true = position := by simpa [setIndex] using hi
    exact ⟨e, holdsAt_end hne hc, rfl⟩
  · obtain ⟨e', he', htid⟩ := h tid position (by simpa [setIndex, ht] using hi) hpos
    exact ⟨e', he'.append (v := (w.setIndex e.tid _).write true command e) write_walFile, htid⟩

theorem Recorded.pending_push {command : Text} (h : w.Recorded) (hne : command ≠ [])
    (hc : ∀ d ∈ command, d.isWhitespace = false) :
    ((w.setIndex e.tid (some (w.tellp true))).write true command e).pending =
      Function.update w.pending e.tid (some { e with type := .cross, status := .prepared }) := by
  funext tid
  let w' := (w.setIndex e.tid (some (w.tellp true))).write true command e
  by_cases ht : tid = e.tid
  · subst ht
    have hend : w'.recordAt (w.tellp true) = _ := (holdsAt_end (w := w.setIndex e.tid _) hne hc).recordAt
    simpa [WAL.pending, setIndex, w'] using hend
  · have hw : w'.pending tid = (w.write true command e).pending tid := by
      simp only [WAL.pending, w', write_transferIndex, setIndex, ne_eq, ht, not_false_eq_true,
        Function.update_of_ne]
      rfl
    rw [Function.update_of_ne ht, hw, h.pending_write]

/-- An open that fails forgets the position, and with it the transaction. -/
theorem Recorded.lose {tid : ℤ} (h : w.Recorded) :
    (w.setIndex tid (some (w.tellp false))).Recorded ∧
      (w.setIndex tid (some (w.tellp false))).pending = Function.update w.pending tid none := by
  constructor
  · intro tid' position hi hpos
    by_cases ht : tid' = tid
    · subst ht
      obtain rfl : w.tellp false = position := by simpa [setIndex] using hi
      simp [tellp] at hpos
    · exact h tid' position (by simpa [setIndex, ht] using hi) hpos
  · funext tid'
    by_cases ht : tid' = tid
    · subst ht
      simp [WAL.pending, setIndex, tellp, recordAt]
    · simp only [WAL.pending, setIndex, ht, ne_eq, not_false_eq_true, Function.update_of_ne]
      rfl

end WAL

/-! ### What each operation does, whatever the file does -/

namespace WAL

variable {fs : FileSystem} {w : WAL}

theorem entryTag_word (e : WALEntry) :
    entryTag e ≠ [] ∧ ∀ d ∈ entryTag e, d.isWhitespace = false := by
  unfold entryTag
  cases e.status <;> split <;> simp

/-- The pending transactions after a synchronized entry. -/
def insertPending (pending : ℤ → Option WALEntry) (e : WALEntry) : ℤ → Option WALEntry :=
  match e.status with
  | .prepared => Function.update pending e.tid (some { e with type := .cross })
  | .committed | .aborted => Function.update pending e.tid none
  | .noStatus => pending

theorem Recorded.prepareTransaction (h : w.Recorded) (request : TransferReq) (ballot : Ballot) :
    (w.prepareTransaction fs request ballot).1.Recorded ∧
      (w.prepareTransaction fs request ballot).1.pending =
        Function.update w.pending request.tid (if fs.opens 0
          then some ⟨request.tid, ballot.num, ballot.serverId, request.txn, .cross, .prepared⟩
          else none) := by
  have hne : "CS_PREPARE".toList ≠ [] := by decide
  have hc : ∀ d ∈ "CS_PREPARE".toList, d.isWhitespace = false := by simp
  let e : WALEntry := ⟨request.tid, ballot.num, ballot.serverId, request.txn, .cross, .prepared⟩
  cases hopen : fs.opens 0 with
  | true =>
    simp only [WAL.prepareTransaction, hopen, if_true]
    exact ⟨h.push (e := e) hne hc, h.pending_push (e := e) hne hc⟩
  | false =>
    simp only [WAL.prepareTransaction, hopen]
    exact h.lose

theorem Recorded.commitTransaction (h : w.Recorded) (request : TransferReq) (ballot : Ballot) :
    (w.commitTransaction fs request ballot).1.Recorded ∧
      (w.commitTransaction fs request ballot).1.pending = w.pending := by
  cases hopen : fs.opens 0 with
  | true =>
    simp only [WAL.commitTransaction, hopen, if_true]
    exact ⟨h.write, h.pending_write⟩
  | false =>
    simp only [WAL.commitTransaction, hopen, Bool.false_eq_true, if_false]
    exact ⟨h, trivial⟩

theorem Recorded.endTransaction (h : w.Recorded) (command : Text) (status : TransactionStatus)
    (request : TpcTid) :
    (w.endTransaction command status fs request).1.Recorded ∧
      (w.endTransaction command status fs request).1.pending =
        if fs.opens 1 then Function.update w.pending request.tid none else w.pending := by
  unfold WAL.endTransaction
  cases hi : w.transferIndex request.tid with
  | none =>
    have hp : w.pending request.tid = none := by simp [WAL.pending, hi]
    refine ⟨h, ?_⟩
    rw [← hp, Function.update_eq_self, ite_self]
  | some position =>
    dsimp only
    split_ifs
    · exact ⟨h.write.clear, by rw [pending_clear, h.pending_write]⟩
    · exact ⟨h, rfl⟩

theorem Recorded.insertEntry (h : w.Recorded) (isOpen : Bool) (e : WALEntry) :
    (w.insertEntry isOpen e).Recorded ∧
      (w.insertEntry isOpen e).pending =
        if isOpen then insertPending w.pending e else w.pending := by
  obtain ⟨hne, hc⟩ := entryTag_word e
  cases isOpen with
  | false => exact ⟨h, rfl⟩
  | true =>
    cases hs : e.status with
    | prepared =>
      simp only [WAL.insertEntry, insertPending, hs, if_true]
      refine ⟨h.push hne hc, (h.pending_push hne hc).trans ?_⟩
      rw [← hs]
    | committed =>
      simp only [WAL.insertEntry, insertPending, hs, if_true]
      exact ⟨h.clear.write, h.clear.pending_write.trans pending_clear⟩
    | aborted =>
      simp only [WAL.insertEntry, insertPending, hs, if_true]
      exact ⟨h.clear.write, h.clear.pending_write.trans pending_clear⟩
    | noStatus =>
      simp only [WAL.insertEntry, insertPending, hs, if_true]
      exact ⟨h.write, h.pending_write⟩

/-! ### What each operation does when the file opens -/

theorem prepareTransaction_spec (hfs : fs.opens 0 = true) (h : w.Indexed) (request : TransferReq)
    (ballot : Ballot) :
    (w.prepareTransaction fs request ballot).1.Indexed ∧
      (w.prepareTransaction fs request ballot).1.pending =
        Function.update w.pending request.tid
          (some ⟨request.tid, ballot.num, ballot.serverId, request.txn, .cross, .prepared⟩) := by
  have hne : "CS_PREPARE".toList ≠ [] := by decide
  have hc : ∀ d ∈ "CS_PREPARE".toList, d.isWhitespace = false := by simp
  let e : WALEntry := ⟨request.tid, ballot.num, ballot.serverId, request.txn, .cross, .prepared⟩
  refine ⟨?_, by rw [(h.recorded.prepareTransaction request ballot).2, if_pos hfs]⟩
  simp only [prepareTransaction, hfs]
  exact h.push (e := e) hne hc

theorem commitTransaction_spec (hfs : fs.opens 0 = true) (h : w.Indexed) (request : TransferReq)
    (ballot : Ballot) :
    (w.commitTransaction fs request ballot).1.Indexed ∧
      (w.commitTransaction fs request ballot).1.pending = w.pending ∧
      (w.commitTransaction fs request ballot).2 =
        ⟨request.tid, ballot.num, ballot.serverId, request.txn, .intra, .committed⟩ := by
  simp only [commitTransaction, hfs, if_true]
  exact ⟨h.write, h.recorded.pending_write, trivial⟩

theorem endTransaction_none {command : Text} {status : TransactionStatus} {request : TpcTid}
    (h : w.Indexed) (hp : w.pending request.tid = none) :
    w.endTransaction command status fs request = (w, WALEntry.notFound) := by
  rw [h.pending_eq_none] at hp
  simp [endTransaction, hp]

/-- A decision for a pending transaction returns it with its new status and forgets it. -/
theorem endTransaction_some (command : Text) (status : TransactionStatus) {request : TpcTid}
    {e : WALEntry} (hfs : fs.working) (h : w.Indexed) (hp : w.pending request.tid = some e) :
    (w.endTransaction command status fs request).1.Indexed ∧
      (w.endTransaction command status fs request).1.pending =
        Function.update w.pending request.tid none ∧
      (w.endTransaction command status fs request).2 = { e with status := status } := by
  obtain ⟨position, hi, -⟩ := Option.bind_eq_some_iff.mp hp
  obtain ⟨e', he', -, hpe⟩ := h.pending hi
  obtain rfl : _ = e := Option.some.inj (hpe.symm.trans hp)
  have hfs0 := hfs 0
  have hfs1 := hfs 1
  simp only [endTransaction, hi, hfs1, if_true, getTransactionFromFile, hfs0, he'.recordAt,
    Option.getD_some]
  refine ⟨h.write.clear, ?_, trivial⟩
  rw [pending_clear, h.recorded.pending_write]

theorem insertEntry_spec (h : w.Indexed) (e : WALEntry) :
    (w.insertEntry true e).Indexed ∧
      (w.insertEntry true e).pending = insertPending w.pending e := by
  obtain ⟨hne, hc⟩ := entryTag_word e
  refine ⟨?_, (h.recorded.insertEntry true e).2⟩
  cases hs : e.status with
  | prepared =>
    simp only [insertEntry, hs, if_true]
    exact h.push hne hc
  | committed =>
    simp only [insertEntry, hs, if_true]
    exact h.clear.write
  | aborted =>
    simp only [insertEntry, hs, if_true]
    exact h.clear.write
  | noStatus =>
    simp only [insertEntry, hs, if_true]
    exact h.write

end WAL
end TpcBank
