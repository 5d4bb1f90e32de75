import TpcBank.CsvReader

/-! What a malformed line costs. An exception leaves `readNextSet` with the set counter moved on
and the rows of the set in its buffers, and the next call clears them. -/
namespace TpcBank
open Decimal Delimited

namespace CSVReader

/-! ### The rows of a file -/

/-- The number in the first column of a line, also of a malformed one. -/
def setNumber (line : Text) : Option ℤ :=
  match column (splitQuoted ',' '"' false [] (stripLineEndings line)) 0 with
  | .error _ => none
  | .ok number => if number = [] then none else (stoi number).toOption

/-- The set that a line belongs to, after lines that belong to `set`. -/
def setAfter (set : ℤ) (line : Text) : ℤ := (setNumber line).getD set

/-- The transactions of the well-formed rows, each with the set that it belongs to. -/
def wellFormed (set : ℤ) : List Text → List (ℤ × Transaction)
  | [] => []
  | line :: file =>
      match parseCSVLine (stripLineEndings line) with
      | .error _ => wellFormed (setAfter set line) file
      | .ok l => (setAfter set line, l.transaction) :: wellFormed (setAfter set line) file

/-! ### The property -/

/-- The transactions that a call returns, each with the number of the set it fills. -/
def Read.rows (read : Read) : List (ℤ × Transaction) :=
  match read.returned with
  | .error _ => []
  | .ok _ =>
      if read.reader.currentTransactionSet.transactions = [] then []
      else read.set.transactions.map fun t => (read.set.setNo, t)

/-- What a number of calls return, with the same set each time and going on after an exception. -/
def returnedBy (c : Constants) : ℕ → CSVReader → TransactionSet → List (ℤ × Transaction)
  | 0, _, _ => []
  | n + 1, r, t =>
      (readNextSet c r t).rows ++ returnedBy c n (readNextSet c r t).reader (readNextSet c r t).set

/-- Once the file is read, each transaction of a well-formed row was returned by one call, under
the set that it belongs to; the rows before the first number belong to set 1. -/
def LosesNothing (c : Constants) (text : Text) : Prop :=
  ∀ n t, (lines '\n' [] text).length < n →
    returnedBy c n (ofText text) t = wellFormed 1 (lines '\n' [] text)

/-! ### The condition -/

def Malformed (line : Text) : Prop := ∃ e, parseCSVLine (stripLineEndings line) = .error e

/-- All rows are well formed, and each belongs to the set that is due or starts the next one. -/
def InSequence (due set : ℤ) : List Text → Prop
  | [] => True
  | line :: file => ∃ l, parseCSVLine (stripLineEndings line) = .ok l ∧
      if l.setNo = due ∨ l.setNo ≠ toInt (due + 1) then
        setAfter set line = due ∧ InSequence due due file
      else setAfter set line = toInt (due + 1) ∧ InSequence (toInt (due + 1)) (toInt (due + 1)) file

/-- The malformed lines come first, and the sets after them go on from one more than their
number. -/
def MalformedFirst (text : Text) : Prop :=
  ∃ bad rows, lines '\n' [] text = bad ++ rows ∧ (∀ line ∈ bad, Malformed line) ∧
    InSequence (toInt (bad.length + 1)) (bad.foldl setAfter 1) rows

/-! ### The reader without its buffers -/

/-- The rows that are returned of a file, and of the rows of the current set. -/
def returnedRows (k : ℤ) (current : List Transaction) : List Text → List (ℤ × Transaction)
  | [] => current.map fun t => (k, t)
  | line :: file =>
      match parseCSVLine (stripLineEndings line) with
      | .error _ => returnedRows (toInt (k + 1)) [] file
      | .ok l =>
          if l.setNo = k ∨ l.setNo ≠ toInt (k + 1) then
            returnedRows k (current ++ [l.transaction]) file
          else (current.map fun t => (k, t)) ++ returnedRows (toInt (k + 1)) [l.transaction] file

/-- The rows of the current set, unless the loop was left by an exception. -/
def delivered (k : ℤ) (p : Option CsvError × CSVReader) : List (ℤ × Transaction) :=
  match p.1 with
  | some _ => []
  | none => p.2.currentTransactionSet.transactions.map fun t => (k, t)

/-- One call: the rows it returns, then those of the later calls. -/
theorem returnedRows_call (k : ℤ) (file : List Text) (current : TransactionSet)
    {next : TransactionSet} (hnext : next.transactions = []) :
    returnedRows k current.transactions file =
      delivered k (readRows k file current next) ++
        returnedRows (toInt (k + 1)) (readRows k file current next).2.nextTransactionSet.transactions
          (readRows k file current next).2.file := by
  induction file generalizing current with
  | nil => simp [returnedRows, readRows, delivered, hnext]
  | cons line file ih =>
    rw [returnedRows, readRows]
    cases hparse : parseCSVLine (stripLineEndings line) with
    | error e => simp [delivered, hnext]
    | ok l =>
      dsimp only
      by_cases hcurrent : l.setNo = k
      · rw [if_pos (.inl hcurrent), if_pos hcurrent]
        exact ih (pushFirst current l)
      · by_cases hahead : l.setNo = toInt (k + 1)
        · rw [if_neg (not_or.mpr ⟨hcurrent, not_not.mpr hahead⟩), if_neg hcurrent, if_pos hahead]
          simp [delivered, pushFirst, hnext]
        · rw [if_pos (.inr hahead), if_neg hcurrent, if_neg hahead]
          exact ih (push current l)

/-- A call reads on, and moves the counter on. -/
theorem readRows_reads (k : ℤ) (file : List Text) (current next : TransactionSet) :
    (readRows k file current next).2.currentSetNo = k ∧
      (readRows k file current next).2.file.length ≤ file.length - 1 := by
  induction file generalizing current with
  | nil => exact ⟨rfl, le_rfl⟩
  | cons line file ih =>
    have hlater : ∀ current, (readRows k file current next).2.currentSetNo = k ∧
        (readRows k file current next).2.file.length ≤ (line :: file).length - 1 := by
      intro current
      obtain ⟨hnumber, hlength⟩ := ih current
      exact ⟨hnumber, hlength.trans (by simp)⟩
    rw [readRows]
    split
    · exact ⟨rfl, le_rfl⟩
    · split_ifs
      · exact hlater _
      · exact ⟨rfl, le_rfl⟩
      · exact hlater _

theorem readNextSet_reader (c : Constants) (r : CSVReader) (t : TransactionSet) :
    (readNextSet c r t).reader =
      (readRows (toInt (r.currentSetNo + 1)) r.file r.swapCurrent r.swapNext).2 := by
  unfold readNextSet
  generalize readRows (toInt (r.currentSetNo + 1)) r.file r.swapCurrent r.swapNext = p
  obtain ⟨_ | e, reader⟩ := p
  · dsimp only
    split_ifs <;> rfl
  · rfl

theorem readNextSet_rows (c : Constants) (r : CSVReader) (t : TransactionSet) :
    (readNextSet c r t).rows = delivered (toInt (r.currentSetNo + 1))
      (readRows (toInt (r.currentSetNo + 1)) r.file r.swapCurrent r.swapNext) := by
  have hnumber := (readRows_reads (toInt (r.currentSetNo + 1)) r.file r.swapCurrent r.swapNext).1
  unfold readNextSet
  generalize readRows (toInt (r.currentSetNo + 1)) r.file r.swapCurrent r.swapNext = p at hnumber ⊢
  obtain ⟨_ | e, reader⟩ := p
  · unfold delivered
    dsimp only at hnumber ⊢
    split_ifs with hempty
    · simp [Read.rows, hempty]
    · simp [Read.rows, hempty, hnumber]
  · rfl

/-- The calls return what the reader without buffers does. -/
theorem returnedBy_eq (c : Constants) {n : ℕ} {r : CSVReader} (t : TransactionSet)
    (h : r.file.length < n) : returnedBy c n r t =
      returnedRows (toInt (r.currentSetNo + 1)) r.nextTransactionSet.transactions r.file := by
  induction n generalizing r t with
  | zero => omega
  | succ n ih =>
    have hcall := returnedRows_call (toInt (r.currentSetNo + 1)) r.file r.swapCurrent
      (rfl : r.swapNext.transactions = [])
    obtain ⟨hnumber, hlength⟩ :=
      readRows_reads (toInt (r.currentSetNo + 1)) r.file r.swapCurrent r.swapNext
    rw [returnedBy, readNextSet_rows, readNextSet_reader]
    refine Eq.trans ?_ hcall.symm
    congr 1
    generalize hread : readRows (toInt (r.currentSetNo + 1)) r.file r.swapCurrent r.swapNext = p
      at hnumber hlength ⊢
    rw [← hnumber]
    by_cases hn : p.2.file.length < n
    · exact ih _ hn
    · -- no line is left and no row was read ahead
      have hn0 : n = 0 := by omega
      have hnil : r.file = [] := List.length_eq_zero_iff.mp (by omega)
      subst hn0
      rw [hnil] at hread
      rw [← hread]
      rfl

/-! ### Where rows are lost -/

theorem toInt_succ (z : ℤ) : toInt (toInt z + 1) = toInt (z + 1) :=
  Int.bmod_add_bmod

theorem returnedRows_length_le (k set : ℤ) (current : List Transaction) (file : List Text) :
    (returnedRows k current file).length ≤ current.length + (wellFormed set file).length := by
  induction file generalizing k set current with
  | nil => simp [returnedRows]
  | cons line file ih =>
    rw [returnedRows, wellFormed]
    cases parseCSVLine (stripLineEndings line) with
    | error e =>
      have hlater := ih (toInt (k + 1)) (setAfter set line) []
      simp only [List.length_nil] at hlater
      dsimp only
      omega
    | ok l =>
      dsimp only
      split_ifs
      · have hlater := ih k (setAfter set line) (current ++ [l.transaction])
        simp only [List.length_append, List.length_cons, List.length_nil] at hlater ⊢
        omega
      · have hlater := ih (toInt (k + 1)) (setAfter set line) [l.transaction]
        simp only [List.length_append, List.length_map, List.length_cons, List.length_nil]
          at hlater ⊢
        omega

/-- The rows of the current set are returned, or fewer rows than there are. -/
theorem returnedRows_current (k set : ℤ) {current : List Transaction} (hcurrent : current ≠ [])
    (file : List Text) :
    (current.map fun t => (k, t)) <+: returnedRows k current file ∨
      (returnedRows k current file).length < current.length + (wellFormed set file).length := by
  induction file generalizing k set current with
  | nil => exact .inl (List.prefix_refl _)
  | cons line file ih =>
    rw [returnedRows, wellFormed]
    cases parseCSVLine (stripLineEndings line) with
    | error e =>
      right
      have hlater := returnedRows_length_le (toInt (k + 1)) (setAfter set line) [] file
      have hpos := List.length_pos_of_ne_nil hcurrent
      simp only [List.length_nil] at hlater
      dsimp only
      omega
    | ok l =>
      dsimp only
      split_ifs
      · obtain hprefix | hshort := ih k (setAfter set line)
          (List.append_ne_nil_of_left_ne_nil hcurrent [l.transaction])
        · rw [List.map_append] at hprefix
          exact .inl ((List.prefix_append _ _).trans hprefix)
        · right
          simp only [List.length_append, List.length_cons, List.length_nil] at hshort ⊢
          omega
      · exact .inl (List.prefix_append _ _)

/-- No row is lost only if the last row read belongs to the set being filled. -/
theorem returnedRows_set {k set : ℤ} {current : List Transaction} {t : Transaction}
    {file : List Text}
    (h : returnedRows k (current ++ [t]) file =
      (current.map fun t => (k, t)) ++ (set, t) :: wellFormed set file) : set = k := by
  obtain hprefix | hshort := returnedRows_current k set
    (List.append_ne_nil_of_right_ne_nil current (List.cons_ne_nil t [])) file
  · rw [h, List.map_append, List.prefix_append_right_inj] at hprefix
    obtain ⟨rest, hrest⟩ := hprefix
    simp only [List.map_cons, List.map_nil, List.cons_append, List.nil_append, List.cons.injEq,
      Prod.mk.injEq, and_true] at hrest
    exact hrest.1.symm
  · rw [h] at hshort
    simp only [List.length_append, List.length_map, List.length_cons, List.length_nil] at hshort
    omega

/-- Once a row was read, no row is lost just when the rest of the file is in sequence. -/
theorem returnedRows_inSequence (k set : ℤ) (current : List Transaction) (t : Transaction)
    (file : List Text) :
    returnedRows k (current ++ [t]) file =
        (current.map fun t => (k, t)) ++ (set, t) :: wellFormed set file ↔
      set = k ∧ InSequence k k file := by
  induction file generalizing k set current t with
  | nil => simp [returnedRows, wellFormed, InSequence, eq_comm]
  | cons line file ih =>
    by_cases hset : set = k
    · subst hset
      rw [returnedRows, wellFormed, InSequence]
      cases hparse : parseCSVLine (stripLineEndings line) with
      | error e =>
        have hlater := returnedRows_length_le (toInt (set + 1)) (setAfter set line) [] file
        constructor
        · intro h
          have hlength := congrArg List.length h
          simp only [List.length_append, List.length_map, List.length_cons, List.length_nil]
            at hlength hlater
          omega
        · rintro ⟨-, l, hl, -⟩
          cases hl
      | ok l =>
        have hl : ∀ P : CSVLine → Prop,
            (∃ l', (Except.ok l : Except CsvError CSVLine) = .ok l' ∧ P l') ↔ P l := by
          intro P
          simp
        rw [hl]
        dsimp only
        split_ifs
        · have hlater := ih set (setAfter set line) (current ++ [t]) l.transaction
          simp only [List.map_append, List.map_cons, List.map_nil, List.append_assoc,
            List.cons_append, List.nil_append] at hlater ⊢
          simpa using hlater
        · have hlater := ih (toInt (set + 1)) (setAfter set line) [] l.transaction
          simp only [List.map_append, List.map_cons, List.map_nil, List.append_assoc,
            List.cons_append, List.nil_append, List.append_cancel_left_eq, List.cons.injEq,
            true_and] at hlater ⊢
          exact hlater
    · exact iff_of_false (fun h => hset (returnedRows_set h)) fun h => hset h.1

theorem returnedRows_first (k set : ℤ) {line : Text} {l : CSVLine}
    (hparse : parseCSVLine (stripLineEndings line) = .ok l) (file : List Text) :
    returnedRows k [] (line :: file) = wellFormed set (line :: file) ↔
      InSequence k set (line :: file) := by
  have hstay := returnedRows_inSequence k (setAfter set line) [] l.transaction file
  have hnext := returnedRows_inSequence (toInt (k + 1)) (setAfter set line) [] l.transaction file
  simp only [List.map_nil, List.nil_append] at hstay hnext
  rw [returnedRows, wellFormed, InSequence, hparse]
  simp only [Except.ok.injEq, exists_eq_left', List.map_nil, List.nil_append]
  split_ifs
  · exact hstay
  · exact hnext

theorem returnedRows_malformedFirst (j set : ℤ) (file : List Text) :
    returnedRows (toInt (j + 1)) [] file = wellFormed set file ↔
      ∃ bad rows, file = bad ++ rows ∧ (∀ line ∈ bad, Malformed line) ∧
        InSequence (toInt (j + bad.length + 1)) (bad.foldl setAfter set) rows := by
  induction file generalizing j set with
  | nil =>
    constructor
    · intro _
      exact ⟨[], [], rfl, by simp, trivial⟩
    · intro _
      rfl
  | cons line file ih =>
    cases hparse : parseCSVLine (stripLineEndings line) with
    | error e =>
      have hlater := ih (j + 1) (setAfter set line)
      rw [returnedRows, wellFormed, hparse, toInt_succ]
      dsimp only
      rw [hlater]
      constructor
      · rintro ⟨bad, rows, rfl, hbad, hrows⟩
        refine ⟨line :: bad, rows, rfl, List.forall_mem_cons.mpr ⟨⟨e, hparse⟩, hbad⟩, ?_⟩
        rw [List.length_cons, Nat.cast_add, Nat.cast_one, add_comm (bad.length : ℤ) 1, ← add_assoc]
        exact hrows
      · rintro ⟨_ | ⟨first, bad⟩, rows, hfile, hbad, hrows⟩
        · -- a row in sequence is well formed
          rw [List.nil_append] at hfile
          subst hfile
          obtain ⟨l, hl, -⟩ := hrows
          rw [hparse] at hl
          cases hl
        · obtain ⟨rfl, rfl⟩ := List.cons.inj hfile
          refine ⟨bad, rows, rfl, (List.forall_mem_cons.mp hbad).2, ?_⟩
          rw [List.length_cons, Nat.cast_add, Nat.cast_one, add_comm (bad.length : ℤ) 1,
            ← add_assoc] at hrows
          exact hrows
    | ok l =>
      rw [returnedRows_first _ _ hparse]
      constructor
      · intro h
        refine ⟨[], line :: file, rfl, by simp, ?_⟩
        simpa using h
      · rintro ⟨_ | ⟨first, bad⟩, rows, hfile, hbad, hrows⟩
        · rw [List.nil_append] at hfile
          subst hfile
          simpa using hrows
        · obtain ⟨rfl, -⟩ := List.cons.inj hfile
          obtain ⟨e, he⟩ := hbad line List.mem_cons_self
          rw [hparse] at he
          cases he

/-- No transaction is lost just when the malformed lines come first and the sets go on from one
more than their number. -/
theorem losesNothing_iff (c : Constants) (text : Text) :
    LosesNothing c text ↔ MalformedFirst text := by
  have hreader := returnedRows_malformedFirst 0 1 (lines '\n' [] text)
  simp only [zero_add] at hreader
  have hcalls : ∀ n t, (lines '\n' [] text).length < n → returnedBy c n (ofText text) t =
      returnedRows (toInt 1) [] (lines '\n' [] text) := fun n t hn => returnedBy_eq c t hn
  constructor
  · intro h
    have hn := Nat.lt_succ_self (lines '\n' [] text).length
    exact hreader.mp ((hcalls _ {} hn).symm.trans (h _ {} hn))
  · intro h n t hn
    exact (hcalls n t hn).trans (hreader.mpr h)

/-- The exception of the second line takes the row of set 1 with it. -/
theorem not_losesNothing_secondLine :
    ¬ LosesNothing .standard "1,\"(1, 2, 3)\",\"[S1]\",\"[S1]\"\nx\n".toList := by
  intro h
  have hlost := h 4 {} (by decide +kernel)
  exact absurd hlost (by decide +kernel)

end CSVReader
end TpcBank
