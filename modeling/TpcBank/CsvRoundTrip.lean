import TpcBank.CsvReader

/-! The calls of `readNextSet` give back the transaction sets that were written. -/
namespace TpcBank
open Decimal Delimited

theorem toInt_of_isInt {z : ℤ} (h : IsInt z) : toInt z = z := by
  unfold IsInt at h
  unfold toInt
  rw [Int.bmod_def]
  omega

/-! ### Numbers -/

theorem readDigits_toDigits_nil (n : ℕ) : readDigits (Nat.toDigits 10 n) = some (n, []) := by
  have hnil : NoDigitFront [] := by simp [NoDigitFront]
  have h := readDigits_toDigits n hnil
  rwa [List.append_nil] at h

theorem isDigit_not_space {ch : Char} (h : ch.isDigit = true) : isSpace ch = false := by
  have hne : ∀ d : Char, d.isDigit = false → ch ≠ d := by
    rintro d hd rfl
    rw [hd] at h
    cases h
  simp [isSpace, hne ' ' (by decide), hne '\t' (by decide), hne '\n' (by decide),
    hne '\r' (by decide), hne '\x0b' (by decide), hne '\x0c' (by decide)]

/-- `std::stoi` reads a printed number back exactly when it is an `int`. -/
theorem stoi_decimal (z : ℤ) :
    stoi (decimal z) = if IsInt z then .ok z else .error .outOfRange := by
  unfold stoi
  cases z with
  | negSucc n =>
    have hdrop : ('-' :: Nat.toDigits 10 (n + 1)).dropWhile isSpace =
        '-' :: Nat.toDigits 10 (n + 1) := List.dropWhile_cons_of_neg (by decide)
    simp only [decimal, hdrop, readDigits_toDigits_nil, Option.map_some]
    rfl
  | ofNat n =>
    obtain ⟨d, ds, hds⟩ := List.exists_cons_of_ne_nil (Nat.toDigits_ne_nil (n := n) (b := 10))
    have hdigit : d.isDigit = true := toDigits_isDigit (hds ▸ List.mem_cons_self)
    obtain ⟨hminus, hplus, -⟩ := isDigit_not_sign hdigit
    have hread := readDigits_toDigits_nil n
    have hdrop : (d :: ds).dropWhile isSpace = d :: ds :=
      List.dropWhile_cons_of_neg (by simp [isDigit_not_space hdigit])
    rw [hds] at hread
    simp only [decimal, hds, hdrop]
    split <;> simp_all

theorem mem_decimal {z : ℤ} {ch : Char} (h : ch ∈ decimal z) : ch = '-' ∨ ch.isDigit = true := by
  cases z with
  | ofNat n => exact .inr (toDigits_isDigit h)
  | negSucc n =>
    rcases List.mem_cons.mp h with h | h
    · exact .inl h
    · exact .inr (toDigits_isDigit h)

/-- A printed number has none of the characters that the reader treats in a special way. -/
theorem decimal_plain {z : ℤ} {ch : Char} (h : ch ∈ decimal z) :
    IsNameChar ch ∧ ch ≠ '(' ∧ ch ≠ ')' := by
  unfold IsNameChar
  rcases mem_decimal h with rfl | hdigit
  · decide
  · refine ⟨⟨?_, ?_, ?_, ?_, ?_, ?_, ?_⟩, ?_, ?_⟩ <;>
      · rintro rfl
        exact absurd hdigit (by decide)

namespace CSVReader

/-! ### Columns -/

theorem stripLineEndings_append (a b : Text) :
    stripLineEndings (a ++ b) = stripLineEndings a ++ stripLineEndings b :=
  List.filter_append a b

theorem stripLineEndings_of_clean {text : Text}
    (h : ∀ ch ∈ text, ch ≠ ' ' ∧ ch ≠ '\r' ∧ ch ≠ '\n') : stripLineEndings text = text := by
  unfold stripLineEndings
  rw [List.filter_eq_self]
  intro ch hch
  obtain ⟨hspace, hcr, hlf⟩ := h ch hch
  simp [hspace, hcr, hlf]

theorem stripLineEndings_decimal (z : ℤ) : stripLineEndings (decimal z) = decimal z := by
  refine stripLineEndings_of_clean fun ch hch => ?_
  obtain ⟨⟨-, -, -, -, hspace, hcr, hlf⟩, -⟩ := decimal_plain hch
  exact ⟨hspace, hcr, hlf⟩

theorem stripLineEndings_name {n : Names} {name : Text} (h : name ∈ n.names) :
    stripLineEndings name = name := by
  refine stripLineEndings_of_clean fun ch hch => ?_
  obtain ⟨-, -, -, -, hspace, hcr, hlf⟩ := (n.clean name h).2 ch hch
  exact ⟨hspace, hcr, hlf⟩

theorem stripLineEndings_intercalate (sep : Text) (fields : List Text) :
    stripLineEndings (sep.intercalate fields) =
      (stripLineEndings sep).intercalate (fields.map stripLineEndings) :=
  filter_intercalate _ sep fields

/-- The text of a transaction between its quotes, without spaces. -/
def transactionText (t : Transaction) : Text :=
  ['('] ++ [','].intercalate [decimal t.sender, decimal t.receiver, decimal t.amount] ++ [')']

/-- The text of a list of names between its quotes, without spaces. -/
def namesText (n : Names) : Text := ['['] ++ [','].intercalate n.names ++ [']']

theorem stripLineEndings_writeTransaction (t : Transaction) :
    stripLineEndings (writeTransaction t) = '"' :: transactionText t ++ ['"'] := by
  unfold writeTransaction
  rw [stripLineEndings_append, stripLineEndings_append, stripLineEndings_intercalate]
  simp only [List.map_cons, List.map_nil, stripLineEndings_decimal]
  simp [stripLineEndings, transactionText]

theorem stripLineEndings_writeNames (n : Names) :
    stripLineEndings (writeNames n) = '"' :: namesText n ++ ['"'] := by
  have hnames : n.names.map stripLineEndings = n.names := by
    conv_rhs => rw [← List.map_id n.names]
    exact List.map_congr_left fun name hname => stripLineEndings_name hname
  unfold writeNames
  rw [stripLineEndings_append, stripLineEndings_append, stripLineEndings_intercalate, hnames]
  simp [stripLineEndings, namesText]

theorem parseTransaction_transactionText {t : Transaction}
    (h : IsInt t.sender ∧ IsInt t.receiver ∧ IsInt t.amount) :
    parseTransaction (transactionText t) = .ok t := by
  have hfields : splitSkip ',' (fun ch => ch = '(' || ch = ')' || ch = ' ') [] (transactionText t) =
      [decimal t.sender, decimal t.receiver, decimal t.amount] := by
    refine splitSkip_enclosed (by decide) (by simp) ?_ (by simp) (by simp)
    have hclean : ∀ z, ∀ ch ∈ decimal z,
        (decide (ch = '(') || decide (ch = ')') || decide (ch = ' ')) = false ∧ ch ≠ ',' := by
      intro z ch hch
      obtain ⟨⟨hcomma, -, -, -, hspace, -⟩, hopen, hclose⟩ := decimal_plain hch
      simp [hcomma, hspace, hopen, hclose]
    intro field hfield
    simp only [List.mem_cons, List.not_mem_nil, or_false] at hfield
    rcases hfield with rfl | rfl | rfl
    · exact hclean t.sender
    · exact hclean t.receiver
    · exact hclean t.amount
  obtain ⟨hs, hr, ha⟩ := h
  have hstoi : ∀ {z}, IsInt z → stoi (decimal z) = .ok z := fun {z} hz => by
    rw [stoi_decimal, if_pos hz]
  unfold parseTransaction
  rw [hfields]
  change (do
    let sender ← stoi (decimal t.sender)
    let receiver ← stoi (decimal t.receiver)
    let amount ← stoi (decimal t.amount)
    return (⟨sender, receiver, amount⟩ : Transaction)) = _
  rw [hstoi hs, hstoi hr, hstoi ha]
  rfl

theorem parseServers_namesText (n : Names) : parseServers (namesText n) = n.names := by
  refine splitSkip_enclosed (by decide) n.nonempty ?_ (by simp) (by simp)
  intro name hname ch hch
  obtain ⟨hcomma, hopen, hclose, -, hspace, -⟩ := (n.clean name hname).2 ch hch
  simp [hcomma, hopen, hclose, hspace]

/-! ### Rows -/

/-- The numbers of a transaction are free of a character that no number has. -/
theorem amounts_ne {separator : Text} {special : Char} (hseparator : ∀ ch ∈ separator, ch ≠ special)
    (hdecimal : ∀ z, ∀ ch ∈ decimal z, ch ≠ special) (t : Transaction) :
    ∀ ch ∈ separator.intercalate [decimal t.sender, decimal t.receiver, decimal t.amount],
      ch ≠ special := by
  apply forall_mem_intercalate hseparator
  intro field hfield
  simp only [List.mem_cons, List.not_mem_nil, or_false] at hfield
  rcases hfield with rfl | rfl | rfl
  · exact hdecimal t.sender
  · exact hdecimal t.receiver
  · exact hdecimal t.amount

/-- The names of a column are free of a character that no name has. -/
theorem names_ne {separator : Text} {special : Char} (hseparator : ∀ ch ∈ separator, ch ≠ special)
    (hname : ∀ ch, IsNameChar ch → ch ≠ special) (n : Names) :
    ∀ ch ∈ separator.intercalate n.names, ch ≠ special := by
  apply forall_mem_intercalate hseparator
  intro name hmem ch hch
  exact hname ch ((n.clean name hmem).2 ch hch)

theorem not_mem_enclosed {special : Char} {start middle rest : Text} (hstart : special ∉ start)
    (hmiddle : ∀ ch ∈ middle, ch ≠ special) (hrest : special ∉ rest) :
    special ∉ start ++ middle ++ rest := by
  intro hmem
  rcases List.mem_append.mp hmem with hmem | hmem
  · rcases List.mem_append.mp hmem with hmem | hmem
    · exact hstart hmem
    · exact hmiddle special hmem rfl
  · exact hrest hmem

theorem transactionText_no_quote (t : Transaction) : '"' ∉ transactionText t := by
  refine not_mem_enclosed (by decide) (amounts_ne (by simp) ?_ t) (by decide)
  intro z ch hch
  obtain ⟨⟨-, -, -, hquote, -⟩, -⟩ := decimal_plain hch
  exact hquote

theorem namesText_no_quote (n : Names) : '"' ∉ namesText n := by
  refine not_mem_enclosed (by decide) (names_ne (by simp) ?_ n) (by decide)
  intro ch hch
  obtain ⟨-, -, -, hquote, -⟩ := hch
  exact hquote

theorem parseCSVLine_of_columns {line : Text} {number transaction servers leaders : Text}
    (h : splitQuoted ',' '"' false [] line = [number, transaction, servers, leaders]) :
    parseCSVLine line = do
      let setNo ← if number = [] then pure (-1) else stoi number
      let t ← parseTransaction transaction
      return {
        setNo, transaction := t
        servers := if servers = [] then [] else parseServers servers
        leaders := if leaders = [] then [] else parseServers leaders } := by
  unfold parseCSVLine
  rw [h]
  rfl

theorem decimal_ne_nil (z : ℤ) : decimal z ≠ [] := by
  cases z with
  | ofNat n => exact Nat.toDigits_ne_nil
  | negSucc n => simp [decimal]

theorem strip_firstRow (set : WrittenSet) (k : ℤ) (t : Transaction) :
    splitQuoted ',' '"' false [] (stripLineEndings (set.firstRow k t)) =
      [decimal k, transactionText t, namesText set.servers, namesText set.leaders] := by
  unfold WrittenSet.firstRow
  rw [stripLineEndings_intercalate, show stripLineEndings [','] = [','] from rfl]
  refine splitQuoted_row (by decide) ?_ (by simp)
  simp only [List.map_cons, List.map_nil, stripLineEndings_decimal,
    stripLineEndings_writeTransaction, stripLineEndings_writeNames]
  refine .cons (.plain fun ch hch => ?_) (.cons (.quoted (transactionText_no_quote t))
    (.cons (.quoted (namesText_no_quote _)) (.cons (.quoted (namesText_no_quote _)) .nil)))
  obtain ⟨⟨hcomma, -, -, hquote, -⟩, -⟩ := decimal_plain hch
  exact ⟨hquote, hcomma⟩

theorem strip_laterRow (t : Transaction) :
    splitQuoted ',' '"' false [] (stripLineEndings (WrittenSet.laterRow t)) =
      [[], transactionText t, [], []] := by
  unfold WrittenSet.laterRow
  rw [stripLineEndings_intercalate, show stripLineEndings [','] = [','] from rfl]
  refine splitQuoted_row (by decide) ?_ (by simp)
  simp only [List.map_cons, List.map_nil, stripLineEndings_writeTransaction]
  have hempty : Cell ',' '"' (stripLineEndings []) [] := .plain nofun
  exact .cons hempty (.cons (.quoted (transactionText_no_quote t))
    (.cons hempty (.cons hempty .nil)))

/-- The line that the first row of a set stands for; a set number that is no `int` throws. -/
theorem parse_firstRow {set : WrittenSet} {t : Transaction} (ht : t ∈ set.transactions) (k : ℤ) :
    parseCSVLine (stripLineEndings (set.firstRow k t)) =
      if IsInt k then .ok ⟨k, t, set.servers.names, set.leaders.names⟩
      else .error .outOfRange := by
  have hnames : ∀ n : Names, namesText n ≠ [] := fun n h => by cases h
  rw [parseCSVLine_of_columns (strip_firstRow set k t), if_neg (decimal_ne_nil k), stoi_decimal]
  by_cases hk : IsInt k
  · rw [if_pos hk, if_pos hk, parseTransaction_transactionText (set.isInt t ht),
      if_neg (hnames _), if_neg (hnames _), parseServers_namesText, parseServers_namesText]
    rfl
  · rw [if_neg hk, if_neg hk]
    rfl

theorem parse_laterRow {set : WrittenSet} {t : Transaction} (ht : t ∈ set.transactions) :
    parseCSVLine (stripLineEndings (WrittenSet.laterRow t)) = .ok ⟨-1, t, [], []⟩ := by
  rw [parseCSVLine_of_columns (strip_laterRow t), if_pos rfl,
    parseTransaction_transactionText (set.isInt t ht)]
  rfl

/-! ### The file -/

/-- The lines of a file stand for some rows: they differ from them in what the reader strips. -/
def Unread (file rows : List Text) : Prop :=
  List.Forall₂ (fun line row => stripLineEndings line = stripLineEndings row) file rows

theorem writeTransaction_no_lf (t : Transaction) : '\n' ∉ writeTransaction t := by
  refine not_mem_enclosed (by decide) (amounts_ne (by simp) ?_ t) (by decide)
  rintro z ch hch rfl
  exact decimal_no_newline z hch

theorem writeNames_no_lf (n : Names) : '\n' ∉ writeNames n := by
  refine not_mem_enclosed (by decide) (names_ne (by simp) ?_ n) (by decide)
  intro ch hch
  obtain ⟨-, -, -, -, -, -, hlf⟩ := hch
  exact hlf

theorem firstRow_no_lf (set : WrittenSet) (k : ℤ) (t : Transaction) :
    ∀ ch ∈ set.firstRow k t, ch ≠ '\n' := by
  refine forall_mem_intercalate (by simp) fun field hfield => ?_
  simp only [List.mem_cons, List.not_mem_nil, or_false] at hfield
  rcases hfield with rfl | rfl | rfl | rfl
  · rintro ch hch rfl
    exact decimal_no_newline k hch
  · exact fun ch hch => ne_of_mem_of_not_mem hch (writeTransaction_no_lf t)
  · exact fun ch hch => ne_of_mem_of_not_mem hch (writeNames_no_lf _)
  · exact fun ch hch => ne_of_mem_of_not_mem hch (writeNames_no_lf _)

theorem laterRow_no_lf (t : Transaction) : ∀ ch ∈ WrittenSet.laterRow t, ch ≠ '\n' := by
  refine forall_mem_intercalate (by simp) fun field hfield => ?_
  simp only [List.mem_cons, List.not_mem_nil, or_false] at hfield
  rcases hfield with rfl | rfl | rfl | rfl
  · simp
  · exact fun ch hch => ne_of_mem_of_not_mem hch (writeTransaction_no_lf t)
  · simp
  · simp

theorem mem_rows {set : WrittenSet} {k : ℤ} {row : Text} (h : row ∈ set.rows k) :
    (∃ t, row = set.firstRow k t) ∨ ∃ t, row = WrittenSet.laterRow t := by
  unfold WrittenSet.rows at h
  cases htransactions : set.transactions with
  | nil => simp [htransactions] at h
  | cons t ts =>
    simp only [htransactions, List.mem_cons, List.mem_map] at h
    rcases h with rfl | ⟨t', -, rfl⟩
    · exact .inl ⟨t, rfl⟩
    · exact .inr ⟨t', rfl⟩

theorem mem_allRows {sets : List WrittenSet} {k : ℤ} {row : Text}
    (h : row ∈ WrittenSet.allRows k sets) : ∃ set k', row ∈ WrittenSet.rows set k' := by
  induction sets generalizing k with
  | nil => cases h
  | cons set sets ih =>
    rw [WrittenSet.allRows, List.mem_append] at h
    rcases h with h | h
    · exact ⟨set, k, h⟩
    · exact ih h

theorem row_ne_nil {set : WrittenSet} {k : ℤ} {row : Text} (h : row ∈ set.rows k) : row ≠ [] := by
  rintro rfl
  rcases mem_rows h with ⟨t, hrow⟩ | ⟨t, hrow⟩
  · have hsplit := strip_firstRow set k t
    rw [← hrow] at hsplit
    simpa [stripLineEndings, splitQuoted] using congrArg List.length hsplit
  · cases hrow

/-- The lines of a written file stand for its rows. -/
theorem unread_write (crlf final : Bool) (sets : List WrittenSet) :
    Unread (ofText (WrittenSet.write crlf final sets)).file (WrittenSet.allRows 1 sets) := by
  have hrows : ∀ row ∈ WrittenSet.allRows 1 sets, '\n' ∉ row ∧ row ≠ [] := by
    intro row hrow
    obtain ⟨set, k, hrow⟩ := mem_allRows hrow
    refine ⟨fun hlf => ?_, row_ne_nil hrow⟩
    rcases mem_rows hrow with ⟨t, rfl⟩ | ⟨t, rfl⟩
    · exact firstRow_no_lf set k t _ hlf rfl
    · exact laterRow_no_lf t _ hlf rfl
  have hbefore : '\n' ∉ (if crlf then ['\r'] else []) := by cases crlf <;> simp
  refine (lines_joinRows hbefore final hrows).imp fun line row hline => ?_
  rcases hline with rfl | rfl
  · rfl
  · rw [stripLineEndings_append]
    cases crlf <;> simp [stripLineEndings]

/-! ### The calls -/

/-- What a reader still has to give when the set with number `k` is the next one: whole sets that
are all in the file, or a first row read ahead and the rest in the file. -/
inductive Ahead : ℤ → List WrittenSet → CSVReader → Prop
  | whole {k : ℤ} {sets : List WrittenSet} {r : CSVReader}
      (hnext : r.nextTransactionSet.transactions = [])
      (hfile : Unread r.file (WrittenSet.allRows k sets)) : Ahead k sets r
  | looked {k : ℤ} {set : WrittenSet} {sets : List WrittenSet} {r : CSVReader} {t : Transaction}
      {ts : List Transaction} (hset : set.transactions = t :: ts)
      (htransactions : r.nextTransactionSet.transactions = [t])
      (hservers : r.nextTransactionSet.servers = set.servers.names)
      (hleaders : r.nextTransactionSet.leaders = set.leaders.names)
      (hfile : Unread r.file (ts.map WrittenSet.laterRow ++ WrittenSet.allRows (k + 1) sets)) :
      Ahead k (set :: sets) r

theorem readRows_ok {setNo : ℤ} {line : Text} {file : List Text} {current next : TransactionSet}
    {l : CSVLine} (h : parseCSVLine (stripLineEndings line) = .ok l) :
    readRows setNo (line :: file) current next =
      if l.setNo = setNo then readRows setNo file (pushFirst current l) next
      else if l.setNo = toInt (setNo + 1) then (none, ⟨file, setNo, current, pushFirst next l⟩)
      else readRows setNo file (push current l) next := by
  rw [readRows, h]

/-- The loop reads the later rows of the set with number `k`. -/
theorem readRows_later {k : ℤ} (hk : IsInt k) (hpos : 0 < k) {set : WrittenSet}
    {ts : List Transaction} (hts : ∀ t ∈ ts, t ∈ set.transactions) {file rows : List Text}
    (hfile : Unread file (ts.map WrittenSet.laterRow ++ rows)) (current next : TransactionSet) :
    ∃ rest, Unread rest rows ∧ readRows k file current next =
      readRows k rest { current with transactions := current.transactions ++ ts } next := by
  induction ts generalizing file current with
  | nil => exact ⟨file, hfile, by simp⟩
  | cons t ts ih =>
    rw [List.map_cons, List.cons_append] at hfile
    cases hfile with
    | @cons line _ file _ hline hfile =>
      have hparse := parse_laterRow (hts t (by simp))
      rw [← hline] at hparse
      have hahead : (-1 : ℤ) ≠ toInt (k + 1) := by
        unfold IsInt at hk
        unfold toInt
        rw [Int.bmod_def]
        omega
      obtain ⟨rest, hrest, hread⟩ :=
        ih (fun t ht => hts t (by simp [ht])) hfile (push current ⟨-1, t, [], []⟩)
      refine ⟨rest, hrest, ?_⟩
      rw [readRows_ok hparse, if_neg (by simp only; omega), if_neg hahead, hread]
      simp [push]

/-- The loop reads the first row of the next set, if there is one, and stops. -/
theorem readRows_next {k : ℤ} {sets : List WrittenSet} (hnext : sets ≠ [] → IsInt (k + 1))
    {file : List Text} (hfile : Unread file (WrittenSet.allRows (k + 1) sets))
    (current : TransactionSet) {next : TransactionSet} (hempty : next.transactions = []) :
    ∃ r, readRows k file current next = (none, r) ∧ r.currentSetNo = k ∧
      r.currentTransactionSet = current ∧ Ahead (k + 1) sets r := by
  cases sets with
  | nil =>
    cases hfile
    exact ⟨_, rfl, rfl, rfl, .whole hempty .nil⟩
  | cons set sets =>
    obtain ⟨t, ts, hset⟩ := List.exists_cons_of_ne_nil set.nonempty
    have hint := hnext (by simp)
    simp only [WrittenSet.allRows, WrittenSet.rows, hset, List.cons_append] at hfile
    cases hfile with
    | cons hline hfile =>
      have ht : t ∈ set.transactions := by simp [hset]
      have hparse := parse_firstRow ht (k + 1)
      rw [← hline, if_pos hint] at hparse
      rw [readRows_ok hparse, toInt_of_isInt hint, if_neg (by simp), if_pos rfl]
      refine ⟨_, rfl, rfl, rfl, .looked hset ?_ rfl rfl hfile⟩
      simp [pushFirst, hempty]

/-- The loop stops with an exception at a set number that is no `int`. -/
theorem readRows_throws {k : ℤ} (hint : ¬ IsInt (k + 1)) {set : WrittenSet}
    {sets : List WrittenSet} {file : List Text}
    (hfile : Unread file (WrittenSet.allRows (k + 1) (set :: sets)))
    (current next : TransactionSet) :
    ∃ r, readRows k file current next = (some .outOfRange, r) := by
  obtain ⟨t, ts, hset⟩ := List.exists_cons_of_ne_nil set.nonempty
  simp only [WrittenSet.allRows, WrittenSet.rows, hset, List.cons_append] at hfile
  cases hfile with
  | cons hline hfile =>
    have ht : t ∈ set.transactions := by simp [hset]
    have hparse := parse_firstRow ht (k + 1)
    rw [← hline, if_neg hint] at hparse
    rw [readRows, hparse]
    exact ⟨_, rfl⟩

/-- A set as a call of `readNextSet` returns it. -/
def filled (c : Constants) (k : ℤ) (set : WrittenSet) : TransactionSet where
  setNo := k
  transactions := set.transactions
  servers := set.servers.names
  leaders := set.leaders.names
  disconnected := c.serverNames.filter fun name => !set.servers.names.contains name

/-- The loop of a call collects the next set, and then goes on at the rows after it. -/
theorem readRows_ahead {k : ℤ} (hk : IsInt k) (hpos : 0 < k) {set : WrittenSet}
    {sets : List WrittenSet} {r : CSVReader} (h : Ahead k (set :: sets) r) :
    ∃ current rest, current.transactions = set.transactions ∧
      current.servers = set.servers.names ∧ current.leaders = set.leaders.names ∧
      Unread rest (WrittenSet.allRows (k + 1) sets) ∧
      readRows k r.file r.swapCurrent r.swapNext = readRows k rest current r.swapNext := by
  cases h with
  | whole hempty hfile =>
    obtain ⟨x, ts, hset⟩ := List.exists_cons_of_ne_nil set.nonempty
    simp only [WrittenSet.allRows, WrittenSet.rows, hset, List.cons_append] at hfile
    cases hf : r.file with
    | nil =>
      rw [hf] at hfile
      cases hfile
    | cons line file =>
      rw [hf] at hfile
      cases hfile with
      | cons hline hfile =>
        have hx : x ∈ set.transactions := by simp [hset]
        have hts : ∀ t ∈ ts, t ∈ set.transactions := fun t ht => by simp [hset, ht]
        have hparse := parse_firstRow hx k
        rw [← hline, if_pos hk] at hparse
        obtain ⟨rest, hrest, hread⟩ := readRows_later hk hpos hts hfile
          (pushFirst r.swapCurrent ⟨k, x, set.servers.names, set.leaders.names⟩) r.swapNext
        refine ⟨_, rest, ?_, rfl, rfl, hrest, by rw [readRows_ok hparse, if_pos rfl, hread]⟩
        simp [pushFirst, swapCurrent, hempty, hset]
  | @looked _ _ _ x ts hset htransactions hservers hleaders hfile =>
    have hts : ∀ t ∈ ts, t ∈ set.transactions := fun t ht => by simp [hset, ht]
    obtain ⟨rest, hrest, hread⟩ := readRows_later hk hpos hts hfile r.swapCurrent r.swapNext
    refine ⟨_, rest, ?_, ?_, ?_, hrest, hread⟩
    · simp [swapCurrent, htransactions, hset]
    · exact hservers
    · exact hleaders

/-- A call that finds a set returns it and looks at the set after it. -/
theorem readNextSet_ahead (c : Constants) {k : ℤ} (hk : IsInt k) (hpos : 0 < k) {set : WrittenSet}
    {sets : List WrittenSet} (hnext : sets ≠ [] → IsInt (k + 1)) {r : CSVReader}
    (hno : r.currentSetNo + 1 = k) (h : Ahead k (set :: sets) r) (t : TransactionSet) :
    (readNextSet c r t).returned = .ok (toInt set.transactions.length) ∧
      (readNextSet c r t).set = filled c k set ∧
      (readNextSet c r t).reader.currentSetNo = k ∧
      Ahead (k + 1) sets (readNextSet c r t).reader := by
  obtain ⟨current, rest, htransactions, hservers, hleaders, hrest, hread⟩ :=
    readRows_ahead hk hpos h
  obtain ⟨r', hr', hno', rfl, hahead⟩ :=
    readRows_next hnext hrest current (rfl : r.swapNext.transactions = [])
  unfold readNextSet
  rw [hno, toInt_of_isInt hk, hread, hr']
  simp only [htransactions, if_neg set.nonempty, hservers, hleaders, hno']
  exact ⟨trivial, by simp [filled], trivial, hahead⟩

/-- At the end of the file a call returns 0. -/
theorem readNextSet_done (c : Constants) {k : ℤ} {r : CSVReader} (h : Ahead k [] r)
    (t : TransactionSet) :
    (readNextSet c r t).returned = .ok 0 ∧ Ahead k [] (readNextSet c r t).reader := by
  cases h with
  | whole hempty hfile =>
    cases hf : r.file with
    | cons line file =>
      rw [hf] at hfile
      cases hfile
    | nil =>
      have hcurrent : r.swapCurrent.transactions = [] := hempty
      unfold readNextSet
      rw [hf, readRows]
      simp only [hcurrent, if_true]
      exact ⟨trivial, .whole rfl .nil⟩

/-- The reader before call number `k`, and the set that is passed to it. -/
def before (c : Constants) (text : Text) (t : TransactionSet) : ℕ → CSVReader × TransactionSet
  | 0 => (ofText text, t)
  | k + 1 => ((nthCall c text t k).reader, (nthCall c text t k).set)

theorem nthCall_eq (c : Constants) (text : Text) (t : TransactionSet) (k : ℕ) :
    nthCall c text t k = readNextSet c (before c text t k).1 (before c text t k).2 := by
  cases k <;> rfl

variable (c : Constants) (crlf final : Bool) (t : TransactionSet) {sets : List WrittenSet}

/-- Before every call that has set numbers in the range of `int` to read, the sets that were not
returned yet are still ahead. -/
theorem before_ahead {k : ℕ} (hk : k ≤ sets.length) (hint : k ≠ 0 → IsInt k)
    (hnext : k < sets.length → IsInt (k + 1)) :
    (before c (WrittenSet.write crlf final sets) t k).1.currentSetNo = k ∧
      Ahead (k + 1) (sets.drop k) (before c (WrittenSet.write crlf final sets) t k).1 := by
  induction k with
  | zero => exact ⟨rfl, .whole rfl (unread_write crlf final sets)⟩
  | succ k ih =>
    have hlt : k < sets.length := by omega
    have hk' : IsInt ((k : ℤ) + 1) := by
      have := hint (by omega)
      push_cast at this
      exact this
    obtain ⟨hno, hahead⟩ := ih (by omega) (by
      intro _
      unfold IsInt at hk' ⊢
      omega) fun _ => hk'
    rw [List.drop_eq_getElem_cons hlt] at hahead
    obtain ⟨-, -, hno', hahead'⟩ := readNextSet_ahead c hk' (by omega) (fun hne => by
      have hlt' : k + 1 < sets.length := by
        by_contra hge
        exact hne (List.drop_eq_nil_of_le (by omega))
      simpa using hnext hlt') (by rw [hno]) hahead
      (before c (WrittenSet.write crlf final sets) t k).2
    rw [← nthCall_eq] at hno' hahead'
    push_cast
    exact ⟨hno', hahead'⟩

/-- The calls of `readNextSet` on a written file give back its sets, and then nothing. -/
def Decodes (c : Constants) (crlf final : Bool) (t : TransactionSet) (sets : List WrittenSet) :
    Prop :=
  (∀ k, ∀ h : k < sets.length,
      (nthCall c (WrittenSet.write crlf final sets) t k).returned =
          .ok ((sets.get ⟨k, h⟩).transactions.length : ℤ) ∧
        (nthCall c (WrittenSet.write crlf final sets) t k).set =
          filled c (k + 1) (sets.get ⟨k, h⟩)) ∧
    ∀ k, sets.length ≤ k → (nthCall c (WrittenSet.write crlf final sets) t k).returned = .ok 0

/-- The call that finds set number `k + 1`. -/
theorem nthCall_filled {k : ℕ} (h : k < sets.length) (hint : IsInt (k + 1))
    (hnext : k + 1 < sets.length → IsInt (k + 2)) :
    (nthCall c (WrittenSet.write crlf final sets) t k).returned =
        .ok (toInt (sets.get ⟨k, h⟩).transactions.length) ∧
      (nthCall c (WrittenSet.write crlf final sets) t k).set =
        filled c (k + 1) (sets.get ⟨k, h⟩) := by
  obtain ⟨hno, hahead⟩ := before_ahead c crlf final t h.le (by
    intro _
    unfold IsInt at hint ⊢
    omega) fun _ => hint
  rw [List.drop_eq_getElem_cons h] at hahead
  have hrest : sets.drop (k + 1) ≠ [] → IsInt ((k : ℤ) + 1 + 1) := by
    intro hne
    have hlt : k + 1 < sets.length := by
      by_contra hge
      exact hne (List.drop_eq_nil_of_le (by omega))
    exact (add_assoc (k : ℤ) 1 1).symm ▸ hnext hlt
  obtain ⟨hreturned, hset, -⟩ := readNextSet_ahead c hint (by omega) hrest (by rw [hno]) hahead
    (before c (WrittenSet.write crlf final sets) t k).2
  rw [nthCall_eq]
  exact ⟨hreturned, hset⟩

/-- Reading undoes writing, as long as the set numbers and the counts are values of `int`. -/
theorem decodes_written (hsets : sets.length < 2 ^ 31)
    (hcounts : ∀ set ∈ sets, set.transactions.length < 2 ^ 31) :
    Decodes c crlf final t sets := by
  have hint : ∀ k : ℕ, k ≤ sets.length → IsInt k := by
    intro k hk
    unfold IsInt
    omega
  constructor
  · intro k h
    have hlt := hint (k + 1) h
    obtain ⟨hreturned, hset⟩ := nthCall_filled c crlf final t h (by exact_mod_cast hlt)
      (fun hnext => by exact_mod_cast hint (k + 2) hnext)
    have hcount : IsInt (sets.get ⟨k, h⟩).transactions.length := by
      have := hcounts _ (sets.get_mem ⟨k, h⟩)
      unfold IsInt
      omega
    rw [toInt_of_isInt hcount] at hreturned
    exact ⟨hreturned, hset⟩
  · intro k hk
    have hdone : Ahead (sets.length + 1) []
        (before c (WrittenSet.write crlf final sets) t k).1 := by
      induction k, hk using Nat.le_induction with
      | base =>
        have hahead := (before_ahead c crlf final t (sets.length.le_refl)
          (fun _ => hint _ le_rfl) fun h => absurd h (lt_irrefl _)).2
        rwa [List.drop_length] at hahead
      | succ k _ ih =>
        have hnext := (readNextSet_done c ih (before c (WrittenSet.write crlf final sets) t k).2).2
        rwa [← nthCall_eq] at hnext
    rw [nthCall_eq]
    exact (readNextSet_done c hdone _).1

def s1 : Names := ⟨[['S', '1']], by decide, by simp [IsNameChar]⟩

/-- Two sets, the first with two transactions. -/
theorem decodes_two :
    Decodes .standard true false {}
      [⟨[⟨100, 501, 8⟩, ⟨1001, 1650, 2⟩], s1, s1, by decide, by decide⟩,
        ⟨[⟨-1, 1111, 5⟩], s1, s1, by decide, by decide⟩] :=
  decodes_written _ _ _ _ (by decide) (by decide)

/-- A set of `n + 1` equal transactions. -/
def repeated (n : ℕ) : WrittenSet where
  transactions := List.replicate (n + 1) ⟨1, 2, 3⟩
  servers := s1
  leaders := s1
  nonempty := by simp
  isInt := by
    intro t ht
    obtain rfl := List.eq_of_mem_replicate ht
    decide

/-- The number of set 2147483648 is no `int`, so the call before it throws; and a count of
2147483648 transactions is returned as a negative number. -/
theorem not_decodes_beyond_int :
    ¬ Decodes .standard false true {} (List.replicate (2 ^ 31) (repeated 0)) ∧
      ¬ Decodes .standard false true {} [repeated (2 ^ 31 - 1)] := by
  constructor
  · intro h
    have hlength : (List.replicate (2 ^ 31) (repeated 0)).length = 2 ^ 31 := List.length_replicate
    have hlt : 2 ^ 31 - 2 < (List.replicate (2 ^ 31) (repeated 0)).length := by omega
    obtain ⟨hno, hahead⟩ := before_ahead .standard false true {} hlt.le
      (fun _ => by decide) (fun _ => by decide)
    rw [List.drop_replicate, show 2 ^ 31 - (2 ^ 31 - 2) = 2 from rfl] at hahead
    obtain ⟨current, rest, -, -, -, hrest, hread⟩ := readRows_ahead (by decide) (by decide) hahead
    obtain ⟨r', hr'⟩ := readRows_throws (by decide) hrest current (swapNext _)
    have hreturned := (h.1 _ hlt).1
    rw [nthCall_eq, readNextSet, hno, toInt_of_isInt (by decide), hread, hr'] at hreturned
    cases hreturned
  · intro h
    have hlt : 0 < [repeated (2 ^ 31 - 1)].length := Nat.one_pos
    have hreturned := (h.1 0 hlt).1
    rw [(nthCall_filled .standard false true {} hlt (by decide) (by decide)).1] at hreturned
    have hlength : (repeated (2 ^ 31 - 1)).transactions.length = 2 ^ 31 := List.length_replicate
    simp only [List.get_eq_getElem, List.getElem_cons_zero, hlength] at hreturned
    exact absurd (Except.ok.inj hreturned) (by decide)

end CSVReader
end TpcBank
