import Mathlib.Data.List.Forall2

/-! Separated text: the splitters of a character loop, and what they give back from text that was
joined with the separator. -/
namespace Delimited

variable {α : Type*} [DecidableEq α]

/-- Split at a separator, and drop what is to be skipped. The first argument is the field read
so far. -/
def splitSkip (sep : α) (skip : α → Bool) : List α → List α → List (List α)
  | field, [] => [field]
  | field, a :: as =>
      if skip a then splitSkip sep skip field as
      else if a = sep then field :: splitSkip sep skip [] as
      else splitSkip sep skip (field ++ [a]) as

/-- Split at the separators outside quotes, and drop the quotes. -/
def splitQuoted (sep quote : α) : Bool → List α → List α → List (List α)
  | _, field, [] => [field]
  | inQuotes, field, a :: as =>
      if a = quote then splitQuoted sep quote (!inQuotes) field as
      else if a = sep ∧ inQuotes = false then field :: splitQuoted sep quote inQuotes [] as
      else splitQuoted sep quote inQuotes (field ++ [a]) as

/-- The lines of a text, as they are read one after the other: a line end after the last line
starts no line. -/
def lines (lineEnd : α) : List α → List α → List (List α)
  | [], [] => []
  | a :: line, [] => [a :: line]
  | line, a :: as =>
      if a = lineEnd then line :: lines lineEnd [] as else lines lineEnd (line ++ [a]) as

/-- Rows with a line end after each, or after each but the last. -/
def joinRows (lineEnd : List α) (final : Bool) : List (List α) → List α
  | [] => []
  | [row] => row ++ if final then lineEnd else []
  | row :: rows => row ++ lineEnd ++ joinRows lineEnd final rows

/-! ### Fields -/

theorem splitSkip_eq {sep : α} {skip : α → Bool} (field text : List α) :
    splitSkip sep skip field text =
      ((text.filter (!skip ·)).splitOn sep).modifyHead (field ++ ·) := by
  induction text generalizing field with
  | nil => simp [splitSkip]
  | cons a as ih =>
    unfold splitSkip
    by_cases hskip : skip a = true
    · rw [if_pos hskip, ih, List.filter_cons_of_neg (by simp [hskip])]
    rw [if_neg hskip, List.filter_cons_of_pos (by simp [hskip]),
      List.splitOn_cons_eq_if_modifyHead]
    by_cases ha : a = sep
    · rw [if_pos ha, if_pos (by simp [ha]), ih]
      cases List.splitOn sep (as.filter (!skip ·)) <;> simp
    · rw [if_neg ha, if_neg (by simp [ha]), ih]
      cases List.splitOn sep (as.filter (!skip ·)) <;> simp

omit [DecidableEq α] in
theorem forall_mem_intercalate {P : α → Prop} {sep : List α} {fields : List (List α)}
    (hsep : ∀ a ∈ sep, P a) (hfields : ∀ field ∈ fields, ∀ a ∈ field, P a) :
    ∀ a ∈ sep.intercalate fields, P a := by
  induction fields with
  | nil => simp
  | cons field fields ih =>
    have hfield := hfields field (by simp)
    have hrest := ih fun field hmem => hfields field (by simp [hmem])
    cases fields with
    | nil => simpa using hfield
    | cons field' fields =>
      intro a ha
      rw [List.intercalate_cons_cons, List.mem_append, List.mem_append] at ha
      rcases ha with (ha | ha) | ha
      · exact hfield a ha
      · exact hsep a ha
      · exact hrest a ha

omit [DecidableEq α] in
theorem filter_intercalate (p : α → Bool) (sep : List α) (fields : List (List α)) :
    (sep.intercalate fields).filter p =
      (sep.filter p).intercalate (fields.map (List.filter p)) := by
  induction fields with
  | nil => rfl
  | cons field fields ih =>
    cases fields with
    | nil => simp
    | cons field' fields =>
      rw [List.intercalate_cons_cons, List.filter_append, List.filter_append, ih]
      simp [List.intercalate_cons_cons]

/-- Fields between an opening and a closing that are skipped. -/
theorem splitSkip_enclosed {sep : α} {skip : α → Bool} (hsep : skip sep = false)
    {fields : List (List α)} (hne : fields ≠ [])
    (hfields : ∀ field ∈ fields, ∀ a ∈ field, skip a = false ∧ a ≠ sep) {before after : List α}
    (hbefore : ∀ a ∈ before, skip a = true) (hafter : ∀ a ∈ after, skip a = true) :
    splitSkip sep skip [] (before ++ [sep].intercalate fields ++ after) = fields := by
  have hdropped : ∀ l : List α, (∀ a ∈ l, skip a = true) → l.filter (!skip ·) = [] := by
    intro l hl
    rw [List.filter_eq_nil_iff]
    intro a ha
    simp [hl a ha]
  have hkept : ([sep].intercalate fields).filter (!skip ·) = [sep].intercalate fields := by
    rw [List.filter_eq_self]
    refine forall_mem_intercalate (by simp [hsep]) fun field hfield a ha => ?_
    simp [(hfields field hfield a ha).1]
  have hsplit : ([sep].intercalate fields).splitOn sep = fields :=
    List.splitOn_intercalate sep (fun field hfield hmem => (hfields field hfield sep hmem).2 rfl) hne
  rw [splitSkip_eq, List.filter_append, List.filter_append, hdropped before hbefore,
    hdropped after hafter, hkept, List.nil_append, List.append_nil, hsplit]
  cases fields <;> simp

/-! ### Quoted cells -/

/-- How the text of a cell can be written: as it is, when it has neither a separator nor a
quote, and otherwise in quotes. -/
inductive Cell (sep quote : α) : List α → List α → Prop
  | plain {text : List α} (h : ∀ a ∈ text, a ≠ quote ∧ a ≠ sep) : Cell sep quote text text
  | quoted {text : List α} (h : quote ∉ text) : Cell sep quote (quote :: text ++ [quote]) text

theorem splitQuoted_plain {sep quote : α} {text : List α} (h : ∀ a ∈ text, a ≠ quote ∧ a ≠ sep)
    (field rest : List α) :
    splitQuoted sep quote false field (text ++ rest) =
      splitQuoted sep quote false (field ++ text) rest := by
  induction text generalizing field with
  | nil => simp
  | cons a as ih =>
    obtain ⟨hquote, hsep⟩ := h a (by simp)
    rw [List.cons_append, splitQuoted, if_neg hquote, if_neg (by simp [hsep]),
      ih fun b hb => h b (by simp [hb])]
    simp

theorem splitQuoted_inside {sep quote : α} {text : List α} (h : quote ∉ text)
    (field rest : List α) :
    splitQuoted sep quote true field (text ++ rest) =
      splitQuoted sep quote true (field ++ text) rest := by
  induction text generalizing field with
  | nil => simp
  | cons a as ih =>
    have hquote : a ≠ quote := by
      rintro rfl
      exact h (by simp)
    rw [List.cons_append, splitQuoted, if_neg hquote, if_neg (by simp),
      ih fun hmem => h (by simp [hmem])]
    simp

theorem Cell.split {sep quote : α} {written text : List α} (h : Cell sep quote written text)
    (field rest : List α) :
    splitQuoted sep quote false field (written ++ rest) =
      splitQuoted sep quote false (field ++ text) rest := by
  cases h with
  | plain h => exact splitQuoted_plain h field rest
  | quoted h =>
    rw [List.cons_append, List.cons_append, splitQuoted, if_pos rfl, List.append_assoc]
    rw [Bool.not_false, splitQuoted_inside h, List.singleton_append, splitQuoted, if_pos rfl]
    rfl

/-- A row of cells splits into their texts. -/
theorem splitQuoted_row {sep quote : α} (hne : sep ≠ quote) {written texts : List (List α)}
    (h : List.Forall₂ (Cell sep quote) written texts) (hwritten : written ≠ []) :
    splitQuoted sep quote false [] ([sep].intercalate written) = texts := by
  induction h with
  | nil => exact absurd rfl hwritten
  | @cons cell text cells texts hcell hcells ih =>
    cases hcells with
    | nil =>
      have hsplit := hcell.split [] []
      simpa [splitQuoted] using hsplit
    | cons hcell' hcells' =>
      rw [List.intercalate_cons_cons, List.append_assoc, hcell.split, List.singleton_append,
        splitQuoted, if_neg hne, if_pos ⟨rfl, rfl⟩, ih (by simp)]
      rfl

/-! ### Lines -/

theorem lines_append {lineEnd : α} {text : List α} (h : lineEnd ∉ text) (line rest : List α) :
    lines lineEnd line (text ++ lineEnd :: rest) =
      (line ++ text) :: lines lineEnd [] rest := by
  induction text generalizing line with
  | nil => cases line <;> simp [lines]
  | cons a as ih =>
    have ha : a ≠ lineEnd := by
      rintro rfl
      exact h (by simp)
    have hrest := ih (fun hmem => h (by simp [hmem])) (line ++ [a])
    cases line <;> simpa [lines, ha] using hrest

theorem lines_last {lineEnd : α} {text : List α} (h : lineEnd ∉ text) (line : List α)
    (hne : line ++ text ≠ []) : lines lineEnd line text = [line ++ text] := by
  induction text generalizing line with
  | nil =>
    cases line with
    | nil => exact absurd rfl hne
    | cons a line => simp [lines]
  | cons a as ih =>
    have ha : a ≠ lineEnd := by
      rintro rfl
      exact h (by simp)
    have hrest := ih (fun hmem => h (by simp [hmem])) (line ++ [a]) (by simp)
    cases line <;> simpa [lines, ha] using hrest

/-- The lines of joined rows are the rows, each with what stands before its line end. -/
theorem lines_joinRows {lineEnd : α} {before : List α} (hbefore : lineEnd ∉ before) (final : Bool)
    {rows : List (List α)} (hrows : ∀ row ∈ rows, lineEnd ∉ row ∧ row ≠ []) :
    List.Forall₂ (fun line row => line = row ∨ line = row ++ before)
      (lines lineEnd [] (joinRows (before ++ [lineEnd]) final rows)) rows := by
  induction rows with
  | nil => exact .nil
  | cons row rows ih =>
    obtain ⟨hrow, hne⟩ := hrows row (by simp)
    have hended : lineEnd ∉ row ++ before := by simp [hrow, hbefore]
    cases rows with
    | nil =>
      cases final with
      | false =>
        have hlast := lines_last hrow [] hne
        simp only [joinRows, Bool.false_eq_true, if_false, List.append_nil, hlast]
        exact .cons (.inl rfl) .nil
      | true =>
        have hline := lines_append hended [] []
        simp only [joinRows, if_true]
        rw [← List.append_assoc, hline]
        exact .cons (.inr rfl) .nil
    | cons row' rows' =>
      have hline := lines_append hended [] (joinRows (before ++ [lineEnd]) final (row' :: rows'))
      rw [joinRows, ← List.append_assoc row, List.append_assoc, List.singleton_append, hline]
      · exact .cons (.inr rfl) (ih fun row hmem => hrows row (by simp [hmem]))
      · simp

end Delimited
