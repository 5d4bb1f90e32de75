import Mathlib.Data.Nat.Basic
import Mathlib.Data.List.TakeWhile

/-! Decimal text of integers: printing as `operator<<` and `std::to_string` do, reading as
`operator>>` does, and the round trip between them. -/
namespace Decimal

/-- Text and files are sequences of characters. -/
abbrev Text := List Char

/-- The decimal text of an integer, with a minus sign when it is negative. -/
def decimal : ℤ → Text
  | .ofNat n => Nat.toDigits 10 n
  | .negSucc n => '-' :: Nat.toDigits 10 (n + 1)

/-- The longest run of digits at the front, as a number, and the text after it. -/
def readDigits (text : Text) : Option (ℕ × Text) :=
  let digits := text.takeWhile Char.isDigit
  if digits = [] then none
  else some (Nat.ofDigitChars 10 digits 0, text.dropWhile Char.isDigit)

/-- Skip white space, then read an optional sign and the digits after it. -/
def readInt (text : Text) : Option (ℤ × Text) :=
  match text.dropWhile Char.isWhitespace with
  | '-' :: rest => (readDigits rest).map fun r => (-(r.1 : ℤ), r.2)
  | '+' :: rest => (readDigits rest).map fun r => ((r.1 : ℤ), r.2)
  | rest => (readDigits rest).map fun r => ((r.1 : ℤ), r.2)

/-- Skip white space, then read up to the next white space. -/
def readWord (text : Text) : Option (Text × Text) :=
  let rest := text.dropWhile Char.isWhitespace
  if rest = [] then none
  else some (rest.takeWhile (!Char.isWhitespace ·), rest.dropWhile (!Char.isWhitespace ·))

theorem toDigits_isDigit {n : ℕ} {d : Char} (h : d ∈ Nat.toDigits 10 n) : d.isDigit = true :=
  Nat.isDigit_of_mem_toDigits (by decide) (by decide) h

/-- Text that starts with no digit. -/
def NoDigitFront (text : Text) : Prop := ∀ d ∈ text.head?, d.isDigit = false

theorem takeWhile_append_front {p : Char → Bool} {ds rest : Text} (hd : ∀ d ∈ ds, p d = true)
    (hr : ∀ d ∈ rest.head?, p d = false) : (ds ++ rest).takeWhile p = ds := by
  rw [List.takeWhile_append_of_pos hd]
  cases rest with
  | nil => simp
  | cons d rest => simp [hr d (by simp)]

theorem dropWhile_append_front {p : Char → Bool} {ds rest : Text} (hd : ∀ d ∈ ds, p d = true)
    (hr : ∀ d ∈ rest.head?, p d = false) : (ds ++ rest).dropWhile p = rest := by
  rw [List.dropWhile_append_of_pos hd]
  cases rest with
  | nil => simp
  | cons d rest => simp [hr d (by simp)]

theorem readDigits_toDigits (n : ℕ) {rest : Text} (hr : NoDigitFront rest) :
    readDigits (Nat.toDigits 10 n ++ rest) = some (n, rest) := by
  have hd : ∀ d ∈ Nat.toDigits 10 n, d.isDigit = true := fun d => toDigits_isDigit
  simp [readDigits, takeWhile_append_front hd hr, dropWhile_append_front hd hr,
    Nat.ofDigitChars_ten_toDigits]

theorem isDigit_not_sign {d : Char} (h : d.isDigit = true) :
    d ≠ '-' ∧ d ≠ '+' ∧ d.isWhitespace = false := by
  have hd : 48 ≤ d.val ∧ d.val ≤ 57 := by
    simpa [Char.isDigit, UInt32.le_iff_toNat_le] using h
  refine ⟨?_, ?_, ?_⟩
  · rintro rfl
    exact absurd hd (by decide)
  · rintro rfl
    exact absurd hd (by decide)
  · by_contra hw
    have hw : d = ' ' ∨ d = '\t' ∨ d = '\r' ∨ d = '\n' := by
      simpa [Char.isWhitespace, imp_iff_not_or, or_assoc] using hw
    rcases hw with rfl | rfl | rfl | rfl <;> exact absurd hd (by decide)

/-- Reading back a printed integer gives the integer and leaves the text after it. -/
theorem readInt_decimal (z : ℤ) {rest : Text} (hr : NoDigitFront rest) :
    readInt (' ' :: decimal z ++ rest) = some (z, rest) := by
  cases z with
  | negSucc n =>
    have h := readDigits_toDigits (n + 1) hr
    simp [readInt, decimal, h, Char.isWhitespace, Int.negSucc_eq]
  | ofNat n =>
    obtain ⟨d, ds, hds⟩ := List.exists_cons_of_ne_nil (Nat.toDigits_ne_nil (n := n) (b := 10))
    have hdig : d.isDigit = true := toDigits_isDigit (hds ▸ List.mem_cons_self)
    obtain ⟨hminus, hplus, hspace⟩ := isDigit_not_sign hdig
    have h := readDigits_toDigits n hr
    rw [hds, List.cons_append] at h
    have hdrop : (' ' :: d :: (ds ++ rest)).dropWhile Char.isWhitespace = d :: (ds ++ rest) := by
      simp [hspace]
    simp only [readInt, decimal, hds, List.cons_append, hdrop]
    split <;> simp_all

@[simp] theorem readInt_field (z : ℤ) (rest : Text) :
    readInt (' ' :: (decimal z ++ ' ' :: rest)) = some (z, ' ' :: rest) := by
  have hr : NoDigitFront (' ' :: rest) := by
    intro d hd
    cases hd
    decide
  exact readInt_decimal z hr

@[simp] theorem readInt_last (z : ℤ) : readInt (' ' :: decimal z) = some (z, []) := by
  have hnil : NoDigitFront [] := by simp [NoDigitFront]
  have h := readInt_decimal z hnil
  rwa [List.append_nil] at h

/-- Reading the first word of a line gives it back. -/
theorem readWord_append {word rest : Text} (hw : ∀ d ∈ word, d.isWhitespace = false)
    (hne : word ≠ []) : readWord (word ++ ' ' :: rest) = some (word, ' ' :: rest) := by
  obtain ⟨d, ds, rfl⟩ := List.exists_cons_of_ne_nil hne
  have hd : d.isWhitespace = false := hw d (by simp)
  have hdrop : (d :: ds ++ ' ' :: rest).dropWhile Char.isWhitespace = d :: ds ++ ' ' :: rest := by
    simp [hd]
  have hall : ∀ a ∈ d :: ds, (!Char.isWhitespace a) = true := by
    intro a ha
    simp [hw a ha]
  have hfront : ∀ a ∈ (' ' :: rest).head?, (!Char.isWhitespace a) = false := by simp
  simp only [readWord, hdrop, takeWhile_append_front hall hfront,
    dropWhile_append_front hall hfront]
  simp

theorem decimal_injective : Function.Injective decimal := by
  intro a b h
  have ha := readInt_last a
  have hb := readInt_last b
  rw [h, hb] at ha
  simpa using ha.symm

theorem decimal_no_newline (z : ℤ) : '\n' ∉ decimal z := by
  intro h
  cases z with
  | ofNat n => exact absurd (toDigits_isDigit h) (by decide)
  | negSucc n =>
    rcases List.mem_cons.mp h with h | h
    · exact absurd h (by decide)
    · exact absurd (toDigits_isDigit h) (by decide)

end Decimal
