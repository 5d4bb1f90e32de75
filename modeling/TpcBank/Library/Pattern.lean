import Mathlib.Computability.RegularExpressions

/-! Patterns over an alphabet: the texts that literals, character classes and their repetitions
match as a whole. -/
namespace Pattern
open RegularExpression

variable {α : Type*} [DecidableEq α]

/-- One text. -/
def literal (text : List α) : RegularExpression α :=
  text.foldr (fun a p => char a * p) 1

/-- One character of a class. -/
def oneOf (chars : List α) : RegularExpression α :=
  chars.foldr (fun a p => char a + p) 0

theorem rmatch_literal {text x : List α} : (literal text).rmatch x = true ↔ x = text := by
  induction text generalizing x with
  | nil => exact one_rmatch_iff x
  | cons a text ih =>
    rw [literal, List.foldr_cons, ← literal, mul_rmatch_iff]
    constructor
    · rintro ⟨t, u, rfl, ht, hu⟩
      rw [(char_rmatch_iff a t).mp ht, ih.mp hu, List.singleton_append]
    · rintro rfl
      exact ⟨[a], text, rfl, (char_rmatch_iff a _).mpr rfl, ih.mpr rfl⟩

theorem rmatch_oneOf {chars x : List α} :
    (oneOf chars).rmatch x = true ↔ ∃ a ∈ chars, x = [a] := by
  induction chars with
  | nil => simp [oneOf]
  | cons a chars ih =>
    rw [oneOf, List.foldr_cons, ← oneOf, add_rmatch_iff, ih, char_rmatch_iff, List.exists_mem_cons_iff]

theorem rmatch_star_oneOf {chars x : List α} :
    (star (oneOf chars)).rmatch x = true ↔ ∀ a ∈ x, a ∈ chars := by
  rw [star_rmatch_iff]
  constructor
  · rintro ⟨parts, rfl, hparts⟩ a ha
    obtain ⟨part, hpart, ha⟩ := List.mem_flatten.mp ha
    obtain ⟨b, hb, rfl⟩ := rmatch_oneOf.mp (hparts part hpart).2
    rwa [List.mem_singleton.mp ha]
  · intro hx
    refine ⟨x.map fun a => [a], ?_, ?_⟩
    · induction x with
      | nil => rfl
      | cons a x ih =>
        rw [List.map_cons, List.flatten_cons, ← ih fun b hb => hx b (List.mem_cons_of_mem _ hb)]
        rfl
    · intro part hpart
      obtain ⟨a, ha, rfl⟩ := List.mem_map.mp hpart
      exact ⟨List.cons_ne_nil _ _, rmatch_oneOf.mpr ⟨a, hx a ha, rfl⟩⟩

end Pattern
