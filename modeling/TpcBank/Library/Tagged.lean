import Mathlib.Data.Multiset.Filter

/-! What belongs to one tag, in a list or in a bag of tagged elements. -/
namespace Tagged

variable {ι α : Type*} [DecidableEq ι]

/-- The elements with a tag, in their order. -/
def listOf (i : ι) (l : List (ι × α)) : List α :=
  l.filterMap fun p => if p.1 = i then some p.2 else none

/-- The elements with a tag, in no order. -/
def bagOf (i : ι) (s : Multiset (ι × α)) : Multiset α :=
  s.filterMap fun p => if p.1 = i then some p.2 else none

variable {i j : ι} {a : α} {l l' : List (ι × α)} {s : Multiset (ι × α)}

@[simp] theorem listOf_nil : listOf i ([] : List (ι × α)) = [] := rfl

@[simp] theorem listOf_append : listOf i (l ++ l') = listOf i l ++ listOf i l' :=
  List.filterMap_append

theorem listOf_cons : listOf i ((j, a) :: l) = if j = i then a :: listOf i l else listOf i l := by
  unfold listOf
  by_cases h : j = i <;> simp [h]

@[simp] theorem bagOf_zero : bagOf i (0 : Multiset (ι × α)) = 0 := rfl

theorem bagOf_cons : bagOf i ((j, a) ::ₘ s) = if j = i then a ::ₘ bagOf i s else bagOf i s := by
  unfold bagOf
  by_cases h : j = i
  · rw [if_pos h]
    exact Multiset.filterMap_cons_some _ _ s (if_pos h)
  · rw [if_neg h]
    exact Multiset.filterMap_cons_none _ s (if_neg h)

@[simp] theorem mem_bagOf : a ∈ bagOf i s ↔ (i, a) ∈ s := by
  unfold bagOf
  rw [Multiset.mem_filterMap]
  constructor
  · rintro ⟨⟨j, b⟩, hmem, h⟩
    split_ifs at h with hj
    cases h
    exact hj ▸ hmem
  · intro h
    exact ⟨(i, a), h, if_pos rfl⟩

variable [DecidableEq α]

theorem bagOf_erase (h : (i, a) ∈ s) : bagOf i s = a ::ₘ bagOf i (s.erase (i, a)) := by
  have hcons := bagOf_cons (i := i) (j := i) (a := a) (s := s.erase (i, a))
  rwa [Multiset.cons_erase h, if_pos rfl] at hcons

theorem bagOf_erase_of_ne (h : (j, a) ∈ s) (hne : j ≠ i) :
    bagOf i (s.erase (j, a)) = bagOf i s := by
  have hcons := bagOf_cons (i := i) (j := j) (a := a) (s := s.erase (j, a))
  rw [Multiset.cons_erase h, if_neg hne] at hcons
  exact hcons.symm

end Tagged
