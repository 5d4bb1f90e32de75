import Mathlib.Data.Finset.Disjoint
import Mathlib.Data.Finset.SDiff

/-! Reservations on items with balances: each active reservation holds locks on its items, and
what it is going to take from them is there. -/
namespace Reservation

variable {ρ κ G : Type*} [DecidableEq κ] [Zero G] [LE G]

/-- No two active reservations share an item, all items of active reservations are locked, each
balance covers what the reservation of its item takes, and no balance is negative. -/
structure Sound (items : ρ → Finset κ) (cost : ρ → κ → G) (kept : Set κ) (active : ρ → Prop)
    (locks : Finset κ) (balances : κ → G) : Prop where
  locked : ∀ r, active r → items r ⊆ locks
  disjoint : ∀ r r', active r → active r' → r ≠ r' → Disjoint (items r) (items r')
  covered : ∀ r, active r → ∀ x ∈ items r, cost r x ≤ balances x
  nonneg : ∀ x ∈ kept, 0 ≤ balances x

namespace Sound

variable {items : ρ → Finset κ} {cost : ρ → κ → G} {kept : Set κ} {active active' : ρ → Prop}
  {locks locks' : Finset κ} {balances balances' : κ → G}

omit [DecidableEq κ] in
/-- Fewer reservations and more locks do no harm. -/
theorem mono (h : Sound items cost kept active locks balances)
    (hactive : ∀ r, active' r → active r) (hlocks : locks ⊆ locks') :
    Sound items cost kept active' locks' balances where
  locked := fun r hr => (h.locked r (hactive r hr)).trans hlocks
  disjoint := fun r r' hr hr' => h.disjoint r r' (hactive r hr) (hactive r' hr')
  covered := fun r hr => h.covered r (hactive r hr)
  nonneg := h.nonneg

/-- A reservation of free items that the balances cover. -/
theorem reserve (h : Sound items cost kept active locks balances) {r : ρ}
    (hfree : Disjoint (items r) locks) (hcover : ∀ x ∈ items r, cost r x ≤ balances x)
    (hactive : ∀ r', active' r' → active r' ∨ r' = r) (hlocks : locks ∪ items r ⊆ locks') :
    Sound items cost kept active' locks' balances where
  locked := by
    intro r' hr'
    rcases hactive r' hr' with hold | rfl
    · exact (h.locked r' hold).trans (Finset.subset_union_left.trans hlocks)
    · exact Finset.subset_union_right.trans hlocks
  disjoint := by
    intro r₁ r₂ hr₁ hr₂ hne
    rcases hactive r₁ hr₁ with hold₁ | rfl <;> rcases hactive r₂ hr₂ with hold₂ | rfl
    · exact h.disjoint r₁ r₂ hold₁ hold₂ hne
    · exact (Finset.disjoint_of_subset_right (h.locked r₁ hold₁) hfree).symm
    · exact Finset.disjoint_of_subset_right (h.locked r₂ hold₂) hfree
    · exact absurd rfl hne
  covered := by
    intro r' hr'
    rcases hactive r' hr' with hold | rfl
    · exact h.covered r' hold
    · exact hcover
  nonneg := h.nonneg

/-- A reservation ends: its items are unlocked, and only their balances may change. -/
theorem release (h : Sound items cost kept active locks balances) {r : ρ} (hr : active r)
    (hactive : ∀ r', active' r' → active r' ∧ r' ≠ r)
    (hsame : ∀ x, x ∉ items r → balances' x = balances x)
    (hnonneg : ∀ x ∈ items r, x ∈ kept → 0 ≤ balances' x) :
    Sound items cost kept active' (locks \ items r) balances' where
  locked := by
    intro r' hr'
    obtain ⟨hold, hne⟩ := hactive r' hr'
    exact Finset.subset_sdiff.mpr ⟨h.locked r' hold, h.disjoint r' r hold hr hne⟩
  disjoint := fun r₁ r₂ hr₁ hr₂ =>
    h.disjoint r₁ r₂ (hactive r₁ hr₁).1 (hactive r₂ hr₂).1
  covered := by
    intro r' hr' x hx
    obtain ⟨hold, hne⟩ := hactive r' hr'
    have hout : x ∉ items r := Finset.disjoint_left.mp (h.disjoint r' r hold hr hne) hx
    rw [hsame x hout]
    exact h.covered r' hold x hx
  nonneg := by
    intro x hx
    by_cases hin : x ∈ items r
    · exact hnonneg x hin hx
    · rw [hsame x hin]
      exact h.nonneg x hx

end Sound

/-! ### Granted reservations -/

/-- A bank that is ahead of the balances by the reservations that are owed: each of them has
been granted, and has not moved its amounts yet. -/
structure Tracks [Add G] (items : ρ → Finset κ) (effect : ρ → κ → G) (kept : Set κ)
    (owed : ρ → Prop) (balances bank : κ → G) : Prop where
  due : ∀ r, owed r → ∀ x ∈ items r, bank x = balances x + effect r x
  rest : ∀ x ∈ kept, (∀ r, owed r → x ∉ items r) → bank x = balances x

namespace Tracks

variable [Add G] {items : ρ → Finset κ} {cost effect : ρ → κ → G} {kept : Set κ}
  {active owed owed' : ρ → Prop} {locks : Finset κ} {balances balances' bank bank' : κ → G}

omit [DecidableEq κ] [Zero G] [LE G] in
/-- Nothing is granted or paid. -/
theorem frame (h : Tracks items effect kept owed balances bank) (hitems : ∀ r, ↑(items r) ⊆ kept)
    (howed : ∀ r, owed' r ↔ owed r) (hbalances : ∀ x ∈ kept, balances' x = balances x)
    (hbank : ∀ x ∈ kept, bank' x = bank x) : Tracks items effect kept owed' balances' bank' where
  due := by
    intro r hr x hx
    have hkept := hitems r hx
    rw [hbank x hkept, hbalances x hkept]
    exact h.due r ((howed r).mp hr) x hx
  rest := by
    intro x hx hfree
    rw [hbank x hx, hbalances x hx]
    exact h.rest x hx fun r hr => hfree r ((howed r).mpr hr)

omit [DecidableEq κ] in
/-- The items of a reservation that is not granted have the balances of the bank. -/
theorem settled (h : Tracks items effect kept owed balances bank) (hitems : ∀ r, ↑(items r) ⊆ kept)
    (hsound : Sound items cost kept active locks balances) (howed : ∀ r, owed r → active r) {r : ρ}
    (hr : active r) (hnew : ¬ owed r) {x : κ} (hx : x ∈ items r) : bank x = balances x := by
  apply h.rest x (hitems r hx)
  intro r' hr'
  have hne : r' ≠ r := by
    rintro rfl
    exact hnew hr'
  exact Finset.disjoint_left.mp (hsound.disjoint r r' hr (howed r' hr') hne.symm) hx

omit [DecidableEq κ] in
/-- A reservation is granted: the bank moves its amounts. -/
theorem grant (h : Tracks items effect kept owed balances bank) (hitems : ∀ r, ↑(items r) ⊆ kept)
    (hsound : Sound items cost kept active locks balances) (howed : ∀ r, owed r → active r) {r : ρ}
    (hr : active r) (hnew : ¬ owed r) (hafter : ∀ r', owed' r' ↔ owed r' ∨ r' = r)
    (hin : ∀ x ∈ items r, bank' x = bank x + effect r x)
    (hout : ∀ x ∈ kept, x ∉ items r → bank' x = bank x) :
    Tracks items effect kept owed' balances bank' where
  due := by
    intro r' hr' x hx
    rcases (hafter r').mp hr' with hold | rfl
    · have hne : r' ≠ r := by
        rintro rfl
        exact hnew hold
      have hxr := Finset.disjoint_left.mp (hsound.disjoint r' r (howed r' hold) hr hne) hx
      rw [hout x (hitems r' hx) hxr]
      exact h.due r' hold x hx
    · rw [hin x hx, h.settled hitems hsound howed hr hnew hx]
  rest := by
    intro x hx hfree
    rw [hout x hx (hfree r ((hafter r).mpr (.inr rfl)))]
    exact h.rest x hx fun r' hr' => hfree r' ((hafter r').mpr (.inl hr'))

omit [DecidableEq κ] in
/-- A granted reservation is paid: the balances move its amounts. -/
theorem pay (h : Tracks items effect kept owed balances bank)
    (hsound : Sound items cost kept active locks balances) (howed : ∀ r, owed r → active r) {r : ρ}
    (hr : owed r) (hafter : ∀ r', owed' r' ↔ owed r' ∧ r' ≠ r)
    (hin : ∀ x ∈ items r, balances' x = balances x + effect r x)
    (hout : ∀ x, x ∉ items r → balances' x = balances x) :
    Tracks items effect kept owed' balances' bank where
  due := by
    intro r' hr' x hx
    obtain ⟨hold, hne⟩ := (hafter r').mp hr'
    have hxr := Finset.disjoint_left.mp
      (hsound.disjoint r' r (howed r' hold) (howed r hr) hne) hx
    rw [hout x hxr]
    exact h.due r' hold x hx
  rest := by
    intro x hx hfree
    by_cases hxr : x ∈ items r
    · rw [hin x hxr]
      exact h.due r hr x hxr
    · rw [hout x hxr]
      refine h.rest x hx fun r' hr' => ?_
      by_cases hne : r' = r
      · rwa [hne]
      · exact hfree r' ((hafter r').mpr ⟨hr', hne⟩)

end Tracks
/-! ### Locks without a holder -/

/-- Every lock on a kept item is held by an active reservation. -/
def Tight (items : ρ → Finset κ) (kept : Set κ) (active : ρ → Prop) (locks : Finset κ) : Prop :=
  ∀ x ∈ locks, x ∈ kept → ∃ r, active r ∧ x ∈ items r

namespace Tight

variable {items : ρ → Finset κ} {kept : Set κ} {active active' : ρ → Prop} {locks locks' : Finset κ}

omit [DecidableEq κ] in
theorem mono (h : Tight items kept active locks) (hactive : ∀ r, active r → active' r)
    (hlocks : ∀ x ∈ locks', x ∈ kept → x ∈ locks) : Tight items kept active' locks' := by
  intro x hx hkept
  obtain ⟨r, hr, hxr⟩ := h x (hlocks x hx hkept) hkept
  exact ⟨r, hactive r hr, hxr⟩

omit [DecidableEq κ] in
/-- A reservation that begins holds what it locks. -/
theorem reserve (h : Tight items kept active locks) {r : ρ} (hr : active' r)
    (hactive : ∀ r', active r' → active' r')
    (hlocks : ∀ x ∈ locks', x ∈ kept → x ∈ locks ∨ x ∈ items r) :
    Tight items kept active' locks' := by
  intro x hx hkept
  rcases hlocks x hx hkept with hold | hnew
  · obtain ⟨r', hr', hxr⟩ := h x hold hkept
    exact ⟨r', hactive r' hr', hxr⟩
  · exact ⟨r, hr, hnew⟩

/-- A reservation that ends leaves no lock behind. -/
theorem release (h : Tight items kept active locks) {r : ρ}
    (hactive : ∀ r', active r' → r' ≠ r → active' r') :
    Tight items kept active' (locks \ items r) := by
  intro x hx hkept
  obtain ⟨hlocked, hout⟩ := Finset.mem_sdiff.mp hx
  obtain ⟨r', hr', hxr⟩ := h x hlocked hkept
  refine ⟨r', hactive r' hr' ?_, hxr⟩
  rintro rfl
  exact hout hxr

end Tight
end Reservation
