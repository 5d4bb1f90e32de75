import Mathlib.Data.Set.Basic
import Mathlib.Order.Defs.LinearOrder

/-! Voting in numbered ballots, each for one slot. A ballot may be abandoned: only the ballots
that are still live can be decided, and a new ballot has to mind only these. -/

/-- What is seen of a vote: the number of each ballot and the slot it is for, who has accepted
it, and whether it is live. -/
structure Voting (A B L N : Type*) where
  number : B → N
  slot : B → L → Prop
  accepted : A → B → Prop
  live : B → Prop

namespace Voting

variable {A B L N : Type*} [LinearOrder N] {v v' : Voting A B L N} {quorum : Set A → Prop}
  {y : A} {b b' : B} {l : L}

/-- An acceptor has accepted no live ballot for a slot with a number below that of a ballot. -/
def Untouched (v : Voting A B L N) (y : A) (b : B) (l : L) : Prop :=
  ∀ b', v.number b' < v.number b → v.slot b' l → v.live b' → ¬ v.accepted y b'

/-- A quorum of acceptors is untouched. -/
def Guarded (v : Voting A B L N) (quorum : Set A → Prop) (b : B) (l : L) : Prop :=
  ∃ Q, quorum Q ∧ ∀ y ∈ Q, v.Untouched y b l

/-- A quorum has accepted a live ballot. -/
def Decided (v : Voting A B L N) (quorum : Set A → Prop) (b : B) : Prop :=
  v.live b ∧ ∃ Q, quorum Q ∧ ∀ y ∈ Q, v.accepted y b

/-- An acceptor stays untouched when each live ballot for the slot with a lower number that it
has accepted was so before. -/
theorem Untouched.later (h : v.Untouched y b l) (hnumber : v'.number = v.number)
    (hbefore : ∀ b', v.number b' < v.number b → v'.slot b' l → v'.live b' → v'.accepted y b' →
      v.slot b' l ∧ v.live b' ∧ v.accepted y b') : v'.Untouched y b l := by
  intro b' hlt hslot hlive hacc
  rw [hnumber] at hlt
  obtain ⟨hslot, hlive, hacc⟩ := hbefore b' hlt hslot hlive hacc
  exact h b' hlt hslot hlive hacc

/-- A guarded ballot is not above a decided one for its slot. -/
theorem Decided.not_below (h : v.Decided quorum b)
    (hmeet : ∀ Q Q', quorum Q → quorum Q' → ∃ y ∈ Q, y ∈ Q')
    (hslot : v.slot b l) (hguarded : v.Guarded quorum b' l) : ¬ v.number b < v.number b' := by
  intro hlt
  obtain ⟨hlive, Q, hQ, hacc⟩ := h
  obtain ⟨Q', hQ', huntouched⟩ := hguarded
  obtain ⟨y, hy, hy'⟩ := hmeet Q Q' hQ hQ'
  exact huntouched y hy' b hlt hslot hlive (hacc y hy)

/-- At most one ballot is decided for a slot. -/
theorem Decided.unique (h : v.Decided quorum b) (h' : v.Decided quorum b')
    (hmeet : ∀ Q Q', quorum Q → quorum Q' → ∃ y ∈ Q, y ∈ Q')
    (hslot : v.slot b l) (hslot' : v.slot b' l) (hguarded : v.Guarded quorum b l)
    (hguarded' : v.Guarded quorum b' l) (hnumber : v.number b = v.number b' → b = b') : b = b' := by
  apply hnumber
  apply le_antisymm
  · exact le_of_not_gt (h'.not_below hmeet hslot' hguarded)
  · exact le_of_not_gt (h.not_below hmeet hslot hguarded')

end Voting
