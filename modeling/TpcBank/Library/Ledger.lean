import Mathlib.Algebra.BigOperators.Group.Finset.Piecewise
import Mathlib.Algebra.BigOperators.Group.Finset.Sigma
import Mathlib.Algebra.BigOperators.Group.List.Lemmas
import Mathlib.Algebra.BigOperators.Group.Multiset.Basic
import Mathlib.Algebra.Order.Group.Defs
import TpcBank.Library.Transition

/-! A ledger is a list of postings, each of which moves an amount from one account to
another. The net effect of a ledger on an account is what the account received less what it
paid. -/
namespace Ledger

structure Posting (α G : Type*) where
  source : α
  target : α
  amount : G

variable {α G : Type*} [DecidableEq α] [AddCommGroup G]

/-- What one posting does to an account. A posting from an account to itself does nothing. -/
def Posting.effect (p : Posting α G) (x : α) : G :=
  (if p.target = x then p.amount else 0) - (if p.source = x then p.amount else 0)

/-- The sum of the amounts received by an account. -/
def credits (ps : List (Posting α G)) (x : α) : G :=
  ((ps.filter fun p => p.target = x).map Posting.amount).sum

/-- The sum of the amounts paid by an account. -/
def debits (ps : List (Posting α G)) (x : α) : G :=
  ((ps.filter fun p => p.source = x).map Posting.amount).sum

def net (ps : List (Posting α G)) (x : α) : G := credits ps x - debits ps x

omit [DecidableEq α] in
theorem sum_map_filter (ps : List (Posting α G)) (q : Posting α G → Prop) [DecidablePred q] :
    ((ps.filter fun p => q p).map Posting.amount).sum =
      (ps.map fun p => if q p then p.amount else 0).sum := by
  induction ps with
  | nil => rfl
  | cons p ps ih => by_cases h : q p <;> simp [h, ih]

theorem net_eq_sum (ps : List (Posting α G)) (x : α) :
    net ps x = (ps.map fun p => p.effect x).sum := by
  unfold net credits debits
  rw [sum_map_filter, sum_map_filter]
  induction ps with
  | nil => simp
  | cons p ps ih =>
    rw [List.map_cons, List.map_cons, List.map_cons, List.sum_cons, List.sum_cons, List.sum_cons,
      ← ih, Posting.effect, add_sub_add_comm]

@[simp] theorem net_nil (x : α) : net ([] : List (Posting α G)) x = 0 := by
  simp [net_eq_sum]

@[simp] theorem net_append (ps qs : List (Posting α G)) (x : α) :
    net (ps ++ qs) x = net ps x + net qs x := by
  simp [net_eq_sum]

@[simp] theorem net_singleton (p : Posting α G) (x : α) : net [p] x = p.effect x := by
  simp [net_eq_sum]

/-- A posting between two accounts of a set leaves the total of the set alone; one that
crosses its border moves the total by its amount. -/
theorem Posting.sum_effect (p : Posting α G) (A : Finset α) :
    ∑ x ∈ A, p.effect x =
      (if p.target ∈ A then p.amount else 0) - (if p.source ∈ A then p.amount else 0) := by
  simp [Posting.effect, Finset.sum_sub_distrib]

theorem sum_net (ps : List (Posting α G)) (A : Finset α) :
    ∑ x ∈ A, net ps x = (ps.map fun p => ∑ x ∈ A, p.effect x).sum := by
  induction ps with
  | nil => simp
  | cons p ps ih =>
    rw [List.map_cons, List.sum_cons, ← ih, ← Finset.sum_add_distrib]
    apply Finset.sum_congr rfl
    intro x _
    simp [net_eq_sum]

/-! ### Branches -/

section Branches

variable {ι κ : Type*} [DecidableEq ι] [DecidableEq κ]

omit [DecidableEq α] [AddCommGroup G] in
/-- A sum over a list, over any set that has all of its items. -/
theorem sum_map_count_of_mem {M : Type*} [AddCommMonoid M] (is : List ι) {S : Finset ι}
    (hS : ∀ i ∈ is, i ∈ S) (f : ι → M) :
    (is.map f).sum = ∑ i ∈ S, is.count i • f i := by
  rw [Finset.sum_list_map_count]
  apply Finset.sum_subset
  · intro i hi
    exact hS i (List.mem_toFinset.mp hi)
  · intro i _ hi
    rw [List.count_eq_zero_of_not_mem (by simpa using hi), zero_nsmul]

/-- The accounts of a set are shared among branches, and every branch keeps a ledger of its own.
If a posting across two branches is kept equally often by both, then the accounts that the
branches keep add up to nothing. -/
theorem sum_net_branches (K : Finset κ) (A : Finset α) (branch : α → κ)
    (posting : ι → Posting α G) (ledger : κ → List ι) (hK : ∀ x ∈ A, branch x ∈ K)
    (hA : ∀ k ∈ K, ∀ i ∈ ledger k, (posting i).source ∈ A ∧ (posting i).target ∈ A)
    (hcount : ∀ k ∈ K, ∀ i ∈ ledger k, branch (posting i).source ≠ branch (posting i).target →
      (ledger (branch (posting i).source)).count i = (ledger (branch (posting i).target)).count i) :
    ∑ k ∈ K, ∑ x ∈ A with branch x = k, net ((ledger k).map posting) x = 0 := by
  let S : Finset ι := K.biUnion fun k => (ledger k).toFinset
  have hS : ∀ i ∈ S, ∃ k ∈ K, i ∈ ledger k := by
    intro i hi
    obtain ⟨k, hk, hmem⟩ := Finset.mem_biUnion.mp hi
    exact ⟨k, hk, List.mem_toFinset.mp hmem⟩
  have hbranch : ∀ k ∈ K, ∑ x ∈ A with branch x = k, net ((ledger k).map posting) x =
      ∑ i ∈ S, (ledger k).count i • ((if branch (posting i).target = k then (posting i).amount
        else 0) - if branch (posting i).source = k then (posting i).amount else 0) := by
    intro k hk
    rw [sum_net, List.map_map, sum_map_count_of_mem (ledger k) (S := S)
      (fun i hi => Finset.mem_biUnion.mpr ⟨k, hk, List.mem_toFinset.mpr hi⟩)]
    apply Finset.sum_congr rfl
    intro i hi
    obtain ⟨k', hk', hmem⟩ := hS i hi
    obtain ⟨hsource, htarget⟩ := hA k' hk' i hmem
    simp [Posting.sum_effect, hsource, htarget]
  rw [Finset.sum_congr rfl hbranch, Finset.sum_comm]
  apply Finset.sum_eq_zero
  intro i hi
  obtain ⟨k, hk, hmem⟩ := hS i hi
  obtain ⟨hsource, htarget⟩ := hA k hk i hmem
  -- the branch of the target gains what the branch of the source loses
  have hsum : ∑ k ∈ K, (ledger k).count i • ((if branch (posting i).target = k
      then (posting i).amount else 0) - if branch (posting i).source = k
      then (posting i).amount else 0) =
      (ledger (branch (posting i).target)).count i • (posting i).amount -
        (ledger (branch (posting i).source)).count i • (posting i).amount := by
    simp [nsmul_sub, Finset.sum_sub_distrib, hK _ hsource, hK _ htarget]
  rw [hsum]
  by_cases hsame : branch (posting i).source = branch (posting i).target
  · rw [hsame, sub_self]
  · rw [hcount k hk i hmem hsame, sub_self]

end Branches

/-! ### One posting after the other -/

section Execution

variable [LinearOrder G]

/-- Post to the accounts, unless the source does not have the amount. -/
def post (b : α → G) (p : Posting α G) : Option (α → G) :=
  if p.amount ≤ b p.source then some fun x => b x + p.effect x else none

theorem post_of_covered {b : α → G} {p : Posting α G} (h : p.amount ≤ b p.source) :
    post b p = some fun x => b x + p.effect x := if_pos h

omit [LinearOrder G] in
theorem Posting.effect_of_ne {p : Posting α G} {x : α} (hsource : p.source ≠ x)
    (htarget : p.target ≠ x) : p.effect x = 0 := by
  rw [Posting.effect, if_neg hsource, if_neg htarget, sub_zero]

/-- After a run each account has what it had and the net effect of the postings. -/
theorem run_post_net {b b' : α → G} {ps : List (Posting α G)}
    (h : Transition.run post b ps = some b') (x : α) : b' x = b x + net ps x := by
  induction ps generalizing b with
  | nil =>
    obtain rfl := Option.some.inj h
    rw [net_nil, add_zero]
  | cons p ps ih =>
    obtain ⟨b₁, hpost, hrest⟩ := Option.bind_eq_some_iff.mp h
    unfold post at hpost
    split_ifs at hpost with hcover
    obtain rfl := Option.some.inj hpost
    rw [ih hrest, net_eq_sum, net_eq_sum, List.map_cons, List.sum_cons, add_assoc]

/-- Postings that move no negative amounts overdraw no account. -/
theorem run_post_nonneg [IsOrderedAddMonoid G] {b b' : α → G} {ps : List (Posting α G)}
    (h : Transition.run post b ps = some b') (hps : ∀ p ∈ ps, 0 ≤ p.amount) (hb : ∀ x, 0 ≤ b x)
    (x : α) : 0 ≤ b' x := by
  induction ps generalizing b with
  | nil =>
    obtain rfl := Option.some.inj h
    exact hb x
  | cons p ps ih =>
    obtain ⟨b₁, hpost, hrest⟩ := Option.bind_eq_some_iff.mp h
    unfold post at hpost
    split_ifs at hpost with hcover
    obtain rfl := Option.some.inj hpost
    have hamount := hps p List.mem_cons_self
    refine ih hrest (fun q hq => hps q (List.mem_cons_of_mem _ hq)) fun y => ?_
    unfold Posting.effect
    split_ifs with htarget hsource hsource
    · rw [sub_self, add_zero]
      exact hb y
    · rw [sub_zero]
      exact add_nonneg (hb y) hamount
    · subst hsource
      rw [zero_sub, ← sub_eq_add_neg]
      exact sub_nonneg.mpr hcover
    · rw [sub_zero, add_zero]
      exact hb y

omit [LinearOrder G] in
/-- Postings among the accounts of a set leave its total alone. -/
theorem sum_net_eq_zero {ps : List (Posting α G)} {A : Finset α}
    (hps : ∀ p ∈ ps, p.source ∈ A ∧ p.target ∈ A) : ∑ x ∈ A, net ps x = 0 := by
  rw [sum_net]
  apply List.sum_eq_zero
  intro y hy
  obtain ⟨p, hp, rfl⟩ := List.mem_map.mp hy
  obtain ⟨hsource, htarget⟩ := hps p hp
  rw [Posting.sum_effect, if_pos hsource, if_pos htarget, sub_self]

end Execution

end Ledger
