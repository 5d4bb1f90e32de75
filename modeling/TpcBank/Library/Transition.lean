import Mathlib.Data.List.Induction
import Mathlib.Order.WellFounded
import Mathlib.Tactic.SplitIfs

/-! Runs of a partial transition function. A run carries a condition that every one of
its steps meets, so that a property can be stated for all runs or for the runs whose
steps avoid some branch. -/
namespace Transition

variable {σ ε : Type*}

/-- Execute a list of events, or stop at the first one that is not enabled. -/
def run (step : σ → ε → Option σ) : σ → List ε → Option σ
  | s, [] => some s
  | s, e :: es => (step s e).bind fun t => run step t es

/-- `Runs step P s es t`: the events `es` lead from `s` to `t`, and every step taken
meets the condition `P` in the state it is taken from. -/
inductive Runs (step : σ → ε → Option σ) (P : σ → ε → Prop) (s : σ) : List ε → σ → Prop
  | refl : Runs step P s [] s
  | snoc {es : List ε} {t u : σ} {e : ε} :
      Runs step P s es t → P t e → step t e = some u → Runs step P s (es ++ [e]) u

/-- Execute only the steps that meet a decidable condition. -/
def runIf (step : σ → ε → Option σ) (P : σ → ε → Prop) [∀ s e, Decidable (P s e)] :
    σ → List ε → Option σ :=
  run fun s e => if P s e then step s e else none

/-- What an observer of the single steps sees of a list of events. -/
def observe {ω : Type*} (step : σ → ε → Option σ) (obs : σ → ε → Option ω) : σ → List ε → List ω
  | _, [] => []
  | s, e :: es => (obs s e).toList ++ (step s e).elim [] fun t => observe step obs t es

variable {step : σ → ε → Option σ} {P Q : σ → ε → Prop}

theorem Runs.single {s t : σ} {e : ε} (hP : P s e) (h : step s e = some t) :
    Runs step P s [e] t := by
  simpa using Runs.snoc (Runs.refl (s := s)) hP h

theorem Runs.trans {s t u : σ} {es fs : List ε} (h : Runs step P s es t)
    (h' : Runs step P t fs u) : Runs step P s (es ++ fs) u := by
  induction h' with
  | refl => simpa using h
  | snoc _ hP hs ih =>
    rw [← List.append_assoc]
    exact ih.snoc hP hs

theorem Runs.mono {s t : σ} {es : List ε} (hPQ : ∀ s e, P s e → Q s e)
    (h : Runs step P s es t) : Runs step Q s es t := by
  induction h with
  | refl => exact .refl
  | snoc _ hP hs ih => exact ih.snoc (hPQ _ _ hP) hs

/-- The invariant rule: what holds at the start and is kept by every step that meets the
condition holds at the end of every run. -/
theorem Runs.invariant {I : σ → Prop} {s t : σ} {es : List ε} (h : Runs step P s es t)
    (h0 : I s) (hstep : ∀ s e t, I s → P s e → step s e = some t → I t) : I t := by
  induction h with
  | refl => exact h0
  | snoc _ hP hs ih => exact hstep _ _ _ ih hP hs

theorem run_append {s : σ} {es fs : List ε} :
    run step s (es ++ fs) = (run step s es).bind fun t => run step t fs := by
  induction es generalizing s with
  | nil => rfl
  | cons e es ih =>
    simp only [List.cons_append, run, Option.bind_assoc]
    exact Option.bind_congr fun t _ => ih

theorem Runs.run_eq {s t : σ} {es : List ε} (h : Runs step P s es t) : run step s es = some t := by
  induction h with
  | refl => rfl
  | snoc _ _ hs ih => simp [run_append, ih, run, hs]

theorem Runs.observe_snoc {ω : Type*} {obs : σ → ε → Option ω} {s t : σ} {es : List ε}
    (h : Runs step P s es t) (e : ε) :
    observe step obs s (es ++ [e]) = observe step obs s es ++ (obs t e).toList := by
  have hrun := h.run_eq
  clear h
  induction es generalizing s with
  | nil =>
    obtain rfl := Option.some.inj hrun
    cases hs : step s e <;> simp [observe, hs]
  | cons d es ih =>
    obtain ⟨u, hu, hrest⟩ := Option.bind_eq_some_iff.mp hrun
    simp [observe, hu, ih hrest]

theorem observe_append {ω : Type*} {obs : σ → ε → Option ω} {s t : σ} {es : List ε}
    (h : run step s es = some t) (fs : List ε) :
    observe step obs s (es ++ fs) = observe step obs s es ++ observe step obs t fs := by
  induction es generalizing s with
  | nil =>
    obtain rfl := Option.some.inj h
    rfl
  | cons e es ih =>
    obtain ⟨u, hu, hrest⟩ := Option.bind_eq_some_iff.mp h
    simp only [List.cons_append, observe, hu, Option.elim_some, ih hrest, List.append_assoc]

theorem observe_append_left {ω : Type*} {obs : σ → ε → Option ω} {s : σ} {es fs : List ε} {o : ω}
    (h : o ∈ observe step obs s es) : o ∈ observe step obs s (es ++ fs) := by
  induction es generalizing s with
  | nil => cases h
  | cons e es ih =>
    simp only [List.cons_append, observe, List.mem_append] at h ⊢
    rcases h with h | h
    · exact .inl h
    · refine .inr ?_
      cases hs : step s e with
      | none =>
        rw [hs] at h
        cases h
      | some t =>
        rw [hs] at h
        exact ih h

/-- What an observation says of the state it is made in, and what every step keeps, is said by
all observations of the last state. -/
theorem Runs.observed {ω : Type*} {obs : σ → ε → Option ω} {I : σ → Prop} {R : σ → ω → Prop}
    {s t : σ} {es : List ε} (h : Runs step P s es t) (h0 : I s)
    (hstep : ∀ s e t, I s → P s e → step s e = some t → I t)
    (hnew : ∀ s e o, I s → obs s e = some o → R s o)
    (hkeep : ∀ s e t o, step s e = some t → R s o → R t o) :
    I t ∧ ∀ o ∈ observe step obs s es, R t o := by
  induction h with
  | refl =>
    refine ⟨h0, ?_⟩
    intro o ho
    cases ho
  | @snoc es t u e hrun hP hs ih =>
    obtain ⟨hI, hR⟩ := ih
    refine ⟨hstep t e u hI hP hs, ?_⟩
    intro o ho
    rw [hrun.observe_snoc e, List.mem_append, Option.mem_toList] at ho
    apply hkeep t e u o hs
    rcases ho with hold | ho
    · exact hR o hold
    · exact hnew t e o hI ho

/-- The last step of a run. -/
theorem Runs.of_snoc {s t u : σ} {es : List ε} {e : ε} (h : Runs step Q s (es ++ [e]) u)
    (hrun : Runs step P s es t) : Runs step Q s es t ∧ Q t e := by
  generalize hall : es ++ [e] = all at h
  cases h with
  | refl => simp at hall
  | @snoc es' t' _ e' hrun' hQ hs' =>
    obtain ⟨rfl, he⟩ := List.append_inj' hall rfl
    obtain rfl := List.singleton_inj.mp he
    obtain rfl : t = t' := Option.some.inj (hrun.run_eq.symm.trans hrun'.run_eq)
    exact ⟨hrun', hQ⟩

/-- A run whose steps meet two conditions. -/
theorem Runs.and {s t : σ} {es : List ε} (h : Runs step P s es t) (h' : Runs step Q s es t) :
    Runs step (fun s e => P s e ∧ Q s e) s es t := by
  induction h with
  | refl => exact .refl
  | snoc hes hP hs ih =>
    obtain ⟨hrun, hQ⟩ := h'.of_snoc hes
    exact (ih hrun).snoc ⟨hP, hQ⟩ hs

theorem runs_of_runIf [∀ s e, Decidable (P s e)] {s t : σ} {es : List ε}
    (h : runIf step P s es = some t) : Runs step P s es t := by
  induction es generalizing s with
  | nil =>
    cases h
    exact .refl
  | cons e es ih =>
    simp only [runIf, run] at h
    split_ifs at h with hP
    · obtain ⟨u, hu, hrest⟩ := Option.bind_eq_some_iff.mp h
      exact (Runs.single hP hu).trans (ih hrest)
    · simp at h

/-- A run whose steps meet a condition on the events alone. -/
theorem runs_of_forall {P : ε → Prop} {s t : σ} {es : List ε} (h : run step s es = some t)
    (hP : ∀ e ∈ es, P e) : Runs step (fun _ e => P e) s es t := by
  induction es generalizing s with
  | nil =>
    cases h
    exact .refl
  | cons e es ih =>
    obtain ⟨u, hu, hrest⟩ := Option.bind_eq_some_iff.mp h
    exact (Runs.single (hP e List.mem_cons_self) hu).trans
      (ih hrest fun e he => hP e (List.mem_cons_of_mem _ he))

theorem runs_of_run {s t : σ} {es : List ε} (h : run step s es = some t) :
    Runs step (fun _ _ => True) s es t := by
  exact runs_of_forall (P := fun _ => True) h fun _ _ => trivial

/-- What every step of a run meets, its events meet. -/
theorem Runs.forall_mem {Q : ε → Prop} {s t : σ} {es : List ε} (h : Runs step P s es t)
    (hPQ : ∀ s e, P s e → Q e) : ∀ e ∈ es, Q e := by
  induction h with
  | refl => exact fun e he => absurd he List.not_mem_nil
  | snoc _ hP _ ih =>
    intro e he
    rcases List.mem_append.mp he with hold | hnew
    · exact ih e hold
    · obtain rfl := List.mem_singleton.mp hnew
      exact hPQ _ _ hP

/-- Progress: where every state that is not yet a goal has a step that decreases a measure, a
goal can be reached. -/
theorem exists_runs_of_decreasing {α : Type*} [LT α] [WellFoundedLT α] (μ : σ → α) {I G : σ → Prop}
    {s : σ} (h0 : I s) (hkeep : ∀ s e t, I s → P s e → step s e = some t → I t)
    (hprogress : ∀ s, I s → ¬ G s → ∃ e t, P s e ∧ step s e = some t ∧ μ t < μ s) :
    ∃ es t, Runs step P s es t ∧ I t ∧ G t := by
  generalize hm : μ s = m
  induction m using WellFoundedLT.induction generalizing s with
  | ind m ih =>
    by_cases hG : G s
    · exact ⟨[], s, .refl, h0, hG⟩
    · obtain ⟨e, t, hP, hs, hlt⟩ := hprogress s h0 hG
      obtain ⟨es, u, hrun, hu⟩ := ih (μ t) (hm ▸ hlt) (hkeep s e t h0 hP hs) rfl
      exact ⟨e :: es, u, (Runs.single hP hs).trans hrun, hu⟩

/-! ### What holds in every state of a run -/

/-- A property holds in every state that a list of events passes through. -/
def Throughout (step : σ → ε → Option σ) (I : σ → Prop) (s : σ) (es : List ε) : Prop :=
  ∀ es₁ es₂ t, es = es₁ ++ es₂ → run step s es₁ = some t → I t

theorem throughout_nil {I : σ → Prop} {s : σ} : Throughout step I s [] ↔ I s := by
  constructor
  · intro h
    exact h [] [] s rfl rfl
  · rintro h es₁ es₂ t hes hrun
    obtain ⟨rfl, -⟩ := List.append_eq_nil_iff.mp hes.symm
    cases hrun
    exact h

theorem Runs.throughout_snoc {I : σ → Prop} {s t u : σ} {es : List ε} {e : ε}
    (h : Runs step P s es t) (hs : step t e = some u) :
    Throughout step I s (es ++ [e]) ↔ Throughout step I s es ∧ I u := by
  have hu : run step s (es ++ [e]) = some u := by simp [run_append, h.run_eq, run, hs]
  constructor
  · intro hall
    refine ⟨?_, hall _ [] u (List.append_nil _).symm hu⟩
    rintro es₁ es₂ v rfl hrun
    exact hall es₁ (es₂ ++ [e]) v (List.append_assoc _ _ _) hrun
  · rintro ⟨hall, hlast⟩ es₁ es₂ v hes hrun
    rcases List.eq_nil_or_concat es₂ with rfl | ⟨es₃, d, rfl⟩
    · rw [List.append_nil] at hes
      rw [← hes, hu] at hrun
      cases hrun
      exact hlast
    · rw [List.concat_eq_append, ← List.append_assoc] at hes
      obtain ⟨rfl, -⟩ := List.append_inj' hes rfl
      exact hall es₁ es₃ v rfl hrun

/-- The exact rule for a property of the states of a run: if an invariant that implies the
property is kept by the steps that meet a condition, and only these keep the property, it holds
throughout just when every step meets the condition. -/
theorem Runs.throughout_iff_invariant {I J : σ → Prop} {s t : σ} {es : List ε}
    (h : Runs step P s es t) (hJ : J s) (hJI : ∀ s, J s → I s)
    (hkeep : ∀ s e t, J s → P s e → Q s e → step s e = some t → J t)
    (hstep : ∀ s e t, J s → P s e → step s e = some t → I t → Q s e) :
    Throughout step I s es ↔ Runs step Q s es t := by
  have hboth : (Runs step Q s es t → J t) ∧ (Throughout step I s es ↔ Runs step Q s es t) := by
    induction h with
    | refl => exact ⟨fun _ => hJ, fun _ => .refl, fun _ => throughout_nil.mpr (hJI s hJ)⟩
    | @snoc es t u e hrun hP hs ih =>
      obtain ⟨hkept, ih⟩ := ih
      have hnext : Runs step Q s (es ++ [e]) u → J u := by
        intro h
        obtain ⟨hQes, hQe⟩ := h.of_snoc hrun
        exact hkeep t e u (hkept hQes) hP hQe hs
      refine ⟨hnext, ?_⟩
      rw [hrun.throughout_snoc hs, ih]
      constructor
      · rintro ⟨hQ, hu⟩
        exact hQ.snoc (hstep t e u (hkept hQ) hP hs hu) hs
      · intro h
        exact ⟨(h.of_snoc hrun).1, hJI u (hnext h)⟩
  exact hboth.2

/-- The exact rule where every step keeps the invariant, and a step keeps the property just when
it meets the condition. -/
theorem Runs.throughout_iff {I J : σ → Prop} {s t : σ} {es : List ε} (h : Runs step P s es t)
    (hI : I s) (hJ : J s) (hkeep : ∀ s e t, J s → P s e → step s e = some t → J t)
    (hstep : ∀ s e t, J s → I s → step s e = some t → (I t ↔ Q s e)) :
    Throughout step I s es ↔ Runs step Q s es t := by
  refine h.throughout_iff_invariant (J := fun s => J s ∧ I s) ⟨hJ, hI⟩ (fun s h => h.2) ?_ ?_
  · rintro s e t ⟨hJs, hIs⟩ hP hQ hs
    exact ⟨hkeep s e t hJs hP hs, (hstep s e t hJs hIs hs).mpr hQ⟩
  · rintro s e t ⟨hJs, hIs⟩ - hs ht
    exact (hstep s e t hJs hIs hs).mp ht

theorem throughout_of_invariant {I : σ → Prop} {s : σ} (h0 : I s)
    (hstep : ∀ s e t, I s → step s e = some t → I t) (es : List ε) : Throughout step I s es := by
  intro es₁ es₂ t _ hrun
  exact (runs_of_run hrun).invariant h0 fun s e t hI _ hs => hstep s e t hI hs

/-- Two conditions that agree wherever an invariant holds are met by the same runs. -/
theorem Runs.congr {I : σ → Prop} {R : σ → ε → Prop} {s t : σ} {es : List ε}
    (h : Runs step R s es t) (h0 : I s)
    (hstep : ∀ s e t, I s → R s e → step s e = some t → I t)
    (hPQ : ∀ s e, I s → R s e → (P s e ↔ Q s e)) : Runs step P s es t ↔ Runs step Q s es t := by
  have hboth : I t ∧ (Runs step P s es t ↔ Runs step Q s es t) := by
    induction h with
    | refl => exact ⟨h0, fun _ => .refl, fun _ => .refl⟩
    | @snoc es t u e hrun hR hs ih =>
      obtain ⟨hI, ih⟩ := ih
      refine ⟨hstep _ _ _ hI hR hs, fun h => ?_, fun h => ?_⟩
      · obtain ⟨hes, hP⟩ := h.of_snoc hrun
        exact (ih.mp hes).snoc ((hPQ _ _ hI hR).mp hP) hs
      · obtain ⟨hes, hQ⟩ := h.of_snoc hrun
        exact (ih.mpr hes).snoc ((hPQ _ _ hI hR).mpr hQ) hs
  exact hboth.2

theorem runs_congr {I : σ → Prop} {s t : σ} {es : List ε} (h0 : I s)
    (hstep : ∀ s e t, I s → step s e = some t → I t) (hPQ : ∀ s e, I s → (P s e ↔ Q s e)) :
    Runs step P s es t ↔ Runs step Q s es t := by
  have hcongr : Runs step (fun _ _ => True) s es t → (Runs step P s es t ↔ Runs step Q s es t) :=
    fun h => h.congr h0 (fun s e t hI _ => hstep s e t hI) fun s e hI _ => hPQ s e hI
  constructor
  · intro h
    exact (hcongr (h.mono fun _ _ _ => trivial)).mp h
  · intro h
    exact (hcongr (h.mono fun _ _ _ => trivial)).mpr h

/-! ### A ghost component -/

/-- A transition function beside which a ghost component is kept, which every step updates
from the state that it is taken from. -/
def withGhost {γ : Type*} (step : σ → ε → Option σ) (update : σ → ε → γ → γ) (p : σ × γ) (e : ε) :
    Option (σ × γ) :=
  (step p.1 e).map fun t => (t, update p.1 e p.2)

theorem withGhost_eq_some {γ : Type*} {update : σ → ε → γ → γ} {p q : σ × γ} {e : ε} :
    withGhost step update p e = some q ↔ step p.1 e = some q.1 ∧ q.2 = update p.1 e p.2 := by
  unfold withGhost
  rw [Option.map_eq_some_iff]
  constructor
  · rintro ⟨t, ht, rfl⟩
    exact ⟨ht, rfl⟩
  · rintro ⟨ht, hq⟩
    exact ⟨q.1, ht, Prod.ext rfl hq.symm⟩

/-- Without its ghost component, a run is a run. -/
theorem Runs.forget {γ : Type*} {update : σ → ε → γ → γ} {R : σ × γ → ε → Prop} {p q : σ × γ}
    {es : List ε} (h : Runs (withGhost step update) R p es q) :
    Runs step (fun _ _ => True) p.1 es q.1 := by
  induction h with
  | refl => exact .refl
  | snoc _ _ hs ih => exact ih.snoc trivial (withGhost_eq_some.mp hs).1

/-- Every run has its ghost components. -/
theorem Runs.ghost {γ : Type*} {s t : σ} {es : List ε} (h : Runs step P s es t)
    (update : σ → ε → γ → γ) (g : γ) :
    ∃ g', Runs (withGhost step update) (fun p e => P p.1 e) (s, g) es (t, g') := by
  induction h with
  | refl => exact ⟨g, .refl⟩
  | @snoc es t u e _ hP hs ih =>
    obtain ⟨g', hrun⟩ := ih
    exact ⟨update t e g', hrun.snoc hP (withGhost_eq_some.mpr ⟨hs, rfl⟩)⟩

/-! ### Earlier states of a run -/

/-- The first state of a run that meets a condition. -/
def firstWith (step : σ → ε → Option σ) (Q : σ → Prop) [DecidablePred Q] : σ → List ε → Option σ
  | s, [] => if Q s then some s else none
  | s, e :: es => if Q s then some s else (step s e).bind fun t => firstWith step Q t es

theorem firstWith_eq_some {Q : σ → Prop} [DecidablePred Q] {s t : σ} {es : List ε}
    (h : firstWith step Q s es = some t) :
    Q t ∧ ∃ es₁ es₂, es = es₁ ++ es₂ ∧ run step s es₁ = some t := by
  induction es generalizing s with
  | nil =>
    unfold firstWith at h
    split_ifs at h with hQ
    cases h
    exact ⟨hQ, [], [], rfl, rfl⟩
  | cons e es ih =>
    unfold firstWith at h
    split_ifs at h with hQ
    · cases h
      exact ⟨hQ, [], e :: es, rfl, rfl⟩
    · obtain ⟨u, hu, hrest⟩ := Option.bind_eq_some_iff.mp h
      obtain ⟨hQt, es₁, es₂, rfl, hrun⟩ := ih hrest
      exact ⟨hQt, e :: es₁, es₂, rfl, by rw [run, hu, Option.bind_some, hrun]⟩

/-- A condition that holds at the end of a run is found. -/
theorem firstWith_of_run {Q : σ → Prop} [DecidablePred Q] {s t : σ} {es : List ε}
    (hrun : run step s es = some t) (hQ : Q t) : ∃ u, firstWith step Q s es = some u := by
  induction es generalizing s with
  | nil =>
    obtain rfl := Option.some.inj hrun
    exact ⟨s, if_pos hQ⟩
  | cons e es ih =>
    obtain ⟨u, hu, hrest⟩ := Option.bind_eq_some_iff.mp hrun
    unfold firstWith
    split_ifs
    · exact ⟨s, rfl⟩
    · rw [hu, Option.bind_some]
      exact ih hrest

/-- What was found first is still found first when the run goes on. -/
theorem firstWith_append {Q : σ → Prop} [DecidablePred Q] {s t : σ} {es : List ε}
    (h : firstWith step Q s es = some t) (fs : List ε) : firstWith step Q s (es ++ fs) = some t := by
  induction es generalizing s with
  | nil =>
    unfold firstWith at h
    split_ifs at h with hQ
    cases fs <;> simpa [firstWith, hQ] using h
  | cons e es ih =>
    unfold firstWith at h
    rw [List.cons_append, firstWith]
    split_ifs at h ⊢ with hQ
    · exact h
    · obtain ⟨u, hu, hrest⟩ := Option.bind_eq_some_iff.mp h
      rw [hu, Option.bind_some, ih hrest]

/-- Where nothing was found before, the last state is looked at. -/
theorem firstWith_snoc {Q : σ → Prop} [DecidablePred Q] {s t u : σ} {es : List ε} {e : ε}
    (h : firstWith step Q s es = none) (hrun : run step s es = some t) (hs : step t e = some u) :
    firstWith step Q s (es ++ [e]) = if Q u then some u else none := by
  induction es generalizing s with
  | nil =>
    obtain rfl := Option.some.inj hrun
    unfold firstWith at h
    split_ifs at h with hQ
    rw [List.nil_append, firstWith, if_neg hQ, hs, Option.bind_some, firstWith]
  | cons d es ih =>
    unfold firstWith at h
    split_ifs at h with hQ
    obtain ⟨v, hv, hrest⟩ := Option.bind_eq_some_iff.mp hrun
    rw [hv, Option.bind_some] at h
    rw [List.cons_append, firstWith, if_neg hQ, hv, Option.bind_some, ih h hrest]

theorem Runs.of_append {s t u : σ} {es₁ es₂ : List ε} (h : Runs step P s (es₁ ++ es₂) u)
    (hrun : run step s es₁ = some t) : Runs step P s es₁ t := by
  induction es₂ using List.reverseRecOn generalizing u with
  | nil =>
    rw [List.append_nil] at h
    obtain rfl := Option.some.inj (h.run_eq.symm.trans hrun)
    exact h
  | append_singleton es₂ e ih =>
    rw [← List.append_assoc] at h
    obtain ⟨v, hv, -⟩ := Option.bind_eq_some_iff.mp (run_append.symm.trans h.run_eq)
    exact ih (h.of_snoc (runs_of_run hv)).1

end Transition
