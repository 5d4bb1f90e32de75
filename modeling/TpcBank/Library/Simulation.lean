import TpcBank.Library.Transition

/-! Simulation between two transition functions. The concrete one is observed: each of its
steps shows at most one step of the abstract one, and a step that shows nothing stutters. -/
namespace Transition

variable {σ τ ε δ : Type*} {step : σ → ε → Option σ} {step' : τ → δ → Option τ}
  {P : σ → ε → Prop} {Q : τ → δ → Prop} {R : σ → τ → Prop} {obs : σ → ε → Option δ}

/-- What a part of the observations of a run gains with one more step. -/
theorem Runs.filterMap_observe_snoc {ω : Type*} {s t : σ} {es : List ε} (h : Runs step P s es t)
    (f : δ → Option ω) (e : ε) : (observe step obs s (es ++ [e])).filterMap f =
      (observe step obs s es).filterMap f ++ ((obs t e).bind f).toList := by
  rw [h.observe_snoc, List.filterMap_append]
  congr 1
  cases obs t e with
  | none => rfl
  | some d => cases hd : f d <;> simp [hd]

/-- Forward simulation: what is shown of every concrete run is an abstract run, to a related
state. -/
theorem Runs.refines {s t : σ} {u : τ} {es : List ε} (h : Runs step P s es t) (h0 : R s u)
    (hstep : ∀ s e t u, R s u → P s e → step s e = some t →
      ∃ v, Runs step' Q u (obs s e).toList v ∧ R t v) :
    ∃ v, Runs step' Q u (observe step obs s es) v ∧ R t v := by
  induction h with
  | refl => exact ⟨u, .refl, h0⟩
  | @snoc es t t' e hrun hP hs ih =>
    obtain ⟨v, hv, hR⟩ := ih
    obtain ⟨v', hv', hR'⟩ := hstep t e t' v hR hP hs
    refine ⟨v', ?_, hR'⟩
    rw [hrun.observe_snoc]
    exact hv.trans hv'

/-- Backward simulation: where every abstract step is shown by a concrete one, every abstract
run is shown by a concrete run. -/
theorem exists_run_of_run {s : σ} {u v : τ} {ds : List δ} (h : run step' u ds = some v) (h0 : R s u)
    (hstep : ∀ s u d v, R s u → step' u d = some v →
      ∃ e t, step s e = some t ∧ obs s e = some d ∧ R t v) :
    ∃ es t, run step s es = some t ∧ observe step obs s es = ds ∧ R t v := by
  induction ds generalizing s u with
  | nil =>
    cases h
    exact ⟨[], s, rfl, rfl, h0⟩
  | cons d ds ih =>
    obtain ⟨u', hu, hrest⟩ := Option.bind_eq_some_iff.mp h
    obtain ⟨e, t, hs, hobs, hR⟩ := hstep s u d u' h0 hu
    obtain ⟨es, t', hrun, hds, hR'⟩ := ih hrest hR
    refine ⟨e :: es, t', ?_, ?_, hR'⟩
    · rw [run, hs]
      exact hrun
    · rw [observe, hs, hobs, Option.elim_some, hds]
      rfl

end Transition
