import Mathlib.Logic.Relation

/-!
# Runs of a transition system

Two rules about a step relation: what one step preserves holds after any run, and steps that all lower a
natural number cannot go on forever.
-/

namespace Transition

variable {σ : Type*} {step : σ → σ → Prop}

/-- An invariant of the steps is an invariant of the runs. -/
theorem invariant {Inv : σ → Prop} (hstep : ∀ s s', Inv s → step s s' → Inv s') {s s' : σ} (hs : Inv s)
    (hrun : Relation.ReflTransGen step s s') : Inv s' := by
  induction hrun with
  | refl => exact hs
  | tail _ hlast ih => exact hstep _ _ ih hlast

/-- When every step from a state that satisfies the invariant lowers `μ`, no run from there is infinite. -/
theorem acc_of_decreasing {Inv : σ → Prop} {μ : σ → Nat} (hstep : ∀ s s', Inv s → step s s' → Inv s')
    (hμ : ∀ s s', Inv s → step s s' → μ s' < μ s) {s : σ} (hs : Inv s) : Acc (fun a b => step b a) s := by
  induction hn : μ s using Nat.strongRecOn generalizing s with
  | ind n ih =>
    subst hn
    exact Acc.intro s fun s' h => ih (μ s') (hμ s s' hs h) (hstep s s' hs h) rfl

end Transition
