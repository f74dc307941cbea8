import Mathlib.Init

/-!
# Guarded runs of a state machine

A machine takes one event after the other.  `Runs step G s t` says that `t` is
reached from `s` by events each of which meets the guard `G` in the state
before it.
-/

namespace GuardedRun

variable {σ ε : Type*} {step : σ → ε → σ} {G G' : σ → ε → Prop} {s t : σ}

/-- The states that guarded events reach from `s`. -/
inductive Runs (step : σ → ε → σ) (G : σ → ε → Prop) (s : σ) : σ → Prop where
  | start : Runs step G s s
  | event {t : σ} (e : ε) : Runs step G s t → G t e → Runs step G s (step t e)

/-- What holds at the start and survives every guarded event holds throughout. -/
theorem Runs.invariant {I : σ → Prop} (h : Runs step G s t) (hstart : I s)
    (hstep : ∀ t e, I t → G t e → I (step t e)) : I t := by
  induction h with
  | start => exact hstart
  | event e _ hguard ih => exact hstep _ e ih hguard

/-- Every event of a list meets the guard when the events before it have
happened. -/
def Guarded (step : σ → ε → σ) (G : σ → ε → Prop) : σ → List ε → Prop
  | _, [] => True
  | s, e :: es => G s e ∧ Guarded step G (step s e) es

instance decidableGuarded [∀ s e, Decidable (G s e)] :
    (s : σ) → (es : List ε) → Decidable (Guarded step G s es)
  | _, [] => isTrue trivial
  | s, e :: es =>
    have := decidableGuarded (step s e) es
    inferInstanceAs (Decidable (G s e ∧ Guarded step G (step s e) es))

theorem Guarded.of_forall (h : ∀ s e, G s e) (s : σ) (es : List ε) : Guarded step G s es := by
  induction es generalizing s with
  | nil => trivial
  | cons e es ih => exact ⟨h s e, ih (step s e)⟩

theorem Runs.foldl {es : List ε} (h : Runs step G s t) (hes : Guarded step G t es) :
    Runs step G s (es.foldl step t) := by
  induction es generalizing t with
  | nil => exact h
  | cons e es ih => exact ih (.event e h hes.1) hes.2

end GuardedRun
