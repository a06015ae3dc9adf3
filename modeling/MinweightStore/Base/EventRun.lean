import Mathlib.Tactic

/-!
# Runs with events

The runs of a system whose steps show events, and the forward simulation of one system by another:
every run of the first is a run of the second with the same events.

* `Run` — the runs, with what they show;
* `Run.simulated` — **a simulation of steps is one of runs**.
-/

namespace MinweightStore

/-- **A run**, with its events in order. -/
inductive Run {σ ε : Type*} (step : σ → ε → σ → Prop) : σ → List ε → σ → Prop where
  | nil (s : σ) : Run step s [] s
  | snoc {s s' s'' : σ} {events : List ε} {event : ε} (run : Run step s events s')
      (last : step s' event s'') : Run step s (events ++ [event]) s''

namespace Run

variable {σ τ ε : Type*} {step : σ → ε → σ → Prop} {step' : τ → ε → τ → Prop} {s s' : σ} {t : τ}
  {events : List ε}

/-- **Forward simulation.** -/
theorem simulated {sim : σ → τ → Prop} (h : Run step s events s') (ht : sim s t)
    (hstep : ∀ s event s' t, sim s t → step s event s' → ∃ t', step' t event t' ∧ sim s' t') :
    ∃ t', Run step' t events t' ∧ sim s' t' := by
  induction h with
  | nil => exact ⟨t, .nil t, ht⟩
  | snoc _ hlast ih =>
    obtain ⟨t₁, hrun, hsim⟩ := ih
    obtain ⟨t₂, hnext, hsim'⟩ := hstep _ _ _ _ hsim hlast
    exact ⟨t₂, .snoc hrun hnext, hsim'⟩

end Run

end MinweightStore
