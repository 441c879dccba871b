/-! # Operations that may stop midway

An operation on a state that can fail returns its outcome together with the state that it leaves:
what was done before a failure stays done.  `attemptEach` repeats such a step over a list and stops
at the first failure. -/

namespace Warrant

variable {ε σ α : Type}

/-- Take a `step` for each item in order, up to the first that fails. -/
def attemptEach (step : σ → α → Except ε Unit × σ) : σ → List α → Except ε Unit × σ
  | s, [] => (.ok (), s)
  | s, a :: as =>
    match step s a with
    | (.ok (), s') => attemptEach step s' as
    | (.error e, s') => (.error e, s')

/-- Go on from `attempt` with `next`, unless it failed. -/
def attemptThen (attempt : Except ε Unit × σ) (next : σ → Except ε Unit × σ) : Except ε Unit × σ :=
  match attempt with
  | (.ok (), s) => next s
  | (.error e, s) => (.error e, s)

/-- A property that every `step` keeps, whatever its outcome, holds after `attemptEach`. -/
theorem attemptEach_preserves (step : σ → α → Except ε Unit × σ) (P : σ → Prop)
    (hstep : ∀ s a, P s → P (step s a).2) (s : σ) (as : List α) (h : P s) :
    P (attemptEach step s as).2 := by
  induction as generalizing s with
  | nil => exact h
  | cons a as ih =>
    have := hstep s a h
    unfold attemptEach
    split
    · -- The step succeeded, and the rest starts from a state with the property.
      next s' heq => exact ih s' (by rw [heq] at this; exact this)
    · -- It failed, and the state that it left is the last one.
      next e s' heq => rw [heq] at this; exact this

/-- A property that `attempt` has kept and that `next` keeps, whatever the outcomes, holds after
    `attemptThen`. -/
theorem attemptThen_preserves {attempt : Except ε Unit × σ} {next : σ → Except ε Unit × σ}
    (P : σ → Prop) (h : P attempt.2) (hnext : ∀ s, P s → P (next s).2) :
    P (attemptThen attempt next).2 := by
  obtain ⟨_ | _, s⟩ := attempt
  · exact h
  · exact hnext s h

end Warrant
