import Egdod.Lib.Run

/-! Systems side by side that share nothing. An action is for one of them, and
a run of all of them is exactly a run of each on its own actions, in whatever
order they are taken. -/
namespace Parallel

open StepSystem

variable {ι σ α : Type} [DecidableEq ι] {step : σ → α → Option σ}

/-- One of the systems makes a step. -/
def move (step : σ → α → Option σ) (s : ι → σ) (a : ι × α) : Option (ι → σ) :=
  (step (s a.1) a.2).map (Function.update s a.1)

/-- The actions that are for one of the systems. -/
def actionsOf (i : ι) (as : List (ι × α)) : List α :=
  as.filterMap fun a => if a.1 = i then some a.2 else none

theorem move_eq_some {s t : ι → σ} {a : ι × α} (h : move step s a = some t) :
    step (s a.1) a.2 = some (t a.1) ∧ ∀ i, i ≠ a.1 → t i = s i := by
  obtain ⟨u, hu, rfl⟩ := Option.map_eq_some_iff.mp h
  exact ⟨by simpa using hu, fun i hi => by simp [hi]⟩

/-- A run of all is a run of each. -/
theorem steps_actionsOf {s t : ι → σ} {as : List (ι × α)}
    (h : Steps (move step) always s as t) (i : ι) :
    Steps step always (s i) (actionsOf i as) (t i) := by
  induction h with
  | nil => exact .nil
  | @cons s a s' as t _ hstep _ ih =>
    obtain ⟨hown, hothers⟩ := move_eq_some hstep
    by_cases hi : a.1 = i
    · subst hi
      simp only [actionsOf, List.filterMap_cons, if_true]
      exact .cons trivial hown ih
    · simp only [actionsOf, List.filterMap_cons, hi, if_false]
      rw [← hothers i (Ne.symm hi)]
      exact ih

/-- What one of them can do alone it can do here, whatever the others do. -/
theorem steps_map {s : ι → σ} {i : ι} {as : List α} {u : σ}
    (h : Steps step always (s i) as u) :
    Steps (move step) always s (as.map fun a => (i, a)) (Function.update s i u) := by
  induction as generalizing s with
  | nil =>
    cases h
    rw [Function.update_eq_self]
    exact .nil
  | cons a as ih =>
    cases h with
    | @cons _ _ m _ _ _ hstep hrest =>
      have hmove : move step s (i, a) = some (Function.update s i m) := by
        simp [move, hstep]
      have hlater := ih (s := Function.update s i m) (by simpa using hrest)
      rw [Function.update_idem] at hlater
      exact .cons trivial hmove hlater

end Parallel
