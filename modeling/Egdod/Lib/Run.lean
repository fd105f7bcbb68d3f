import Mathlib.Logic.Function.Basic

/-! Systems given by a partial step function. A run is a list of actions;
the guarded form `Steps` records that every action met a condition in the
state before it, which is how an assumption about the environment and the
exact region where a property holds are both stated. -/
namespace StepSystem

variable {σ α : Type}

/-- Runs a list of actions, stuck at the first one that is not enabled. -/
def run (step : σ → α → Option σ) : σ → List α → Option σ
  | s, [] => some s
  | s, a :: as => (step s a).bind fun s' => run step s' as

/-- A run every action of which meets `ok` in the state before it. -/
inductive Steps (step : σ → α → Option σ) (ok : σ → α → Prop) : σ → List α → σ → Prop
  | nil {s} : Steps step ok s [] s
  | cons {s a s' as t} : ok s a → step s a = some s' → Steps step ok s' as t →
      Steps step ok s (a :: as) t

/-- The condition met by every action of every state. -/
def always : σ → α → Prop := fun _ _ => True

variable {step : σ → α → Option σ} {ok : σ → α → Prop}

/-- An invariant kept by every admitted step holds at the end of every run. -/
theorem Steps.invariant {I : σ → Prop}
    (keep : ∀ s a s', ok s a → step s a = some s' → I s → I s')
    {s as t} (h : Steps step ok s as t) (hs : I s) : I t := by
  induction h with
  | nil => exact hs
  | cons hok hstep _ ih => exact ih (keep _ _ _ hok hstep hs)

theorem Steps.snoc {s as t a u} (h : Steps step ok s as t) (hok : ok t a)
    (hstep : step t a = some u) : Steps step ok s (as ++ [a]) u := by
  induction h with
  | nil => exact .cons hok hstep .nil
  | cons hok' hstep' _ ih => exact .cons hok' hstep' (ih hok hstep)

/-- Induction on a run from its end: what the actions so far have to do with
the state they led to. -/
theorem Steps.history {s : σ} {P : List α → σ → Prop} (start : P [] s)
    (extend : ∀ as m a t, Steps step ok s as m → P as m → ok m a → step m a = some t →
      P (as ++ [a]) t)
    {as t} (h : Steps step ok s as t) : P as t := by
  suffices ∀ pre m, Steps step ok s pre m → P pre m → Steps step ok m as t → P (pre ++ as) t by
    simpa using this [] s .nil start h
  clear h
  intro pre m hpre hP hrest
  induction hrest generalizing pre with
  | nil => simpa using hP
  | @cons m a m' as t hok hstep _ ih =>
    simpa using ih (pre ++ [a]) (hpre.snoc hok hstep) (extend pre m a m' hpre hP hok hstep)

theorem Steps.mono {ok' : σ → α → Prop} (weaken : ∀ s a, ok s a → ok' s a)
    {s as t} (h : Steps step ok s as t) : Steps step ok' s as t := by
  induction h with
  | nil => exact .nil
  | cons hok hstep _ ih => exact .cons (weaken _ _ hok) hstep ih

/-- Reading a computed run back, for a condition on the actions alone. -/
theorem Steps.of_run {s as t} (hok : ∀ a ∈ as, ∀ s, ok s a) (h : run step s as = some t) :
    Steps step ok s as t := by
  induction as generalizing s with
  | nil =>
    cases h
    exact .nil
  | cons a as ih =>
    obtain ⟨s', hstep, hrest⟩ := Option.bind_eq_some_iff.mp h
    rw [List.forall_mem_cons] at hok
    exact .cons (hok.1 s) hstep (ih hok.2 hrest)

/-- A run computed with a check in front of every step meets what the check
stands for in the states the run goes through. -/
theorem Steps.of_checked {check : σ → α → Bool} {I : σ → Prop}
    (keep : ∀ s a s', check s a = true → step s a = some s' → I s → I s')
    (sound : ∀ s a, check s a = true → I s → ok s a) {s as t} (hs : I s)
    (h : run (fun s a => if check s a then step s a else none) s as = some t) :
    Steps step ok s as t := by
  induction as generalizing s with
  | nil =>
    cases h
    exact .nil
  | cons a as ih =>
    obtain ⟨s', hstep, hrest⟩ := Option.bind_eq_some_iff.mp h
    dsimp only at hstep
    split at hstep
    · rename_i hc
      exact .cons (sound s a hc hs) hstep (ih (keep s a s' hc hstep hs) hrest)
    · cases hstep

theorem Steps.of_check {check : σ → α → Bool} {s as t}
    (h : run (fun s a => if check s a then step s a else none) s as = some t) :
    Steps step (fun s a => check s a = true) s as t :=
  .of_checked (I := fun _ => True) (fun _ _ _ _ _ _ => trivial) (fun _ _ hc _ => hc) trivial h

theorem Steps.run_eq {s as t} (h : Steps step ok s as t) : run step s as = some t := by
  induction h with
  | nil => rfl
  | cons _ hstep _ ih => simp [run, hstep, ih]

/-- A computed run, of which some view of the last state is known. -/
theorem exists_steps_of_view {β : Type} {view : σ → β} {v : β} {s as}
    (h : (run step s as).map view = some v) : ∃ t, Steps step always s as t ∧ view t = v := by
  obtain ⟨t, hrun, hview⟩ := Option.map_eq_some_iff.mp h
  exact ⟨t, .of_run (fun _ _ _ => trivial) hrun, hview⟩

theorem Steps.append_iff {s as bs t} :
    Steps step ok s (as ++ bs) t ↔ ∃ m, Steps step ok s as m ∧ Steps step ok m bs t := by
  induction as generalizing s with
  | nil =>
    constructor
    · exact fun h => ⟨s, .nil, h⟩
    · rintro ⟨m, h, hrest⟩
      cases h
      exact hrest
  | cons a as ih =>
    constructor
    · intro h
      cases h with
      | cons hok hstep hrest =>
        obtain ⟨m, has, hbs⟩ := ih.mp hrest
        exact ⟨m, .cons hok hstep has, hbs⟩
    · rintro ⟨m, h, hbs⟩
      cases h with
      | cons hok hstep has => exact .cons hok hstep (ih.mpr ⟨m, has, hbs⟩)

/-- A property that never comes back once lost, and that a step keeps exactly
where it meets `guard`, holds at the end of a run exactly if every step did. -/
theorem Steps.good_iff (I Good : σ → Prop) {guard : σ → α → Prop}
    (keep : ∀ s a t, step s a = some t → I s → I t)
    (lost : ∀ s a t, step s a = some t → I s → ¬ Good s → ¬ Good t)
    (turns : ∀ s a t, step s a = some t → I s → Good s → (Good t ↔ guard s a))
    {s as t} (h : Steps step always s as t) (hs : I s) (hgood : Good s) :
    Good t ↔ Steps step guard s as t := by
  induction h with
  | nil => exact ⟨fun _ => .nil, fun _ => hgood⟩
  | @cons s a s' as t _ hstep hrest ih =>
    have hs' := keep s a s' hstep hs
    by_cases hg : guard s a
    · rw [ih hs' ((turns s a s' hstep hs hgood).mpr hg)]
      constructor
      · exact .cons hg hstep
      · intro hall
        cases hall with
        | cons _ hstep' hrest' =>
          cases hstep.symm.trans hstep'
          exact hrest'
    · constructor
      · intro ht
        have hbad : ¬ Good s' := fun hs' => hg ((turns s a s' hstep hs hgood).mp hs')
        exact absurd ht (hrest.invariant (I := fun s => I s ∧ ¬ Good s)
          (fun s a t _ hst h => ⟨keep s a t hst h.1, lost s a t hst h.1 h.2⟩) ⟨hs', hbad⟩).2
      · intro hall
        cases hall with
        | cons hg' => exact absurd hg' hg

/-- A quantity that every step uses up bounds the length of every run. -/
theorem Steps.length_add_le {I : σ → Prop} (m : σ → Nat)
    (keep : ∀ s a s', ok s a → step s a = some s' → I s → I s')
    (decreases : ∀ s a s', ok s a → step s a = some s' → I s → m s' < m s)
    {s as t} (h : Steps step ok s as t) (hs : I s) : as.length + m t ≤ m s := by
  induction h with
  | nil => simp
  | @cons s a s' as t hok hstep _ ih =>
    have hrest := ih (keep s a s' hok hstep hs)
    have hone := decreases s a s' hok hstep hs
    simp only [List.length_cons]
    omega

/-- Where a step that uses something up can be taken until the end is reached,
some run reaches it. -/
theorem exists_steps_to {I final : σ → Prop} (m : σ → Nat)
    (progress : ∀ s, I s → ¬ final s → ∃ a s', ok s a ∧ step s a = some s' ∧ I s' ∧ m s' < m s)
    {s : σ} (hs : I s) : ∃ as t, Steps step ok s as t ∧ I t ∧ final t := by
  induction hn : m s using Nat.strongRecOn generalizing s with
  | ind n ih =>
    by_cases hfinal : final s
    · exact ⟨[], s, .nil, hs, hfinal⟩
    · obtain ⟨a, s', hok, hstep, hs', hlt⟩ := progress s hs hfinal
      obtain ⟨as, t, hsteps, ht, hend⟩ := ih (m s') (hn ▸ hlt) hs' rfl
      exact ⟨a :: as, t, .cons hok hstep hsteps, ht, hend⟩

/-- The actions of a run determine the state they lead to. -/
theorem Steps.det {s as t t'} (h : Steps step ok s as t) (h' : Steps step ok s as t') : t = t' :=
  Option.some.inj (h.run_eq.symm.trans h'.run_eq)

end StepSystem
