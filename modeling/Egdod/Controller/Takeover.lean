import Egdod.Lib.Run

/-! How `controller serve` takes over the control socket of its state
directory: it asks whether somebody answers there, removes the path, binds it
and listens. Each of these is a step of its own, and any number of processes
take them in any order. -/
namespace Egdod.Takeover

open StepSystem

/-- Where a process stands. `tested` is when its connect test was refused and
`since` when it began to listen, both by the clock of the state. -/
inductive Pc
  | connect
  | remove (tested : Nat)
  | bind
  | listen
  | serving (since : Nat)
  | exited
  deriving DecidableEq, Repr

/-- A process that has not exited and holds the listener. -/
def Pc.pastBind : Pc → Bool
  | .listen | .serving _ => true
  | _ => false

def Pc.servesBefore (time : Nat) : Pc → Bool
  | .serving since => since < time
  | _ => false

/-- What stands at the socket path. `stale` was left by a process of an
earlier time; a process that exits leaves its own entry in place. -/
inductive Entry
  | absent
  | stale
  | socket (owner : Nat)
  deriving DecidableEq, Repr

structure State where
  path : Entry
  procs : List Pc
  clock : Nat

def State.start (path : Entry) : State := ⟨path, [], 0⟩

/-- A connect succeeds when the owner of the path's socket listens. -/
def State.answers (s : State) : Bool :=
  match s.path with
  | .socket p =>
    match s.procs[p]? with
    | some (.serving _) => true
    | _ => false
  | _ => false

/-- The process `p` moves on. -/
def State.goto (s : State) (p : Nat) (pc : Pc) : State :=
  { s with procs := s.procs.set p pc, clock := s.clock + 1 }

inductive Action
  | spawn
  | connect (p : Nat)
  | remove (p : Nat) (done : Bool)
  | bind (p : Nat)
  | listen (p : Nat)
  | exit (p : Nat)
  deriving Repr

def step (s : State) : Action → Option State
  | .spawn => some { s with procs := s.procs ++ [.connect], clock := s.clock + 1 }
  | .connect p =>
    if s.procs[p]? = some .connect then
      some (s.goto p (if s.answers then .exited else .remove s.clock))
    else none
  | .remove p done =>
    match s.procs[p]? with
    -- the result of the removal is not looked at
    | some (.remove _) =>
      some { s.goto p .bind with path := if done then .absent else s.path }
    | _ => none
  | .bind p =>
    if s.procs[p]? = some .bind then
      match s.path with
      | .absent => some { s.goto p .listen with path := .socket p }
      | _ => some (s.goto p .exited)
    else none
  | .listen p =>
    if s.procs[p]? = some .listen then some (s.goto p (.serving s.clock)) else none
  | .exit p => if p < s.procs.length then some (s.goto p .exited) else none

/-! ## What a step can do -/

inductive Moves (s : State) : Action → State → Prop
  | spawn : Moves s .spawn { s with procs := s.procs ++ [.connect], clock := s.clock + 1 }
  | turned {p} : s.procs[p]? = some .connect → s.answers = true →
      Moves s (.connect p) (s.goto p .exited)
  | refused {p} : s.procs[p]? = some .connect → s.answers = false →
      Moves s (.connect p) (s.goto p (.remove s.clock))
  | removed {p tested} : s.procs[p]? = some (.remove tested) →
      Moves s (.remove p true) { s.goto p .bind with path := .absent }
  | kept {p tested} : s.procs[p]? = some (.remove tested) →
      Moves s (.remove p false) (s.goto p .bind)
  | bound {p} : s.procs[p]? = some .bind → s.path = .absent →
      Moves s (.bind p) { s.goto p .listen with path := .socket p }
  | inUse {p} : s.procs[p]? = some .bind → s.path ≠ .absent →
      Moves s (.bind p) (s.goto p .exited)
  | listening {p} : s.procs[p]? = some .listen → Moves s (.listen p) (s.goto p (.serving s.clock))
  | exits {p} : p < s.procs.length → Moves s (.exit p) (s.goto p .exited)

theorem step_cases {s s' : State} {a : Action} (h : step s a = some s') : Moves s a s' := by
  cases a with
  | spawn =>
    cases h
    exact .spawn
  | connect p =>
    simp only [step] at h
    split at h
    case isFalse => cases h
    case isTrue hpc =>
      cases h
      cases hans : s.answers with
      | true => simpa [hans] using Moves.turned hpc hans
      | false => simpa [hans] using Moves.refused hpc hans
  | remove p done =>
    simp only [step] at h
    split at h
    case h_1 tested hpc =>
      cases h
      cases done with
      | true => exact .removed hpc
      | false => exact .kept hpc
    case h_2 => cases h
  | bind p =>
    simp only [step] at h
    split at h
    case isFalse => cases h
    case isTrue hpc =>
      split at h
      case h_1 hpath =>
        cases h
        exact .bound hpc hpath
      case h_2 hpath =>
        cases h
        exact .inUse hpc (fun e => hpath e)
  | listen p =>
    simp only [step] at h
    split at h
    case isFalse => cases h
    case isTrue hpc =>
      cases h
      exact .listening hpc
  | exit p =>
    simp only [step] at h
    split at h
    case isFalse => cases h
    case isTrue hp =>
      cases h
      exact .exits hp

/-- After a move of `p` every other process stands where it stood. -/
theorem goto_get {s : State} {p q : Nat} {pc pc' : Pc}
    (h : (s.goto p pc).procs[q]? = some pc') : (q = p ∧ pc' = pc) ∨ s.procs[q]? = some pc' := by
  rw [State.goto, List.getElem?_set] at h
  split at h
  case isTrue hpq =>
    split at h
    · cases h
      exact .inl ⟨hpq.symm, rfl⟩
    · cases h
  case isFalse => exact .inr h

/-! ## Where at most one serves -/

/-- When a process removes the path, every process that is past its bind was
already listening at the time of the remover's connect test. -/
def settled (s : State) : Action → Bool
  | .remove p _ =>
    match s.procs[p]? with
    | some (.remove tested) => s.procs.all fun pc => !pc.pastBind || pc.servesBefore tested
    | _ => true
  | _ => true

def Settled (s : State) (a : Action) : Prop := settled s a = true

theorem Settled.servesBefore {s : State} {p tested : Nat} {done : Bool}
    (h : Settled s (.remove p done)) (hp : s.procs[p]? = some (.remove tested)) {q : Nat} {pc : Pc}
    (hq : s.procs[q]? = some pc) (hpast : pc.pastBind = true) :
    ∃ since < tested, pc = .serving since := by
  simp only [Settled, settled, hp, List.all_eq_true] at h
  have hserves := h pc (List.mem_of_getElem? hq)
  cases pc with
  | serving since => exact ⟨since, by simpa [Pc.servesBefore, Pc.pastBind] using hserves, rfl⟩
  | listen => simp [Pc.servesBefore, Pc.pastBind] at hserves
  | connect | remove _ | bind | exited => cases hpast

structure Exclusive (s : State) : Prop where
  /-- Whoever is past the bind owns the path. -/
  owned : ∀ (p : Nat) (pc : Pc), s.procs[p]? = some pc → pc.pastBind → s.path = .socket p
  /-- Nobody was listening when a removal was decided on. -/
  alone : ∀ (p tested q since : Nat), s.procs[p]? = some (Pc.remove tested) →
    s.procs[q]? = some (Pc.serving since) → tested ≤ since
  /-- The times of tests lie in the past. -/
  past : ∀ (p tested : Nat), s.procs[p]? = some (Pc.remove tested) → tested < s.clock

theorem Exclusive.start (path : Entry) : Exclusive (.start path) where
  owned := by simp [State.start]
  alone := by simp [State.start]
  past := by simp [State.start]

/-- A refused test finds nobody listening. -/
theorem Exclusive.none_serving {s : State} (h : Exclusive s) (hans : s.answers = false)
    (q since : Nat) : s.procs[q]? ≠ some (Pc.serving since) := by
  intro hq
  have hpath := h.owned q _ hq rfl
  simp [State.answers, hpath, hq] at hans

/-- A process may move when the path keeps naming whoever is past the bind, when it decides on
a removal with nobody listening, and when it begins to listen now. -/
theorem Exclusive.goto {s : State} (h : Exclusive s) (p : Nat) (pc : Pc) (path : Entry)
    (howned : ∀ (q : Nat) (pc' : Pc), (s.goto p pc).procs[q]? = some pc' → pc'.pastBind →
      path = .socket q)
    (hremove : ∀ tested, pc = .remove tested →
      tested = s.clock ∧ ∀ q since : Nat, s.procs[q]? ≠ some (Pc.serving since))
    (hserving : ∀ since, pc = .serving since → since = s.clock) :
    Exclusive { s.goto p pc with path := path } where
  owned := howned
  alone q tested r since hq hr := by
    rcases goto_get hq with ⟨_, hpc⟩ | hq
    · rcases goto_get hr with ⟨_, hpc'⟩ | hr
      · cases hpc.trans hpc'.symm
      · exact absurd hr ((hremove tested hpc.symm).2 r since)
    · rcases goto_get hr with ⟨_, hpc⟩ | hr
      · rw [hserving since hpc.symm]
        exact Nat.le_of_lt (h.past q tested hq)
      · exact h.alone q tested r since hq hr
  past q tested hq := by
    rcases goto_get hq with ⟨_, hpc⟩ | hq
    · rw [(hremove tested hpc.symm).1]
      exact Nat.lt_succ_self _
    · exact Nat.lt_succ_of_lt (h.past q tested hq)

/-- A process that moves to a place before the bind, or exits, leaves the path as it is. -/
theorem Exclusive.owned_goto {s : State} (h : Exclusive s) {p : Nat} {pc : Pc}
    (hpc : pc.pastBind = false) :
    ∀ (q : Nat) (pc' : Pc), (s.goto p pc).procs[q]? = some pc' → pc'.pastBind →
      s.path = .socket q := by
  intro q pc' hq hpast
  rcases goto_get hq with ⟨_, rfl⟩ | hq
  · simp [hpc] at hpast
  · exact h.owned q pc' hq hpast

theorem Exclusive.spawn {s : State} (h : Exclusive s) :
    Exclusive { s with procs := s.procs ++ [.connect], clock := s.clock + 1 } := by
  have hold : ∀ {q : Nat} {pc : Pc}, (s.procs ++ [.connect])[q]? = some pc → pc ≠ .connect →
      s.procs[q]? = some pc := by
    intro q pc hq hne
    rw [List.getElem?_append] at hq
    split at hq
    · exact hq
    · have hmem := List.mem_of_getElem? hq
      exact absurd (List.mem_singleton.mp hmem) hne
  constructor
  · intro q pc hq hpast
    refine h.owned q pc (hold hq ?_) hpast
    rintro rfl
    simp [Pc.pastBind] at hpast
  · intro q tested r since hq hr
    exact h.alone q tested r since (hold hq (by simp)) (hold hr (by simp))
  · intro q tested hq
    exact Nat.lt_succ_of_lt (h.past q tested (hold hq (by simp)))

theorem Moves.exclusive {s s' : State} {a : Action} (hm : Moves s a s') (hok : Settled s a)
    (h : Exclusive s) : Exclusive s' := by
  cases hm with
  | spawn => exact h.spawn
  | turned _ _ | kept _ | inUse _ _ | exits _ =>
    exact h.goto _ _ _ (h.owned_goto rfl) (by simp) (by simp)
  | @refused p hpc hans =>
    refine h.goto _ _ _ (h.owned_goto rfl) ?_ (by simp)
    intro tested htested
    cases htested
    exact ⟨rfl, h.none_serving hans⟩
  | @removed p tested hpc =>
    -- whoever is past the bind would have answered the remover's test
    have hnone : ∀ (q : Nat) (pc : Pc), s.procs[q]? = some pc → pc.pastBind = false := by
      intro q pc hq
      by_contra hpast
      rw [Bool.not_eq_false] at hpast
      obtain ⟨since, hlt, rfl⟩ := Settled.servesBefore hok hpc hq hpast
      exact Nat.not_le_of_lt hlt (h.alone p tested q since hpc hq)
    refine h.goto _ _ _ ?_ (by simp) (by simp)
    intro q pc hq hpast
    rcases goto_get hq with ⟨_, rfl⟩ | hq
    · cases hpast
    · simp [hnone q pc hq] at hpast
  | @bound p hpc hpath =>
    refine h.goto _ _ _ ?_ (by simp) (by simp)
    intro q pc hq hpast
    rcases goto_get hq with ⟨rfl, _⟩ | hq
    · rfl
    · have := h.owned q pc hq hpast
      simp [hpath] at this
  | @listening p hpc =>
    refine h.goto _ _ _ ?_ (by simp) (by simp)
    intro q pc hq hpast
    rcases goto_get hq with ⟨rfl, _⟩ | hq
    · exact h.owned q .listen hpc rfl
    · exact h.owned q pc hq hpast

theorem Exclusive.run {s t : State} {as : List Action} (h : Steps step Settled s as t)
    (hs : Exclusive s) : Exclusive t :=
  h.invariant (fun _ _ _ hok hstep hinv => (step_cases hstep).exclusive hok hinv) hs

end Egdod.Takeover
