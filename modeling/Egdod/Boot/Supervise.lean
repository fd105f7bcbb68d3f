import Egdod.Boot.Children

/-! The pids that init looks at, and the link events it acts on. The
supervision loop leaves `bluetoothd` and `dbus` as they are when it reaps them,
so two variables may be stale for a while: until `relink` clears them, which
the same iteration owes. -/
namespace Egdod.Boot

open Asking

/-! ## What is on record -/

/-- No pid was looked at that had been reaped, unless by the second look of a `stop` or after the
loop reaped a process of the adapter; and no iteration ended owing a `relink`, unless
`switch_root` returned. -/
structure Told (s : State) : Prop where
  uses : ∀ u, .use u ∈ s.trace →
    u.Fine ∨ u.reader = .recheck true ∨ .bluetoothReaped ∈ s.trace
  ended : .ended true ∈ s.trace → .switchReturned true ∈ s.trace

theorem Told.log {s : State} (h : Told s) {e : Event} (huse : ∀ u, e = .use u → u.Fine)
    (hended : e = .ended true → .switchReturned true ∈ s.trace) : Told (s.log e) where
  uses u hu := by
    rcases List.mem_append.mp hu with hu | hu
    · exact (h.uses u hu).imp_right fun h => h.imp_right fun hb => List.mem_append_left _ hb
    · exact .inl (huse u (List.mem_singleton.mp hu).symm)
  ended he := by
    refine List.mem_append_left _ ?_
    rcases List.mem_append.mp he with he | he
    · exact h.ended he
    · exact hended (List.mem_singleton.mp he).symm

/-- What the functions below the loop do leaves the record right if every variable held its
child, or if the loop reaped a process of the adapter before. -/
theorem Keeps.told {b : Bool} {s s' : State} (h : Keeps b s s') (ht : Told s)
    (hs : Fields b s ∨ .bluetoothReaped ∈ s.trace) : Told s' := by
  have hsubset := h.subset
  obtain ⟨es, htrace, hlow, hfields⟩ := h.trace
  constructor
  · intro u hu
    rcases hs with hs | hs
    · rw [htrace] at hu
      rcases List.mem_append.mp hu with hu | hu
      · exact (ht.uses u hu).imp_right fun h => h.imp_right (hsubset _)
      · exact ((hfields hs).2 u hu).imp_right .inl
    · exact .inr (.inr (hsubset _ hs))
  · intro he
    rw [htrace] at he
    rcases List.mem_append.mp he with he | he
    · exact hsubset _ (ht.ended he)
    · cases hlow _ he

/-! ## The variables of the loop -/

/-- What is asked of a state: that `agent` holds its child, that the variables of the adapter do,
and that no `relink` is owed. -/
structure Level where
  agent : Bool
  adapter : Bool
  paid : Bool
  deriving DecidableEq

/-- Between two iterations. -/
def Level.serving : Level := ⟨true, true, true⟩

/-- While children are reaped. -/
def Level.reaping : Level := ⟨true, false, false⟩

def Slot.adapter : Slot → Bool
  | .bluetoothd | .dbus => true
  | _ => false

/-- A variable of the adapter whose process the loop reaped. Only an agent may have been given
its pid since. -/
structure Stale (l : Level) (s : State) (x : Slot) : Prop where
  level : l.adapter = false
  owed : s.owed = true
  logged : .bluetoothReaped ∈ s.trace
  gone : s.children.program (s.get x) = none ∨ (l.agent = true ∧ s.get x = s.agent)

structure Held (l : Level) (s : State) : Prop where
  holds : ∀ x, x.adapter = false → (x = .agent → l.agent = true) → s.Holds x
  adapter : ∀ x, x.adapter = true → s.Holds x ∨ Stale l s x
  helper : s.helper ≤ 0
  av : Program.of s.av = .agent
  told : Told s
  paid : l.paid = true → s.owed = true → .switchReturned true ∈ s.trace

theorem Held.fields {l : Level} {s : State} (h : Held l s) (hl : l.adapter = true) :
    Fields l.agent s := by
  refine ⟨fun x hx => ?_, .inl h.helper⟩
  cases hxa : x.adapter with
  | false => exact h.holds x hxa hx
  | true =>
    rcases h.adapter x hxa with hx | hx
    · exact hx
    · rw [hx.level] at hl
      cases hl

theorem Held.reaping {s : State} (h : Held .serving s) : Held .reaping s :=
  ⟨h.holds, fun x hx => .inl ((h.fields rfl).holds x fun _ => rfl), h.helper, h.av, h.told,
    fun e => by cases e⟩

theorem Held.unpaid {a c d : Bool} {s : State} (h : Held ⟨a, c, d⟩ s) : Held ⟨a, c, false⟩ s :=
  ⟨h.holds,
    fun x hx => (h.adapter x hx).imp_right fun hs => ⟨hs.level, hs.owed, hs.logged, hs.gone⟩,
    h.helper, h.av, h.told, fun e => by cases e⟩

/-- Either every variable holds its child, or the loop reaped a process of the adapter. -/
theorem Held.fields_or {l : Level} {s : State} (h : Held l s) :
    Fields l.agent s ∨ .bluetoothReaped ∈ s.trace := by
  by_cases hlog : .bluetoothReaped ∈ s.trace
  · exact .inr hlog
  · refine .inl ⟨fun x hx => ?_, .inl h.helper⟩
    cases hxa : x.adapter with
    | false => exact h.holds x hxa hx
    | true => exact (h.adapter x hxa).resolve_right fun hx => hlog hx.logged

/-- The property, until the loop has reaped a process of the adapter and `switch_root` has come
back in an iteration that owed a `relink`. -/
abbrev Kept (J : State → Prop) : State → Prop :=
  Until [.bluetoothReaped, .switchReturned true] J

/-- What the functions below the loop do, with every variable in order. -/
theorem spec_low {α : Type} {l : Level} (hl : l.adapter = true) {p : Init α} (hp : Low l.agent p) :
    Spec (Kept (Held l)) p (Kept Told) (fun _ => Kept (Held l)) := by
  have hstep : ∀ s s', Held l s → Keeps l.agent s s' → Held l s' := by
    intro s s' h hk
    obtain ⟨es, htrace, -, hfields⟩ := hk.trace
    have hfields := (hfields (h.fields hl)).1
    refine ⟨fun x _ hx => hfields.holds x hx, fun x hx => .inl (hfields.holds x ?_),
      hk.frame.helper h.helper, hk.frame.av ▸ h.av, hk.told h.told (.inl (h.fields hl)), ?_⟩
    · rintro rfl
      cases hx
    · intro hpaid howed
      exact hk.subset _ (h.paid hpaid (hk.frame.owed ▸ howed))
  refine hp.spec ?_ ?_
  · exact fun s s' h hk => h.step hk.subset fun hs => (hstep s s' hs hk).told
  · exact fun _ s s' h hk => h.step hk.subset fun hs => hstep s s' hs hk

/-! ## The agent -/

theorem State.Holds.born {s : State} {x : Slot} (h : s.Holds x) {p : Int} {g : Program}
    (hp : 0 < p) (hfree : s.children.program p = none) : (s.born p g hp).Holds x := by
  refine h.imp (by simp) ?_
  rintro ⟨g', hg', hrun⟩
  have hne : s.get x ≠ p := by
    rintro rfl
    simp [hfree] at hg'
  exact ⟨g', by simpa [program_born hne] using hg', hrun⟩

theorem State.Holds.set {s : State} {x y : Slot} (h : s.Holds x) (hne : x ≠ y) (p : Int) :
    (s.set y p).Holds x := by
  unfold State.Holds at *
  simpa [hne] using h

theorem State.Holds.reap {s : State} {x : Slot} (h : s.Holds x) {p : Int} (hne : s.get x ≠ p) :
    (s.reap p).Holds x := by
  refine h.imp (by simp) ?_
  rintro ⟨g, hg, hrun⟩
  exact ⟨g, by simpa [program_reap hne] using hg, hrun⟩

theorem State.Holds.log {s : State} {x : Slot} (h : s.Holds x) (e : Event) : (s.log e).Holds x := by
  unfold State.Holds at *
  simpa using h

theorem Slot.adapter_ne {x y : Slot} (hx : x.adapter = true) (hy : y.adapter = false) : x ≠ y := by
  rintro rfl
  rw [hx] at hy
  cases hy

/-- An agent is started: its variable holds its child from now on. -/
theorem Held.started {c d : Bool} {s : State} (h : Held ⟨false, c, d⟩ s) {p : Int} (hp : 0 < p)
    (hfree : s.children.program p = none) :
    Held ⟨true, c, d⟩ ((s.born p (Program.of s.av) hp).set .agent p) where
  holds x hxa _ := by
    by_cases hx : x = .agent
    · subst hx
      refine .inr ⟨.agent, ?_, rfl⟩
      simp [program_born_self, h.av]
    · exact ((h.holds x hxa fun e => absurd e hx).born hp hfree).set hx p
  adapter x hxa := by
    have hx : x ≠ .agent := Slot.adapter_ne hxa rfl
    rcases h.adapter x hxa with hh | hs
    · exact .inl ((hh.born hp hfree).set hx p)
    · refine .inr ⟨hs.level, hs.owed, hs.logged, ?_⟩
      -- the new agent may have been given the pid of the process reaped
      by_cases hpid : s.get x = p
      · refine .inr ⟨rfl, ?_⟩
        simp only [get_set, get_born, hx, if_false]
        exact hpid
      · left
        have hgone := hs.gone.resolve_right fun h => by cases h.1
        simpa [hx, program_born hpid] using hgone
  helper := h.helper
  av := h.av
  told := ⟨h.told.uses, h.told.ended⟩
  paid := h.paid

theorem Held.unstarted {c d : Bool} {s : State} (h : Held ⟨false, c, d⟩ s) :
    Held ⟨true, c, d⟩ (s.set .agent (-1)) where
  holds x hxa _ := by
    by_cases hx : x = .agent
    · subst hx
      exact .inl (by simp)
    · exact (h.holds x hxa fun e => absurd e hx).set hx _
  adapter x hxa := by
    have hx : x ≠ .agent := Slot.adapter_ne hxa rfl
    rcases h.adapter x hxa with hh | hs
    · exact .inl (hh.set hx _)
    · refine .inr ⟨hs.level, hs.owed, hs.logged, .inl ?_⟩
      have hgone := hs.gone.resolve_right fun h => by cases h.1
      simpa [hx] using hgone
  helper := h.helper
  av := h.av
  told := ⟨h.told.uses, h.told.ended⟩
  paid := h.paid

/-- A child is in one variable only. -/
theorem Held.pid_ne {l : Level} {s : State} (h : Held l s) {x y : Slot} {g : Program}
    (hx : s.Holds x) (hne : x ≠ y) (hy : y ≠ .helper)
    (hg : s.children.program (s.get y) = some g) (hyg : y.runs g = true) : s.get x ≠ s.get y := by
  intro e
  have hpos := s.children.positive (s.get y) (by simp [hg])
  rcases hx with hle | ⟨g', hg', hxg⟩
  · omega
  · rw [e, hg] at hg'
    cases hg'
    rcases Slot.runs_apart hxg hyg with hxy | ⟨-, hhelper⟩ | ⟨rfl, -⟩
    · exact hne hxy
    · exact hy hhelper
    · have : s.get .helper ≤ 0 := h.helper
      omega

theorem program_reap_none {s : State} {q : Int} (h : s.children.program q = none) (p : Int) :
    (s.reap p).children.program q = none := by
  by_cases hqp : q = p
  · rw [hqp, program_reap_self]
  · rw [program_reap hqp, h]

/-- The agent has been waited for. -/
theorem Held.agent_reaped {c d : Bool} {s : State} (h : Held ⟨true, c, d⟩ s) (hpos : 0 < s.agent) :
    Held ⟨false, c, d⟩ (s.reap s.agent) := by
  obtain ⟨g, hg, hrun⟩ := (h.holds .agent rfl fun _ => rfl).resolve_left (by
    show ¬ s.agent ≤ 0
    omega)
  refine ⟨fun x hxa hx => ?_, fun x hxa => ?_, h.helper, h.av, ⟨h.told.uses, h.told.ended⟩, h.paid⟩
  · have hne : x ≠ .agent := fun e => by cases hx e
    have hx := h.holds x hxa fun _ => rfl
    exact hx.reap (h.pid_ne hx hne (by decide) hg hrun)
  · have hne : x ≠ .agent := Slot.adapter_ne hxa rfl
    rcases h.adapter x hxa with hx | hx
    · exact .inl (hx.reap (h.pid_ne hx hne (by decide) hg hrun))
    · refine .inr ⟨hx.level, hx.owed, hx.logged, .inl ?_⟩
      rw [get_reap]
      rcases hx.gone with hnone | ⟨-, hpid⟩
      · exact program_reap_none hnone _
      · rw [hpid]
        exact program_reap_self s _

/-- No agent is in its variable. -/
theorem Held.without_agent {c d : Bool} {s : State} (h : Held ⟨true, c, d⟩ s) (hle : s.agent ≤ 0) :
    Held ⟨false, c, d⟩ s := by
  refine ⟨fun x hxa _ => h.holds x hxa fun _ => rfl, fun x hxa => ?_, h.helper, h.av, h.told,
    h.paid⟩
  refine (h.adapter x hxa).imp_right fun hx => ⟨hx.level, hx.owed, hx.logged, .inl ?_⟩
  rcases hx.gone with hnone | ⟨-, hpid⟩
  · exact hnone
  · by_contra hsome
    have := s.children.positive _ hsome
    omega

theorem Held.log {l : Level} {s : State} (h : Held l s) {e : Event}
    (huse : ∀ u, e = .use u → u.Fine)
    (hended : e = .ended true → .switchReturned true ∈ s.trace) : Held l (s.log e) where
  holds x hxa hx := (h.holds x hxa hx).log e
  adapter x hxa := by
    refine (h.adapter x hxa).imp (·.log e) fun hx => ?_
    refine ⟨hx.level, hx.owed, List.mem_append_left _ hx.logged, ?_⟩
    rw [get_log]
    exact hx.gone
  helper := h.helper
  av := h.av
  told := h.told.log huse hended
  paid hl howed := List.mem_append_left _ (h.paid hl howed)

/-- Looking at the agent's pid. -/
theorem Held.use_agent {c d : Bool} {s : State} (h : Held ⟨true, c, d⟩ s) (r : Reader) :
    Held ⟨true, c, d⟩ (s.use r s.agent) := by
  refine h.log (fun u hu => ?_) (fun e => by cases e)
  cases hu
  rcases h.holds .agent rfl fun _ => rfl with hle | ⟨g, hg, -⟩
  · exact .inl hle
  · right
    show (s.children.program s.agent).isSome = true
    have : s.children.program s.agent = some g := hg
    rw [this]
    rfl

variable {c d : Bool}

theorem spec_heldReapAgent {p : Int} :
    Spec (fun s => s.agent = p ∧ Kept (Held ⟨true, c, d⟩) s) reapAgent (Kept Told)
      (fun _ s => s.agent = p ∧ Kept (Held ⟨false, c, d⟩) s) := by
  refine Spec.bind (Q := fun q s => q = p ∧ s.agent = p ∧ Kept (Held ⟨true, c, d⟩) s)
    (Spec.read fun s h => ⟨h.1, h⟩) fun q => ?_
  refine Spec.ite (fun hq => ?_) (fun hq => ?_)
  · refine Spec.pure ?_
    rintro s ⟨rfl, hagent, h⟩
    exact ⟨hagent, h.imp fun hs => hs.without_agent (hagent ▸ hq)⟩
  · have huse : ∀ r, Spec (fun s => q = p ∧ s.agent = p ∧ Kept (Held ⟨true, c, d⟩) s)
        (Prog.update (·.use r q) : Init Unit) (Kept Told)
        (fun _ s => q = p ∧ s.agent = p ∧ Kept (Held ⟨true, c, d⟩) s) := by
      intro r
      refine Spec.update ?_
      rintro s ⟨rfl, rfl, h⟩
      exact ⟨rfl, rfl, h.step (fun e he => List.mem_append_left _ he) fun hs => hs.use_agent r⟩
    refine Spec.bind (huse .kill) fun _ => Spec.bind (huse .wait) fun _ => ?_
    refine Spec.bind (Q := fun _ s => s.agent = p ∧ Kept (Held ⟨false, c, d⟩) s) ?_ fun _ =>
      Spec.pure fun s h => h
    refine await_spec (fun s h _ => h.2.2.imp fun hs => hs.told) ?_ ?_
    · rintro s ⟨rfl, rfl, h⟩ hnone
      refine ⟨rfl, h.imp fun hs => ?_⟩
      rcases hs.holds .agent rfl fun _ => rfl with hle | ⟨g, hg, -⟩
      · exact hs.without_agent hle
      · rw [show s.get .agent = s.agent from rfl, hnone] at hg
        cases hg
    · rintro s st ⟨rfl, rfl, h⟩ hsome
      exact ⟨rfl, h.step (fun _ => id) fun hs => hs.agent_reaped (s.children.positive _ hsome)⟩

theorem spec_heldStart {av : List String} :
    Spec (fun s => s.av = av ∧ Kept (Held ⟨false, c, d⟩) s) (assignSpawn .agent av) (Kept Told)
      (fun _ => Kept (Held ⟨true, c, d⟩)) := by
  refine Spec.bind (Q := fun p s => Kept (Held ⟨true, c, d⟩) (s.set .agent p)) ?_
    fun p => Spec.update fun s h => h
  refine forkAs_spec (fun s h => h.2.imp fun hs => hs.told) ?_ ?_
  · exact fun s h => h.2.step (fun _ => id) fun hs => hs.unstarted
  · rintro s p hp ⟨rfl, h⟩ hfree
    exact h.step (fun _ => id) fun hs => hs.started hp hfree

/-! ## Taking the link down -/

section Stop

variable {x : Slot} {J : State → Prop}

theorem stopPolls_keeps {p : Int} (hlog : ∀ s e, J s → J (s.log e))
    (hreap : ∀ s, J s → s.get x = p → J (s.reap p)) (n : Nat) :
    Spec (fun s => J s ∧ s.get x = p) (stopPolls p n) J (fun _ s => J s ∧ s.get x = p) := by
  induction n with
  | zero => exact Spec.pure fun s h => h
  | succ n ih =>
    refine Spec.bind (Q := fun _ s => J s ∧ s.get x = p) (Spec.update fun s h => ?_) fun _ => ?_
    · exact ⟨hlog s _ h.1, by simpa [State.use] using h.2⟩
    refine Spec.bind (Q := fun _ s => J s ∧ s.get x = p) ?_ fun r => ?_
    · exact poll_spec (fun s h _ => h.1) (fun s h _ => h)
        (fun s h _ => ⟨hreap s h.1 h.2, by simpa using h.2⟩) (fun s h _ => h)
    · refine Spec.ite (fun _ => ?_) fun _ => ?_
      · exact Spec.bind (asks_sleep.spec fun s h => h.1) fun _ => ih
      · exact Spec.pure fun s h => h

/-- What `stop` keeps, and that it clears its variable. -/
theorem stop_keeps (hlog : ∀ s e, J s → J (s.log e))
    (hreap : ∀ s, J s → J (s.reap (s.get x))) (hset : ∀ s, J s → J (s.set x (-1))) :
    Spec J (stop x) J (fun _ s => J s ∧ s.get x ≤ 0) := by
  refine Spec.bind (Q := fun p s => J s ∧ s.get x = p) (Spec.read fun s h => ⟨h, rfl⟩) fun p => ?_
  have huse : ∀ r, Spec (fun s => J s ∧ s.get x = p) (Prog.update (·.use r p) : Init Unit) J
      (fun _ s => J s ∧ s.get x = p) :=
    fun r => Spec.update fun s h => ⟨hlog s _ h.1, by simpa [State.use] using h.2⟩
  have hreap' : ∀ s, J s → s.get x = p → J (s.reap p) := fun s h e => e ▸ hreap s h
  have hclear : Spec (fun s => J s ∧ s.get x = p) (Prog.update (·.set x (-1)) : Init Unit) J
      (fun _ s => J s ∧ s.get x ≤ 0) :=
    Spec.update fun s h => ⟨hset s h.1, by simp⟩
  refine Spec.bind (huse .stop) fun _ => Spec.ite (fun hp => ?_) fun _ => ?_
  · exact Spec.pure fun s h => ⟨h.1, h.2 ▸ hp⟩
  refine Spec.bind (huse .kill) fun _ => Spec.bind (stopPolls_keeps hlog hreap' 20) fun _ => ?_
  refine Spec.bind (huse (.recheck _)) fun _ => ?_
  refine Spec.bind (Q := fun _ s => J s ∧ s.get x = p) ?_ fun r => Spec.ite (fun _ => ?_) ?_
  · exact poll_spec (fun s h _ => h.1) (fun s h _ => h)
      (fun s h _ => ⟨hreap' s h.1 h.2, by simpa using h.2⟩) (fun s h _ => h)
  · refine Spec.bind (huse .kill) fun _ => Spec.bind (huse .wait) fun _ => ?_
    refine Spec.bind (Q := fun _ s => J s ∧ s.get x = p) ?_ fun _ => hclear
    exact await_spec (fun s h _ => h.1) (fun s h _ => h)
      (fun s _ h _ => ⟨hreap' s h.1 h.2, by simpa using h.2⟩)
  · exact fun _ => hclear

end Stop

/-- What is left to keep when variables of the adapter may be stale: no variable that `bring_down`
stops holds the relay. -/
structure Loose (s : State) : Prop where
  relay : s.Holds .relay
  helper : s.helper ≤ 0
  others : ∀ x, x = .daemon ∨ x.adapter = true → s.children.program (s.get x) ≠ some .relay

theorem Held.loose {l : Level} {s : State} (h : Held l s) (hl : l.agent = false) : Loose s := by
  have hholds : ∀ x, x ≠ .relay → s.Holds x → s.children.program (s.get x) ≠ some .relay := by
    rintro x hne (hle | ⟨g, hg, hrun⟩) e
    · have := s.children.positive (s.get x) (by simp [e])
      omega
    · rw [hg] at e
      cases e
      cases x <;> simp_all [Slot.runs]
  refine ⟨h.holds .relay rfl (by simp), h.helper, ?_⟩
  rintro x (rfl | hx)
  · exact hholds _ (by decide) (h.holds .daemon rfl (by simp))
  · rcases h.adapter x hx with hh | hs
    · exact hholds x (Slot.adapter_ne hx rfl) hh
    · have hgone := hs.gone.resolve_right fun h => by simp [hl] at h
      simp [hgone]

theorem Loose.reap {s : State} (h : Loose s) {x : Slot} (hx : x = .daemon ∨ x.adapter = true) :
    Loose (s.reap (s.get x)) := by
  refine ⟨?_, h.helper, fun y hy => ?_⟩
  · rcases h.relay with hle | ⟨g, hg, hrun⟩
    · exact .inl (by simpa using hle)
    · have hne : s.get .relay ≠ s.get x := by
        intro e
        have hrelay : g = .relay := by cases g <;> simp_all [Slot.runs]
        rw [e, hrelay] at hg
        exact h.others x hx hg
      exact State.Holds.reap (.inr ⟨g, hg, hrun⟩) hne
  · rw [get_reap]
    by_cases hyx : s.get y = s.get x
    · rw [hyx, program_reap_self]
      simp
    · rw [program_reap hyx]
      exact h.others y hy

theorem Loose.set_neg {s : State} (h : Loose s) {x : Slot} (hx : x = .daemon ∨ x.adapter = true) :
    Loose (s.set x (-1)) := by
  have hrelay : Slot.relay ≠ x := by
    rintro rfl
    simp [Slot.adapter] at hx
  have hhelper : Slot.helper ≠ x := by
    rintro rfl
    simp [Slot.adapter] at hx
  refine ⟨h.relay.set hrelay _, ?_, fun y hy => ?_⟩
  · have hsame : (s.set x (-1)).get .helper = s.get .helper := by simp [hhelper]
    exact hsame.trans_le h.helper
  · rw [get_set, children_set]
    split
    · intro e
      have := s.children.positive (-1) (by simp [e])
      omega
    · exact h.others y hy

theorem Loose.log {s : State} (h : Loose s) (e : Event) : Loose (s.log e) :=
  ⟨h.relay.log e, h.helper, fun x hx => by rw [get_log]; exact h.others x hx⟩

theorem loose_stop {x : Slot} (hx : x = .daemon ∨ x.adapter = true) :
    Spec Loose (stop x) Loose (fun _ => Loose) :=
  (stop_keeps (fun _ e h => h.log e) (fun _ h => h.reap hx) (fun _ h => h.set_neg hx)).mono
    (fun _ h => h) (fun _ h => h) (fun _ _ h => h.1)

theorem Loose.down {s : State} (h : Loose s) : Fields false { s with up := Link.down } := by
  refine ⟨fun x hx => ?_, .inl h.helper⟩
  cases x with
  | relay => exact h.relay
  | agent => cases hx rfl
  | helper => exact .inl h.helper
  | _ => exact .inl (show (-1 : Int) ≤ 0 by decide)

theorem loose_bringDown : Spec Loose bringDown (fun _ => True) (fun _ => Fields false) := by
  have hstop : ∀ x : Slot, x = .daemon ∨ x.adapter = true →
      Spec Loose (stop x) (fun _ => True) (fun _ => Loose) :=
    fun x hx => (loose_stop hx).mono (fun _ h => h) (fun _ _ => trivial) (fun _ _ h => h)
  refine Spec.bind (hstop _ (.inl rfl)) fun _ => Spec.bind (hstop _ (.inr rfl)) fun _ => ?_
  refine Spec.bind (hstop _ (.inr rfl)) fun _ => ?_
  refine Spec.bind (Q := fun _ => Loose) (Spec.read fun s h => h) fun p => ?_
  refine Spec.ite (fun _ => Spec.update fun s h => h.down) fun _ => ?_
  exact Spec.bind (Q := fun _ => Loose) (Spec.update fun s h => h.log _) fun _ =>
    Spec.update fun s h => h.down

/-- `bring_down` clears what is stale. -/
theorem spec_bringDown {a : Bool} : Spec (Kept (Held ⟨false, a, false⟩)) bringDown (Kept Told)
    (fun _ => Kept (Held ⟨false, true, false⟩)) := by
  intro s as hs
  by_cases hok : ∃ e ∈ [Event.bluetoothReaped, .switchReturned true], e ∉ s.trace
  · have hheld := hs hok
    refine ((low_bringDown (b := false) s).and loose_bringDown).mono (fun _ h => h) ?_ ?_ s as
      ⟨rfl, hheld.loose rfl⟩
    · exact fun s' h _ => h.1.told hheld.told hheld.fields_or
    · rintro _ s' ⟨hk, hfields⟩ -
      refine ⟨fun x _ hx => hfields.holds x hx, fun x hx => .inl (hfields.holds x ?_),
        hk.frame.helper hheld.helper, hk.frame.av ▸ hheld.av, hk.told hheld.told hheld.fields_or,
        fun e => by cases e⟩
      exact fun e => absurd e (Slot.adapter_ne hx rfl)
  · have hlost : ∀ {J : State → Prop} {s'}, Keeps false s s' → Kept J s' := by
      rintro J s' hk ⟨e, he, hnot⟩
      exact absurd ⟨e, he, fun h => hnot (hk.subset e h)⟩ hok
    exact (low_bringDown s).mono (fun _ h => h) (fun _ h => hlost h) (fun _ _ h => hlost h) s as rfl

/-! ## `relink` -/

variable (cmdline : Text.Str)

theorem Held.setArgv {l : Level} {s : State} (h : Held l s) :
    Held l { s with av := agentArgv cmdline s.up } where
  holds := h.holds
  adapter x hx := (h.adapter x hx).imp_right fun hs => ⟨hs.level, hs.owed, hs.logged, hs.gone⟩
  helper := h.helper
  av := agentArgv_program cmdline s.up
  told := ⟨h.told.uses, h.told.ended⟩
  paid := h.paid

theorem spec_heldLaunch : Spec (Kept (Held ⟨false, c, d⟩)) launchAgent (Kept Told)
    (fun _ => Kept (Held ⟨true, c, d⟩)) := by
  refine Spec.bind (Q := fun s₀ s => s₀ = s ∧ Kept (Held ⟨false, c, d⟩) s)
    (Spec.read fun s h => ⟨rfl, h⟩) fun s₀ => ?_
  refine Spec.ite (fun _ => ?_) (fun _ => ?_)
  · exact Spec.update fun s h => h.2.step (fun _ => id) fun hs => hs.unstarted
  · refine spec_heldStart.mono ?_ (fun _ h => h) (fun _ _ h => h)
    rintro s ⟨rfl, h⟩
    exact ⟨rfl, h⟩

theorem Held.settle {s : State} (h : Held ⟨true, true, d⟩ s) :
    Held .serving { s with owed := false } := by
  have hfields := h.fields rfl
  refine ⟨fun x hx _ => h.holds x hx fun _ => rfl, fun x hx => .inl ?_, h.helper, h.av,
    ⟨h.told.uses, h.told.ended⟩, fun _ e => by cases e⟩
  exact hfields.holds x fun _ => rfl

/-- `relink` puts every variable in order. -/
theorem spec_heldRelink {d : Bool} : Spec (Kept (Held ⟨true, c, d⟩)) (relink cmdline) (Kept Told)
    (fun _ => Kept (Held .serving)) := by
  refine Spec.bind (Q := fun _ => Kept (Held ⟨false, c, false⟩)) ?_ fun _ => ?_
  · intro s as hs
    refine spec_heldReapAgent.mono (fun _ h => h) (fun _ h => h) (fun _ _ h => ?_) s as ⟨rfl, hs⟩
    exact h.2.imp fun hs => hs.unpaid
  refine Spec.bind (Spec.bind spec_bringDown fun _ =>
    spec_low (l := ⟨false, true, false⟩) rfl (low_linkUp cmdline)) fun _ => ?_
  refine Spec.bind (Q := fun _ => Kept (Held ⟨false, true, false⟩)) (Spec.update fun s h => ?_)
    fun _ => ?_
  · exact h.step (fun _ => id) fun hs => hs.setArgv cmdline
  refine Spec.bind spec_heldLaunch fun _ => Spec.update fun s h => ?_
  exact h.step (fun _ => id) fun hs => hs.settle

/-! ## Reaping -/

theorem Held.owing {a c : Bool} {s : State} (h : Held ⟨a, c, false⟩ s) {o : Bool}
    (ho : s.owed = true → o = true) : Held ⟨a, c, false⟩ { s with owed := o } where
  holds := h.holds
  adapter x hx := (h.adapter x hx).imp_right fun hs => ⟨hs.level, ho hs.owed, hs.logged, hs.gone⟩
  helper := h.helper
  av := h.av
  told := ⟨h.told.uses, h.told.ended⟩
  paid e := by cases e

theorem Stale.reap {s : State} {x : Slot} (h : Stale .reaping s x) (w : Int) :
    Stale .reaping (s.reap w) x := by
  refine ⟨h.level, h.owed, h.logged, ?_⟩
  rw [get_reap]
  exact h.gone.imp_left fun hnone => program_reap_none hnone w

/-- The child of a variable is reaped and the variable cleared. -/
theorem Held.reap_slot {s : State} (h : Held .reaping s) {y : Slot} {g : Program}
    (hg : s.children.program (s.get y) = some g) (hadapter : y.adapter = false)
    (hagent : y ≠ .agent) (hhelper : y ≠ .helper) :
    Held .reaping ((s.reap (s.get y)).set y (-1)) := by
  have hpos := s.children.positive (s.get y) (by simp [hg])
  obtain ⟨g', hg', hrun⟩ := (h.holds y hadapter fun _ => rfl).resolve_left (by omega)
  have hother : ∀ x, x ≠ y → s.Holds x → ((s.reap (s.get y)).set y (-1)).Holds x :=
    fun x hne hx => (hx.reap (h.pid_ne hx hne hhelper hg' hrun)).set hne _
  have hget : ∀ x, x ≠ y → ((s.reap (s.get y)).set y (-1)).get x = s.get x :=
    fun x hne => by simp [hne]
  have htrace : ((s.reap (s.get y)).set y (-1)).trace = s.trace := by simp [State.reap]
  constructor
  · intro x hxa _
    by_cases hxy : x = y
    · exact .inl (by simp [hxy])
    · exact hother x hxy (h.holds x hxa fun _ => rfl)
  · intro x hxa
    have hxy : x ≠ y := Slot.adapter_ne hxa hadapter
    refine (h.adapter x hxa).imp (hother x hxy) fun hs => ?_
    have hs := hs.reap (s.get y)
    refine ⟨rfl, (owed_set _ _ _).trans hs.owed, htrace ▸ hs.logged, ?_⟩
    refine hs.gone.imp (fun hnone => ?_) fun hsame => ⟨rfl, ?_⟩
    · rw [get_set, if_neg hxy, children_set]
      exact hnone
    · rw [get_set, if_neg hxy]
      exact hsame.2.trans (hget .agent hagent.symm).symm
  · exact (hget .helper hhelper.symm).trans_le h.helper
  · rw [av_set]
    exact h.av
  · exact ⟨htrace.symm ▸ h.told.uses, htrace.symm ▸ h.told.ended⟩
  · exact fun e => by cases e

/-- The loop reaps a process of the adapter, and leaves its variable as it is. -/
theorem Held.reap_adapter {s : State} (h : Held .reaping s) (howed : s.owed = true) {y : Slot}
    {g : Program} (hg : s.children.program (s.get y) = some g) (hadapter : y.adapter = true)
    (hagent : s.get y ≠ s.agent) : Held .reaping ((s.reap (s.get y)).log .bluetoothReaped) := by
  have hpos := s.children.positive (s.get y) (by simp [hg])
  have hlive : ¬ Stale .reaping s y := by
    intro hs
    rcases hs.gone with hnone | ⟨-, hsame⟩
    · simp [hg] at hnone
    · exact hagent hsame
  obtain ⟨g', hg', hrun⟩ := ((h.adapter y hadapter).resolve_right hlive).resolve_left (by omega)
  have hhelper : y ≠ .helper := Slot.adapter_ne hadapter rfl
  have hother : ∀ x, x ≠ y → s.Holds x → ((s.reap (s.get y)).log .bluetoothReaped).Holds x :=
    fun x hne hx => (hx.reap (h.pid_ne hx hne hhelper hg' hrun)).log _
  refine ⟨fun x hxa _ => ?_, fun x hxa => ?_, h.helper, h.av, ?_, fun e => by cases e⟩
  · exact hother x (Slot.adapter_ne hadapter hxa).symm (h.holds x hxa fun _ => rfl)
  · by_cases hxy : x = y
    · refine .inr ⟨rfl, howed, by simp [State.log], .inl ?_⟩
      rw [hxy, get_log, get_reap]
      exact program_reap_self s _
    · refine (h.adapter x hxa).imp (hother x hxy) fun hs => ?_
      refine ⟨rfl, howed, by simp [State.log], ?_⟩
      rw [get_log]
      exact (hs.reap _).gone
  · have htold : Told (s.reap (s.get y)) := ⟨h.told.uses, h.told.ended⟩
    exact htold.log (fun u e => by cases e) (fun e => by cases e)

/-- A child that no variable holds is reaped. -/
theorem Held.reap_other {s : State} (h : Held .reaping s) {w : Int} (hw : ∀ x, s.get x ≠ w) :
    Held .reaping (s.reap w) where
  holds x hxa hx := (h.holds x hxa hx).reap (hw x)
  adapter x hxa := (h.adapter x hxa).imp (fun hx => hx.reap (hw x)) fun hs => hs.reap w
  helper := h.helper
  av := h.av
  told := ⟨h.told.uses, h.told.ended⟩
  paid e := by cases e

/-- While children are reaped, what is owed is flagged. -/
structure Reaping (flags : Flags) (s : State) : Prop where
  held : Held .reaping s
  flagged : s.owed = true → flags.lostLink = true ∨ flags.provisioned = true

theorem linkProcess_false {s : State} {w : Int} {g : Program}
    (hg : Slot.daemon.runs g = false ∧ g ≠ .bluetoothd ∧ g ≠ .dbus) :
    s.linkProcess w g = false := by
  cases g <;> simp_all [State.linkProcess, Slot.runs]

/-- Which program a variable's child runs. -/
theorem Held.runs {s : State} (h : Held .reaping s) {x : Slot} {g : Program}
    (hx : x.adapter = false) (hg : s.children.program (s.get x) = some g) : x.runs g = true := by
  have hpos := s.children.positive (s.get x) (by simp [hg])
  obtain ⟨g', hg', hrun⟩ := (h.holds x hx fun _ => rfl).resolve_left (by omega)
  rw [hg] at hg'
  cases hg'
  exact hrun

section OnReaped

variable {flags : Flags} {s : State} {y : Slot} {g : Program}

/-- A variable is cleared whose process is not one of the link. -/
theorem Reaping.clear (h : Reaping flags s) (hg : s.children.program (s.get y) = some g)
    (hy : y = .relay ∨ y = .dhcp) :
    Reaping flags (({ s.reap (s.get y) with owed := s.owed || s.linkProcess (s.get y) g } :
      State).set y (-1)) := by
  have hadapter : y.adapter = false := by rcases hy with rfl | rfl <;> rfl
  have hrun := h.held.runs hadapter hg
  have hlink : s.linkProcess (s.get y) g = false :=
    linkProcess_false (by rcases hy with rfl | rfl <;> cases g <;> simp_all [Slot.runs])
  rw [hlink, Bool.or_false]
  refine ⟨h.held.reap_slot hg hadapter ?_ ?_, fun howed => h.flagged ?_⟩
  · rcases hy with rfl | rfl <;> decide
  · rcases hy with rfl | rfl <;> decide
  · simpa [State.reap] using howed

/-- The link's daemon is gone, and the iteration is flagged for it. -/
theorem Reaping.clear_daemon (h : Reaping flags s)
    (hg : s.children.program s.up.daemon = some g) {flags' : Flags}
    (hflags : flags'.lostLink = true ∨ flags'.provisioned = true) :
    Reaping flags' (({ s.reap s.up.daemon with owed := s.owed || s.linkProcess s.up.daemon g } :
      State).set .daemon (-1)) := by
  refine ⟨?_, fun _ => hflags⟩
  have hheld : Held .reaping { s with owed := s.owed || s.linkProcess s.up.daemon g } :=
    h.held.owing fun e => by simp [e]
  exact hheld.reap_slot (y := .daemon) hg rfl (by decide) (by decide)

theorem Reaping.agent_gone (h : Reaping flags s) (hg : s.children.program s.agent = some g) :
    Held ⟨false, false, false⟩ { s.reap s.agent with owed := s.owed || s.linkProcess s.agent g } ∧
      s.linkProcess s.agent g = false := by
  have hrun := h.held.runs (x := .agent) rfl hg
  have hlink : s.linkProcess s.agent g = false :=
    linkProcess_false (by cases g <;> simp_all [Slot.runs])
  refine ⟨?_, hlink⟩
  rw [hlink, Bool.or_false]
  exact h.held.agent_reaped (s.children.positive _ (by simp [hg]))

/-- A process of the adapter is reaped, and the iteration owes a `relink` for it. -/
theorem Reaping.adapter_gone (h : Reaping flags s) (hg : s.children.program (s.get y) = some g)
    (hy : y.adapter = true) (hagent : s.get y ≠ s.agent) :
    Reaping { flags with lostLink := true }
      (({ s.reap (s.get y) with owed := s.owed || s.linkProcess (s.get y) g } : State).log
        .bluetoothReaped) := by
  refine ⟨?_, fun _ => .inl rfl⟩
  have hpos := s.children.positive (s.get y) (by simp [hg])
  have hlink : s.linkProcess (s.get y) g = true := by
    rcases h.held.adapter y hy with hh | hs
    · obtain ⟨g', hg', hrun⟩ := hh.resolve_left (by omega)
      rw [hg] at hg'
      cases hg'
      cases y <;> cases g <;> simp_all [State.linkProcess, Slot.runs, Slot.adapter, State.get]
    · rcases hs.gone with hnone | ⟨-, hsame⟩
      · simp [hg] at hnone
      · exact absurd hsame hagent
  have hheld : Held .reaping { s with owed := s.owed || s.linkProcess (s.get y) g } :=
    h.held.owing fun e => by simp [e]
  have hreap := hheld.reap_adapter (by simp [hlink]) (y := y) (g := g)
  cases y with
  | bluetoothd | dbus => exact hreap hg hy hagent
  | _ => cases hy

/-- Another child is reaped. -/
theorem Reaping.other_gone (h : Reaping flags s) {w : Int} (hw : ∀ x, s.get x ≠ w) :
    Reaping flags { s.reap w with owed := s.owed || s.linkProcess w g } := by
  have hlink : s.linkProcess w g = false := by
    have hdaemon : w ≠ s.up.daemon := (hw .daemon).symm
    have hbluetoothd : w ≠ s.up.bluetoothd := (hw .bluetoothd).symm
    have hdbus : w ≠ s.up.dbus := (hw .dbus).symm
    simp [State.linkProcess, hdaemon, hbluetoothd, hdbus]
  rw [hlink, Bool.or_false]
  exact ⟨h.held.reap_other hw, h.flagged⟩

end OnReaped

theorem same_assignSpawn (x : Slot) (av : List String) :
    Stays (fun s s' : State => s'.owed = s.owed ∧ s'.trace = s.trace) (assignSpawn x av) := by
  intro s₀
  refine Spec.bind (Q := fun _ s => s.owed = s₀.owed ∧ s.trace = s₀.trace) ?_ fun p => ?_
  · exact forkAs_spec (fun s e => e ▸ ⟨rfl, rfl⟩) (fun s e => e ▸ ⟨rfl, rfl⟩)
      (fun s p hp e _ => e ▸ ⟨rfl, rfl⟩)
  · exact Spec.update fun s h => by simpa using h

/-- The agent that was reaped is started again. -/
theorem spec_heldRestart {flags : Flags} {av : List String} {s : State} (hav : s.av = av)
    (hs : Kept (fun s => Held ⟨false, false, false⟩ s ∧
      (s.owed = true → flags.lostLink = true ∨ flags.provisioned = true)) s) :
    Spec (· = s) (assignSpawn .agent av) (Kept Told) (fun _ => Kept (Reaping flags)) := by
  refine ((spec_heldStart (c := false) (d := false)).and (same_assignSpawn .agent av s)).mono ?_
    (fun _ h => h.1) ?_
  · rintro _ rfl
    exact ⟨⟨hav, hs.imp fun h => h.1⟩, rfl⟩
  · rintro _ s' ⟨hheld, howed, htrace⟩ hok
    refine ⟨hheld hok, fun h => ?_⟩
    exact (hs (htrace ▸ hok)).2 (howed ▸ h)

theorem spec_heldOnReaped {flags : Flags} {w : Int} {st : Nat} {s : State} {g : Program}
    (hg : s.children.program w = some g) (hs : Kept (Reaping flags) s) :
    Spec (· = { s.reap w with owed := s.owed || s.linkProcess w g }) (onReaped flags w st)
      (Kept Told) (fun flags' => Kept (Reaping flags')) := by
  have hpos := s.children.positive w (by simp [hg])
  have hpure : ∀ flags, Spec (Kept (Reaping flags)) (pure flags : Init Flags) (Kept Told)
      (fun flags' => Kept (Reaping flags')) := fun flags => Spec.pure fun s h => h
  refine Spec.bind_read (Spec.ite (fun hw => ?_) fun hrelay => Spec.ite (fun hw => ?_) fun hagent =>
    Spec.ite (fun hw => ?_) fun hdaemon => Spec.ite (fun hw => ?_) fun hdhcp =>
    Spec.ite (fun hw => ?_) fun hadapter => ?_)
  · have hw : w = s.get .relay := hw
    subst hw
    refine Spec.bind (Spec.update fun s' e => ?_) fun _ => hpure flags
    subst e
    exact hs.step (fun _ => id) fun h => h.clear hg (.inl rfl)
  · have hw : w = s.agent := hw
    subst hw
    refine Spec.bind (spec_heldRestart rfl (hs.step (fun _ => id) fun h => ?_)) fun _ => hpure flags
    obtain ⟨hheld, hlink⟩ := h.agent_gone hg
    exact ⟨hheld, by simpa [hlink] using h.flagged⟩
  · have hw : w = s.up.daemon := hw
    subst hw
    refine Spec.bind (Q := fun _ s' => ∀ flags' : Flags,
      (flags'.lostLink = true ∨ flags'.provisioned = true) → Kept (Reaping flags') s')
      (Spec.update fun s' e => ?_) fun _ => ?_
    · subst e
      exact fun flags' hflags => hs.step (fun _ => id) fun h => h.clear_daemon hg hflags
    have hdone : ∀ flags' : Flags, (flags'.lostLink = true ∨ flags'.provisioned = true) →
        Spec (fun s' => ∀ flags' : Flags, (flags'.lostLink = true ∨ flags'.provisioned = true) →
          Kept (Reaping flags') s') (pure flags' : Init Flags) (Kept Told)
          (fun flags' => Kept (Reaping flags')) :=
      fun flags' hflags => Spec.pure fun s' h => h flags' hflags
    refine Spec.ite (fun _ => Spec.ite (fun _ => hdone _ (.inr rfl)) fun _ => ?_) fun _ =>
      hdone _ (.inl rfl)
    refine Spec.bind (asks_networksChanged.spec fun s' h => ?_) fun _ => ?_
    · exact (h ⟨true, true⟩ (.inl rfl)).imp fun hs => hs.held.told
    · exact Spec.ite (fun _ => hdone _ (.inr rfl)) fun _ => hdone _ (.inl rfl)
  · have hw : w = s.get .dhcp := hw
    subst hw
    refine Spec.bind (Spec.update fun s' e => ?_) fun _ => hpure flags
    subst e
    exact hs.step (fun _ => id) fun h => h.clear hg (.inr rfl)
  · obtain ⟨y, hy, rfl⟩ : ∃ y : Slot, y.adapter = true ∧ w = s.get y := by
      rcases hw with hw | hw
      · exact ⟨.bluetoothd, rfl, hw⟩
      · exact ⟨.dbus, rfl, hw⟩
    refine Spec.bind (Spec.update fun s' e => ?_) fun _ => hpure _
    subst e
    exact hs.step (fun _ he => List.mem_append_left _ he) fun h => h.adapter_gone hg hy hagent
  · refine Spec.pure fun s' e => ?_
    subst e
    refine hs.step (fun _ => id) fun h => h.other_gone fun x hx => ?_
    subst hx
    cases x with
    | relay => exact hrelay rfl
    | agent => exact hagent rfl
    | daemon => exact hdaemon rfl
    | dhcp => exact hdhcp rfl
    | bluetoothd => exact hadapter (.inl rfl)
    | dbus => exact hadapter (.inr rfl)
    | helper =>
      have : s.get .helper ≤ 0 := h.held.helper
      omega

theorem spec_heldReapLoop :
    Spec (Kept fun s => Held .serving s ∧ ¬ s.owed = true) reapLoop (Kept Told)
    (fun flags => Kept (Reaping flags)) := by
  refine (Spec.loop (J := fun flags => Kept (Reaping flags)) ?_ (fun flags => ?_) _).mono ?_
    (fun _ h => h) (fun _ _ h => h)
  · exact fun _ s h => h.imp fun hs => hs.held.told
  · refine Spec.bind (Q := fun r s' => (r = none → Kept (Reaping flags) s') ∧
        ∀ w st, r = some (w, st) → ∃ s g, s.children.program w = some g ∧ Kept (Reaping flags) s ∧
          s' = { s.reap w with owed := s.owed || s.linkProcess w g }) ?_ fun r => ?_
    · refine reapAny_spec (fun s h => h.imp fun hs => hs.held.told) (fun s h => ⟨fun _ => h, nofun⟩)
        (fun s w st g h hg => ⟨nofun, ?_⟩)
      rintro w' st' ⟨⟩
      exact ⟨s, g, hg, h, rfl⟩
    · rcases r with _ | ⟨w, st⟩
      · exact Spec.pure fun s h => h.1 rfl
      · refine Spec.bind (Q := fun flags => Kept (Reaping flags)) ?_ fun _ => Spec.pure fun s h => h
        intro s' as h
        obtain ⟨s, g, hg, hs, rfl⟩ := h.2 w st rfl
        exact spec_heldOnReaped hg hs _ as rfl
  · exact fun s h => h.imp fun hs => ⟨hs.1.reaping, fun howed => absurd howed hs.2⟩

/-! ## `switch_root` -/

theorem Kept.told {l : Level} {s : State} (h : Kept (Held l) s) : Kept Told s :=
  h.imp fun hs => hs.told

theorem spec_heldDropAgent : Spec (Kept (Held ⟨true, c, d⟩)) dropAgent (Kept Told)
    (fun _ => Kept (Held ⟨false, c, d⟩)) := by
  refine Spec.bind (Q := fun p s => s.agent = p ∧ Kept (Held ⟨true, c, d⟩) s)
    (Spec.read fun s h => ⟨rfl, h⟩) fun p => ?_
  refine Spec.bind spec_heldReapAgent fun _ => Spec.ite (fun _ => Spec.update fun s h => ?_)
    fun _ => Spec.pure fun s h => h.2
  exact h.2.step (fun _ => id) fun hs => hs.unstarted.without_agent (by decide : (-1 : Int) ≤ 0)

theorem spec_heldNote : Spec (Kept (Held ⟨true, c, d⟩)) noteRelaunch (Kept Told)
    (fun _ => Kept (Held ⟨true, c, d⟩)) := by
  refine Spec.bind ((asks_read _).spec fun s h => h.told) fun _ => ?_
  refine Spec.ite (fun _ => ?_) fun _ => ?_
  · refine Spec.update fun s h => h.step (fun _ he => List.mem_append_left _ he) fun hs => ?_
    exact hs.log (fun u e => by cases e) (fun e => by cases e)
  · exact Spec.pure fun s h => h

theorem spec_heldSwitchRoot : Spec (Kept (Held ⟨true, c, d⟩)) switchRoot (Kept Told)
    (fun _ => Kept (Held ⟨true, c, d⟩)) := by
  refine Spec.bind (asks_text.spec fun s h => h.told) fun req => ?_
  cases req with
  | none => exact Spec.pure fun s h => h
  | some req =>
    refine Spec.bind (asks_yes.spec fun s h => h.told) fun _ => Spec.ite (fun _ => ?_) fun _ =>
      Spec.pure fun s h => h
    refine Spec.bind spec_heldDropAgent fun _ => ?_
    refine Spec.bind (asks_yes.spec fun s h => h.told) fun _ => Spec.ite (fun _ => ?_) fun _ => ?_
    · refine Spec.bind (asks_yes.spec fun s h => h.told) fun _ => Spec.ite (fun _ => ?_) fun _ => ?_
      · exact Spec.halt fun s h => h.told
      · exact Spec.hang fun s h => h.told
    · refine Spec.bind (Q := fun av s => s.av = av ∧ Kept (Held ⟨false, c, d⟩) s)
        (Spec.read fun s h => ⟨rfl, h⟩) fun av => ?_
      exact Spec.bind spec_heldStart fun _ => spec_heldNote

/-- When `switch_root` comes back, either nothing is owed and no variable is stale, or that is on
record. -/
theorem Held.switched {s : State} (h : Kept (Held .reaping) s) :
    Kept (Held .serving) (s.log (.switchReturned s.owed)) := by
  rintro ⟨e, he, hnot⟩
  have hnot' : e ∉ s.trace := fun hmem => hnot (List.mem_append_left _ hmem)
  have hheld := h ⟨e, he, hnot'⟩
  have hlog : Held .reaping (s.log (.switchReturned s.owed)) :=
    hheld.log (fun u e => by cases e) (fun e => by cases e)
  have hfresh : ∀ x, ¬ Stale .reaping (s.log (.switchReturned s.owed)) x := by
    intro x hs
    have howed : s.owed = true := hs.owed
    rcases List.mem_cons.mp he with rfl | he
    · exact hnot hs.logged
    · rw [List.mem_singleton.mp he, howed] at hnot
      exact hnot (by simp [State.log])
  refine ⟨hlog.holds, fun x hx => .inl ((hlog.adapter x hx).resolve_right (hfresh x)), hlog.helper,
    hlog.av, hlog.told, fun _ howed => ?_⟩
  have howed : s.owed = true := howed
  rw [howed]
  simp [State.log]

/-! ## Leaving Bluetooth -/

/-- While `promote_from_ble` has the helper's pid in a variable of its own. -/
structure Moving (s : State) : Prop where
  fields : Fields true s
  av : Program.of s.av = .agent
  told : Told s
  paid : s.owed = true → .switchReturned true ∈ s.trace

theorem Slot.runs_helper (g : Program) : Slot.helper.runs g = Slot.daemon.runs g := by
  cases g <;> rfl

theorem Held.moving {s : State} (h : Held .serving s) :
    Moving ((s.set .helper s.up.daemon).set .daemon (-1)) := by
  have hfields := h.fields rfl
  refine ⟨⟨fun x _ => ?_, ?_⟩, h.av, ⟨h.told.uses, h.told.ended⟩, h.paid rfl⟩
  · cases x with
    | daemon => exact .inl (show (-1 : Int) ≤ 0 by decide)
    | helper =>
      refine (hfields.holds .daemon (by simp)).imp (fun h => h) ?_
      rintro ⟨g, hg, hrun⟩
      exact ⟨g, hg, (Slot.runs_helper g).trans hrun⟩
    | _ => exact ((hfields.holds _ fun _ => rfl).set (by decide) _).set (by decide) _
  · by_cases hle : s.up.daemon ≤ 0
    · exact .inl hle
    · refine .inr fun e => hle ?_
      have : s.up.daemon = -1 := e
      omega

theorem Moving.held {s : State} (h : Moving s) (hhelper : s.helper ≤ 0) : Held .serving s :=
  ⟨fun x _ hx => h.fields.holds x hx, fun x _ => .inl (h.fields.holds x fun _ => rfl), hhelper,
    h.av, h.told, fun _ => h.paid⟩

/-- The helper goes on as the link's daemon. -/
theorem Moving.back {s : State} (h : Moving s) :
    Held .serving ((s.set .daemon s.helper).set .helper (-1)) := by
  have hholds : ∀ x, ((s.set .daemon s.helper).set .helper (-1)).Holds x := by
    intro x
    cases x with
    | helper => exact .inl (show (-1 : Int) ≤ 0 by decide)
    | daemon =>
      refine (h.fields.holds .helper (by simp)).imp (fun h => h) ?_
      rintro ⟨g, hg, hrun⟩
      exact ⟨g, hg, (Slot.runs_helper g).symm.trans hrun⟩
    | _ => exact ((h.fields.holds _ fun _ => rfl).set (by decide) _).set (by decide) _
  exact ⟨fun x _ _ => hholds x, fun x _ => .inl (hholds x), (by decide : (-1 : Int) ≤ 0), h.av,
    ⟨h.told.uses, h.told.ended⟩, fun _ => h.paid⟩

theorem spec_moving {α : Type} {p : Init α} (hp : Low true p) :
    Spec (Kept Moving) p (Kept Told) (fun _ => Kept Moving) := by
  have hstep : ∀ s s', Moving s → Keeps true s s' → Moving s' := by
    intro s s' h hk
    obtain ⟨es, htrace, -, hfields⟩ := hk.trace
    refine ⟨(hfields h.fields).1, hk.frame.av ▸ h.av, hk.told h.told (.inl h.fields),
      fun howed => ?_⟩
    exact hk.subset _ (h.paid (hk.frame.owed ▸ howed))
  refine hp.spec ?_ ?_
  · exact fun s s' h hk => h.step hk.subset fun hs => (hstep s s' hs hk).told
  · exact fun _ s s' h hk => h.step hk.subset fun hs => hstep s s' hs hk

theorem spec_stopHelper :
    Spec (Kept Moving) (stop .helper) (Kept Told) (fun _ => Kept (Held .serving)) := by
  have hclear : Spec (fun _ => True) (stop .helper) (fun _ => True)
      (fun _ s => True ∧ s.get .helper ≤ 0) :=
    stop_keeps (fun _ _ h => h) (fun _ h => h) (fun _ h => h)
  refine ((spec_moving (low_stop rfl)).and hclear).mono (fun _ h => ⟨h, trivial⟩)
    (fun _ h => h.1) ?_
  exact fun _ s h => h.1.imp fun hs => hs.held h.2.2

theorem spec_heldPromote : Spec (Kept (Held .serving)) (promoteFromBle cmdline) (Kept Told)
    (fun _ => Kept (Held .serving)) := by
  refine Spec.bind (Q := fun _ => Kept Moving) (Spec.update fun s h => ?_) fun _ => ?_
  · exact h.step (fun _ => id) fun hs => hs.moving
  refine Spec.bind (spec_moving (asks_read _).low) fun _ => ?_
  refine Spec.bind (spec_moving low_coldplug) fun _ => ?_
  refine Spec.bind (spec_moving (low_ipLink cmdline)) fun _ => Spec.ite (fun _ => ?_) fun _ => ?_
  · have hstop : ∀ x : Slot, x.low = true → Spec (Kept (Held .serving)) (stop x) (Kept Told)
        (fun _ => Kept (Held .serving)) := fun x hx => spec_low rfl (low_stop hx)
    refine Spec.bind (Spec.bind spec_stopHelper fun _ => Spec.bind (hstop _ rfl) fun _ =>
      hstop _ rfl) fun _ => ?_
    refine Spec.bind ((asks_read _).spec fun s h => h.told) fun _ => Spec.ite (fun _ => ?_) fun _ =>
      Spec.pure fun s h => h
    exact Spec.bind ((asks_networksChangedFrom _).spec fun s h => h.told) fun _ =>
      Spec.pure fun s h => h
  · refine Spec.bind (spec_moving (low_setUp fun _ => ⟨rfl, rfl, rfl, rfl⟩)) fun _ => ?_
    refine Spec.bind (Q := fun _ => Kept (Held .serving)) (Spec.update fun s h => ?_) fun _ =>
      Spec.pure fun s h => h
    exact h.step (fun _ => id) fun hs => hs.back

theorem Held.forget {s : State} (h : Held ⟨true, true, d⟩ s) : Held ⟨false, true, d⟩ s :=
  ⟨fun x hx _ => h.holds x hx fun _ => rfl, fun x _ => .inl ((h.fields rfl).holds x fun _ => rfl),
    h.helper, h.av, h.told, h.paid⟩

theorem spec_heldRetryBle : Spec (Kept (Held .serving)) (retryBle cmdline) (Kept Told)
    (fun _ => Kept (Held .serving)) := by
  refine Spec.bind (spec_low rfl low_setRetry) fun _ => ?_
  refine Spec.bind (spec_heldPromote cmdline) fun outcome => ?_
  cases outcome with
  | credentials => exact spec_heldRelink cmdline
  | promoted =>
    refine Spec.bind (Q := fun _ => Kept (Held ⟨false, true, true⟩)) (Spec.update fun s h => ?_)
      fun _ => Spec.bind (Spec.read fun s h => ⟨rfl, h⟩) fun av => spec_heldStart
    exact h.step (fun _ => id) fun hs => hs.forget.setArgv cmdline
  | failed => exact Spec.pure fun s h => h

/-! ## One iteration -/

theorem spec_heldRetry : Spec (Kept (Held .serving)) (retry cmdline) (Kept Told)
    (fun _ => Kept (Held .serving)) := by
  have hble : Asks bleDue := by
    refine asks_bind (asks_read _) fun _ => Stays.ite (fun _ => asks_retryDue) fun _ => asks_pure _
  refine Spec.bind (hble.spec fun s h => h.told) fun _ => Spec.ite (fun _ => ?_) fun _ => ?_
  · exact spec_heldRetryBle cmdline
  refine Spec.bind (asks_retryDue.spec fun s h => h.told) fun _ => Spec.ite (fun _ => ?_) fun _ =>
    Spec.pure fun s h => h
  refine Spec.bind (asks_linkLost.spec fun s h => h.told) fun _ => Spec.ite (fun _ => ?_) fun _ =>
    Spec.pure fun s h => h
  exact Spec.bind (spec_heldRelink cmdline) fun _ => spec_low rfl low_setRetry

theorem Reaping.serving {flags : Flags} {s : State} (h : Reaping flags s)
    (hlost : ¬ flags.lostLink = true) (hprovisioned : ¬ flags.provisioned = true) :
    Held .serving s := by
  have howed : ¬ s.owed = true := fun howed => (h.flagged howed).elim hlost hprovisioned
  refine ⟨h.held.holds, fun x hx => .inl ((h.held.adapter x hx).resolve_right ?_), h.held.helper,
    h.held.av, h.held.told, fun _ e => absurd e howed⟩
  exact fun hs => howed hs.owed

theorem spec_heldHandle (flags : Flags) : Spec (Kept (Reaping flags)) (handle cmdline flags)
    (Kept Told) (fun _ => Kept (Held .serving)) := by
  have htold : ∀ s, Kept (Reaping flags) s → Kept Told s := fun s h => h.imp fun hs => hs.held.told
  have hrelink : Spec (Kept (Reaping flags)) (relink cmdline) (Kept Told)
      (fun _ => Kept (Held .serving)) :=
    (spec_heldRelink cmdline).mono (fun s h => h.imp fun hs => hs.held) (fun _ h => h)
      (fun _ _ h => h)
  refine Spec.bind (asks_yes.spec htold) fun _ => Spec.ite (fun _ => ?_) fun _ => ?_
  · refine Spec.bind (spec_heldSwitchRoot.mono (fun s h => h.imp fun hs => hs.held) (fun _ h => h)
      (fun _ _ h => h)) fun _ => ?_
    intro s as hs
    have hlog : Spec (· = s) (log (.switchReturned s.owed)) (Kept Told)
        (fun _ => Kept (Held .serving)) :=
      Spec.update fun s' e => by
        subst e
        exact Held.switched hs
    exact Spec.bind_read hlog s as rfl
  · refine Spec.bind (asks_newCredentials.spec htold) fun _ => ?_
    refine Spec.ite (fun _ => hrelink) fun _ => ?_
    refine Spec.ite (fun _ => hrelink) fun hprovisioned => ?_
    refine Spec.ite (fun _ => hrelink) fun hlost => ?_
    exact (spec_heldRetry cmdline).mono (fun s h => h.imp fun hs => hs.serving hlost hprovisioned)
      (fun _ h => h) (fun _ _ h => h)

theorem spec_heldKeepRelay : Spec (Kept (Held .serving)) keepRelay (Kept Told)
    (fun _ => Kept (Held .serving)) := by
  refine Spec.bind ((asks_read _).spec fun s h => h.told) fun _ => Spec.ite (fun _ => ?_) fun _ =>
    Spec.pure fun s h => h
  refine Spec.bind (Q := fun p s => Kept (Held .serving) (s.set .relay p)) ?_ fun p =>
    Spec.update fun s h => h
  have hstep : ∀ {s s' : State}, Held .serving s → Fields true s' → s'.helper = s.helper →
      s'.av = s.av → s'.owed = s.owed → s'.trace = s.trace → Held .serving s' := by
    intro s s' h hfields hhelper hav howed htrace
    refine ⟨fun x _ hx => hfields.holds x hx, fun x _ => .inl (hfields.holds x fun _ => rfl),
      hhelper ▸ h.helper, hav ▸ h.av, ⟨htrace ▸ h.told.uses, htrace ▸ h.told.ended⟩, ?_⟩
    rw [howed, htrace]
    exact h.paid
  refine forkAs_spec (fun s h => h.told) ?_ ?_
  · exact fun s h => h.step (fun _ => id) fun hs =>
      hstep hs ((hs.fields rfl).set_neg .relay) rfl rfl rfl rfl
  · exact fun s p hp h hfree => h.step (fun _ => id) fun hs =>
      hstep hs ((hs.fields rfl).spawned hp hfree rfl (by decide)) rfl rfl rfl rfl

theorem spec_heldKeepAgent : Spec (Kept (Held .serving)) keepAgent (Kept Told)
    (fun _ => Kept (Held .serving)) := by
  refine Spec.bind (Q := fun s₀ s => s₀ = s ∧ Kept (Held .serving) s)
    (Spec.read fun s h => ⟨rfl, h⟩) fun s₀ =>
      Spec.ite (fun _ => ?_) fun _ => Spec.pure fun s h => h.2
  refine spec_heldStart.mono ?_ (fun _ h => h) (fun _ _ h => h)
  rintro s ⟨rfl, h⟩
  exact ⟨rfl, h.imp fun hs => hs.forget⟩

/-- Nothing is owed before children are reaped. -/
theorem owed_keepRelay : Spec (fun s => s.owed = false) keepRelay (fun _ => True)
    (fun _ s => s.owed = false) := by
  refine Spec.bind ((asks_read _).spec fun _ _ => trivial) fun _ => Spec.ite (fun _ => ?_) fun _ =>
    Spec.pure fun s h => h
  refine Spec.bind (Q := fun _ s => s.owed = false) ?_ fun p => Spec.update fun s h => h
  exact forkAs_spec (fun _ _ => trivial) (fun s h => h) (fun s p hp h _ => h)

theorem owed_keepAgent : Spec (fun s => s.owed = false) keepAgent (fun _ => True)
    (fun _ s => s.owed = false) := by
  refine Spec.bind ((asks_read _).spec fun _ _ => trivial) fun s₀ => Spec.ite (fun _ => ?_) fun _ =>
    Spec.pure fun s h => h
  exact (same_assignSpawn .agent s₀.av).spec (fun _ _ _ _ => trivial)
    (fun _ _ _ hs h => h.1.trans hs)

theorem spec_heldIteration : Spec (Kept (Held ⟨true, true, d⟩)) (iteration cmdline) (Kept Told)
    (fun _ => Kept (Held .serving)) := by
  refine Spec.bind (Q := fun _ s => Kept (Held .serving) s ∧ s.owed = false)
    (Spec.update fun s h => ⟨h.step (fun _ => id) fun hs => hs.settle, rfl⟩) fun _ => ?_
  refine Spec.bind ((spec_heldKeepRelay.and owed_keepRelay).mono (fun _ h => h) (fun _ h => h.1)
    (fun _ _ h => h)) fun _ => ?_
  refine Spec.bind ((spec_heldKeepAgent.and owed_keepAgent).mono (fun _ h => h) (fun _ h => h.1)
    (fun _ _ h => h)) fun _ => ?_
  refine Spec.bind (spec_heldReapLoop.mono (fun s h => ?_) (fun _ h => h) (fun _ _ h => h))
    fun flags => ?_
  · exact h.1.imp fun hs => ⟨hs, by simp [h.2]⟩
  refine Spec.bind (spec_heldHandle cmdline flags) fun _ => ?_
  refine Spec.bind (Q := fun owed s => s.owed = owed ∧ Kept (Held .serving) s)
    (Spec.read fun s h => ⟨rfl, h⟩) fun owed => ?_
  refine Spec.bind (Q := fun _ => Kept (Held .serving)) (Spec.update ?_) fun _ =>
    asks_sleep.spec fun s h => h.told
  rintro s ⟨rfl, h⟩
  refine h.step (fun _ he => List.mem_append_left _ he) fun hs => ?_
  refine hs.log (fun u e => by cases e) fun e => hs.paid rfl ?_
  injection e

theorem Booted.fields {s : State} (h : Booted s) : Fields false s := by
  refine ⟨fun x hx => ?_, .inl (h.helper ▸ by decide : s.helper ≤ 0)⟩
  cases x with
  | relay =>
    rcases h.relay with hnone | hrelay
    · exact .inl (hnone ▸ by decide : s.relayPid ≤ 0)
    · exact .inr ⟨.relay, hrelay, rfl⟩
  | agent => cases hx rfl
  | helper => exact .inl (h.helper ▸ by decide : s.helper ≤ 0)
  | _ => exact .inl (by simp [State.get, h.up, Link.down])

theorem Booted.told {s : State} (h : Booted s) : Told s := by
  constructor <;> simp [h.trace]

theorem spec_heldMain : Spec Booted (main cmdline) (Kept Told) (fun _ _ => True) := by
  have hup : ∀ s s', Booted s → Keeps false s s' → Fields false s' ∧ Told s' ∧ s'.helper ≤ 0 := by
    intro s s' h hk
    obtain ⟨es, -, -, hfields⟩ := hk.trace
    exact ⟨(hfields h.fields).1, hk.told h.told (.inl h.fields),
      hk.frame.helper (h.helper ▸ by decide)⟩
  refine Spec.bind (Q := fun _ s => Fields false s ∧ Told s ∧ s.helper ≤ 0) ?_ fun _ => ?_
  · exact (low_bringUp cmdline).spec (fun s s' h hk _ => (hup s s' h hk).2.1)
      (fun _ s s' h hk => hup s s' h hk)
  refine Spec.bind (Q := fun _ => Kept (Held ⟨false, true, false⟩)) (Spec.update ?_) fun _ => ?_
  · rintro s ⟨hfields, htold, hhelper⟩ -
    refine ⟨fun x _ hx => hfields.holds x hx, fun x hx => .inl (hfields.holds x ?_), hhelper,
      agentArgv_program cmdline s.up, ⟨htold.uses, htold.ended⟩, fun e => by cases e⟩
    exact fun e => absurd e (Slot.adapter_ne hx rfl)
  refine Spec.bind spec_heldLaunch fun _ => ?_
  refine Spec.bind (spec_low rfl low_setRetry) fun _ => ?_
  refine Spec.loop (J := fun _ => Kept (Held ⟨true, true, false⟩)) (fun _ s h => h.told)
    (fun _ => ?_) ()
  refine Spec.bind (spec_heldIteration cmdline) fun _ => ?_
  exact Spec.pure fun s h => h.imp fun hs => hs.unpaid

/-! ## Over every run -/

variable {s₀ s : State}

/-- As long as the supervision loop has not reaped `bluetoothd` or `dbus-daemon`, a variable that
`stop`, `kill` or `waitpid` looks at is not positive or holds an unreaped child; only the
`waitpid` after the loop of a `stop` asks about the child that this very loop has reaped. -/
theorem uses_unreaped (hboot : Booted s₀) (hreached : Reached cmdline s₀ s)
    (hbluetooth : .bluetoothReaped ∉ s.trace) {u : Use} (hu : .use u ∈ s.trace) :
    (u.pid ≤ 0 ∨ u.unreaped = true) ∨ u.reader = .recheck true := by
  have htold : Told s :=
    hreached.of_spec (spec_heldMain cmdline) hboot ⟨_, List.mem_cons_self, hbluetooth⟩
  rcases htold.uses u hu with hfine | hstop | hlog
  · exact .inl hfine
  · exact .inr hstop
  · exact absurd hlog hbluetooth

/-- Both daemons of the adapter are stopped alive when provisioning has succeeded. -/
theorem uses_unreaped_provisioned : ∃ s, Reached bleCmdline .fresh s ∧
    .use ⟨.kill, 3, true⟩ ∈ s.trace ∧ ∀ u, .use u ∈ s.trace →
      (u.pid ≤ 0 ∨ u.unreaped = true) ∨ u.reader = .recheck true := by
  have hrun : (main bleCmdline .fresh provisioning).waitsIn
      (fun s => .use ⟨.kill, 3, true⟩ ∈ s.trace ∧ .bluetoothReaped ∉ s.trace) = true := by
    decide +kernel
  obtain ⟨s, hs, htest⟩ := Reached.of_waitsIn hrun
  obtain ⟨hkill, hbluetooth⟩ := of_decide_eq_true htest
  exact ⟨s, hs, hkill, fun u hu => uses_unreaped bleCmdline booted_fresh hs hbluetooth hu⟩

/-- `bluetoothd` dies while the machine is being provisioned. The loop reaps it and leaves its pid
in the variable, so the `relink` that follows sends a signal to a pid that init has given back. -/
theorem reaped_bluetoothd_killed : ∃ s, Reached bleCmdline .fresh s ∧
    .use ⟨.kill, 3, false⟩ ∈ s.trace := by
  have hrun : (main bleCmdline .fresh (bleBoot ++ [.child (some (3, 1)), .child none, .yes false,
      .waited true, .waited true])).waitsIn (fun s => .use ⟨.kill, 3, false⟩ ∈ s.trace) = true := by
    decide +kernel
  obtain ⟨s, hs, htest⟩ := Reached.of_waitsIn hrun
  exact ⟨s, hs, of_decide_eq_true htest⟩

/-- As long as `switch_root` has not come back in an iteration that reaped a process of the link,
no iteration has ended with the event unanswered. -/
theorem events_answered (hboot : Booted s₀) (hreached : Reached cmdline s₀ s)
    (hswitch : .switchReturned true ∉ s.trace) : .ended true ∉ s.trace := by
  have htold : Told s :=
    hreached.of_spec (spec_heldMain cmdline) hboot ⟨_, by simp, hswitch⟩
  exact fun hended => hswitch (htold.ended hended)

/-- The success of the provisioning helper is reaped, and answered. -/
theorem events_answered_provisioned : ∃ s, Reached bleCmdline .fresh s ∧
    s.children.program 4 = none ∧ .ended false ∈ s.trace ∧ .ended true ∉ s.trace := by
  have hrun : (main bleCmdline .fresh provisioning).waitsIn
      (fun s => s.children.program 4 = none ∧ .ended false ∈ s.trace ∧
        .switchReturned true ∉ s.trace) = true := by
    decide +kernel
  obtain ⟨s, hs, htest⟩ := Reached.of_waitsIn hrun
  obtain ⟨hgone, hended, hswitch⟩ := of_decide_eq_true htest
  exact ⟨s, hs, hgone, hended, events_answered bleCmdline booted_fresh hs hswitch⟩

/-- The provisioning helper succeeds in the second in which a request to switch root is refused:
the iteration ends without a `relink`, and the link is Bluetooth without its helper. -/
theorem provisioning_forgotten : ∃ s, Reached bleCmdline .fresh s ∧ .ended true ∈ s.trace ∧
    s.up.kind = .ble ∧ s.up.daemon = -1 := by
  have hrun : (main bleCmdline .fresh (bleBoot ++ [.child (some (4, 0)), .child none, .yes true,
      .text (some "/newroot /sbin/init".toList), .yes false])).waitsIn
      (fun s => .ended true ∈ s.trace ∧ s.up.kind = .ble ∧ s.up.daemon = -1) = true := by
    decide +kernel
  obtain ⟨s, hs, htest⟩ := Reached.of_waitsIn hrun
  exact ⟨s, hs, of_decide_eq_true htest⟩

end Egdod.Boot
