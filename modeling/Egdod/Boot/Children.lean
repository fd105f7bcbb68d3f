import Egdod.Boot.Init

/-! What the functions below the supervision loop do to the children and to
the variables that hold their pids. `Keeps` says it once for all of them: the
variables of the loop are left alone, no agent is started, and if every
variable held a child before, then every variable does so after and no pid
was looked at that had been reaped. -/
namespace Egdod.Boot

open Asking

/-! ## Calls of the kernel -/

theorem poll_spec {p : Int} {P I : State → Prop} {Q : Int → State → Prop}
    (hI : ∀ s, P s → s.children.program p ≠ none → I s)
    (hnone : ∀ s, P s → s.children.program p = none → Q (-1) s)
    (hdead : ∀ s, P s → s.children.program p ≠ none →
      Q p (s.reap p))
    (halive : ∀ s, P s → s.children.program p ≠ none → Q 0 s) : Spec P (poll p) I Q := by
  refine Spec.bind (Q := fun c s => P s ∧ s.children.program p = c) (Spec.read fun s h => ⟨h, rfl⟩)
    fun c => ?_
  refine Spec.ite (fun hc => ?_) (fun hc => ?_)
  · exact Spec.pure fun s h => hnone s h.1 (h.2.trans hc)
  · refine Spec.ask (fun s h => hI s h.1 (h.2 ▸ hc)) ?_
    rintro s a x s' ⟨hP, rfl⟩ hf
    split at hf
    · cases hf
      exact hdead s hP hc
    · cases hf
      exact halive s hP hc
    · cases hf

theorem await_spec {p : Int} {P I : State → Prop} {Q : Nat → State → Prop}
    (hI : ∀ s, P s → s.children.program p ≠ none → I s)
    (hnone : ∀ s, P s → s.children.program p = none → Q 0 s)
    (hdead : ∀ s st, P s → s.children.program p ≠ none →
      Q st (s.reap p)) : Spec P (await p) I Q := by
  refine Spec.bind (Q := fun c s => P s ∧ s.children.program p = c) (Spec.read fun s h => ⟨h, rfl⟩)
    fun c => ?_
  refine Spec.ite (fun hc => ?_) (fun hc => ?_)
  · exact Spec.pure fun s h => hnone s h.1 (h.2.trans hc)
  · refine Spec.ask (fun s h => hI s h.1 (h.2 ▸ hc)) ?_
    rintro s a x s' ⟨hP, rfl⟩ hf
    split at hf
    · cases hf
      exact hdead s _ hP hc
    · cases hf

theorem forkAs_spec {g : Program} {P I : State → Prop} {Q : Int → State → Prop}
    (hI : ∀ s, P s → I s) (hfail : ∀ s, P s → Q (-1) s)
    (hborn : ∀ s p (hp : 0 < p), P s → s.children.program p = none →
      Q p (s.born p g hp)) : Spec P (forkAs g) I Q := by
  refine Spec.ask hI ?_
  intro s a x s' hP hf
  split at hf
  · cases hf
    exact hfail s hP
  · split at hf
    case isTrue h =>
      cases hf
      exact hborn s _ h.1 hP h.2
    case isFalse => cases hf
  · cases hf

theorem reapAny_spec {P I : State → Prop} {Q : Option (Int × Nat) → State → Prop}
    (hI : ∀ s, P s → I s) (hnone : ∀ s, P s → Q none s)
    (hdead : ∀ s w st g, P s → s.children.program w = some g →
      Q (some (w, st)) { s.reap w with owed := s.owed || s.linkProcess w g }) :
    Spec P reapAny I Q := by
  refine Spec.ask hI ?_
  intro s a r s' hP hf
  split at hf
  case h_1 =>
    cases hf
    exact hnone s hP
  case h_2 w st =>
    cases hg : s.children.program w with
    | none => simp [hg] at hf
    | some g =>
      rw [hg] at hf
      cases hf
      exact hdead s w st g hP hg
  case h_3 => cases hf

/-! ## Variables -/

@[simp] theorem get_set (s : State) (x y : Slot) (p : Int) :
    (s.set x p).get y = if y = x then p else s.get y := by
  cases x <;> cases y <;> rfl

@[simp] theorem children_set (s : State) (x : Slot) (p : Int) :
    (s.set x p).children = s.children := by
  cases x <;> rfl

@[simp] theorem trace_set (s : State) (x : Slot) (p : Int) : (s.set x p).trace = s.trace := by
  cases x <;> rfl

@[simp] theorem owed_set (s : State) (x : Slot) (p : Int) : (s.set x p).owed = s.owed := by
  cases x <;> rfl

@[simp] theorem av_set (s : State) (x : Slot) (p : Int) : (s.set x p).av = s.av := by
  cases x <;> rfl

@[simp] theorem get_reap (s : State) (p : Int) (x : Slot) : (s.reap p).get x = s.get x := by
  cases x <;> rfl

@[simp] theorem get_born (s : State) (p : Int) (g : Program) (h : 0 < p) (x : Slot) :
    (s.born p g h).get x = s.get x := by
  cases x <;> rfl

@[simp] theorem get_log (s : State) (e : Event) (x : Slot) : (s.log e).get x = s.get x := by
  cases x <;> rfl

theorem set_log (s : State) (e : Event) (x : Slot) (p : Int) :
    (s.log e).set x p = (s.set x p).log e := by
  cases x <;> rfl

@[simp] theorem children_log (s : State) (e : Event) : (s.log e).children = s.children := rfl

theorem program_reap {s : State} {p q : Int} (h : q ≠ p) :
    (s.reap p).children.program q = s.children.program q := by
  simp [State.reap, Children.reap, h]

theorem program_reap_self (s : State) (p : Int) : (s.reap p).children.program p = none := by
  simp [State.reap, Children.reap]

theorem program_born {s : State} {p q : Int} {g : Program} {hp : 0 < p} (h : q ≠ p) :
    (s.born p g hp).children.program q = s.children.program q := by
  simp [State.born, Children.add, h]

theorem program_born_self (s : State) (p : Int) (g : Program) (hp : 0 < p) :
    (s.born p g hp).children.program p = some g := by
  simp [State.born, Children.add]

/-- The programs a variable may hold a child of. -/
def Slot.runs : Slot → Program → Bool
  | .relay, .relay => true
  | .agent, .agent => true
  | .daemon, .wpaSupplicant | .daemon, .hostapd | .daemon, .ble => true
  | .dhcp, .udhcpc => true
  | .dbus, .dbus => true
  | .bluetoothd, .bluetoothd => true
  | .helper, .wpaSupplicant | .helper, .hostapd | .helper, .ble => true
  | _, _ => false

theorem Slot.runs_apart {x y : Slot} {g : Program} (hx : x.runs g = true) (hy : y.runs g = true) :
    x = y ∨ (x = .daemon ∧ y = .helper) ∨ (x = .helper ∧ y = .daemon) := by
  cases x <;> cases y <;> cases g <;> simp_all [Slot.runs]

/-- The variable is not positive, or holds a child that has not been reaped. -/
def State.Holds (s : State) (x : Slot) : Prop :=
  s.get x ≤ 0 ∨ ∃ g, s.children.program (s.get x) = some g ∧ x.runs g = true

/-- Every variable holds its child; the agent's is only asked for with `b`. -/
structure Fields (b : Bool) (s : State) : Prop where
  holds : ∀ x, (x = .agent → b = true) → s.Holds x
  apart : s.get .helper ≤ 0 ∨ s.get .helper ≠ s.get .daemon

/-- Two variables that hold the same child are the same. -/
theorem Fields.inj {b : Bool} {s : State} (h : Fields b s) {x y : Slot} {p : Int} {g : Program}
    (hp : 0 < p) (hx : s.get x = p) (hy : s.get y = p) (hg : s.children.program p = some g)
    (hxg : x.runs g = true) (hyb : y = .agent → b = true) : x = y := by
  rcases h.holds y hyb with hle | ⟨g', hg', hyg⟩
  · omega
  · rw [hy, hg] at hg'
    cases hg'
    rcases Slot.runs_apart hxg hyg with rfl | ⟨rfl, rfl⟩ | ⟨rfl, rfl⟩
    · rfl
    · rcases h.apart with hle | hne
      · omega
      · exact absurd (hy.trans hx.symm) hne
    · rcases h.apart with hle | hne
      · omega
      · exact absurd (hx.trans hy.symm) hne

theorem Fields.set_neg {b : Bool} {s : State} (h : Fields b s) (x : Slot) :
    Fields b (s.set x (-1)) where
  holds y hy := by
    unfold State.Holds
    simp only [get_set, children_set]
    split
    · exact .inl (by decide)
    · exact h.holds y hy
  apart := by
    simp only [get_set]
    rcases h.apart with hle | hne
    · left
      split
      · decide
      · exact hle
    · split
      · exact .inl (by decide)
      · split
        · by_cases hle : s.get .helper ≤ 0
          · exact .inl hle
          · exact .inr (by omega)
        · exact .inr hne

/-- Whatever does not touch the variables keeps them apart. -/
theorem Fields.of_holds {b : Bool} {s s' : State} (h : Fields b s) (hget : ∀ x, s'.get x = s.get x)
    (hholds : ∀ x, (x = .agent → b = true) → s'.Holds x) : Fields b s' := by
  refine ⟨hholds, ?_⟩
  rw [hget, hget]
  exact h.apart

/-- Whatever touches neither the variables nor the children. -/
theorem Fields.of_same {b : Bool} {s s' : State} (h : Fields b s) (hget : ∀ x, s'.get x = s.get x)
    (hchildren : s'.children = s.children) : Fields b s' := by
  refine h.of_holds hget fun x hx => ?_
  unfold State.Holds
  rw [hget, hchildren]
  exact h.holds x hx

/-- Reaping the child of a variable and clearing it leaves the other variables their children. -/
theorem Fields.reap {b : Bool} {s : State} (h : Fields b s) {x : Slot} (hx : x = .agent → b = true)
    (hpos : 0 < s.get x) : Fields b ((s.reap (s.get x)).set x (-1)) := by
  obtain ⟨g, hg, hxg⟩ := (h.holds x hx).resolve_left (by omega)
  refine Fields.of_holds (h.set_neg x) (by simp) ?_
  intro y hy
  by_cases hyx : y = x
  · exact .inl (by simp [hyx])
  · rcases h.holds y hy with hle | ⟨g', hg', hyg⟩
    · exact .inl (by simpa [hyx] using hle)
    · have hdiff : s.get y ≠ s.get x := fun e => hyx (h.inj hpos rfl e hg hxg hy).symm
      refine .inr ⟨g', ?_, hyg⟩
      simpa [hyx, program_reap hdiff] using hg'

/-- Reaping a child that no variable may hold. -/
theorem Fields.reap_other {b : Bool} {s : State} (h : Fields b s) {p : Int} {g : Program}
    (hg : s.children.program p = some g) (hother : ∀ x : Slot, x.runs g = false) :
    Fields b (s.reap p) := by
  refine h.of_holds (by simp) ?_
  intro x hx
  rcases h.holds x hx with hle | ⟨g', hg', hxg⟩
  · exact .inl (by simpa using hle)
  · refine .inr ⟨g', ?_, hxg⟩
    have hdiff : s.get x ≠ p := by
      rintro rfl
      rw [hg] at hg'
      cases hg'
      simp [hother x] at hxg
    simpa [program_reap hdiff] using hg'

/-- A new child has a pid that no variable holds. -/
theorem Fields.born {b : Bool} {s : State} (h : Fields b s) {p : Int} (hp : 0 < p)
    (hfree : s.children.program p = none) (g : Program) : Fields b (s.born p g hp) := by
  refine h.of_holds (by simp) ?_
  intro x hx
  rcases h.holds x hx with hle | ⟨g', hg', hxg⟩
  · exact .inl (by simpa using hle)
  · refine .inr ⟨g', ?_, hxg⟩
    have hdiff : s.get x ≠ p := by
      rintro rfl
      simp [hfree] at hg'
    simpa [program_born hdiff] using hg'

/-- A variable may be given a new child of one of its programs. -/
theorem Fields.spawned {b : Bool} {s : State} (h : Fields b s) {p : Int} (hp : 0 < p)
    (hfree : s.children.program p = none) {g : Program} {x : Slot} (hxg : x.runs g = true)
    (hx : x ≠ .helper) : Fields b ((s.born p g hp).set x p) := by
  constructor
  · intro y hy
    by_cases hyx : y = x
    · subst hyx
      exact .inr ⟨g, by simp [program_born_self], hxg⟩
    · rcases (h.born hp hfree g).holds y hy with hle | ⟨g', hg', hyg⟩
      · exact .inl (by simpa [hyx] using hle)
      · exact .inr ⟨g', by simpa [hyx] using hg', hyg⟩
  · simp only [get_set, get_born, Ne.symm hx, if_false]
    split
    · -- the helper, if there is one, is a child already
      rcases h.holds .helper (by simp) with hle | ⟨g', hg', _⟩
      · exact .inl hle
      · right
        rintro rfl
        simp [hfree] at hg'
    · exact h.apart

/-! ## What the functions below the loop may do -/

/-- The events that functions below the loop write down. -/
def Event.low : Event → Bool
  | .use _ => true
  | _ => false

def Use.Fine (u : Use) : Prop := u.pid ≤ 0 ∨ u.unreaped = true

/-- Only the second look of a `stop` falls on a pid that was reaped, by that `stop`. -/
def Calm (es : List Event) : Prop :=
  ∀ u, .use u ∈ es → u.Fine ∨ u.reader = .recheck true

theorem Calm.append {es es' : List Event} (h : Calm es) (h' : Calm es') : Calm (es ++ es') := by
  intro u hu
  rcases List.mem_append.mp hu with hu | hu
  · exact h u hu
  · exact h' u hu

/-- The variables of the loop are left alone and no agent is started. -/
structure Frame (s s' : State) : Prop where
  agent : s'.agent = s.agent
  relayPid : s'.relayPid = s.relayPid
  relayIn : s'.relayIn = s.relayIn
  av : s'.av = s.av
  owed : s'.owed = s.owed
  helper : s.helper ≤ 0 → s'.helper ≤ 0
  agents : ∀ p, s'.children.program p = some .agent → s.children.program p = some .agent

theorem Frame.refl (s : State) : Frame s s := ⟨rfl, rfl, rfl, rfl, rfl, id, fun _ => id⟩

theorem Frame.trans {s t u : State} (h : Frame s t) (h' : Frame t u) : Frame s u :=
  ⟨h'.agent.trans h.agent, h'.relayPid.trans h.relayPid, h'.relayIn.trans h.relayIn,
    h'.av.trans h.av, h'.owed.trans h.owed, fun hs => h'.helper (h.helper hs),
    fun p hp => h.agents p (h'.agents p hp)⟩

/-- The variables of the functions below the loop. -/
def Slot.low : Slot → Bool
  | .relay | .agent => false
  | _ => true

theorem Slot.ne_agent {x : Slot} (h : x.low = true) : x ≠ .agent := by
  rintro rfl
  cases h

theorem Frame.set {s : State} {x : Slot} (hx : x.low = true) {p : Int}
    (hp : x = .helper → p ≤ 0) : Frame s (s.set x p) := by
  cases x with
  | relay | agent => cases hx
  | helper => exact ⟨rfl, rfl, rfl, rfl, rfl, fun _ => hp rfl, fun _ => id⟩
  | _ => exact ⟨rfl, rfl, rfl, rfl, rfl, id, fun _ => id⟩

theorem Frame.reap (s : State) (p : Int) : Frame s (s.reap p) := by
  refine ⟨rfl, rfl, rfl, rfl, rfl, id, fun q hq => ?_⟩
  by_cases hqp : q = p
  · simp [hqp, program_reap_self] at hq
  · rwa [program_reap hqp] at hq

theorem Frame.born (s : State) {p : Int} {g : Program} (hp : 0 < p) (hg : g ≠ .agent) :
    Frame s (s.born p g hp) := by
  refine ⟨rfl, rfl, rfl, rfl, rfl, id, fun q hq => ?_⟩
  by_cases hqp : q = p
  · rw [hqp, program_born_self, Option.some.injEq] at hq
    exact absurd hq hg
  · rwa [program_born hqp] at hq

theorem Frame.log (s : State) (e : Event) : Frame s (s.log e) :=
  ⟨rfl, rfl, rfl, rfl, rfl, id, fun _ => id⟩

theorem Fields.log {b : Bool} {s : State} (h : Fields b s) (e : Event) : Fields b (s.log e) :=
  h.of_same (get_log s e) rfl

structure Keeps (b : Bool) (s s' : State) : Prop where
  frame : Frame s s'
  trace : ∃ es, s'.trace = s.trace ++ es ∧ (∀ e ∈ es, e.low = true) ∧
    (Fields b s → Fields b s' ∧ Calm es)

variable {b : Bool}

theorem Keeps.quiet {s s' : State} (hframe : Frame s s') (htrace : s'.trace = s.trace)
    (hfields : Fields b s → Fields b s') : Keeps b s s' :=
  ⟨hframe, [], by simp [htrace], by simp, fun h => ⟨hfields h, by simp [Calm]⟩⟩

theorem Keeps.refl (s : State) : Keeps b s s := .quiet (.refl s) rfl id

theorem Keeps.trans {s t u : State} (h : Keeps b s t) (h' : Keeps b t u) : Keeps b s u := by
  obtain ⟨es, htrace, hlow, hfields⟩ := h.trace
  obtain ⟨es', htrace', hlow', hfields'⟩ := h'.trace
  refine ⟨h.frame.trans h'.frame, es ++ es', ?_, ?_, ?_⟩
  · rw [htrace', htrace, List.append_assoc]
  · intro e he
    rcases List.mem_append.mp he with he | he
    · exact hlow e he
    · exact hlow' e he
  · intro hs
    obtain ⟨ht, hcalm⟩ := hfields hs
    obtain ⟨hu, hcalm'⟩ := hfields' ht
    exact ⟨hu, hcalm.append hcalm'⟩

/-- Looking at the pid a variable holds. -/
theorem Keeps.use {s : State} (r : Reader) {x : Slot} {p : Int} (hx : x = .agent → b = true)
    (hp : s.get x = p) : Keeps b s (s.use r p) := by
  refine ⟨.log s _, [_], rfl, by simp [Event.low], fun h => ⟨h.log _, ?_⟩⟩
  intro u hu
  cases List.mem_singleton.mp hu
  left
  rcases h.holds x hx with hle | ⟨g, hg, _⟩
  · exact .inl (hp ▸ hle)
  · exact .inr (by rw [← hp]; simp [hg])

theorem Keeps.set_neg (s : State) {x : Slot} (hx : x.low = true) : Keeps b s (s.set x (-1)) :=
  .quiet (.set hx fun _ => by decide) (by simp) fun h => h.set_neg x

/-- A variable of the functions below, cleared together with its child. -/
theorem Keeps.reap {s : State} {x : Slot} {p : Int} (hx : x.low = true) (hpos : 0 < p)
    (hp : s.get x = p) : Keeps b s ((s.reap p).set x (-1)) := by
  subst hp
  refine .quiet ((Frame.reap s _).trans (.set hx fun _ => by decide)) (by simp [State.reap]) ?_
  exact fun h => h.reap (fun e => absurd e (Slot.ne_agent hx)) hpos

/-- A program that keeps what `Keeps` says. -/
abbrev Low (b : Bool) {α : Type} (p : Init α) : Prop := Stays (Keeps b) p

theorem low_pure {α : Type} (a : α) : Low b (pure a) := Stays.pure Keeps.refl a

theorem low_read {α : Type} (f : State → α) : Low b (Prog.read f) := Stays.read Keeps.refl f

theorem low_bind {α β : Type} {p : Init α} {f : α → Init β} (hp : Low b p)
    (hf : ∀ a, Low b (f a)) : Low b (p >>= f) :=
  Stays.bind (R := Keeps b) (fun h h' => h.trans h') hp hf

/-- A program that only asks. -/
abbrev Asks {α : Type} (p : Init α) : Prop := Stays Eq p

theorem asks_ask {α : Type} {f : State → Answer → Option (α × State)}
    (h : ∀ s a x s', f s a = some (x, s') → s = s') : Asks (Prog.ask f) :=
  Stays.ask (fun _ => rfl) h

theorem asks_read {α : Type} (f : State → α) : Asks (Prog.read f) := Stays.read (fun _ => rfl) f

theorem asks_pure {α : Type} (a : α) : Asks (pure a) := Stays.pure (fun _ => rfl) a

theorem asks_bind {α β : Type} {p : Init α} {f : α → Init β} (hp : Asks p)
    (hf : ∀ a, Asks (f a)) : Asks (p >>= f) :=
  Stays.bind (fun h h' => h.trans h') hp hf

theorem Asks.low {α : Type} {p : Init α} (h : Asks p) : Low b p :=
  h.mono fun s _ e => e ▸ Keeps.refl s

/-- Whatever holds goes on to hold. -/
theorem Asks.spec {α : Type} {p : Init α} (h : Asks p) {P I : State → Prop}
    (hI : ∀ s, P s → I s) : Spec P p I (fun _ => P) :=
  Stays.spec h (fun s _ hs e => e ▸ hI s hs) (fun _ _ _ hs e => e ▸ hs)

theorem asks_yes : Asks askYes := asks_ask fun s a x s' h => by
  split at h <;> cases h
  rfl

theorem asks_text : Asks askText := asks_ask fun s a x s' h => by
  split at h <;> cases h
  rfl

theorem asks_stat : Asks askStat := asks_ask fun s a x s' h => by
  split at h <;> cases h
  rfl

theorem asks_now : Asks askNow := asks_ask fun s a x s' h => by
  split at h <;> cases h
  rfl

theorem asks_interfaces : Asks askInterfaces := asks_ask fun s a x s' h => by
  split at h <;> cases h
  rfl

theorem asks_aliases : Asks askAliases := asks_ask fun s a x s' h => by
  split at h <;> cases h
  rfl

theorem asks_sleep : Asks sleep := asks_ask fun s a x s' h => by
  split at h <;> cases h
  rfl

theorem asks_networksChangedFrom (before : Stamp) : Asks (networksChangedFrom before) := by
  refine asks_bind asks_stat fun st => ?_
  split <;> exact asks_pure _

theorem asks_networksChanged : Asks networksChanged :=
  asks_bind (asks_read _) fun _ => asks_networksChangedFrom _

theorem asks_retryDue : Asks retryDue :=
  asks_bind asks_now fun _ => asks_bind (asks_read _) fun _ => asks_pure _

theorem asks_linkLost : Asks linkLost := by
  refine asks_bind (asks_read _) fun _ => Stays.ite (fun _ => asks_pure _) fun _ => ?_
  refine Stays.ite (fun _ => asks_pure _) fun _ => ?_
  exact asks_bind asks_yes fun _ => asks_pure _

theorem asks_newCredentials : Asks newCredentials := by
  refine asks_bind (asks_read _) fun _ => Stays.ite (fun _ => asks_networksChanged) fun _ => ?_
  exact asks_pure _

/-! ## Stopping a child -/

/-- A `stop` of `x` whose loop has `reaped` its child, or found none. -/
structure Stopped (b : Bool) (s₀ : State) (x : Slot) (p : Int) (reaped : Bool) (s : State) :
    Prop where
  frame : Frame s₀ s
  gone : s.children.program p = none
  trace : ∃ es, s.trace = s₀.trace ++ es ∧ (∀ e ∈ es, e.low = true) ∧
    (Fields b s₀ → Fields b (s.set x (-1)) ∧ Calm es ∧ reaped = true)

/-- A `stop` of `x` that is still at it. -/
structure Stopping (b : Bool) (s₀ : State) (x : Slot) (p : Int) (s : State) : Prop where
  keeps : Keeps b s₀ s
  get : s.get x = p

variable {s₀ s : State} {x : Slot} {p : Int} {dead : Bool}

theorem Stopping.use (h : Stopping b s₀ x p s) (hx : x.low = true) (r : Reader) :
    Stopping b s₀ x p (s.use r p) :=
  ⟨h.keeps.trans (.use r (fun e => absurd e (Slot.ne_agent hx)) h.get), by simp [State.use, h.get]⟩

/-- Without such a child, the variable did not hold one before. -/
theorem Stopping.stopped (h : Stopping b s₀ x p s) (hx : x.low = true) (hp : 0 < p)
    (hnone : s.children.program p = none) (dead : Bool) : Stopped b s₀ x p dead s := by
  obtain ⟨es, htrace, hlow, hfields⟩ := h.keeps.trace
  refine ⟨h.keeps.frame, hnone, es, htrace, hlow, fun hs => ?_⟩
  rcases (hfields hs).1.holds x (fun e => absurd e (Slot.ne_agent hx)) with hle | ⟨g, hg, _⟩
  · rw [h.get] at hle
    omega
  · rw [h.get, hnone] at hg
    cases hg

theorem Stopping.reaped (h : Stopping b s₀ x p s) (hx : x.low = true) (hp : 0 < p) :
    Stopped b s₀ x p true (s.reap p) := by
  obtain ⟨es, htrace, hlow, hfields⟩ := h.keeps.trace
  refine ⟨h.keeps.frame.trans (Frame.reap s p), program_reap_self s p, es, htrace, hlow,
    fun hs => ⟨?_, (hfields hs).2, rfl⟩⟩
  rw [← h.get]
  exact (hfields hs).1.reap (fun e => absurd e (Slot.ne_agent hx)) (h.get ▸ hp)

/-- The second look of `stop` falls on the pid that its loop reaped. -/
theorem Stopped.recheck (h : Stopped b s₀ x p dead s) :
    Stopped b s₀ x p dead (s.use (.recheck dead) p) := by
  obtain ⟨es, htrace, hlow, hfields⟩ := h.trace
  refine ⟨h.frame.trans (.log _ _), h.gone, es ++ [.use ⟨.recheck dead, p, false⟩], ?_, ?_,
    fun hs => ?_⟩
  · simp [State.use, State.log, htrace, h.gone]
  · intro e he
    rcases List.mem_append.mp he with he | he
    · exact hlow e he
    · rw [List.mem_singleton.mp he]
      rfl
  · obtain ⟨hclear, hcalm, hreaped⟩ := hfields hs
    refine ⟨?_, hcalm.append ?_, hreaped⟩
    · rw [State.use, set_log]
      exact hclear.log _
    · intro u hu
      cases List.mem_singleton.mp hu
      exact .inr (by rw [hreaped])

theorem Stopped.clear (h : Stopped b s₀ x p dead s) (hx : x.low = true) :
    Keeps b s₀ (s.set x (-1)) := by
  obtain ⟨es, htrace, hlow, hfields⟩ := h.trace
  refine ⟨h.frame.trans (.set hx fun _ => by decide), es, by simpa using htrace, hlow, fun hs => ?_⟩
  exact ⟨(hfields hs).1, (hfields hs).2.1⟩

theorem Stopping.clear (h : Stopping b s₀ x p s) (hx : x.low = true) (hp : 0 < p) :
    Keeps b s₀ ((s.reap p).set x (-1)) :=
  h.keeps.trans (.reap hx hp h.get)

theorem stopPolls_spec (hx : x.low = true) (hp : 0 < p) (n : Nat) :
    Spec (Stopping b s₀ x p) (stopPolls p n) (Keeps b s₀)
      (fun reaped s => Stopping b s₀ x p s ∨ Stopped b s₀ x p reaped s) := by
  induction n with
  | zero => exact Spec.pure fun s h => .inl h
  | succ n ih =>
    refine Spec.bind (Q := fun _ => Stopping b s₀ x p) (Spec.update fun s h => h.use hx .wait)
      fun _ => ?_
    refine Spec.bind (Q := fun r s => (r = 0 ∧ Stopping b s₀ x p s) ∨
        (r ≠ 0 ∧ Stopped b s₀ x p (decide (r = p)) s))
      (poll_spec (fun s h _ => h.keeps) (fun s h hnone => .inr ⟨by decide, h.stopped hx hp hnone _⟩)
        (fun s h _ => .inr ⟨by omega, ?_⟩) (fun s h _ => .inl ⟨rfl, h⟩)) fun r => ?_
    · simpa using h.reaped hx hp
    refine Spec.ite (fun hr => ?_) (fun hr => ?_)
    · have hsleep : Spec (Stopping b s₀ x p) sleep (Keeps b s₀) (fun _ => Stopping b s₀ x p) :=
        asks_sleep.spec fun s h => h.keeps
      refine (Spec.bind hsleep fun _ => ih).mono ?_ (fun _ h => h) (fun _ _ h => h)
      rintro s (⟨_, h⟩ | ⟨h, _⟩)
      · exact h
      · exact absurd hr h
    · exact Spec.pure fun s h => .inr (h.resolve_left fun h => hr h.1).2

theorem low_stop (hx : x.low = true) : Low b (stop x) := by
  intro s₀
  refine Spec.bind (Q := fun p s => Stopping b s₀ x p s)
    (Spec.read fun s h => h ▸ ⟨Keeps.refl _, rfl⟩) fun p => ?_
  refine Spec.bind (Q := fun _ s => Stopping b s₀ x p s) (Spec.update fun s h => h.use hx .stop)
    fun _ => ?_
  refine Spec.ite (fun _ => Spec.pure fun s h => h.keeps) (fun hp => ?_)
  have hp : 0 < p := by omega
  refine Spec.bind (Q := fun _ s => Stopping b s₀ x p s) (Spec.update fun s h => h.use hx .kill)
    fun _ => ?_
  refine Spec.bind (stopPolls_spec hx hp 20) fun reaped => ?_
  refine Spec.bind (Q := fun _ s => Stopping b s₀ x p s ∨ Stopped b s₀ x p reaped s)
    (Spec.update fun s h => h.imp (·.use hx (.recheck reaped)) (·.recheck)) fun _ => ?_
  refine Spec.bind (Q := fun r s => (r = 0 ∧ Stopping b s₀ x p s) ∨
      (r ≠ 0 ∧ Keeps b s₀ (s.set x (-1)))) ?_ fun r => ?_
  · refine poll_spec ?_ ?_ ?_ ?_
    · rintro s (h | h) hsome
      · exact h.keeps
      · exact absurd h.gone hsome
    · rintro s (h | h) hnone
      · exact .inr ⟨by decide, (h.stopped hx hp hnone true).clear hx⟩
      · exact .inr ⟨by decide, h.clear hx⟩
    · rintro s (h | h) hsome
      · exact .inr ⟨by omega, h.clear hx hp⟩
      · exact absurd h.gone hsome
    · rintro s (h | h) hsome
      · exact .inl ⟨rfl, h⟩
      · exact absurd h.gone hsome
  · refine Spec.ite (fun hr => ?_) (fun hr => ?_)
    · refine Spec.bind (Q := fun _ => Stopping b s₀ x p) (Spec.update fun s h => ?_) fun _ => ?_
      · exact (h.resolve_right fun h => h.1 hr).2.use hx .kill
      refine Spec.bind (Q := fun _ => Stopping b s₀ x p) (Spec.update fun s h => h.use hx .wait)
        fun _ => ?_
      refine Spec.bind (Q := fun _ s => Keeps b s₀ (s.set x (-1))) ?_ fun _ =>
        Spec.update fun s h => h
      exact await_spec (fun s h _ => h.keeps)
        (fun s h hnone => (h.stopped hx hp hnone true).clear hx) (fun s _ h _ => h.clear hx hp)
    · exact Spec.update fun s h => (h.resolve_left fun h => hr h.1).2

/-! ## Starting children -/

theorem Slot.runs_low {g : Program} (hx : x.low = true) (hg : x.runs g = true) : g ≠ .agent := by
  rintro rfl
  cases x <;> simp_all [Slot.low, Slot.runs]

theorem low_assignSpawn {av : List String} (hx : x.low = true) (hne : x ≠ .helper)
    (hg : x.runs (Program.of av) = true) : Low b (assignSpawn x av) := by
  intro s₀
  refine Spec.bind (Q := fun p s => Keeps b s₀ (s.set x p)) ?_ fun p => Spec.update fun s h => h
  refine forkAs_spec (fun s h => h ▸ Keeps.refl _) (fun s h => ?_) (fun s p hp h hfree => ?_)
  · exact h ▸ Keeps.set_neg s hx
  · subst h
    refine .quiet ((Frame.born s hp (Slot.runs_low hx hg)).trans (.set hx fun e => absurd e hne))
      (by simp [State.born]) fun h => ?_
    exact h.spawned hp hfree hg hne

/-- A command that is waited for, of a program that no variable holds. -/
structure Running (b : Bool) (s₀ : State) (p : Int) (s : State) : Prop where
  keeps : Keeps b s₀ s
  child : 0 < p → ∃ g, s.children.program p = some g ∧ ∀ x : Slot, x.runs g = false

theorem spawn_running {av : List String} (hg : ∀ x : Slot, x.runs (Program.of av) = false) :
    Spec (· = s₀) (spawn av) (Keeps b s₀) (fun p => Running b s₀ p) := by
  refine forkAs_spec (fun s h => h ▸ Keeps.refl _) (fun s h => ?_) (fun s p hp h hfree => ?_)
  · exact ⟨h ▸ Keeps.refl _, fun hp => absurd hp (by decide)⟩
  · subst h
    have hagent : Program.of av ≠ .agent := by
      intro e
      have := hg .agent
      simp [e, Slot.runs] at this
    exact ⟨.quiet (.born s hp hagent) rfl fun h => h.born hp hfree _,
      fun _ => ⟨_, program_born_self s p _ hp, hg⟩⟩

theorem await_running : Spec (Running b s₀ p) (await p) (Keeps b s₀) (fun _ => Keeps b s₀) := by
  refine await_spec (fun s h _ => h.keeps) (fun s h _ => h.keeps) (fun s _ h hsome => ?_)
  obtain ⟨g, hg, hother⟩ := h.child (s.children.positive p hsome)
  exact h.keeps.trans (.quiet (.reap s p) rfl fun hs => hs.reap_other hg hother)

theorem low_run {av : List String} (hg : ∀ x : Slot, x.runs (Program.of av) = false) :
    Low b (run av) := by
  intro s₀
  refine Spec.bind (spawn_running hg) fun p => ?_
  refine Spec.ite (fun _ => Spec.pure fun s h => h.keeps) (fun _ => ?_)
  exact Spec.bind await_running fun _ => Spec.pure fun s h => h

theorem low_capture {av : List String} (hg : ∀ x : Slot, x.runs (Program.of av) = false) :
    Low b (capture av) := by
  refine low_bind asks_yes.low fun piped => Stays.ite (fun _ => low_pure _) (fun _ => ?_)
  intro s₀
  refine Spec.bind (spawn_running hg) fun p => ?_
  refine Spec.ite (fun _ => Spec.pure fun s h => h.keeps) (fun _ => ?_)
  exact Spec.bind (asks_text.spec fun s h => h.keeps) fun _ =>
    Spec.bind await_running fun _ => Spec.pure fun s h => h

theorem low_coldplug : Low b coldplug := by
  refine low_bind asks_aliases.low fun aliases => Stays.ite (fun _ => low_pure _) (fun _ => ?_)
  refine low_bind (low_run ?_) fun _ => low_pure _
  have hother : Program.of (["/bin/busybox", "modprobe", "-qa"] ++ aliases) = .other := rfl
  rw [hother]
  exact fun x => by cases x <;> rfl

/-! ## Links -/

/-- What is changed of the link is not one of its pids. -/
theorem low_setUp {f : Link → Link} (h : ∀ up, (f up).daemon = up.daemon ∧ (f up).dhcp = up.dhcp ∧
    (f up).dbus = up.dbus ∧ (f up).bluetoothd = up.bluetoothd) : Low b (setUp f) := by
  refine Stays.update fun s => .quiet ⟨rfl, rfl, rfl, rfl, rfl, id, fun _ => id⟩ rfl fun hs => ?_
  obtain ⟨hdaemon, hdhcp, hdbus, hbt⟩ := h s.up
  have hget : ∀ x, ({ s with up := f s.up } : State).get x = s.get x := by
    intro x
    cases x <;> simp [State.get, hdaemon, hdhcp, hdbus, hbt]
  exact hs.of_same hget rfl

theorem low_reapIfDead (hx : x.low = true) : Low b (reapIfDead x) := by
  intro s₀
  refine Spec.bind (Q := fun p s => Stopping b s₀ x p s)
    (Spec.read fun s h => h ▸ ⟨Keeps.refl _, rfl⟩) fun p => ?_
  refine Spec.ite (fun _ => Spec.pure fun s h => h.keeps) (fun hp => ?_)
  have hp : 0 < p := by omega
  refine Spec.bind (Q := fun _ => Stopping b s₀ x p) (Spec.update fun s h => h.use hx .wait)
    fun _ => ?_
  refine Spec.bind (Q := fun q s => (q = p ∧ Keeps b s₀ (s.set x (-1))) ∨
      (q ≠ p ∧ Keeps b s₀ s)) ?_ fun q => ?_
  · exact poll_spec (fun s h _ => h.keeps) (fun s h _ => .inr ⟨by omega, h.keeps⟩)
      (fun s h _ => .inl ⟨rfl, h.clear hx hp⟩) (fun s h _ => .inr ⟨by omega, h.keeps⟩)
  · refine Spec.ite (fun hq => ?_) (fun hq => ?_)
    · refine Spec.bind (Q := fun _ => Keeps b s₀) (Spec.update fun s h => ?_) fun _ =>
        Spec.pure fun s h => h
      exact (h.resolve_right fun h => h.1 hq).2
    · exact Spec.pure fun s h => (h.resolve_left fun h => hq h.1).2

theorem low_dhcpWait (t : Nat) : Low b (dhcpWait t) := by
  induction t with
  | zero => exact low_pure _
  | succ t ih =>
    refine low_bind (low_read _) fun p => Stays.ite (fun _ => low_pure _) fun _ => ?_
    refine low_bind asks_yes.low fun _ => Stays.ite (fun _ => low_pure _) fun _ => ?_
    refine low_bind (low_reapIfDead rfl) fun _ => Stays.ite (fun _ => low_pure _) fun _ => ?_
    exact low_bind asks_sleep.low fun _ => ih

theorem low_dhcp : Low b dhcp :=
  low_bind (low_read _) fun _ =>
    low_bind (low_assignSpawn rfl (by decide) rfl) fun _ => low_dhcpWait 20

theorem low_setWireless (f : State → Text.Str) :
    Low b (Prog.update fun s => { s with wireless := f s }) := by
  refine Stays.update fun s => .quiet ⟨rfl, rfl, rfl, rfl, rfl, id, fun _ => id⟩ rfl fun hs => ?_
  exact hs.of_same (fun x => by cases x <;> rfl) rfl

theorem low_waitWiredFrom (n t : Nat) : Low b (waitWiredFrom n t) := by
  induction n generalizing t with
  | zero => exact low_pure _
  | succ n ih =>
    refine low_bind asks_interfaces.low fun entries => ?_
    cases entries with
    | none => exact low_pure _
    | some entries =>
      refine low_bind (low_read _) fun wireless => ?_
      refine low_bind (low_setWireless _) fun _ => ?_
      split
      · exact low_bind (low_setUp fun _ => ⟨rfl, rfl, rfl, rfl⟩) fun _ => low_pure _
      · refine Stays.ite (fun _ => low_pure _) fun _ => ?_
        exact low_bind asks_sleep.low fun _ => low_bind low_coldplug fun _ => ih (t + 1)

theorem low_waitCarrier (secs : Nat) : Low b (waitCarrier secs) := by
  induction secs with
  | zero => exact low_pure _
  | succ secs ih =>
    refine low_bind asks_yes.low fun _ => Stays.ite (fun _ => low_pure _) fun _ => ?_
    refine low_bind (low_reapIfDead rfl) fun _ => Stays.ite (fun _ => low_pure _) fun _ => ?_
    exact low_bind asks_sleep.low fun _ => ih

theorem low_station : Low b station := by
  refine low_bind (low_read _) fun wireless => Stays.ite (fun _ => low_pure _) fun _ => ?_
  refine low_bind asks_yes.low fun _ => Stays.ite (fun _ => low_pure _) fun _ => ?_
  refine low_bind (low_setUp fun _ => ⟨rfl, rfl, rfl, rfl⟩) fun _ => ?_
  refine low_bind (low_assignSpawn rfl (by decide) rfl) fun _ => ?_
  refine low_bind (low_waitCarrier 30) fun _ => Stays.ite (fun _ => low_pure _) fun _ => ?_
  exact low_bind (low_stop rfl) fun _ => low_pure _

theorem low_noteNetworks : Low b noteNetworks :=
  low_bind asks_stat.low fun _ => low_setUp fun _ => ⟨rfl, rfl, rfl, rfl⟩

theorem low_hostapd (dial : Text.Str) : Low b (hostapd dial) := by
  refine low_bind (low_setUp fun _ => ⟨rfl, rfl, rfl, rfl⟩) fun _ => ?_
  refine low_bind (low_assignSpawn rfl (by decide) rfl) fun _ => ?_
  refine low_bind (low_waitCarrier 15) fun _ => Stays.ite (fun _ => ?_) fun _ => ?_
  · exact low_bind low_noteNetworks fun _ => low_pure _
  · exact low_bind (low_stop rfl) fun _ => low_pure _

theorem link_runs (rest : List String) (x : Slot) :
    x.runs (Program.of ("/egdod" :: "link" :: rest)) = false := by
  have hlink : Program.of ("/egdod" :: "link" :: rest) = .link := rfl
  rw [hlink]
  cases x <;> rfl

theorem low_accessPoint (cmdline : Text.Str) : Low b (accessPoint cmdline) := by
  refine low_bind (low_read _) fun wireless => ?_
  split
  · exact low_pure _
  · refine Stays.ite (fun _ => low_pure _) fun _ => ?_
    refine low_bind (low_setUp fun _ => ⟨rfl, rfl, rfl, rfl⟩) fun _ => ?_
    refine low_bind (low_capture (link_runs _)) fun text => ?_
    split
    · exact low_pure _
    · refine low_bind (low_capture (link_runs _)) fun conf => ?_
      split
      · refine low_bind asks_yes.low fun _ => Stays.ite (fun _ => low_hostapd _) fun _ => low_pure _
      · exact low_pure _

theorem low_bluetooth (cmdline : Text.Str) : Low b (bluetooth cmdline) := by
  unfold bluetooth
  split
  · exact low_pure _
  · refine low_bind asks_yes.low fun _ => Stays.ite (fun _ => low_pure _) fun _ => ?_
    refine low_bind (low_setUp fun _ => ⟨rfl, rfl, rfl, rfl⟩) fun _ => ?_
    refine low_bind (low_assignSpawn rfl (by decide) rfl) fun _ => ?_
    refine low_bind asks_sleep.low fun _ => ?_
    refine low_bind (low_assignSpawn rfl (by decide) rfl) fun _ => ?_
    refine low_bind (low_assignSpawn rfl (by decide) rfl) fun _ => ?_
    exact low_bind low_noteNetworks fun _ => low_pure _

theorem low_down : Low b (setUp fun _ => Link.down) := by
  refine Stays.update fun s => .quiet ⟨rfl, rfl, rfl, rfl, rfl, id, fun _ => id⟩ rfl fun hs => ?_
  constructor
  · intro x hx
    cases x with
    | relay | agent | helper => exact hs.holds _ hx
    | _ => exact .inl (show (-1 : Int) ≤ 0 by decide)
  · by_cases hle : s.helper ≤ 0
    · exact .inl hle
    · refine .inr fun e => hle ?_
      have : s.helper = -1 := e
      omega

theorem low_bringDown : Low b bringDown := by
  refine low_bind (low_stop rfl) fun _ => low_bind (low_stop rfl) fun _ => ?_
  refine low_bind (low_stop rfl) fun _ => ?_
  intro s₀
  refine Spec.bind (Q := fun p s => Stopping b s₀ .dhcp p s)
    (Spec.read fun s h => h ▸ ⟨Keeps.refl _, rfl⟩) fun p => ?_
  have hdown : Spec (Stopping b s₀ .dhcp p) (setUp fun _ => Link.down) (Keeps b s₀)
      (fun _ => Keeps b s₀) :=
    low_down.spec (fun _ _ h h' => h.keeps.trans h') (fun _ _ _ h h' => h.keeps.trans h')
  refine Spec.ite (fun _ => hdown) fun _ => ?_
  exact Spec.bind (Spec.update fun s h => h.use rfl .kill) fun _ => hdown

theorem low_wired (cmdline : Text.Str) : Low b (wired cmdline) := by
  refine low_bind (low_setUp fun _ => ⟨rfl, rfl, rfl, rfl⟩) fun _ => ?_
  split
  · exact low_dhcp
  · exact low_pure _

theorem low_stopBluetooth : Low b stopBluetooth :=
  low_bind (low_stop rfl) fun _ => low_bind (low_stop rfl) fun _ => low_stop rfl

theorem low_ipLink (cmdline : Text.Str) : Low b (ipLink cmdline) := by
  refine low_bind (low_waitWiredFrom 11 0) fun _ => Stays.ite (fun _ => ?_) fun _ => ?_
  · exact low_bind (low_wired cmdline) fun _ => low_pure _
  · refine low_bind low_station fun _ => Stays.ite (fun _ => ?_) fun _ => ?_
    · exact low_bind (low_setUp fun _ => ⟨rfl, rfl, rfl, rfl⟩) fun _ =>
        low_bind low_dhcp fun _ => low_pure _
    · refine low_bind (low_accessPoint cmdline) fun _ => Stays.ite (fun _ => ?_) fun _ => low_pure _
      exact low_bind (low_setUp fun _ => ⟨rfl, rfl, rfl, rfl⟩) fun _ => low_pure _

theorem low_linkUp (cmdline : Text.Str) : Low b (linkUp cmdline) := by
  refine low_bind low_coldplug fun _ => ?_
  refine low_bind (low_ipLink cmdline) fun _ => Stays.ite (fun _ => low_pure _) fun _ => ?_
  refine low_bind (low_bluetooth cmdline) fun _ => Stays.ite (fun _ => ?_) fun _ => low_pure _
  exact low_setUp fun _ => ⟨rfl, rfl, rfl, rfl⟩

theorem low_bringUp (cmdline : Text.Str) : Low b (bringUp cmdline) :=
  low_bind low_bringDown fun _ => low_linkUp cmdline

theorem low_setRetry : Low b setRetry := by
  refine low_bind asks_now.low fun now => Stays.update fun s => ?_
  refine .quiet ⟨rfl, rfl, rfl, rfl, rfl, id, fun _ => id⟩ rfl fun hs => ?_
  exact hs.of_same (fun x => by cases x <;> rfl) rfl

theorem agentArgv_program (cmdline : Text.Str) (up : Link) :
    Program.of (agentArgv cmdline up) = .agent := by
  unfold agentArgv
  split <;> rfl

/-! ## Until certain events are on record -/

/-- `J`, until all of the events are in the trace. -/
def Until (es : List Event) (J : State → Prop) (s : State) : Prop := (∃ e ∈ es, e ∉ s.trace) → J s

theorem Until.step {es : List Event} {J K : State → Prop} {s s' : State} (h : Until es J s)
    (htrace : ∀ e, e ∈ s.trace → e ∈ s'.trace) (hstep : J s → K s') : Until es K s' := by
  rintro ⟨e, he, hnot⟩
  exact hstep (h ⟨e, he, fun hmem => hnot (htrace e hmem)⟩)

theorem Until.imp {es : List Event} {J K : State → Prop} {s : State} (h : Until es J s)
    (himp : J s → K s) : Until es K s :=
  h.step (fun _ => id) himp

theorem Keeps.subset {s s' : State} (h : Keeps b s s') (e : Event) (he : e ∈ s.trace) :
    e ∈ s'.trace := by
  obtain ⟨es, htrace, -⟩ := h.trace
  rw [htrace]
  exact List.mem_append_left _ he

end Egdod.Boot
