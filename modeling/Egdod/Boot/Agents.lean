import Egdod.Boot.Children

/-! How many agents init runs. An agent is started in six places; each of
them has to know that none is left, and all but one of them that the link is
not Bluetooth. -/
namespace Egdod.Boot

open Asking

/-- No agent is left to reap. -/
def NoAgents (s : State) : Prop := ∀ p, s.children.program p ≠ some .agent

/-- Every agent that is left to reap, hence every one alive, is the one in `agent`, and there
is none while the link is Bluetooth. -/
def Sole (s : State) : Prop :=
  ∀ p, s.children.program p = some .agent → p = s.agent ∧ s.up.kind ≠ .ble

/-- What holds between the steps of the supervision loop. -/
structure Manned (s : State) : Prop where
  sole : Sole s
  ble : s.up.kind = .ble → s.agent ≤ 0
  av : Program.of s.av = .agent

theorem NoAgents.sole {s : State} (h : NoAgents s) : Sole s := fun p hp => absurd hp (h p)

theorem Sole.noAgents {s : State} (h : Sole s) (hagent : s.agent ≤ 0) : NoAgents s := by
  intro p hp
  have hpos := s.children.positive p (by simp [hp])
  have := (h p hp).1
  omega

theorem Manned.noAgents {s : State} (h : Manned s) (hble : s.up.kind = .ble) : NoAgents s :=
  h.sole.noAgents (h.ble hble)

/-- What the supervision loop's helpers leave alone, as far as agents go. -/
structure Apart (s s' : State) : Prop where
  agent : s'.agent = s.agent
  av : s'.av = s.av
  agents : ∀ p, s'.children.program p = some .agent → s.children.program p = some .agent
  trace : ∀ e, e ∈ s.trace → e ∈ s'.trace

theorem Apart.refl (s : State) : Apart s s := ⟨rfl, rfl, fun _ => id, fun _ => id⟩

theorem Apart.trans {s t u : State} (h : Apart s t) (h' : Apart t u) : Apart s u :=
  ⟨h'.agent.trans h.agent, h'.av.trans h.av, fun p hp => h.agents p (h'.agents p hp),
    fun e he => h'.trace e (h.trace e he)⟩

theorem Keeps.apart {b : Bool} {s s' : State} (h : Keeps b s s') : Apart s s' := by
  exact ⟨h.frame.agent, h.frame.av, h.frame.agents, h.subset⟩

theorem Apart.noAgents {s s' : State} (h : Apart s s') (hs : NoAgents s) : NoAgents s' :=
  fun p hp => hs p (h.agents p hp)

theorem apart_of_low {α : Type} {p : Init α} (h : Low false p) : Stays Apart p :=
  h.mono fun _ _ h => h.apart

/-! ## The pieces of the loop -/

/-- `J`, unless `switch_root` has failed half-way and started an agent under Bluetooth. -/
abbrev Unswitched (J : State → Prop) : State → Prop := Until [.relaunched .ble] J

/-- A piece of `main` that starts from `P` and ends with the agent's variable right, with no
second agent on the way. -/
abbrev EndsManned {α : Type} (P : State → Prop) (p : Init α) : Prop :=
  Spec P p (Unswitched Sole) fun _ => Unswitched Manned

/-- The link is not Bluetooth. -/
abbrev OffBle (s : State) : Prop := s.up.kind ≠ .ble

/-- A state without an agent, in which one may be started. -/
structure Unmanned (s : State) : Prop where
  none : NoAgents s
  av : Program.of s.av = .agent

theorem Unmanned.unstarted {s : State} (h : Unmanned s) : Manned (s.set .agent (-1)) :=
  ⟨NoAgents.sole h.none, fun _ => (by decide : (-1 : Int) ≤ 0), h.av⟩

theorem Unmanned.started {s : State} (h : Unmanned s) {p : Int} (hp : 0 < p) (hoff : OffBle s) :
    Manned ((s.born p (Program.of s.av) hp).set .agent p) := by
  refine ⟨fun q hq => ⟨?_, hoff⟩, fun hble => absurd hble hoff, h.av⟩
  by_contra hne
  have hqp : q ≠ p := hne
  have hold : (s.born p (Program.of s.av) hp).children.program q = some .agent := hq
  rw [program_born hqp] at hold
  exact h.none q hold

theorem spec_restart {av : List String} :
    EndsManned (fun s => s.av = av ∧ Unswitched (fun s => Unmanned s ∧ OffBle s) s)
      (assignSpawn .agent av) := by
  refine Spec.bind (Q := fun p s => Unswitched Manned (s.set .agent p)) ?_
    fun p => Spec.update fun s h => h
  refine forkAs_spec (fun s h => h.2.imp fun hs => hs.1.none.sole) ?_ ?_
  · exact fun s h => h.2.step (fun _ => id) fun hs => hs.1.unstarted
  · rintro s p hp ⟨rfl, h⟩ -
    exact h.step (fun _ => id) fun hs => hs.1.started hp hs.2

theorem spec_launchAgent : EndsManned (Unswitched Unmanned) launchAgent := by
  refine Spec.bind (Q := fun s₀ s => s₀ = s ∧ Unswitched Unmanned s) (Spec.read fun s h => ⟨rfl, h⟩)
    fun s₀ => ?_
  refine Spec.ite (fun hkind => ?_) (fun hkind => ?_)
  · exact Spec.update fun s h => h.2.step (fun _ => id) fun hs => hs.unstarted
  · refine spec_restart.mono ?_ (fun _ h => h) (fun _ _ h => h)
    rintro s ⟨rfl, h⟩
    exact ⟨rfl, h.imp fun hs => ⟨hs, hkind⟩⟩

/-- Killing the agent and waiting for it leaves none. -/
theorem spec_reapAgent {p : Int} : Spec (fun s => s.agent = p ∧ Unswitched Manned s) reapAgent
    (Unswitched Sole) (fun _ s => s.agent = p ∧ Unswitched Unmanned s) := by
  refine Spec.bind (Q := fun q s => q = p ∧ s.agent = p ∧ Unswitched Manned s)
    (Spec.read fun s h => ⟨h.1, h⟩) fun q => ?_
  refine Spec.ite (fun hq => ?_) (fun hq => ?_)
  · refine Spec.pure ?_
    rintro s ⟨rfl, hagent, h⟩
    exact ⟨hagent, h.imp fun hs => ⟨hs.sole.noAgents (hagent ▸ hq), hs.av⟩⟩
  · have huse : ∀ r, Spec (fun s => q = p ∧ s.agent = p ∧ Unswitched Manned s)
        (Prog.update (·.use r q) : Init Unit) (Unswitched Sole)
        (fun _ s => q = p ∧ s.agent = p ∧ Unswitched Manned s) := by
      intro r
      refine Spec.update fun s h => ⟨h.1, h.2.1, ?_⟩
      exact h.2.2.step (fun e he => List.mem_append_left _ he) fun hs => ⟨hs.sole, hs.ble, hs.av⟩
    refine Spec.bind (huse .kill) fun _ => Spec.bind (huse .wait) fun _ => ?_
    refine Spec.bind (Q := fun _ s => s.agent = p ∧ Unswitched Unmanned s) ?_ fun _ =>
      Spec.pure fun s h => h
    refine await_spec ?_ ?_ ?_
    · exact fun s h _ => h.2.2.imp fun hs => hs.sole
    · rintro s ⟨rfl, rfl, h⟩ hnone
      refine ⟨rfl, h.imp fun hs => ⟨fun q hq' => ?_, hs.av⟩⟩
      rw [(hs.sole q hq').1, hnone] at hq'
      cases hq'
    · rintro s st ⟨rfl, rfl, h⟩ hsome
      refine ⟨rfl, h.step (fun _ => id) fun hs => ⟨fun q hq' => ?_, hs.av⟩⟩
      by_cases hqa : q = s.agent
      · rw [hqa, program_reap_self] at hq'
        cases hq'
      · rw [program_reap hqa] at hq'
        exact hqa (hs.sole q hq').1

theorem spec_apart {α : Type} {p : Init α} (h : Stays Apart p) :
    Spec (Unswitched Unmanned) p (Unswitched Sole) (fun _ => Unswitched Unmanned) := by
  refine h.spec ?_ ?_
  · exact fun s s' hs hp => hs.step hp.trace fun hs => (hp.noAgents hs.none).sole
  · exact fun _ s s' hs hp => hs.step hp.trace fun hs => ⟨hp.noAgents hs.none, hp.av ▸ hs.av⟩

variable (cmdline : Text.Str)

theorem spec_setArgv : Spec (Unswitched NoAgents) (setArgv cmdline) (Unswitched Sole)
    (fun _ => Unswitched Unmanned) :=
  Spec.update fun s h => h.step (fun _ => id) fun hs => ⟨hs, agentArgv_program cmdline s.up⟩

theorem spec_relink :
    EndsManned (Unswitched Manned) (relink cmdline) := by
  refine Spec.bind (Q := fun _ => Unswitched Unmanned) ?_ fun _ => ?_
  · intro s as hs
    exact spec_reapAgent.mono (fun _ h => h) (fun _ h => h) (fun _ _ h => h.2) s as ⟨rfl, hs⟩
  refine Spec.bind (spec_apart (apart_of_low (low_bringUp cmdline))) fun _ => ?_
  refine Spec.bind ((spec_setArgv cmdline).mono ?_ (fun _ h => h) (fun _ _ h => h)) fun _ => ?_
  · exact fun s h => h.imp fun hs => hs.none
  refine Spec.bind spec_launchAgent fun _ => Spec.update fun s h => ?_
  exact h.step (fun _ => id) fun hs => ⟨hs.sole, hs.ble, hs.av⟩

/-! ## `switch_root` -/

theorem spec_dropAgent : Spec (Unswitched Manned) dropAgent (Unswitched Sole)
    (fun _ => Unswitched fun s => Unmanned s ∧ s.agent ≤ 0) := by
  refine Spec.bind (Q := fun p s => s.agent = p ∧ Unswitched Manned s)
    (Spec.read fun s h => ⟨rfl, h⟩) fun p => ?_
  refine Spec.bind spec_reapAgent fun _ => Spec.ite (fun _ => ?_) (fun hp => ?_)
  · refine Spec.update ?_
    rintro s ⟨-, h⟩
    exact h.step (fun _ => id) fun hs => ⟨⟨hs.none, hs.av⟩, (by decide : (-1 : Int) ≤ 0)⟩
  · refine Spec.pure ?_
    rintro s ⟨rfl, h⟩
    exact h.imp fun hs => ⟨hs, by omega⟩

/-- The agent that a failed `switch_root` starts is written down. -/
theorem spec_relaunch {av : List String} :
    Spec (fun s => s.av = av ∧ Unswitched Unmanned s) (do assignSpawn .agent av; noteRelaunch)
      (Unswitched Sole) (fun _ => Unswitched Manned) := by
  refine Spec.bind (Q := fun _ => Unswitched fun s => (0 < s.agent → OffBle s) → Manned s) ?_
    fun _ => ?_
  · refine Spec.bind (Q := fun p s =>
        Unswitched (fun s => (0 < s.agent → OffBle s) → Manned s) (s.set .agent p)) ?_
      fun p => Spec.update fun s h => h
    refine forkAs_spec (fun s h => h.2.imp fun hs => hs.none.sole) ?_ ?_
    · exact fun s h => h.2.step (fun _ => id) fun hs _ => hs.unstarted
    · rintro s p hp ⟨rfl, h⟩ -
      exact h.step (fun _ => id) fun hs hoff => hs.started hp (hoff hp)
  · refine Spec.bind (Q := fun s₀ s => s₀ = s ∧
        Unswitched (fun s => (0 < s.agent → OffBle s) → Manned s) s) (Spec.read fun s h => ⟨rfl, h⟩)
      fun s₀ => Spec.ite (fun hagent => ?_) (fun hagent => ?_)
    · refine Spec.update ?_
      rintro s ⟨rfl, h⟩ hun
      have hoff : OffBle s₀ := by
        intro hble
        obtain ⟨e, he, hnot⟩ := hun
        exact hnot (by simp_all [State.log])
      refine h.step (K := Manned) (fun e he => List.mem_append_left _ he) (fun hs => ?_) hun
      have := hs fun _ => hoff
      exact ⟨this.sole, this.ble, this.av⟩
    · refine Spec.pure ?_
      rintro s ⟨rfl, h⟩
      exact h.imp fun h => h fun hpos => absurd hpos hagent

theorem spec_switchInto :
    EndsManned (Unswitched Manned) switchInto := by
  refine Spec.bind spec_dropAgent fun _ => ?_
  have hsole : ∀ s, Unswitched (fun s => Unmanned s ∧ s.agent ≤ 0) s → Unswitched Sole s :=
    fun s h => h.imp fun hs => hs.1.none.sole
  refine Spec.bind (asks_yes.spec hsole) fun _ => Spec.ite (fun _ => ?_) (fun _ => ?_)
  · refine Spec.bind (asks_yes.spec hsole) fun _ => Spec.ite (fun _ => ?_) (fun _ => ?_)
    · exact Spec.halt hsole
    · exact Spec.hang hsole
  · refine Spec.bind (Q := fun av s => s.av = av ∧ Unswitched Unmanned s) (Spec.read fun s h => ?_)
      fun av => spec_relaunch
    exact ⟨rfl, h.imp fun hs => hs.1⟩

theorem spec_switchRoot :
    EndsManned (Unswitched Manned) switchRoot := by
  have hsole : ∀ s, Unswitched Manned s → Unswitched Sole s := fun s h => h.imp fun hs => hs.sole
  refine Spec.bind (asks_text.spec hsole) fun req => ?_
  cases req with
  | none => exact Spec.pure fun s h => h
  | some req =>
    refine Spec.bind (asks_yes.spec hsole) fun _ => Spec.ite (fun _ => spec_switchInto) fun _ => ?_
    exact Spec.pure fun s h => h

/-! ## Leaving Bluetooth -/

/-- A program that leaves the kind of the link as it is. -/
abbrev SameKind {α : Type} (p : Init α) : Prop := Stays (fun s s' => s'.up.kind = s.up.kind) p

theorem Asks.sameKind {α : Type} {p : Init α} (h : Asks p) : SameKind p :=
  Stays.mono h fun _ _ e => e ▸ rfl

theorem sameKind_bind {α β : Type} {p : Init α} {f : α → Init β} (hp : SameKind p)
    (hf : ∀ a, SameKind (f a)) : SameKind (p >>= f) :=
  Stays.bind (R := fun s s' : State => s'.up.kind = s.up.kind) (fun h h' => h'.trans h) hp hf

theorem kind_set (s : State) (x : Slot) (p : Int) : (s.set x p).up.kind = s.up.kind := by
  cases x <;> rfl

theorem sameKind_set (x : Slot) (p : Int) : SameKind (Prog.update (·.set x p)) :=
  Stays.update fun s => kind_set s x p

theorem sameKind_use (r : Reader) (p : Int) : SameKind (Prog.update (·.use r p)) :=
  Stays.update fun _ => rfl

theorem sameKind_poll (p : Int) : SameKind (poll p) := fun _ =>
  poll_spec (fun _ h _ => h ▸ rfl) (fun _ h _ => h ▸ rfl) (fun _ h _ => h ▸ rfl)
    (fun _ h _ => h ▸ rfl)

theorem sameKind_await (p : Int) : SameKind (await p) := fun _ =>
  await_spec (fun _ h _ => h ▸ rfl) (fun _ h _ => h ▸ rfl) (fun _ _ h _ => h ▸ rfl)

theorem sameKind_assignSpawn (x : Slot) (av : List String) : SameKind (assignSpawn x av) :=
  sameKind_bind (fun _ => forkAs_spec (fun _ h => h ▸ rfl) (fun _ h => h ▸ rfl)
    (fun _ _ _ h _ => h ▸ rfl)) fun p => sameKind_set x p

theorem sameKind_stopPolls (p : Int) (n : Nat) : SameKind (stopPolls p n) := by
  induction n with
  | zero => exact (asks_pure _).sameKind
  | succ n ih =>
    refine sameKind_bind (sameKind_use _ _) fun _ => sameKind_bind (sameKind_poll p) fun r => ?_
    refine Stays.ite (fun _ => sameKind_bind asks_sleep.sameKind fun _ => ih) fun _ => ?_
    exact (asks_pure _).sameKind

theorem sameKind_stop (x : Slot) : SameKind (stop x) := by
  refine sameKind_bind (asks_read _).sameKind fun p => sameKind_bind (sameKind_use _ _) fun _ => ?_
  refine Stays.ite (fun _ => (asks_pure _).sameKind) fun _ => ?_
  refine sameKind_bind (sameKind_use _ _) fun _ => ?_
  refine sameKind_bind (sameKind_stopPolls p 20) fun _ => ?_
  refine sameKind_bind (sameKind_use _ _) fun _ => sameKind_bind (sameKind_poll p) fun _ => ?_
  refine Stays.ite (fun _ => ?_) fun _ => sameKind_set x _
  refine sameKind_bind (sameKind_use _ _) fun _ => sameKind_bind (sameKind_use _ _) fun _ => ?_
  exact sameKind_bind (sameKind_await p) fun _ => sameKind_set x _

theorem sameKind_reapIfDead (x : Slot) : SameKind (reapIfDead x) := by
  refine sameKind_bind (asks_read _).sameKind fun p => ?_
  refine Stays.ite (fun _ => (asks_pure _).sameKind) fun _ => ?_
  refine sameKind_bind (sameKind_use _ _) fun _ => sameKind_bind (sameKind_poll p) fun _ => ?_
  refine Stays.ite (fun _ => ?_) fun _ => (asks_pure _).sameKind
  exact sameKind_bind (sameKind_set x _) fun _ => (asks_pure _).sameKind

theorem sameKind_dhcpWait (t : Nat) : SameKind (dhcpWait t) := by
  induction t with
  | zero => exact (asks_pure _).sameKind
  | succ t ih =>
    refine sameKind_bind (asks_read _).sameKind fun p => ?_
    refine Stays.ite (fun _ => (asks_pure _).sameKind) fun _ => ?_
    refine sameKind_bind asks_yes.sameKind fun _ => ?_
    refine Stays.ite (fun _ => (asks_pure _).sameKind) fun _ => ?_
    refine sameKind_bind (sameKind_reapIfDead _) fun _ => ?_
    refine Stays.ite (fun _ => (asks_pure _).sameKind) fun _ => ?_
    exact sameKind_bind asks_sleep.sameKind fun _ => ih

theorem sameKind_dhcp : SameKind dhcp :=
  sameKind_bind (asks_read _).sameKind fun _ =>
    sameKind_bind (sameKind_assignSpawn _ _) fun _ => sameKind_dhcpWait 20

theorem SameKind.offBle {α : Type} {p : Init α} (h : SameKind p) :
    Spec OffBle p (fun _ => True) (fun _ => OffBle) :=
  Stays.spec h (fun _ _ _ _ => trivial) (fun _ _ _ hs e he => hs (e.symm.trans he))

theorem offBle_kind {k : Kind} (hk : k ≠ .ble) : Spec (fun _ => True)
    (setUp fun up => { up with kind := k }) (fun _ => True) (fun _ => OffBle) :=
  Spec.update fun _ _ => hk

/-- A link over IP is not Bluetooth. -/
theorem offBle_ipLink : Spec (fun _ => True) (ipLink cmdline) (fun _ => True)
    (fun r s => r = true → OffBle s) := by
  have hyes : Spec OffBle (pure true : Init Bool) (fun _ => True)
      (fun r s => r = true → OffBle s) := Spec.pure fun s h _ => h
  refine Spec.bind Spec.anything fun _ => Spec.ite (fun _ => ?_) fun _ => ?_
  · refine Spec.bind (Spec.bind (offBle_kind (by decide)) fun _ => ?_) fun _ => hyes
    split
    · exact sameKind_dhcp.offBle
    · exact Spec.pure fun s h => h
  · refine Spec.bind Spec.anything fun _ => Spec.ite (fun _ => ?_) fun _ => ?_
    · exact Spec.bind (offBle_kind (by decide)) fun _ =>
        Spec.bind sameKind_dhcp.offBle fun _ => hyes
    · refine Spec.bind Spec.anything fun _ => Spec.ite (fun _ => ?_) fun _ => ?_
      · exact Spec.bind (offBle_kind (by decide)) fun _ => hyes
      · exact Spec.pure fun s _ h => by cases h

theorem offBle_promoteFromBle : Spec (fun _ => True) (promoteFromBle cmdline) (fun _ => True)
    (fun r s => r ≠ .failed → OffBle s) := by
  refine Spec.bind Spec.anything fun _ => Spec.bind Spec.anything fun _ => ?_
  refine Spec.bind Spec.anything fun _ => ?_
  refine Spec.bind ((offBle_ipLink cmdline).mono (fun _ _ => trivial) (fun _ h => h)
    (fun _ _ h => h)) fun linked => Spec.ite (fun hlinked => ?_) fun _ => ?_
  · have hdone : ∀ r, Spec OffBle (pure r : Init Promotion) (fun _ => True)
        (fun r s => r ≠ .failed → OffBle s) := fun r => Spec.pure fun s h _ => h
    have hstop : SameKind stopBluetooth :=
      sameKind_bind (sameKind_stop _) fun _ =>
        sameKind_bind (sameKind_stop _) fun _ => sameKind_stop _
    refine Spec.bind (hstop.offBle.mono (fun s h => h hlinked) (fun _ h => h) (fun _ _ h => h))
      fun _ => ?_
    refine Spec.bind (asks_read _).sameKind.offBle fun _ => Spec.ite (fun _ => ?_) fun _ => hdone _
    exact Spec.bind (asks_networksChangedFrom _).sameKind.offBle fun _ => hdone _
  · refine Spec.bind Spec.anything fun _ => Spec.bind Spec.anything fun _ => ?_
    exact Spec.pure fun s _ h => absurd rfl h

theorem apart_bind {α β : Type} {p : Init α} {f : α → Init β} (hp : Stays Apart p)
    (hf : ∀ a, Stays Apart (f a)) : Stays Apart (p >>= f) :=
  Stays.bind (fun h h' => h.trans h') hp hf

theorem Asks.apart {α : Type} {p : Init α} (h : Asks p) : Stays Apart p :=
  Stays.mono h fun s _ e => e ▸ Apart.refl s

theorem apart_promoteFromBle : Stays Apart (promoteFromBle cmdline) := by
  refine apart_bind (Stays.update fun s => ⟨rfl, rfl, fun _ => id, fun _ => id⟩) fun _ => ?_
  refine apart_bind (asks_read _).apart fun _ => apart_bind (apart_of_low low_coldplug) fun _ => ?_
  refine apart_bind (apart_of_low (low_ipLink cmdline)) fun _ => Stays.ite (fun _ => ?_) fun _ => ?_
  · refine apart_bind (apart_of_low low_stopBluetooth) fun _ => ?_
    refine apart_bind (asks_read _).apart fun _ => Stays.ite (fun _ => ?_) fun _ => ?_
    · exact apart_bind (asks_networksChangedFrom _).apart fun _ => (asks_pure _).apart
    · exact (asks_pure _).apart
  · refine apart_bind (apart_of_low (low_setUp fun _ => ⟨rfl, rfl, rfl, rfl⟩)) fun _ => ?_
    refine apart_bind (Stays.update fun s => ⟨rfl, rfl, fun _ => id, fun _ => id⟩) fun _ => ?_
    exact (asks_pure _).apart

/-- While the link is Bluetooth there is no agent, in the table or in the variable. -/
structure Silent (s : State) : Prop where
  unmanned : Unmanned s
  agent : s.agent ≤ 0

theorem Silent.manned {s : State} (h : Silent s) : Manned s :=
  ⟨h.unmanned.none.sole, fun _ => h.agent, h.unmanned.av⟩

theorem Silent.apart {s s' : State} (h : Silent s) (h' : Apart s s') : Silent s' :=
  ⟨⟨h'.noAgents h.unmanned.none, h'.av ▸ h.unmanned.av⟩, h'.agent ▸ h.agent⟩

theorem spec_silent {α : Type} {p : Init α} (h : Stays Apart p) :
    Spec (Unswitched Silent) p (Unswitched Sole) (fun _ => Unswitched Silent) := by
  refine h.spec ?_ ?_
  · exact fun s s' hs hp => hs.step hp.trace fun hs => (hs.apart hp).manned.sole
  · exact fun _ s s' hs hp => hs.step hp.trace fun hs => hs.apart hp

theorem spec_promoteFromBle : Spec (Unswitched Silent) (promoteFromBle cmdline) (Unswitched Sole)
    (fun r s => Unswitched Silent s ∧ (r ≠ .failed → OffBle s)) :=
  ((spec_silent (apart_promoteFromBle cmdline)).and (offBle_promoteFromBle cmdline)).mono
    (fun _ h => ⟨h, trivial⟩) (fun _ h => h.1) (fun _ _ h => h)

theorem spec_retryBle :
    EndsManned (Unswitched Silent) (retryBle cmdline) := by
  refine Spec.bind (spec_silent (apart_of_low low_setRetry)) fun _ => ?_
  refine Spec.bind (spec_promoteFromBle cmdline) fun outcome => ?_
  cases outcome with
  | credentials =>
    exact (spec_relink cmdline).mono (fun s h => h.1.imp Silent.manned) (fun _ h => h)
      (fun _ _ h => h)
  | promoted =>
    refine Spec.bind (Q := fun _ => Unswitched fun s => Unmanned s ∧ OffBle s) (Spec.update ?_)
      fun _ => ?_
    · rintro s ⟨h, hoff⟩
      exact h.step (fun _ => id) fun hs =>
        ⟨⟨hs.unmanned.none, agentArgv_program cmdline s.up⟩, hoff (by decide)⟩
    · exact Spec.bind (Spec.read fun s h => ⟨rfl, h⟩) fun av => spec_restart
  | failed => exact Spec.pure fun s h => h.1.imp Silent.manned

/-! ## One iteration -/

theorem Unswitched.sole {s : State} (h : Unswitched Manned s) : Unswitched Sole s :=
  h.imp fun hs => hs.sole

theorem Manned.silent {s : State} (h : Manned s) (hble : s.up.kind = .ble) : Silent s :=
  ⟨⟨h.noAgents hble, h.av⟩, h.ble hble⟩

theorem spec_retryLink :
    EndsManned (Unswitched Manned) (retryLink cmdline) := by
  refine Spec.bind (asks_linkLost.spec fun s h => h.sole) fun _ => ?_
  refine Spec.ite (fun _ => ?_) fun _ => ?_
  · refine Spec.bind (spec_relink cmdline) fun _ => Spec.bind (asks_now.spec fun s h => h.sole) ?_
    exact fun _ => Spec.update fun s h => h.step (fun _ => id) fun hs => ⟨hs.sole, hs.ble, hs.av⟩
  · exact Spec.pure fun s h => h

theorem spec_bleDue : Spec (Unswitched Manned) bleDue (Unswitched Sole)
    (fun r s => Unswitched Manned s ∧ (r = true → s.up.kind = .ble)) := by
  refine Spec.bind (Q := fun k s => s.up.kind = k ∧ Unswitched Manned s)
    (Spec.read fun s h => ⟨rfl, h⟩) fun k => Spec.ite (fun hk => ?_) fun _ => ?_
  · exact (asks_retryDue.spec fun s h => h.2.sole).mono (fun _ h => h) (fun _ h => h)
      (fun _ _ h => ⟨h.2, fun _ => h.1.trans hk⟩)
  · exact Spec.pure fun s h => ⟨h.2, fun e => by cases e⟩

theorem spec_retry :
    EndsManned (Unswitched Manned) (retry cmdline) := by
  refine Spec.bind spec_bleDue fun ble => Spec.ite (fun hble => ?_) fun _ => ?_
  · exact (spec_retryBle cmdline).mono (fun s h => h.1.imp fun hs => hs.silent (h.2 hble))
      (fun _ h => h) (fun _ _ h => h)
  · refine Spec.bind (asks_retryDue.spec fun s h => h.1.sole) fun _ => Spec.ite (fun _ => ?_) ?_
    · exact (spec_retryLink cmdline).mono (fun s h => h.1) (fun _ h => h) (fun _ _ h => h)
    · exact fun _ => Spec.pure fun s h => h.1

theorem spec_log (e : Event) : EndsManned (Unswitched Manned) (log e) :=
  Spec.update fun _ h => h.step (fun _ he => List.mem_append_left _ he) fun hs =>
    ⟨hs.sole, hs.ble, hs.av⟩

theorem spec_handle (flags : Flags) :
    EndsManned (Unswitched Manned) (handle cmdline flags) := by
  refine Spec.bind (asks_yes.spec fun s h => h.sole) fun _ => Spec.ite (fun _ => ?_) fun _ => ?_
  · refine Spec.bind spec_switchRoot fun _ => ?_
    exact Spec.bind ((asks_read _).spec fun s h => h.sole) fun _ => spec_log _
  · refine Spec.bind (asks_newCredentials.spec fun s h => h.sole) fun _ => ?_
    refine Spec.ite (fun _ => spec_relink cmdline) fun _ => ?_
    refine Spec.ite (fun _ => spec_relink cmdline) fun _ => ?_
    exact Spec.ite (fun _ => spec_relink cmdline) fun _ => spec_retry cmdline

theorem Manned.reap {s : State} (h : Manned s) (p : Int) : Manned (s.reap p) := by
  refine ⟨fun q hq => h.sole q ?_, h.ble, h.av⟩
  exact (Frame.reap s p).agents q hq

/-- After `waitpid(-1, …)` has reaped `w`. -/
structure Reaped (w : Int) (s : State) : Prop where
  positive : 0 < w
  gone : s.children.program w = none
  manned : Unswitched Manned s

theorem spec_reapAny : Spec (Unswitched Manned) reapAny (Unswitched Sole)
    (fun r s => match r with
      | none => Unswitched Manned s
      | some (w, _) => Reaped w s) := by
  refine reapAny_spec (fun s h => h.sole) (fun s h => h) ?_
  intro s w st g h hg
  refine ⟨s.children.positive w (by simp [hg]), program_reap_self s w, ?_⟩
  exact h.step (fun _ => id) fun hs => ⟨(hs.reap w).sole, (hs.reap w).ble, (hs.reap w).av⟩

theorem Manned.set {s : State} (h : Manned s) {x : Slot} (hx : x ≠ .agent) (p : Int) :
    Manned (s.set x p) := by
  cases x with
  | agent => exact absurd rfl hx
  | _ => exact ⟨h.sole, h.ble, h.av⟩

theorem spec_set {x : Slot} (hx : x ≠ .agent) (p : Int) :
    EndsManned (Unswitched Manned) (Prog.update (·.set x p) : Init Unit) :=
  Spec.update fun s h => h.step (fun _ he => by simpa using he) fun hs => hs.set hx p

theorem spec_onReaped (flags : Flags) (w : Int) (st : Nat) :
    EndsManned (Reaped w) (onReaped flags w st) := by
  refine Spec.bind (Q := fun s₀ s => s₀ = s ∧ Reaped w s) (Spec.read fun s h => ⟨rfl, h⟩)
    fun s₀ => ?_
  have hpure : ∀ flags, EndsManned (Unswitched Manned) (pure flags : Init Flags) :=
    fun flags => Spec.pure fun s h => h
  have hset : ∀ x : Slot, x ≠ .agent → Spec (fun s => s₀ = s ∧ Reaped w s)
      (Prog.update (·.set x (-1)) : Init Unit) (Unswitched Sole) (fun _ => Unswitched Manned) :=
    fun x hx => (spec_set hx (-1)).mono (fun s h => h.2.manned) (fun _ h => h) (fun _ _ h => h)
  refine Spec.ite (fun _ => Spec.bind (hset _ (by decide)) fun _ => hpure _) fun _ => ?_
  refine Spec.ite (fun hw => ?_) fun _ => ?_
  · -- the agent was the child reaped, so none is left, and the link is not Bluetooth
    refine Spec.bind (spec_restart.mono ?_ (fun _ h => h) (fun _ _ h => h)) fun _ => hpure _
    rintro s ⟨rfl, h⟩
    refine ⟨rfl, h.manned.imp fun hs => ⟨⟨fun q hq => ?_, hs.av⟩, fun hble => ?_⟩⟩
    · rw [(hs.sole q hq).1, ← hw, h.gone] at hq
      cases hq
    · have := hs.ble hble
      have := h.positive
      omega
  refine Spec.ite (fun _ => Spec.bind (hset _ (by decide)) fun _ => ?_) fun _ => ?_
  · refine Spec.ite (fun _ => Spec.ite (fun _ => hpure _) fun _ => ?_) fun _ => hpure _
    refine Spec.bind (asks_networksChanged.spec fun s h => h.sole) fun _ => ?_
    exact Spec.ite (fun _ => hpure _) fun _ => hpure _
  refine Spec.ite (fun _ => Spec.bind (hset _ (by decide)) fun _ => hpure _) fun _ => ?_
  refine Spec.ite (fun _ => ?_) fun _ => Spec.pure fun s h => h.2.manned
  exact Spec.bind ((spec_log _).mono (fun s h => h.2.manned) (fun _ h => h) (fun _ _ h => h))
    fun _ => hpure _

theorem spec_reapLoop : EndsManned (Unswitched Manned) reapLoop := by
  refine Spec.loop (J := fun _ => Unswitched Manned) (fun _ s h => h.sole) (fun flags => ?_) _
  refine Spec.bind spec_reapAny fun r => ?_
  rcases r with _ | ⟨w, st⟩
  · exact Spec.pure fun s h => h
  · exact Spec.bind (spec_onReaped flags w st) fun _ => Spec.pure fun s h => h

theorem spec_keepRelay : EndsManned (Unswitched Manned) keepRelay := by
  refine Spec.bind ((asks_read _).spec fun s h => h.sole) fun _ => ?_
  refine Spec.ite (fun _ => ?_) fun _ => ?_
  · refine Spec.bind (Q := fun _ => Unswitched Manned) ?_ fun p => spec_set (by decide) p
    refine forkAs_spec (fun s h => h.sole) (fun s h => h) ?_
    intro s p hp h _
    refine h.step (fun _ => id) fun hs => ⟨fun q hq => hs.sole q ?_, hs.ble, hs.av⟩
    exact (Frame.born s hp (by decide)).agents q hq
  · exact Spec.pure fun s h => h

theorem spec_keepAgent : EndsManned (Unswitched Manned) keepAgent := by
  refine Spec.bind (Q := fun s₀ s => s₀ = s ∧ Unswitched Manned s) (Spec.read fun s h => ⟨rfl, h⟩)
    fun s₀ => Spec.ite (fun hnone => ?_) fun _ => Spec.pure fun s h => h.2
  refine spec_restart.mono ?_ (fun _ h => h) (fun _ _ h => h)
  rintro s ⟨rfl, h⟩
  exact ⟨rfl, h.imp fun hs => ⟨⟨hs.sole.noAgents hnone.1, hs.av⟩, hnone.2⟩⟩

theorem spec_iteration :
    EndsManned (Unswitched Manned) (iteration cmdline) := by
  refine Spec.bind (Q := fun _ => Unswitched Manned) (Spec.update fun s h => ?_) fun _ => ?_
  · exact h.step (fun _ => id) fun hs => ⟨hs.sole, hs.ble, hs.av⟩
  refine Spec.bind spec_keepRelay fun _ => Spec.bind spec_keepAgent fun _ => ?_
  refine Spec.bind spec_reapLoop fun flags => Spec.bind (spec_handle cmdline flags) fun _ => ?_
  refine Spec.bind ((asks_read _).spec fun s h => h.sole) fun _ => ?_
  refine Spec.bind (spec_log _) fun _ => ?_
  exact asks_sleep.spec fun s h => h.sole

theorem Booted.noAgents {s : State} (h : Booted s) : NoAgents s := by
  intro p hp
  rcases h.others p .agent hp with ⟨hg, -⟩ | hg <;> cases hg

theorem spec_main : Spec Booted (main cmdline) (Unswitched Sole) (fun _ _ => True) := by
  refine Spec.bind (Q := fun _ => Unswitched NoAgents) ?_ fun _ => ?_
  · refine (apart_of_low (low_bringUp cmdline)).spec ?_ ?_
    · exact fun s s' hs h _ => (h.noAgents hs.noAgents).sole
    · exact fun _ s s' hs h _ => h.noAgents hs.noAgents
  refine Spec.bind (spec_setArgv cmdline) fun _ => Spec.bind spec_launchAgent fun _ => ?_
  refine Spec.bind (Q := fun _ => Unswitched Manned) ?_ fun _ => ?_
  · refine Spec.bind (asks_now.spec fun s h => h.sole) fun _ => Spec.update fun s h => ?_
    exact h.step (fun _ => id) fun hs => ⟨hs.sole, hs.ble, hs.av⟩
  · refine Spec.loop (J := fun _ => Unswitched Manned) (fun _ s h => h.sole) (fun _ => ?_) ()
    exact Spec.bind (spec_iteration cmdline) fun _ => Spec.pure fun s h => h

/-- Until a failed `switch_root` starts an agent under Bluetooth, an agent that is left to reap
is the one in `agent`, and there is none while the link is Bluetooth. -/
theorem agents_exclusive {s₀ s : State} (hboot : Booted s₀) (hreached : Reached cmdline s₀ s)
    (hswitch : Event.relaunched .ble ∉ s.trace) :
    (∀ p, s.children.program p = some .agent → p = s.agent) ∧
      (s.up.kind = .ble → ∀ p, s.children.program p ≠ some .agent) := by
  have hsole : Sole s := hreached.of_spec (spec_main cmdline) hboot ⟨_, by simp, hswitch⟩
  exact ⟨fun p hp => (hsole p hp).1, fun hble p hp => (hsole p hp).2 hble⟩

/-- Provisioning succeeds, the machine joins a wired network, and its one agent is started. -/
theorem agents_exclusive_provisioned : ∃ s, Reached bleCmdline .fresh s ∧
    s.children.program 7 = some .agent ∧ ∀ p, s.children.program p = some .agent → p = 7 := by
  have hrun : (main bleCmdline .fresh provisioning).waitsIn
      (fun s => s.agent = 7 ∧ s.children.program 7 = some .agent ∧
        Event.relaunched .ble ∉ s.trace) = true := by
    decide +kernel
  obtain ⟨s, hs, htest⟩ := Reached.of_waitsIn hrun
  obtain ⟨hagent, halive, hswitch⟩ := of_decide_eq_true htest
  refine ⟨s, hs, halive, fun p hp => ?_⟩
  exact ((agents_exclusive bleCmdline booted_fresh hs hswitch).1 p hp).trans hagent

/-- The machine is being provisioned over Bluetooth, with no agent. A request to switch root
names an init that is executable, and then the mount cannot be moved: an agent is started. -/
theorem agent_under_ble : ∃ s, Reached bleCmdline .fresh s ∧ s.up.kind = .ble ∧
    s.children.program 5 = some .agent := by
  have hrun : (main bleCmdline .fresh (bleBoot ++ [.child none, .yes true,
      .text (some "/newroot /sbin/init".toList), .yes true, .yes false, .forked (some 5)])).waitsIn
      (fun s => s.up.kind = .ble ∧ s.children.program 5 = some .agent) = true := by
    decide +kernel
  obtain ⟨s, hs, htest⟩ := Reached.of_waitsIn hrun
  exact ⟨s, hs, of_decide_eq_true htest⟩

end Egdod.Boot
