import Egdod.Controller.Admission

/-! Whether a connected agent can be reached: whether the session map has its
latest connection. The close watcher guards against one order of events, a
redial before the old connection is seen to die. The order it does not guard
against is a handler that inserts an older connection after a newer one. -/
namespace Egdod.Controller

open Text Posix State StepSystem

section
variable {K : Type}

def HandlerPc.running : HandlerPc → Bool
  | .returned => false
  | .aborted => false
  | _ => true

/-- The points of the handler after its insert. -/
def HandlerPc.pastInsert : HandlerPc → Bool
  | .publishing => true
  | .spawnPaths => true
  | .spawnCloser => true
  | _ => false

/-- A task of the connection holds a handle on it. -/
def Link.Handled (l : Link K) : Prop :=
  l.handler.running = true ∨ l.closer = .waiting ∨ l.closer = .publishing

/-- The order in which a handler does things. -/
structure Link.Ordered (l : Link K) : Prop where
  inserted : l.handler.pastInsert = true → l.inserted = true
  returned : l.handler = .returned → l.isOpen = true → l.inserted = true
  closer : l.handler.running = true → l.closer = .absent

theorem Link.ordered_dialled (peer : K) (generation stableId : Nat) (path : Option Path) :
    (Link.dialled peer generation stableId path).Ordered :=
  ⟨by simp [Link.dialled, HandlerPc.pastInsert], by simp [Link.dialled], fun _ => rfl⟩

variable [DecidableEq K] [KeyText K]

theorem Link.Changes.ordered {file : Option Bytes} {l l' : Link K} {cause : Cause}
    (h : l.Changes file cause l') (ho : l.Ordered) : l'.Ordered := by
  cases h with
  | event hm =>
    cases hm with
    | close => exact ⟨ho.inserted, by simp, ho.closer⟩
    | check readable hpc =>
      have hcl := ho.closer (by simp [hpc, HandlerPc.running])
      rcases l.check_cases (if readable then ofEntry file else .error .other) with
        ⟨_, he⟩ | ⟨_, he⟩ <;>
      · rw [he]
        exact ⟨by simp [HandlerPc.pastInsert], by simp, fun _ => hcl⟩
    | sendPending result hpc =>
      have hcl := ho.closer (by simp [hpc, HandlerPc.running])
      cases result <;>
        exact ⟨by simp [Link.deliver, HandlerPc.pastInsert], by simp [Link.deliver], fun _ => hcl⟩
    | sendApproved result hpc =>
      have hcl := ho.closer (by simp [hpc, HandlerPc.running])
      cases result <;>
        exact ⟨by simp [Link.deliver, HandlerPc.pastInsert], by simp [Link.deliver], fun _ => hcl⟩
    | closed hpc hclosed =>
      exact ⟨by simp [HandlerPc.pastInsert], by simp [hclosed], by simp [HandlerPc.running]⟩
    | spawnPaths hpc =>
      have hin := ho.inserted (by simp [hpc, HandlerPc.pastInsert])
      exact ⟨fun _ => hin, by simp, fun _ => ho.closer (by simp [hpc, HandlerPc.running])⟩
    | spawnCloser hpc =>
      have hin := ho.inserted (by simp [hpc, HandlerPc.pastInsert])
      exact ⟨fun _ => hin, fun _ _ => hin, by simp [HandlerPc.running]⟩
    | _ => exact ⟨ho.inserted, ho.returned, ho.closer⟩
  | inserted hpc =>
    exact ⟨fun _ => rfl, by simp, fun _ => ho.closer (by simp [hpc, HandlerPc.running])⟩
  | removed hpc _ | stale hpc _ | closerResumed hpc =>
    refine ⟨ho.inserted, ho.returned, fun hrun => ?_⟩
    cases hpc.symm.trans (ho.closer hrun)
  | handlerResumed hpc =>
    have hin := ho.inserted (by simp [hpc, HandlerPc.pastInsert])
    exact ⟨fun _ => hin, by simp, fun _ => ho.closer (by simp [hpc, HandlerPc.running])⟩
  | aborted => exact ⟨by simp [HandlerPc.pastInsert], by simp, by simp [HandlerPc.running]⟩
  | shut generation =>
    unfold Link.shut
    split
    · exact ⟨ho.inserted, by simp, ho.closer⟩
    · exact ho
  | _ => exact ⟨ho.inserted, ho.returned, ho.closer⟩

/-- A handle that no task holds is not picked up again. -/
theorem Link.Changes.handled {file : Option Bytes} {l l' : Link K} {cause : Cause}
    (h : l.Changes file cause l') (hh : l'.Handled) : l.Handled := by
  cases h with
  | event hm =>
    cases hm with
    | check _ hpc | sendPending _ hpc | sendApproved _ hpc | closed hpc | spawnPaths hpc
    | spawnCloser hpc => exact .inl (by simp [hpc, HandlerPc.running])
    | _ => exact hh
  | inserted hpc | handlerResumed hpc => exact .inl (by simp [hpc, HandlerPc.running])
  | removed hpc | stale hpc => exact .inr (.inl hpc)
  | closerResumed hpc => exact .inr (.inr hpc)
  | aborted => exact .inr (by simpa [Link.Handled, HandlerPc.running] using hh)
  | shut generation =>
    unfold Link.shut at hh
    split at hh <;> exact hh
  | _ => exact hh

/-- A handle on the connection is held, by a task of its own or by the map. -/
def Serve.Held (s : Serve K) (c : Nat) (l : Link K) : Prop :=
  l.Handled ∨ ∃ key session, s.sessions.lookup key = some session ∧ session.conn = c

/-- `stable_id` is unique among connections whose handles are held. -/
def StableIds (s : Serve K) (a : Action K) : Prop :=
  ∀ peer stableId path, a = .dial peer stableId path →
    ∀ (c : Nat) (l : Link K), s.links[c]? = some l → s.Held c l → l.stableId ≠ stableId

/-- A connection is inserted only while no connection the same agent dialled
later has been. -/
def InsertsInOrder (s : Serve K) (a : Action K) : Prop :=
  ∀ c since (l : Link K), a = .insert c since → s.links[c]? = some l →
    ∀ (c' : Nat) (l' : Link K), c < c' → s.links[c']? = some l' → l'.peer = l.peer →
      l'.inserted = false

/-- What an entry of the map says about its connection. -/
structure Entered (s : Serve K) (key : K) (session : Session) (l : Link K) : Prop where
  link : s.links[session.conn]? = some l
  peer : l.peer = key
  id : session.id = l.stableId
  inserted : l.inserted = true
  closer : l.closer = .absent ∨ l.closer = .waiting

/-- The map and the connections behind it. -/
structure Mapped (s : Serve K) : Prop where
  ordered : ∀ (c : Nat) (l : Link K), s.links[c]? = some l → l.Ordered
  entered : ∀ key session, s.sessions.lookup key = some session → ∃ l, Entered s key session l
  generation : ∀ (c : Nat) (l : Link K), s.links[c]? = some l → l.generation ≤ s.generation
  /-- From `ep.close` to the next endpoint nothing of this one is open. -/
  shut : s.phase ≠ .serving → s.phase ≠ .stopping →
    ∀ (c : Nat) (l : Link K), s.links[c]? = some l → l.generation = s.generation →
      l.isOpen = false

variable {s s' : Serve K} {a : Action K}

/-- A close watcher runs once, on its own. -/
theorem Link.Changes.closer {file : Option Bytes} {l l' : Link K} {cause : Cause}
    (h : l.Changes file cause l') (hc : l.closer = .absent ∨ l.closer = .waiting) :
    (l'.closer = .absent ∨ l'.closer = .waiting) ∨ cause = .wakeCloser := by
  cases h with
  | event hm =>
    cases hm with
    | sendPending result | sendApproved result => cases result <;> exact .inl hc
    | spawnCloser => exact .inl (.inr rfl)
    | _ => exact .inl hc
  | removed | stale => exact .inr rfl
  | closerResumed hpc => simp [hpc] at hc
  | shut generation =>
    unfold Link.shut
    split <;> exact .inl hc
  | _ => exact .inl hc

/-- Entries of the map after a step, against the connections before it. -/
theorem Mapped.entered_step (h : Mapped s) (hm : s.Moves a s') {key : K} {session : Session}
    (hlook : s'.sessions.lookup key = some session) : ∃ l, Entered s' key session l := by
  rcases hm.lookup hlook with hold | ⟨c, since, l, rfl, hl, hpc, rfl, rfl⟩
  · obtain ⟨l, he⟩ := h.entered key session hold
    obtain ⟨l', hl', cause, hc, ha⟩ := hm.link_to he.link
    refine ⟨l', hl', hc.later.peer.trans he.peer, he.id.trans hc.later.stableId.symm,
      hc.later.inserted he.inserted, ?_⟩
    rcases hc.closer he.closer with hkeep | rfl
    · exact hkeep
    · -- the entry's own watcher would have taken it out of the map
      exfalso
      cases ha
      cases hm with
      | @removed _ x _ hx =>
        cases he.link.symm.trans hx
        have : (s.sessions.erase l.peer).lookup key = some session := hlook
        simp [he.peer] at this
      | @stale _ x hx _ _ hne =>
        cases he.link.symm.trans hx
        exact hne session (he.peer ▸ hold) he.id
  · obtain ⟨l', hl', cause, hc, ha⟩ := hm.link_to hl
    cases hm with
    | @insert _ _ x hx =>
      cases hl.symm.trans hx
      refine ⟨{ l with handler := .publishing, inserted := true }, ?_, rfl, rfl, rfl,
        .inl ((h.ordered c l hl).closer ?_)⟩
      · exact (getElem?_setLink hl _ c).trans (by simp)
      · simp [hpc, HandlerPc.running]

/-- The generation goes up only with a new endpoint, on which nothing was dialled. -/
theorem Serve.Moves.generation (hm : s.Moves a s') :
    s'.generation = s.generation ∨
      (s.phase = .rebinding ∧ s'.phase = .serving ∧ s'.generation = s.generation + 1) := by
  cases hm with
  | rebind hp => exact .inr ⟨hp, rfl, rfl⟩
  | _ => exact .inl rfl

/-- The endpoint is closed by `shut`, and stays so until the next one. -/
theorem Serve.Moves.closes (hm : s.Moves a s') (h₁ : s'.phase ≠ .serving)
    (h₂ : s'.phase ≠ .stopping) :
    s'.generation = s.generation ∧
      ((s.phase ≠ .serving ∧ s.phase ≠ .stopping) ∨
        s'.links = s.links.map (Link.shut s.generation)) := by
  cases hm with
  | shut => exact ⟨rfl, .inr rfl⟩
  | rebind => exact absurd rfl h₁
  | restart => exact absurd rfl h₂
  | clear hp => exact ⟨rfl, .inl (by simp [hp])⟩
  | store who =>
    refine ⟨rfl, .inl ?_⟩
    rcases resumePhase_cases s.phase who with he | ⟨hc, _⟩
    · exact ⟨fun e => h₁ (he.trans e), fun e => h₂ (he.trans e)⟩
    · simp [hc]
  | _ => exact ⟨rfl, .inl ⟨h₁, h₂⟩⟩

theorem Mapped.step (h : Mapped s) (hm : s.Moves a s') : Mapped s' := by
  refine ⟨fun c l' hl' => ?_, fun key session hlook => h.entered_step hm hlook,
    fun c l' hl' => ?_, ?_⟩
  · rcases hm.link_of hl' with ⟨l, hl, _, hc, _⟩ | ⟨peer, stableId, path, _, _, _, rfl⟩
    · exact hc.ordered (h.ordered c l hl)
    · exact Link.ordered_dialled _ _ _ _
  · have hle : s.generation ≤ s'.generation := by
      rcases hm.generation with he | ⟨_, _, he⟩ <;> omega
    rcases hm.link_of hl' with ⟨l, hl, hc⟩ | ⟨peer, stableId, path, _, _, _, rfl⟩
    · rw [hc.later.generation]
      exact (h.generation c l hl).trans hle
    · exact hle
  · intro h₁ h₂ c l' hl' hgen
    obtain ⟨hsame, hopen | hshut⟩ := hm.closes h₁ h₂
    · rcases hm.link_of hl' with ⟨l, hl, hc⟩ | ⟨_, _, _, _, _, hp, _⟩
      · exact hc.later.closed (h.shut hopen.1 hopen.2 c l hl
          (hc.later.generation.symm.trans (hgen.trans hsame)))
      · exact absurd hp hopen.1
    · rw [hshut, List.getElem?_map] at hl'
      obtain ⟨l, hl, rfl⟩ := Option.map_eq_some_iff.mp hl'
      have : l.generation = s.generation := by
        rw [hsame] at hgen
        unfold Link.shut at hgen
        split at hgen <;> assumption
      simp [Link.shut, this]

/-- Handles are let go, never picked up. -/
theorem Serve.Moves.held (hm : s.Moves a s') {c : Nat} {l l' : Link K}
    (hl : s.links[c]? = some l) (hc : l.ChangesBy s a c l') (hh : s'.Held c l') : s.Held c l := by
  rcases hh with hh | ⟨key, session, hlook, rfl⟩
  · exact .inl (hc.choose_spec.1.handled hh)
  · rcases hm.lookup hlook with hold | ⟨c, since, x, _, hx, hpc, _, rfl⟩
    · exact .inr ⟨key, session, hold, rfl⟩
    · cases hl.symm.trans hx
      exact .inl (.inl (by simp [hpc, HandlerPc.running]))

/-- No later connection of the same agent has been inserted. -/
def Serve.Newest (s : Serve K) (c : Nat) (l : Link K) : Prop :=
  ∀ (c' : Nat) (l' : Link K), c < c' → s.links[c']? = some l' → l'.peer = l.peer →
    l'.inserted = false

/-- The newest connection inserted for an agent is its session, while open. -/
structure Reaches (s : Serve K) : Prop where
  mapped : Mapped s
  distinct : ∀ (c c' : Nat) (l l' : Link K), c ≠ c' → s.links[c]? = some l →
    s.links[c']? = some l' → s.Held c l → s.Held c' l' → l.stableId ≠ l'.stableId
  newest : ∀ (c : Nat) (l : Link K), s.links[c]? = some l → l.inserted = true →
    l.isOpen = true → l.generation = s.generation → s.Newest c l →
    ∃ session, s.sessions.lookup l.peer = some session ∧ session.conn = c

theorem Reaches.distinct_step (h : Reaches s) (hids : StableIds s a) (hm : s.Moves a s')
    {c c' : Nat} {l l' : Link K} (hne : c ≠ c') (hl : s'.links[c]? = some l)
    (hl' : s'.links[c']? = some l') (hh : s'.Held c l) (hh' : s'.Held c' l') :
    l.stableId ≠ l'.stableId := by
  rcases hm.link_of hl with ⟨x, hx, hc⟩ | ⟨peer, stableId, path, ha, hlen, _, rfl⟩
  · rcases hm.link_of hl' with ⟨x', hx', hc'⟩ | ⟨peer, stableId, path, ha, hlen, _, rfl⟩
    · rw [hc.later.stableId, hc'.later.stableId]
      exact h.distinct c c' x x' hne hx hx' (hm.held hx hc hh) (hm.held hx' hc' hh')
    · rw [hc.later.stableId]
      exact hids peer stableId path ha c x hx (hm.held hx hc hh)
  · rcases hm.link_of hl' with ⟨x', hx', hc'⟩ | ⟨_, _, _, _, hlen', _, _⟩
    · rw [hc'.later.stableId]
      exact (hids peer stableId path ha c' x' hx' (hm.held hx' hc' hh')).symm
    · exact absurd (hlen.trans hlen'.symm) hne

/-- Nothing was inserted, so what is newest after a step was so before it. -/
theorem Serve.Moves.newest (hm : s.Moves a s') {c : Nat} {l l' : Link K}
    (hpeer : l'.peer = l.peer) (h : s'.Newest c l') : s.Newest c l := by
  intro d x hd hx hp
  obtain ⟨x', hx', hc⟩ := hm.link_to hx
  have hfalse := h d x' hd hx' (hc.later.peer.trans (hp.trans hpeer.symm))
  by_contra hin
  have := hc.later.inserted (by simpa using hin)
  simp [hfalse] at this

theorem Link.Changes.inserted_of {file : Option Bytes} {l l' : Link K} {cause : Cause}
    (h : l.Changes file cause l') (hin : l'.inserted = true) :
    l.inserted = true ∨ cause = .insert := by
  cases h with
  | event hm =>
    cases hm with
    | sendPending result | sendApproved result => cases result <;> exact .inl hin
    | _ => exact .inl hin
  | inserted => exact .inr rfl
  | shut generation =>
    unfold Link.shut at hin
    split at hin <;> exact .inl hin
  | _ => exact .inl hin

theorem Reaches.newest_step (h : Reaches s) (hin : InsertsInOrder s a) (hm : s.Moves a s')
    {c : Nat} {l' : Link K} (hl' : s'.links[c]? = some l') (hins : l'.inserted = true)
    (hopen : l'.isOpen = true) (hgen : l'.generation = s'.generation) (hnew : s'.Newest c l') :
    ∃ session, s'.sessions.lookup l'.peer = some session ∧ session.conn = c := by
  rcases hm.link_of hl' with ⟨l, hl, cause, hc, ha⟩ | ⟨_, _, _, _, _, _, rfl⟩
  swap
  · simp [Link.dialled] at hins
  have hpeer := hc.later.peer
  have hopen₀ : l.isOpen = true := by
    by_contra hclosed
    have := hc.later.closed (by simpa using hclosed)
    simp [this] at hopen
  have hgen₀ : l.generation = s.generation := by
    rw [hc.later.generation] at hgen
    rcases hm.generation with he | ⟨_, _, he⟩
    · exact hgen.trans he
    · have := h.mapped.generation c l hl
      omega
  rw [hpeer]
  by_cases hcause : cause = .insert
  · subst hcause
    obtain ⟨since, rfl⟩ := ha
    cases hm with
    | @insert _ _ x hx =>
      cases hl.symm.trans hx
      exact ⟨_, AList.lookup_insert _, rfl⟩
  have hins₀ := (hc.inserted_of hins).resolve_right hcause
  obtain ⟨session, hlook, rfl⟩ := h.newest c l hl hins₀ hopen₀ hgen₀ (hm.newest hpeer hnew)
  rcases hm.lookup_cases l.peer with he | ⟨c₀, since, l₀, rfl, hl₀, _, hp, he⟩ |
    ⟨c₀, l₀, session', _, hl₀, hcl, hclosed, hp, hlook', hid, _⟩ | ⟨hphase, _⟩
  · exact ⟨session, he.trans hlook, rfl⟩
  · -- an insert for the same agent: of this connection, or out of order
    rcases Nat.lt_trichotomy session.conn c₀ with hlt | heq | hgt
    · cases hm with
      | @insert _ _ x hx =>
        cases hl₀.symm.trans hx
        have hx' := (getElem?_setLink (s := s) hl₀
          { l₀ with handler := .publishing, inserted := true } c₀).trans (if_pos rfl)
        cases hnew c₀ _ hlt hx' (hp.trans hpeer.symm)
    · exact ⟨_, he, heq.symm⟩
    · have := hin c₀ since l₀ rfl hl₀ session.conn l hgt hl hp.symm
      simp [this] at hins₀
  · -- a watcher removes only its own session, and this connection is open
    obtain ⟨x, hx⟩ := h.mapped.entered l.peer session hlook
    cases hx.link.symm.trans hl
    cases hlook.symm.trans hlook'
    by_cases heq : session.conn = c₀
    · subst heq
      cases hl.symm.trans hl₀
      simp [hclosed] at hopen₀
    · exact absurd (hx.id.symm.trans hid) (h.distinct session.conn c₀ l l₀ heq hl hl₀
        (.inr ⟨_, _, hlook, rfl⟩) (.inl (.inr (.inl hcl))))
  · have := h.mapped.shut (by simp [hphase]) (by simp [hphase]) session.conn l hl hgen₀
    simp [this] at hopen₀

theorem Reaches.step (h : Reaches s) (hids : StableIds s a) (hin : InsertsInOrder s a)
    (hm : s.Moves a s') : Reaches s' :=
  ⟨h.mapped.step hm, fun _ _ _ _ hne hl hl' hh hh' => h.distinct_step hids hm hne hl hl' hh hh',
    fun _ _ hl hins hopen hgen hnew => h.newest_step hin hm hl hins hopen hgen hnew⟩

/-- Run theorem: as long as connections are inserted in the order they were
dialled, the session of an agent is the latest connection it dialled, if that
is open, of the current endpoint, and its handler has returned. And no
session is on a closed connection whose watcher has run. -/
theorem latest_is_reachable {file : Option Bytes} {as : List (Action K)}
    (h : Steps Controller.step (fun s a => StableIds s a ∧ InsertsInOrder s a)
      (Serve.start file) as s) :
    (∀ (c : Nat) (l : Link K), s.links[c]? = some l →
      (∀ (c' : Nat) (l' : Link K), s.links[c']? = some l' → l'.peer = l.peer → c' ≤ c) →
      l.isOpen = true → l.generation = s.generation → l.handler = .returned →
      ∃ session, s.sessions.lookup l.peer = some session ∧ session.conn = c) ∧
    ∀ (c : Nat) (l : Link K), s.links[c]? = some l → l.isOpen = false →
      l.closer = .publishing ∨ l.closer = .finished →
      ∀ key session, s.sessions.lookup key = some session → session.conn ≠ c := by
  have hstart : Mapped (Serve.start file : Serve K) :=
    ⟨by simp [Serve.start], by simp [Serve.start], by simp [Serve.start], by simp [Serve.start]⟩
  have hinv : Reaches s :=
    h.invariant (fun _ _ _ hok hstep hi => hi.step hok.1 hok.2 (step_moves hstep))
      ⟨hstart, by simp [Serve.start], by simp [Serve.start]⟩
  refine ⟨fun c l hl hlast hopen hgen hret => ?_, fun c l hl _ hcl key session hlook he => ?_⟩
  · refine hinv.newest c l hl ((hinv.mapped.ordered c l hl).returned hret hopen) hopen hgen ?_
    intro c' l' hlt hl' hp
    exact absurd (hlast c' l' hl' hp) (Nat.not_le.mpr hlt)
  · obtain ⟨x, hx⟩ := hinv.mapped.entered key session hlook
    subst he
    cases hx.link.symm.trans hl
    rcases hx.closer with h₁ | h₁ <;> rcases hcl with h₂ | h₂ <;> cases h₁.symm.trans h₂

end

section
variable {K : Type} [DecidableEq K] {s : Serve K} {a : Action K}

/-- Whether no `stable_id` is used twice, and inserts come in order. -/
def Serve.inOrder (s : Serve K) : Action K → Bool
  | .dial _ stableId _ => s.links.all fun l => l.stableId ≠ stableId
  | .insert c _ => (s.links[c]?).all fun l =>
      (s.links.drop (c + 1)).all fun l' => l'.peer ≠ l.peer ∨ l'.inserted = false
  | _ => true

theorem inOrder_sound (h : s.inOrder a = true) : StableIds s a ∧ InsertsInOrder s a := by
  constructor
  · rintro peer stableId path rfl c l hl _
    simpa using List.all_eq_true.mp h l (List.mem_of_getElem? hl)
  · rintro c since l rfl hl c' l' hlt hl' hp
    simp only [Serve.inOrder, hl, Option.all_some, List.all_eq_true] at h
    have hmem : l' ∈ s.links.drop (c + 1) := by
      refine List.mem_of_getElem? (i := c' - (c + 1)) ?_
      rw [List.getElem?_drop, show c + 1 + (c' - (c + 1)) = c' by omega]
      exact hl'
    simpa [hp] using h l' hmem

end

/-- An approved connection from its dial to the insert. -/
def admitted (c stableId : Nat) (key : NodeId) : List (Action NodeId) :=
  [.dial key stableId none, .link c (.check true), .link c (.send .sent)]

/-- A handler from its insert to its return. -/
def entered (c : Nat) (key : NodeId) (stableId : Nat) : List (Action NodeId) :=
  [.insert c 7, .snapshot (.handler c) [⟨key, c, stableId, 7⟩], .read (.handler c),
    .read (.handler c), .store (.handler c) true,
    .link c .spawnPaths, .link c .spawnCloser]

/-- `serve` with one approved key. -/
def oneApproved : Serve NodeId := Serve.start (some (encode (appendKey [] (NodeId.filled 1))))

/-- An agent redials after its first connection was entered. -/
def redial : List (Action NodeId) :=
  admitted 0 0 (.filled 1) ++ entered 0 (.filled 1) 0 ++ [.link 0 .giveUp] ++
    admitted 1 1 (.filled 1) ++ entered 1 (.filled 1) 1 ++ [.link 0 .close, .wakeCloser 0]

theorem latest_is_reachable_redial :
    ∃ s, Steps step (fun s a => StableIds s a ∧ InsertsInOrder s a) oneApproved redial s ∧
      ∃ session, s.sessions.lookup (.filled 1) = some session ∧ session.conn = 1 := by
  have hrun : (run (fun s a => if s.inOrder a then step s a else none) oneApproved redial).map
      (fun s => (s.links.length, s.generation, (s.links[1]?).any fun l =>
        l.peer = .filled 1 ∧ l.isOpen = true ∧ l.generation = 0 ∧ l.handler = .returned)) =
      some (2, 0, true) := by
    decide +kernel
  obtain ⟨s, hs, hend⟩ := Option.map_eq_some_iff.mp hrun
  simp only [Prod.mk.injEq, Option.any_eq_true, decide_eq_true_eq] at hend
  obtain ⟨hlen, hgen, l, hl, hpeer, hopen, hgen', hret⟩ := hend
  have hsteps := (Steps.of_check hs).mono fun _ _ hc => inOrder_sound hc
  have hfound := (latest_is_reachable hsteps).1 1 l hl (fun c' l' hl' _ => by
    have := (List.getElem?_eq_some_iff.mp hl').1
    omega) hopen (hgen'.trans hgen.symm) hret
  rw [hpeer] at hfound
  exact ⟨s, hsteps, hfound⟩

/-- A handler that is held up before its insert puts the connection its agent
has given up in place of the new one; the watcher then removes it, and the
agent, connected on an open connection, has no session. -/
theorem latest_unreachable :
    (run step oneApproved
      (admitted 0 0 (.filled 1) ++ [.link 0 .giveUp, .link 0 .close] ++
        admitted 1 1 (.filled 1) ++ entered 1 (.filled 1) 1 ++ entered 0 (.filled 1) 0 ++
        [.wakeCloser 0])).map
      (fun s => (s.sessions.entries, s.links.map fun l => (l.peer, l.isOpen, l.handler))) =
      some ([], [(.filled 1, false, .returned), (.filled 1, true, .returned)]) := by
  decide +kernel

end Egdod.Controller
