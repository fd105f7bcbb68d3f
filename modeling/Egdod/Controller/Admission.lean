import Egdod.Controller.Serve

/-! Approve before anything. A connection gets into the session map, and a
request stream onto it, only past its handler's check of `approved`; an agent
executes requests only on a connection that told it so. -/
namespace Egdod.Controller

open Text Posix State StepSystem

section
variable {K : Type} [DecidableEq K] [KeyText K]

/-- The handler's check found the peer approved. -/
def Link.Admitted (l : Link K) : Prop :=
  ∃ read, l.checked = some read ∧ l.peer ∈ (approvedSet read : Finset K)

/-- The points of the handler after a check that passed. -/
def HandlerPc.admits : HandlerPc → Bool
  | .sendApproved => true
  | .insert => true
  | .publishing => true
  | .spawnPaths => true
  | .spawnCloser => true
  | _ => false

/-- Everything past the check has passed it. -/
structure Link.Gated (l : Link K) : Prop where
  unchecked : l.handler = .check → l.checked = none
  handler : l.handler.admits = true → l.Admitted
  sent : l.sent = some .approved → l.Admitted
  admission : l.admission = some .approved → l.Admitted

/-- A check is made once. -/
theorem Link.Changes.checked {file : Option Bytes} {l l' : Link K} {cause : Cause}
    (h : l.Changes file cause l') (hg : l.Gated) {read : Except IoError Bytes}
    (hr : l.checked = some read) :
    l'.checked = some read := by
  cases h with
  | event hm =>
    cases hm with
    | check readable hpc => simp [hg.unchecked hpc] at hr
    | sendPending result | sendApproved result => cases result <;> exact hr
    | _ => exact hr
  | shut generation =>
    unfold Link.shut
    split <;> exact hr
  | _ => exact hr

/-- A check on record is an old one or the one made now. -/
theorem Link.Changes.checked_of {file : Option Bytes} {l l' : Link K} {cause : Cause}
    (h : l.Changes file cause l') {read : Except IoError Bytes} (hr : l'.checked = some read) :
    l.checked = some read ∨ ∃ readable, cause = .event (.check readable) ∧
      read = if readable then ofEntry file else .error .other := by
  cases h with
  | event hm =>
    cases hm with
    | check readable => exact .inr ⟨readable, rfl, (Option.some.inj hr).symm⟩
    | sendPending result | sendApproved result => cases result <;> exact .inl hr
    | _ => exact .inl hr
  | shut generation =>
    unfold Link.shut at hr
    split at hr <;> exact .inl hr
  | _ => exact .inl hr

theorem Link.Changes.admitted {file : Option Bytes} {l l' : Link K} {cause : Cause}
    (h : l.Changes file cause l') (hg : l.Gated) (ha : l.Admitted) : l'.Admitted := by
  obtain ⟨read, hr, hmem⟩ := ha
  exact ⟨read, h.checked hg hr, h.later.peer ▸ hmem⟩

/-- The check itself: whoever passes it is admitted. -/
theorem Link.Gated.check {l : Link K} (hg : l.Gated) (hpc : l.handler = .check)
    (read : Except IoError Bytes) : (l.check read).Gated := by
  have not_yet : ¬ l.Admitted := by
    rintro ⟨read, hr, _⟩
    simp [hg.unchecked hpc] at hr
  rcases l.check_cases read with ⟨hmem, he⟩ | ⟨_, he⟩
  · rw [he]
    exact ⟨by simp, fun _ => ⟨read, rfl, hmem⟩, fun hs => absurd (hg.sent hs) not_yet,
      fun hs => absurd (hg.admission hs) not_yet⟩
  · rw [he]
    exact ⟨by simp, by simp [HandlerPc.admits], fun hs => absurd (hg.sent hs) not_yet,
      fun hs => absurd (hg.admission hs) not_yet⟩

/-- Step lemma for one connection. -/
theorem Link.Changes.gated {file : Option Bytes} {l l' : Link K} {cause : Cause}
    (h : l.Changes file cause l') (hg : l.Gated) : l'.Gated := by
  have keep := h.admitted hg
  cases h with
  | event hm =>
    cases hm with
    | check readable hpc => exact hg.check hpc _
    | sendPending result hpc =>
      cases result with
      | sent => exact ⟨by simp [Link.deliver], by simp [Link.deliver, HandlerPc.admits],
          by simp [Link.deliver], fun hs => keep (hg.admission hs)⟩
      | failed arrives =>
        refine ⟨by simp [Link.deliver], by simp [Link.deliver, HandlerPc.admits], fun hs => ?_,
          fun hs => keep (hg.admission hs)⟩
        cases arrives
        · exact keep (hg.sent hs)
        · simp [Link.deliver] at hs
    | sendApproved result hpc =>
      have ha := keep (hg.handler (by simp [hpc, HandlerPc.admits]))
      cases result <;>
        exact ⟨by simp [Link.deliver], fun _ => ha, fun _ => ha, fun _ => ha⟩
    | closed | spawnCloser =>
      exact ⟨by simp, by simp [HandlerPc.admits], hg.sent, hg.admission⟩
    | spawnPaths hpc =>
      exact ⟨by simp, fun _ => keep (hg.handler (by simp [hpc, HandlerPc.admits])), hg.sent,
        hg.admission⟩
    | readAdmission a hnone hs =>
      refine ⟨hg.unchecked, hg.handler, hg.sent, fun ha => hg.sent ?_⟩
      rw [hs]
      exact ha
    | _ => exact ⟨hg.unchecked, hg.handler, hg.sent, hg.admission⟩
  | inserted hpc =>
    exact ⟨by simp, fun _ => hg.handler (by simp [hpc, HandlerPc.admits]), hg.sent, hg.admission⟩
  | handlerResumed hpc =>
    exact ⟨by simp, fun _ => hg.handler (by simp [hpc, HandlerPc.admits]), hg.sent, hg.admission⟩
  | aborted => exact ⟨by simp, by simp [HandlerPc.admits], hg.sent, hg.admission⟩
  | shut generation =>
    unfold Link.shut
    split
    · exact ⟨hg.unchecked, hg.handler, hg.sent, hg.admission⟩
    · exact hg
  | _ => exact ⟨hg.unchecked, hg.handler, hg.sent, hg.admission⟩

theorem Link.gated_dialled (peer : K) (generation stableId : Nat) (path : Option Path) :
    (Link.dialled peer generation stableId path).Gated :=
  ⟨fun _ => rfl, by simp [Link.dialled, HandlerPc.admits], by simp [Link.dialled],
    by simp [Link.dialled]⟩

/-- The connection is `key`'s and its handler found `key` approved. -/
def Serve.Admitted (s : Serve K) (key : K) (conn : Nat) : Prop :=
  ∃ l, s.links[conn]? = some l ∧ l.peer = key ∧ l.Admitted

/-- The connection a route has picked. -/
def RoutePc.target : RoutePc K → Option (K × Nat)
  | .picked key conn => some (key, conn)
  | .opened key conn => some (key, conn)
  | _ => none

/-- Only admitted connections are in the map, are routed to, or are served. -/
structure Admits (s : Serve K) : Prop where
  gated : ∀ (c : Nat) (l : Link K), s.links[c]? = some l → l.Gated
  sessions : ∀ key session, s.sessions.lookup key = some session → s.Admitted key session.conn
  routes : ∀ (r : Nat) (pc : RoutePc K), s.routes[r]? = some pc → ∀ key conn,
    pc.target = some (key, conn) → s.Admitted key conn
  executed : ∀ conn request, (conn, request) ∈ s.executed →
    ∃ l : Link K, s.links[conn]? = some l ∧ l.admission = some .approved

variable {s s' : Serve K} {a : Action K}

theorem Admits.keeps (h : Admits s) (hm : s.Moves a s') {key : K} {conn : Nat}
    (ha : s.Admitted key conn) : s'.Admitted key conn := by
  obtain ⟨l, hl, hpeer, hadm⟩ := ha
  obtain ⟨l', hl', _, hc, _⟩ := hm.link_to hl
  exact ⟨l', hl', hc.later.peer.trans hpeer, hc.admitted (h.gated conn l hl) hadm⟩

/-- What a step does to the session of a key. -/
theorem Serve.Moves.lookup_cases (hm : s.Moves a s') (key : K) :
    s'.sessions.lookup key = s.sessions.lookup key ∨
    (∃ c since l, a = .insert c since ∧ s.links[c]? = some l ∧ l.handler = .insert ∧
      l.peer = key ∧ s'.sessions.lookup key = some ⟨c, l.stableId, since⟩) ∨
    (∃ c l session, a = .wakeCloser c ∧ s.links[c]? = some l ∧ l.closer = .waiting ∧
      l.isOpen = false ∧ l.peer = key ∧ s.sessions.lookup key = some session ∧
      session.id = l.stableId ∧ s'.sessions.lookup key = none) ∨
    (s.phase = .clearing ∧ s'.sessions.lookup key = none) := by
  cases hm with
  | @insert c since l hl hpc =>
    by_cases hk : l.peer = key
    · subst hk
      exact .inr (.inl ⟨c, since, l, rfl, hl, hpc, rfl, AList.lookup_insert _⟩)
    · exact .inl (AList.lookup_insert_ne (Ne.symm hk))
  | @removed c l session hl hpc ho _ hlook hid =>
    by_cases hk : l.peer = key
    · subst hk
      exact .inr (.inr (.inl ⟨c, l, session, rfl, hl, hpc, ho, rfl, hlook, hid,
        AList.lookup_erase _ _⟩))
    · exact .inl (AList.lookup_erase_ne (Ne.symm hk))
  | clear hp => exact .inr (.inr (.inr ⟨hp, AList.lookup_empty _⟩))
  | _ => exact .inl rfl

/-- A session is one that was there or has just been inserted. -/
theorem Serve.Moves.lookup (hm : s.Moves a s') {key : K} {session : Session}
    (h : s'.sessions.lookup key = some session) :
    s.sessions.lookup key = some session ∨
    ∃ c since l, a = .insert c since ∧ s.links[c]? = some l ∧ l.handler = .insert ∧
      l.peer = key ∧ session = ⟨c, l.stableId, since⟩ := by
  rcases hm.lookup_cases key with he | ⟨c, since, l, ha, hl, hpc, hk, he⟩ |
    ⟨_, _, _, _, _, _, _, _, _, _, he⟩ | ⟨_, he⟩
  · exact .inl (he ▸ h)
  · exact .inr ⟨c, since, l, ha, hl, hpc, hk, Option.some.inj (h.symm.trans he)⟩
  · cases he.symm.trans h
  · cases he.symm.trans h

/-- A route's connection is one it had picked or picks from the map now. -/
theorem Serve.Moves.target (hm : s.Moves a s') {r : Nat} {pc : RoutePc K}
    (h : s'.routes[r]? = some pc) {key : K} {conn : Nat} (ht : pc.target = some (key, conn)) :
    (∃ old : RoutePc K, s.routes[r]? = some old ∧ old.target = some (key, conn)) ∨
    ∃ session, s.sessions.lookup key = some session ∧ session.conn = conn := by
  have set_cases : ∀ (r' : Nat) (new : RoutePc K), (s.routes.set r' new)[r]? = some pc →
      s.routes[r]? = some pc ∨ pc = new := by
    intro r' new hset
    rw [List.getElem?_set] at hset
    split at hset
    · split at hset
      · exact .inr (Option.some.inj hset).symm
      · cases hset
    · exact .inl hset
  cases hm with
  | route selector =>
    rw [List.getElem?_append] at h
    split at h
    · exact .inl ⟨pc, h, ht⟩
    · rw [List.getElem?_singleton] at h
      split at h
      · cases h
        simp [RoutePc.target] at ht
      · cases h
  | @picked r' selector k c hr hpick =>
    rcases set_cases _ _ h with hold | rfl
    · exact .inl ⟨pc, hold, ht⟩
    · obtain ⟨rfl, rfl⟩ : k = key ∧ c = conn := by simpa [RoutePc.target] using ht
      exact .inr (pick_lookup hpick).2
  | missed r' =>
    rcases set_cases _ _ h with hold | rfl
    · exact .inl ⟨pc, hold, ht⟩
    · simp [RoutePc.target] at ht
  | @openBi r' opened k c hr =>
    rcases set_cases _ _ h with hold | rfl
    · exact .inl ⟨pc, hold, ht⟩
    · cases opened with
      | false => simp [RoutePc.target] at ht
      | true =>
        -- the route that opens its stream is the one that had picked
        rw [List.getElem?_set] at h
        split at h
        · rename_i he
          exact .inl ⟨_, he ▸ hr, by simpa [RoutePc.target] using ht⟩
        · exact .inl ⟨_, h, ht⟩
  | _ => exact .inl ⟨pc, h, ht⟩

theorem Serve.Moves.executed (hm : s.Moves a s') {conn : Nat} {request : Request}
    (h : (conn, request) ∈ s'.executed) :
    (conn, request) ∈ s.executed ∨
      ∃ l : Link K, s.links[conn]? = some l ∧ l.admission = some .approved := by
  cases hm with
  | execute r req hr hl hadm =>
    rcases List.mem_append.mp h with hold | hnew
    · exact .inl hold
    · cases List.mem_singleton.mp hnew
      exact .inr ⟨_, hl, hadm⟩
  | _ => exact .inl h

theorem Admits.step (hm : s.Moves a s') (h : Admits s) : Admits s' := by
  refine ⟨fun c l' hl' => ?_, fun key session hlook => ?_, fun r pc hr key conn ht => ?_,
    fun conn request hmem => ?_⟩
  · rcases hm.link_of hl' with ⟨l, hl, _, hc, _⟩ | ⟨peer, stableId, path, _, _, _, rfl⟩
    · exact hc.gated (h.gated c l hl)
    · exact Link.gated_dialled _ _ _ _
  · rcases hm.lookup hlook with hold | ⟨c, since, l, _, hl, hpc, rfl, rfl⟩
    · exact h.keeps hm (h.sessions key session hold)
    · exact h.keeps hm ⟨l, hl, rfl, (h.gated c l hl).handler (by simp [hpc, HandlerPc.admits])⟩
  · rcases hm.target hr ht with ⟨old, hold, ht'⟩ | ⟨session, hlook, rfl⟩
    · exact h.keeps hm (h.routes r old hold key conn ht')
    · exact h.keeps hm (h.sessions key session hlook)
  · have hread : ∃ l : Link K, s.links[conn]? = some l ∧ l.admission = some .approved := by
      rcases hm.executed hmem with hold | hnew
      · exact h.executed conn request hold
      · exact hnew
    obtain ⟨l, hl, hadm⟩ := hread
    obtain ⟨l', hl', hc⟩ := hm.link_to hl
    exact ⟨l', hl', hc.later.admission _ hadm⟩

/-- `serve` as it starts. -/
def Serve.start (approvedFile : Option Bytes) : Serve K := { approvedFile }

theorem Admits.start (file : Option Bytes) : Admits (Serve.start file : Serve K) :=
  ⟨by simp [Serve.start], by simp [Serve.start], by simp [Serve.start], by simp [Serve.start]⟩

/-- The run has checked connection `conn`, and this is what the read of
`approved` gave its handler then. -/
def CheckedOn (start : Serve K) (as : List (Action K)) (conn : Nat)
    (read : Except IoError Bytes) : Prop :=
  ∃ before after readable s, as = before ++ .link conn (.check readable) :: after ∧
    Steps Controller.step always start before s ∧
    read = if readable then ofEntry s.approvedFile else .error .other

/-- Every check on record was made in the run. -/
theorem checked_on {file : Option Bytes} {as : List (Action K)}
    (h : Steps Controller.step always (Serve.start file) as s) :
    ∀ (c : Nat) (l : Link K), s.links[c]? = some l → ∀ read, l.checked = some read →
      CheckedOn (Serve.start file) as c read := by
  refine h.history (P := fun as s => ∀ (c : Nat) (l : Link K), s.links[c]? = some l →
    ∀ read, l.checked = some read → CheckedOn (Serve.start file) as c read) ?_ ?_
  · simp [Serve.start]
  · intro as m a t hpre ih _ hstep c l' hl' read hr
    rcases (step_moves hstep).link_of hl' with ⟨l, hl, cause, hc, ha⟩ | ⟨_, _, _, _, _, _, rfl⟩
    · rcases hc.checked_of hr with hold | ⟨readable, rfl, hread⟩
      · obtain ⟨before, after, readable, m', rfl, hm', hread⟩ := ih c l hl read hold
        exact ⟨before, after ++ [a], readable, m', by simp, hm', hread⟩
      · exact ⟨as, [], readable, m, by rw [ha], hpre, hread⟩
    · simp [Link.dialled] at hr

/-- Connection `conn` is `key`'s, and `key` was in the set parsed from
`approved` when the run checked it. -/
def WasApproved (start : Serve K) (as : List (Action K)) (s : Serve K) (key : K) (conn : Nat) :
    Prop :=
  ∃ l read, s.links[conn]? = some l ∧ l.peer = key ∧ CheckedOn start as conn read ∧
    key ∈ (approvedSet read : Finset K)

theorem Serve.Admitted.wasApproved {file : Option Bytes} {as : List (Action K)} {key : K}
    {conn : Nat} (ha : s.Admitted key conn)
    (h : Steps Controller.step always (Serve.start file) as s) :
    WasApproved (Serve.start file) as s key conn := by
  obtain ⟨l, hl, rfl, read, hr, hmem⟩ := ha
  exact ⟨l, read, hl, rfl, checked_on h conn l hl read hr, hmem⟩

/-- Run theorem: in every run a connection in the session map, a connection a
request stream was opened on and a connection an agent executed a request on
is one whose peer was approved at its check; and such an agent has read
`Admission::Approved`. -/
theorem approve_before_anything {file : Option Bytes} {as : List (Action K)}
    (h : Steps Controller.step always (Serve.start file) as s) :
    (∀ key session, s.sessions.lookup key = some session →
      WasApproved (Serve.start file) as s key session.conn) ∧
    (∀ (r : Nat) key conn, s.routes[r]? = some (.opened key conn) →
      WasApproved (Serve.start file) as s key conn) ∧
    ∀ conn request, (conn, request) ∈ s.executed → ∃ l : Link K, s.links[conn]? = some l ∧
      l.admission = some .approved ∧ WasApproved (Serve.start file) as s l.peer conn := by
  have hinv : Admits s :=
    h.invariant (fun _ _ _ _ hstep hi => hi.step (step_moves hstep)) (Admits.start file)
  refine ⟨fun key session hlook => (hinv.sessions key session hlook).wasApproved h,
    fun r key conn hr => (hinv.routes r _ hr key conn rfl).wasApproved h,
    fun conn request hmem => ?_⟩
  obtain ⟨l, hl, hadm⟩ := hinv.executed conn request hmem
  have ha : s.Admitted l.peer conn := ⟨l, hl, rfl, (hinv.gated conn l hl).admission hadm⟩
  exact ⟨l, hl, hadm, ha.wasApproved h⟩

end

/-- An approved agent dials in and is sent one request. -/
def oneRequest : List (Action NodeId) :=
  [.dial (.filled 1) 0 none, .link 0 (.check true), .link 0 (.send .sent), .insert 0 7,
    .route "any".toList, .pick 0, .openBi 0 true, .link 0 .readAdmission,
    .execute 0 (.exec ["true".toList])]

theorem approve_before_anything_oneRequest :
    ∃ s, Steps step always (Serve.start (some (encode (appendKey [] (NodeId.filled 1)))))
        oneRequest s ∧
      (0, .exec ["true".toList]) ∈ s.executed ∧
      WasApproved (Serve.start (some (encode (appendKey [] (NodeId.filled 1))))) oneRequest s
        (.filled 1) 0 := by
  have hrun : (run step (Serve.start (some (encode (appendKey [] (NodeId.filled 1)))))
      oneRequest).map (fun s => (s.executed, s.routes)) =
      some ([(0, .exec ["true".toList])], [.opened (.filled 1) 0]) := by
    decide +kernel
  obtain ⟨s, hs, hend⟩ := Option.map_eq_some_iff.mp hrun
  obtain ⟨hexec, hroutes⟩ : s.executed = [(0, .exec ["true".toList])] ∧
      s.routes = [.opened (.filled 1) 0] := by simpa using hend
  have hsteps := Steps.of_run (fun _ _ _ => trivial) hs
  exact ⟨s, hsteps, by simp [hexec],
    (approve_before_anything hsteps).2.1 0 (.filled 1) 0 (by simp [hroutes])⟩

end Egdod.Controller
