import Egdod.Controller.Reachable

/-! Whether `status.json` tells the truth once nothing is in flight. A publish
takes its snapshot under one lock and stores it under another, so an older
snapshot can be stored over a newer one; and a path may change once it was read
for a snapshot that is still being taken. A path watcher compares kinds with
the label it read itself, so it misses a change made before it read the label
and a change of the remote address that keeps the kind. -/
namespace Egdod.Controller

open Text Posix State StepSystem

section
variable {K : Type}

/-- A path change is on its way to be published. -/
def Link.PathsDue (l : Link K) : Prop :=
  (∃ change, l.watcher = .sending change) ∨ l.queue ≠ []

/-- The watcher has an event to take and will see another kind than its label. -/
def Link.Detects (l : Link K) : Prop :=
  ∃ last, l.watcher = .watching last ∧ l.events = true ∧ l.kind ≠ last

def HandlerPc.beforePaths : HandlerPc → Bool
  | .spawnCloser => false
  | .returned => false
  | .aborted => false
  | _ => true

def HandlerPc.beforeInsert : HandlerPc → Bool
  | .check => true
  | .sendPending => true
  | .waitClosed => true
  | .sendApproved => true
  | .insert => true
  | _ => false

/-- The order in which a handler spawns its watchers. -/
structure Link.Spawned (l : Link K) : Prop where
  early : l.handler.beforeInsert = true → l.inserted = false
  closer : l.handler = .returned → l.inserted = true → l.closer ≠ .absent
  receiver : l.handler.beforePaths = true → l.receiver = .absent
  watcher : l.receiver = .absent ∨ l.receiver = .starting → l.watcher = .absent

theorem Link.spawned_dialled (peer : K) (generation stableId : Nat) (path : Option Path) :
    (Link.dialled peer generation stableId path).Spawned :=
  ⟨fun _ => rfl, by simp [Link.dialled], fun _ => rfl, fun _ => rfl⟩

variable [DecidableEq K] [KeyText K]

section
variable {file : Option Bytes} {l l' : Link K} {cause : Cause}

theorem Link.Changes.spawned (h : l.Changes file cause l') (hs : l.Spawned) : l'.Spawned := by
  cases h with
  | event hm =>
    cases hm with
    | check readable hpc =>
      have hin := hs.early (by simp [hpc, HandlerPc.beforeInsert])
      have hrec := hs.receiver (by simp [hpc, HandlerPc.beforePaths])
      rcases l.check_cases (if readable then ofEntry file else .error .other) with
        ⟨_, he⟩ | ⟨_, he⟩ <;>
      · rw [he]
        exact ⟨fun _ => hin, by simp, fun _ => hrec, hs.watcher⟩
    | sendPending result hpc | sendApproved result hpc =>
      have hin := hs.early (by simp [hpc, HandlerPc.beforeInsert])
      have hrec := hs.receiver (by simp [hpc, HandlerPc.beforePaths])
      cases result <;> exact ⟨fun _ => hin, by simp [Link.deliver, hin], fun _ => hrec, hs.watcher⟩
    | closed hpc =>
      have hin := hs.early (by simp [hpc, HandlerPc.beforeInsert])
      exact ⟨fun _ => hin, by simp [hin], by simp [HandlerPc.beforePaths], hs.watcher⟩
    | spawnPaths hpc =>
      have hrec := hs.receiver (by simp [hpc, HandlerPc.beforePaths])
      exact ⟨by simp [HandlerPc.beforeInsert], by simp, by simp [HandlerPc.beforePaths],
        fun _ => hs.watcher (.inl hrec)⟩
    | spawnCloser =>
      exact ⟨by simp [HandlerPc.beforeInsert], by simp, by simp [HandlerPc.beforePaths], hs.watcher⟩
    | startPaths hpc =>
      refine ⟨hs.early, hs.closer, fun hb => ?_, by simp⟩
      cases hpc.symm.trans (hs.receiver hb)
    | subscribe hw | label hw | wakePaths _ hw | enqueue _ _ _ hw | endPaths _ hw =>
      refine ⟨hs.early, hs.closer, hs.receiver, fun hr => ?_⟩
      cases hw.symm.trans (hs.watcher hr)
    | _ => exact ⟨hs.early, hs.closer, hs.receiver, hs.watcher⟩
  | inserted hpc =>
    have hrec := hs.receiver (by simp [hpc, HandlerPc.beforePaths])
    exact ⟨by simp [HandlerPc.beforeInsert], by simp, fun _ => hrec, hs.watcher⟩
  | removed | stale | closerResumed => exact ⟨hs.early, by simp, hs.receiver, hs.watcher⟩
  | received hq hpc =>
    refine ⟨hs.early, hs.closer, fun hb => ?_, by simp⟩
    cases hpc.symm.trans (hs.receiver hb)
  | handlerResumed hpc =>
    have hrec := hs.receiver (by simp [hpc, HandlerPc.beforePaths])
    exact ⟨by simp [HandlerPc.beforeInsert], by simp, fun _ => hrec, hs.watcher⟩
  | pathsResumed hpc =>
    refine ⟨hs.early, hs.closer, fun hb => ?_, by simp⟩
    cases hpc.symm.trans (hs.receiver hb)
  | aborted =>
    exact ⟨by simp [HandlerPc.beforeInsert], by simp, by simp [HandlerPc.beforePaths], hs.watcher⟩
  | shut generation =>
    unfold Link.shut
    split
    · exact ⟨hs.early, hs.closer, hs.receiver, hs.watcher⟩
    · exact hs
  | same => exact hs

/-- Only a path event changes what a report says. -/
theorem Link.Changes.path (h : l.Changes file cause l')
    (hc : ∀ now, cause ≠ .event (.path now)) : l'.path = l.path := by
  cases h with
  | event hm =>
    cases hm with
    | path now => exact absurd rfl (hc now)
    | check => rfl
    | sendPending result | sendApproved result => cases result <;> rfl
    | _ => rfl
  | shut generation =>
    unfold Link.shut
    split <;> rfl
  | _ => rfl

/-- A change on its way stays so until it is received. -/
theorem Link.Changes.pathsDue (h : l.Changes file cause l') (hs : l.Spawned)
    (hc : cause ≠ .recv) (hp : l.PathsDue) : l'.PathsDue := by
  cases h with
  | event hm =>
    cases hm with
    | sendPending result | sendApproved result => cases result <;> exact hp
    | startPaths hpc =>
      have hw := hs.watcher (.inr hpc)
      exact hp.imp (fun ⟨_, hx⟩ => by cases hx.symm.trans hw) id
    | subscribe hw | label hw | wakePaths _ hw | endPaths _ hw =>
      exact .inr (hp.resolve_left fun ⟨_, hx⟩ => by cases hx.symm.trans hw)
    | enqueue => exact .inr (by simp)
    | _ => exact hp
  | received => exact absurd rfl hc
  | shut generation =>
    unfold Link.shut
    split <;> exact hp
  | _ => exact hp

/-- A change that will be noticed is, unless the connection is gone first. -/
theorem Link.Changes.detects (h : l.Changes file cause l') (hs : l.Spawned)
    (hc : ∀ now, cause ≠ .event (.path now)) (hd : l.Detects) :
    l'.Detects ∨ l'.PathsDue ∨ l'.isOpen = false := by
  obtain ⟨last, hw, hev, hk⟩ := hd
  cases h with
  | event hm =>
    cases hm with
    | path now => exact absurd rfl (hc now)
    | spark => exact .inl ⟨last, hw, by simp [hev], hk⟩
    | sendPending result | sendApproved result => cases result <;> exact .inl ⟨last, hw, hev, hk⟩
    | startPaths hpc => cases hw.symm.trans (hs.watcher (.inr hpc))
    | subscribe hw' | label hw' | enqueue _ _ _ hw' => cases hw.symm.trans hw'
    | wakePaths _ hw' =>
      cases hw.symm.trans hw'
      exact .inr (.inl (.inl ⟨_, if_neg hk⟩))
    | endPaths _ _ ho => exact .inr (.inr ho)
    | _ => exact .inl ⟨last, hw, hev, hk⟩
  | shut generation =>
    unfold Link.shut
    split <;> exact .inl ⟨last, hw, hev, hk⟩
  | _ => exact .inl ⟨last, hw, hev, hk⟩

end

/-! ## Publishes that are still to come -/

/-- The session map has a session on connection `c`. -/
def Serve.InMap (s : Serve K) (c : Nat) : Prop :=
  ∃ key session, s.sessions.lookup key = some session ∧ session.conn = c

/-- A publish has yet to begin its snapshot, or something will call one: a path
change under way, a session on a closed connection, the restart. -/
def Serve.Due (s : Serve K) : Prop :=
  (∃ who, s.publish who = .due) ∨
  (∃ (c : Nat) (l : Link K), s.links[c]? = some l ∧ l.PathsDue) ∨
  (∃ (c : Nat) (l : Link K), s.links[c]? = some l ∧ s.InMap c ∧ l.isOpen = false) ∨
  s.phase = .stopping ∨ s.phase = .clearing

/-- As `Due`, or a session's watcher will notice its path. -/
def Serve.Owed (s : Serve K) : Prop :=
  s.Due ∨ ∃ (c : Nat) (l : Link K), s.links[c]? = some l ∧ s.InMap c ∧ l.Detects

/-- Snapshots are stored in the order they were taken, and written. -/
def StoresInOrder (s : Serve K) (a : Action K) : Prop :=
  ∀ who written seq list, a = .store who written → s.publish who = .holding seq list →
    s.stored ≤ seq ∧ written = true

/-- A session's selected path changes only while a publish is due, or to a
kind its watcher will notice, or to what reports the same. -/
def PathsNoticed (s : Serve K) (a : Action K) : Prop :=
  ∀ c now (l : Link K), a = .link c (.path now) → s.links[c]? = some l → s.InMap c →
    sessionPathReport now = sessionPathReport l.path ∨ s.Due ∨
      ∃ last, l.watcher = .watching last ∧ (sessionPathReport now).1 ≠ last

/-- What a restart aborts is gone before the map is cleared. -/
def AbortsInTime (s : Serve K) (a : Action K) : Prop :=
  (∀ c, a = .abort c → s.phase = .stopping ∨ s.phase = .clearing) ∧
  ∀ g, a = .abortCanary g → s.publish (.canary g) = .idle ∨ s.phase = .stopping ∨
    s.phase = .clearing

structure StatusOk (s : Serve K) (a : Action K) : Prop where
  stores : StoresInOrder s a
  paths : PathsNoticed s a
  aborts : AbortsInTime s a

/-- The last snapshot, or the one under way as it will be if no path changes. -/
def Serve.latest (s : Serve K) : List SessionInfo :=
  match s.reading with
  | none => s.snap
  | some r => r.got ++ r.left.map s.info

/-- The latest snapshot lists the map as it is unless a publish is owed, and the
last one has been stored unless its publish is on the way there. -/
structure Published (s : Serve K) : Prop where
  mapped : Mapped s
  spawned : ∀ (c : Nat) (l : Link K), s.links[c]? = some l → l.Spawned
  /-- A session whose handler was aborted is about to be cleared. -/
  alive : ∀ (c : Nat) (l : Link K), s.links[c]? = some l → s.InMap c → l.handler = .aborted →
    s.phase = .stopping ∨ s.phase = .clearing
  reading : ∀ r, s.reading = some r → s.publish r.who = .reading ∧
    ∀ e ∈ r.left, e ∈ s.sessions.entries
  settled : s.Owed ∨ s.latest.Perm s.listing
  numbered : ∀ who seq list, s.publish who = .holding seq list →
    seq ≤ s.clock ∧ (seq = s.clock → list = s.snap)
  kept : (s.stored = s.clock ∧ s.inner = s.snap) ∨
    (∃ who list, s.publish who = .holding s.clock list) ∨ s.phase = .stopping ∨ s.phase = .clearing
  written : s.file = s.inner

variable {s s' : Serve K} {a : Action K}

/-- Reports depend on the selected paths only. -/
theorem Serve.Moves.report (hm : s.Moves a s') (hp : ∀ c now, a ≠ .link c (.path now)) {c : Nat}
    {l : Link K} (hl : s.links[c]? = some l) : s'.report c = s.report c := by
  obtain ⟨l', hl', cause, hc, ha⟩ := hm.link_to hl
  have hpath := hc.path fun now he => hp c now (by rw [he] at ha; exact ha)
  simp [Serve.report, hl, hl', hpath]

theorem Published.info_same (h : Published s) (hm : s.Moves a s')
    (hp : ∀ c now, a ≠ .link c (.path now)) {e : Sigma fun _ : K => Session}
    (he : e ∈ s.sessions.entries) : s'.info e = s.info e := by
  obtain ⟨l, hent⟩ := h.mapped.entered e.1 e.2 (AList.mem_lookup_iff.mpr he)
  simp [Serve.info, hm.report hp hent.link]

omit [DecidableEq K] in
theorem listing_same (hinfo : ∀ e ∈ s.sessions.entries, s'.info e = s.info e)
    (hsess : s'.sessions = s.sessions) : s'.listing = s.listing := by
  unfold Serve.listing
  rw [hsess]
  exact List.map_congr_left hinfo

theorem Published.latest_same (h : Published s)
    (hinfo : ∀ e ∈ s.sessions.entries, s'.info e = s.info e) (hsnap : s'.snap = s.snap)
    (hreading : s'.reading = s.reading) : s'.latest = s.latest := by
  unfold Serve.latest
  rw [hreading, hsnap]
  cases hr : s.reading with
  | none => rfl
  | some r =>
    have hleft := (h.reading r hr).2
    exact congrArg (r.got ++ ·) (List.map_congr_left fun e he => hinfo e (hleft e he))

/-- A step that takes no snapshot and leaves the map alone leaves due what is due. -/
theorem Serve.Due.keeps (h : s.Due) (hsp : ∀ (c : Nat) (l : Link K), s.links[c]? = some l →
      l.Spawned) (hm : s.Moves a s') (hr : ∀ c, a ≠ .recv c) (hsess : s'.sessions = s.sessions)
    (hdue : ∀ who, s.publish who = .due → s'.publish who = .due)
    (hphase : s.phase = .stopping ∨ s.phase = .clearing →
      s'.phase = .stopping ∨ s'.phase = .clearing) : s'.Due := by
  rcases h with ⟨who, hw⟩ | ⟨c, l, hl, hpd⟩ | ⟨c, l, hl, ⟨key, session, hlook, hconn⟩, hcl⟩ | hph
  · exact .inl ⟨who, hdue who hw⟩
  · obtain ⟨l', hl', cause, hc, ha⟩ := hm.link_to hl
    refine .inr (.inl ⟨c, l', hl', hc.pathsDue (hsp c l hl) ?_ hpd⟩)
    rintro rfl
    exact hr c ha
  · obtain ⟨l', hl', hc⟩ := hm.link_to hl
    exact .inr (.inr (.inl ⟨c, l', hl', ⟨key, session, by rw [hsess]; exact hlook, hconn⟩,
      hc.later.closed hcl⟩))
  · exact .inr (.inr (.inr (hphase hph)))

/-- A step that besides changes no path: the latest snapshot is as good as before. -/
theorem Published.settled_keeps (h : Published s) (hm : s.Moves a s')
    (hp : ∀ c now, a ≠ .link c (.path now)) (hr : ∀ c, a ≠ .recv c)
    (hsess : s'.sessions = s.sessions) (hlatest : s'.latest = s.latest)
    (hdue : ∀ who, s.publish who = .due → s'.publish who = .due)
    (hphase : s.phase = .stopping ∨ s.phase = .clearing →
      s'.phase = .stopping ∨ s'.phase = .clearing) : s'.Owed ∨ s'.latest.Perm s'.listing := by
  rcases h.settled with (hd | ⟨c, l, hl, ⟨key, session, hlook, hconn⟩, hd⟩) | hperm
  · exact .inl (.inl (hd.keeps h.spawned hm hr hsess hdue hphase))
  · obtain ⟨l', hl', cause, hc, ha⟩ := hm.link_to hl
    have hin : s'.InMap c := ⟨key, session, by rw [hsess]; exact hlook, hconn⟩
    have hnp : ∀ now, cause ≠ .event (.path now) := fun now he =>
      hp c now (by rw [he] at ha; exact ha)
    rcases hc.detects (h.spawned c l hl) hnp hd with h₁ | h₁ | h₁
    · exact .inl (.inr ⟨c, l', hl', hin, h₁⟩)
    · exact .inl (.inl (.inr (.inl ⟨c, l', hl', h₁⟩)))
    · exact .inl (.inl (.inr (.inr (.inl ⟨c, l', hl', hin, h₁⟩))))
  · rw [hlatest, listing_same (fun _ he => h.info_same hm hp he) hsess]
    exact .inr hperm

/-- One that leaves the snapshot under way alone, too. -/
theorem Published.settled_still (h : Published s) (hm : s.Moves a s')
    (hp : ∀ c now, a ≠ .link c (.path now)) (hr : ∀ c, a ≠ .recv c)
    (hsess : s'.sessions = s.sessions) (hsnap : s'.snap = s.snap)
    (hreading : s'.reading = s.reading)
    (hdue : ∀ who, s.publish who = .due → s'.publish who = .due)
    (hphase : s.phase = .stopping ∨ s.phase = .clearing →
      s'.phase = .stopping ∨ s'.phase = .clearing) : s'.Owed ∨ s'.latest.Perm s'.listing :=
  h.settled_keeps hm hp hr hsess
    (h.latest_same (fun _ he => h.info_same hm hp he) hsnap hreading) hdue hphase

/-- A path change leaves the listing right or a publish owed. -/
theorem Published.settled_path (h : Published s) {c : Nat} {now : Option Path} {l : Link K}
    (hok : PathsNoticed s (.link c (.path now))) (hl : s.links[c]? = some l)
    (hm : s.Moves (.link c (.path now)) s')
    (hs' : s' = s.setLink c { l with path := now, events := l.events || l.watcher.subscribed }) :
    s'.Owed ∨ s'.latest.Perm s'.listing := by
  have hlinks : ∀ d, s'.links[d]? = if d = c then
      some { l with path := now, events := l.events || l.watcher.subscribed }
      else s.links[d]? := fun d => by rw [hs', getElem?_setLink hl]
  have hdue : s.Due → s'.Due := fun hd =>
    hd.keeps h.spawned hm (by simp) (by rw [hs']; rfl) (by rw [hs']; exact fun _ => id)
      (by rw [hs']; exact id)
  have hmap : ∀ d, s'.InMap d ↔ s.InMap d := fun d => by rw [hs']; rfl
  -- where no report changes, a snapshot that was right still is
  have hright : (∀ e ∈ s.sessions.entries, s'.info e = s.info e) → s.latest.Perm s.listing →
      s'.latest.Perm s'.listing := fun hinfo hperm => by
    rw [listing_same hinfo (by rw [hs']; rfl),
      h.latest_same hinfo (by rw [hs']; rfl) (by rw [hs']; rfl)]
    exact hperm
  by_cases hin : s.InMap c
  · rcases hok c now l rfl hl hin with hsame | hd | ⟨last, hw, hk⟩
    · -- the same report: whoever will notice still does
      rcases h.settled with (hd | ⟨d, x, hx, hind, last, hw, hev, hk⟩) | hperm
      · exact .inl (.inl (hdue hd))
      · by_cases hdc : d = c
        · subst hdc
          cases hl.symm.trans hx
          exact .inl (.inr ⟨d, _, (hlinks d).trans (if_pos rfl), (hmap d).mpr hind, last, hw,
            by simp [hev], by simpa [Link.kind, hsame] using hk⟩)
        · exact .inl (.inr ⟨d, x, by rw [hlinks, if_neg hdc]; exact hx, (hmap d).mpr hind, last,
            hw, hev, hk⟩)
      · have hrep : ∀ d, s'.report d = s.report d := fun d => by
          unfold Serve.report
          rw [hlinks]
          split
          · rename_i hdc
            rw [hdc, hl]
            exact hsame
          · rfl
        exact .inr (hright (fun e _ => by simp only [Serve.info, hrep]) hperm)
    · exact .inl (.inl (hdue hd))
    · exact .inl (.inr ⟨c, _, (hlinks c).trans (if_pos rfl), (hmap c).mpr hin, last, hw,
        by simp [hw, WatcherPc.subscribed], hk⟩)
  · rcases h.settled with (hd | ⟨d, x, hx, hind, hdet⟩) | hperm
    · exact .inl (.inl (hdue hd))
    · have hdc : d ≠ c := fun e => hin (e ▸ hind)
      exact .inl (.inr ⟨d, x, by rw [hlinks, if_neg hdc]; exact hx, (hmap d).mpr hind, hdet⟩)
    · refine .inr (hright (fun e he => ?_) hperm)
      have hdc : e.2.conn ≠ c := fun heq => hin ⟨e.1, e.2, AList.mem_lookup_iff.mpr he, heq⟩
      simp only [Serve.info, Serve.report, hlinks, if_neg hdc]

theorem Published.settled_step (h : Published s) (hok : StatusOk s a) (hm : s.Moves a s') :
    s'.Owed ∨ s'.latest.Perm s'.listing := by
  have hm' := hm
  cases hm with
  | insert c => exact .inl (.inl (.inl ⟨.handler c, by simp [Serve.call]⟩))
  | removed c => exact .inl (.inl (.inl ⟨.closer c, by simp [Serve.call]⟩))
  | recv c => exact .inl (.inl (.inl ⟨.paths c, by simp [Serve.call]⟩))
  | tick g => exact .inl (.inl (.inl ⟨.canary g, by simp [Serve.call]⟩))
  | restart => exact .inl (.inl (.inr (.inr (.inr (.inl rfl)))))
  | shut => exact .inl (.inl (.inr (.inr (.inr (.inr rfl)))))
  | abort c => exact .inl (.inl (.inr (.inr (.inr (hok.aborts.1 c rfl)))))
  | abortCanary g =>
    rcases hok.aborts.2 g rfl with hidle | hph
    · refine h.settled_still hm' (by simp) (by simp) rfl rfl rfl (fun who hw => ?_) id
      have hne : who ≠ .canary g := fun e => by simp [e, hidle] at hw
      simpa [hne] using hw
    · exact .inl (.inl (.inr (.inr (.inr hph))))
  | snapshot who order _ hperm => exact .inr (hperm.map _)
  -- reading one more path leaves the snapshot as it was going to be
  | @read who e left got hr =>
    refine h.settled_keeps hm' (by simp) (by simp) rfl ?_ (fun _ => id) id
    simp only [Serve.latest, hr, List.map_cons, List.append_assoc, List.singleton_append]
    rfl
  | @taken who got hr =>
    refine h.settled_keeps hm' (by simp) (by simp) rfl ?_ (fun who' hw => ?_) id
    · simp [Serve.latest, hr]
    · have hne : who' ≠ who := fun e => by
        simp [e, (h.reading _ hr).1] at hw
      exact (Function.update_of_ne hne _ _).trans hw
  | clear _ hr => exact .inr (by simp [Serve.latest, Serve.listing, hr])
  | link c e hl hlm =>
    cases hlm with
    | path now => exact h.settled_path hok.paths hl hm' rfl
    | _ => exact h.settled_still hm' (by simp) (by simp) rfl rfl rfl (fun _ => id) id
  | @store who written seq list hpub =>
    refine h.settled_still hm' (by simp) (by simp) rfl rfl rfl (fun who' hw => ?_) (fun hph => ?_)
    · have hne : who' ≠ who := fun e => by simp [e, hpub] at hw
      exact (Function.update_of_ne hne _ _).trans hw
    · rcases resumePhase_cases s.phase who with he | ⟨hc, _⟩
      · exact hph.imp he.trans he.trans
      · simp [hc] at hph
  | rebind hp =>
    exact h.settled_still hm' (by simp) (by simp) rfl rfl rfl (fun _ => id) (by simp [hp])
  | _ => exact h.settled_still hm' (by simp) (by simp) rfl rfl rfl (fun _ => id) id

/-- Whoever holds a snapshot after an update to something else held it before. -/
theorem holding_of_update {publish : Who → Publish} {who who' : Who} {p : Publish} {seq : Nat}
    {list : List SessionInfo} (hp : ∀ seq list, p ≠ .holding seq list)
    (h : Function.update publish who p who' = .holding seq list) :
    publish who' = .holding seq list := by
  by_cases he : who' = who
  · subst he
    simp only [Function.update_self] at h
    exact absurd h (hp seq list)
  · rwa [Function.update_of_ne he] at h

theorem Published.numbered_step (h : Published s) (hm : s.Moves a s') {who : Who} {seq : Nat}
    {list : List SessionInfo} (hp : s'.publish who = .holding seq list) :
    seq ≤ s'.clock ∧ (seq = s'.clock → list = s'.snap) := by
  -- a snapshot of the next number is held by whoever took it
  have taken : ∀ who' new, Function.update s.publish who' (.holding (s.clock + 1) new) who =
      .holding seq list → seq ≤ s.clock + 1 ∧ (seq = s.clock + 1 → list = new) := by
    intro who' new hu
    by_cases he : who = who'
    · subst he
      simp only [Function.update_self, Publish.holding.injEq] at hu
      exact ⟨hu.1.symm.le, fun _ => hu.2.symm⟩
    · rw [Function.update_of_ne he] at hu
      have := (h.numbered who seq list hu).1
      exact ⟨by omega, by omega⟩
  cases hm with
  | insert | removed | recv | tick | snapshot =>
    exact h.numbered who seq list (holding_of_update (by simp) hp)
  | taken who' => exact taken who' _ hp
  | clear => exact taken .main _ hp
  | store | abort | abortCanary =>
    exact h.numbered who seq list (holding_of_update (by simp) hp)
  | _ => exact h.numbered who seq list hp

theorem Published.kept_step (h : Published s) (hok : StatusOk s a) (hm : s.Moves a s') :
    (s'.stored = s'.clock ∧ s'.inner = s'.snap) ∨
    (∃ who list, s'.publish who = .holding s'.clock list) ∨ s'.phase = .stopping ∨
      s'.phase = .clearing := by
  -- a publish that starts does not touch the snapshots held by others
  have start : ∀ (publish : Who → Publish) who p, s.publish who = .idle ∨ s.publish who = .due →
      publish = Function.update s.publish who p →
      (s.stored = s.clock ∧ s.inner = s.snap) ∨ (∃ who list, publish who = .holding s.clock list) ∨
        s.phase = .stopping ∨ s.phase = .clearing := by
    rintro publish who p hidle rfl
    refine h.kept.imp_right (Or.imp_left ?_)
    rintro ⟨who', list, hw⟩
    have hne : who' ≠ who := fun e => by
      rcases hidle with hidle | hidle <;> simp [e, hidle] at hw
    exact ⟨who', list, by rwa [Function.update_of_ne hne]⟩
  cases hm with
  | insert _ _ _ _ hidle => exact start _ _ _ (.inl hidle) rfl
  | removed _ _ _ _ hidle => exact start _ _ _ (.inl hidle) rfl
  | recv _ _ _ _ hidle => exact start _ _ _ (.inl hidle) rfl
  | tick _ hidle => exact start _ _ _ (.inl hidle) rfl
  | snapshot _ _ hdue => exact start _ _ _ (.inr hdue) rfl
  | taken who => exact .inr (.inl ⟨who, _, Function.update_self _ _ _⟩)
  | clear => exact .inr (.inl ⟨.main, [], by simp⟩)
  | restart => exact .inr (.inr (.inl rfl))
  | shut => exact .inr (.inr (.inr rfl))
  | abort c => exact .inr (.inr (hok.aborts.1 c rfl))
  | abortCanary g =>
    rcases hok.aborts.2 g rfl with hidle | hph
    · exact start _ _ _ (.inl hidle) rfl
    · exact .inr (.inr hph)
  | rebind hp =>
    refine h.kept.imp_right (Or.imp_right ?_)
    simp [hp]
  | @store who written seq list hpub =>
    obtain ⟨hle, hlast⟩ := h.numbered who seq list hpub
    obtain ⟨hord, _⟩ := hok.stores who written seq list rfl hpub
    by_cases hseq : seq = s.clock
    · exact .inl ⟨hseq, hlast hseq⟩
    · rcases h.kept with ⟨hst, _⟩ | ⟨who', list', hw⟩ | hph
      · omega
      · have hne : who' ≠ who := fun e => by
          subst e
          cases hpub.symm.trans hw
          exact hseq rfl
        exact .inr (.inl ⟨who', list', (Function.update_of_ne hne _ _).trans hw⟩)
      · rcases resumePhase_cases s.phase who with he | ⟨hc, _⟩
        · exact .inr (.inr (hph.imp he.trans he.trans))
        · simp [hc] at hph
  | _ => exact h.kept

theorem Link.Changes.aborted_of {file : Option Bytes} {l l' : Link K} {cause : Cause}
    (h : l.Changes file cause l') (ha : l'.handler = .aborted) :
    l.handler = .aborted ∨ cause = .abort := by
  cases h with
  | event hm =>
    cases hm with
    | check readable =>
      rcases l.check_cases (if readable then ofEntry file else .error .other) with
        ⟨_, he⟩ | ⟨_, he⟩ <;> simp [he] at ha
    | sendPending result | sendApproved result => cases result <;> simp [Link.deliver] at ha
    | closed | spawnPaths | spawnCloser => simp at ha
    | _ => exact .inl ha
  | inserted | handlerResumed => simp at ha
  | aborted => exact .inr rfl
  | shut generation =>
    unfold Link.shut at ha
    split at ha <;> exact .inl ha
  | _ => exact .inl ha

theorem Published.alive_step (h : Published s) (hok : StatusOk s a) (hm : s.Moves a s') {c : Nat}
    {l' : Link K} (hl' : s'.links[c]? = some l') (hin : s'.InMap c)
    (hab : l'.handler = .aborted) : s'.phase = .stopping ∨ s'.phase = .clearing := by
  obtain ⟨key, session, hlook, rfl⟩ := hin
  rcases hm.link_of hl' with ⟨l, hl, cause, hc, ha⟩ | ⟨_, _, _, _, _, _, rfl⟩
  swap
  · simp [Link.dialled] at hab
  have before : s.phase = .stopping ∨ s.phase = .clearing := by
    rcases hc.aborted_of hab with hold | rfl
    · rcases hm.lookup hlook with hlook' | ⟨c, since, x, _, hx, hpc, _, rfl⟩
      · exact h.alive session.conn l hl ⟨key, session, hlook', rfl⟩ hold
      · cases hl.symm.trans hx
        cases hpc.symm.trans hold
    · exact hok.aborts.1 _ ha
  cases hm with
  | restart => exact .inl rfl
  | shut => exact .inr rfl
  | clear => simp at hlook
  | rebind hp => simp [hp] at before
  | store who =>
    rcases resumePhase_cases s.phase who with he | ⟨hcl, _⟩
    · exact before.imp he.trans he.trans
    · simp [hcl] at before
  | _ => exact before

/-- A task that holds the lock is neither called nor aborted. -/
theorem reading_of_update {publish : Who → Publish} {who who' : Who} {p : Publish}
    (h : publish who' = .reading) (hp : publish who ≠ .reading) :
    Function.update publish who p who' = .reading := by
  have hne : who' ≠ who := fun e => hp (e ▸ h)
  rwa [Function.update_of_ne hne]

theorem Published.reading_step (h : Published s) (hm : s.Moves a s') {r : Reading K}
    (hr : s'.reading = some r) :
    s'.publish r.who = .reading ∧ ∀ e ∈ r.left, e ∈ s'.sessions.entries := by
  cases hm with
  -- the map changes under its lock, and so never while it is being read
  | insert _ _ _ _ _ hnone | removed _ _ _ _ _ _ _ hnone | clear _ hnone =>
    cases hnone.symm.trans hr
  | snapshot who order _ hperm =>
    cases hr
    exact ⟨Function.update_self _ _ _, fun e he => hperm.mem_iff.mp he⟩
  | read who hreading =>
    cases hr
    obtain ⟨hwho, hleft⟩ := h.reading _ hreading
    exact ⟨hwho, fun e he => hleft e (List.mem_cons_of_mem _ he)⟩
  | taken => cases hr
  | recv _ _ _ _ hidle | tick _ hidle =>
    obtain ⟨hwho, hleft⟩ := h.reading r hr
    exact ⟨reading_of_update hwho (hidle.trans_ne nofun), hleft⟩
  | store _ _ hpub =>
    obtain ⟨hwho, hleft⟩ := h.reading r hr
    exact ⟨reading_of_update hwho (hpub.trans_ne nofun), hleft⟩
  | abort _ _ _ _ hne | abortCanary _ hne =>
    obtain ⟨hwho, hleft⟩ := h.reading r hr
    exact ⟨reading_of_update hwho hne, hleft⟩
  | _ => exact h.reading r hr

theorem Published.step (h : Published s) (hok : StatusOk s a) (hm : s.Moves a s') :
    Published s' := by
  refine ⟨h.mapped.step hm, fun c l' hl' => ?_,
    fun c l' hl' hin hab => h.alive_step hok hm hl' hin hab, fun r hr => h.reading_step hm hr,
    h.settled_step hok hm,
    fun who seq list hp => h.numbered_step hm hp, h.kept_step hok hm, ?_⟩
  · rcases hm.link_of hl' with ⟨l, hl, _, hc, _⟩ | ⟨_, _, _, _, _, _, rfl⟩
    · exact hc.spawned (h.spawned c l hl)
    · exact Link.spawned_dialled _ _ _ _
  · cases hm with
    | @store who written seq list hpub =>
      have hw := (hok.stores who written seq list rfl hpub).2
      exact if_pos hw
    | touch written =>
      cases written
      · exact h.written
      · rfl
    | _ => exact h.written

/-- Nothing is in flight: the main loop serves, every handler has returned or
was aborted, no publish is under way, and no watcher has anything to take. -/
structure Serve.AtRest (s : Serve K) : Prop where
  serving : s.phase = .serving
  publish : ∀ who, s.publish who = .idle
  handler : ∀ (c : Nat) (l : Link K), s.links[c]? = some l → l.handler.running = false
  closer : ∀ (c : Nat) (l : Link K), s.links[c]? = some l → l.closer = .waiting → l.isOpen = true
  watcher : ∀ (c : Nat) (l : Link K), s.links[c]? = some l →
    l.queue = [] ∧ l.watcher ≠ .subscribe ∧ l.watcher ≠ .label ∧
      (∀ change, l.watcher ≠ .sending change) ∧
      ∀ last, l.watcher = .watching last → l.events = false

theorem Published.not_owed (h : Published s) (hr : s.AtRest) : ¬ s.Owed := by
  rintro ((⟨who, hw⟩ | ⟨c, l, hl, hp⟩ | ⟨c, l, hl, hin, hcl⟩ | hph) | ⟨c, l, hl, hin, hd⟩)
  · simp [hr.publish who] at hw
  · obtain ⟨hq, _, _, hs, _⟩ := hr.watcher c l hl
    rcases hp with ⟨change, hw⟩ | hne
    · exact hs change hw
    · exact hne hq
  · -- its close watcher is waiting and has something to see, or it has none
    obtain ⟨key, session, hlook, rfl⟩ := hin
    obtain ⟨x, hx⟩ := h.mapped.entered key session hlook
    cases hx.link.symm.trans hl
    rcases hx.closer with habs | hwait
    · cases hpc : l.handler with
      | returned => exact (h.spawned _ l hl).closer hpc hx.inserted habs
      | aborted =>
        have := h.alive _ l hl ⟨key, session, hlook, rfl⟩ hpc
        simp [hr.serving] at this
      | _ => simpa [hpc, HandlerPc.running] using hr.handler _ l hl
    · simp [hr.closer _ l hl hwait] at hcl
  · simp [hr.serving] at hph
  · obtain ⟨last, hw, hev, _⟩ := hd
    simp [(hr.watcher c l hl).2.2.2.2 last hw] at hev

/-- Run theorem: under `StatusOk`, whenever nothing is in flight the sessions
list of `status.json` has one entry for each session in the map, with its
path and remote as they are. -/
theorem status_true_at_rest {file : Option Bytes} {as : List (Action K)}
    (h : Steps Controller.step StatusOk (Serve.start file) as s) (hr : s.AtRest) :
    s.file.Perm (s.sessions.entries.map fun e =>
      ⟨text e.1, (s.report e.2.conn).1, (s.report e.2.conn).2, e.2.since⟩) := by
  have hstart : Mapped (Serve.start file : Serve K) :=
    ⟨by simp [Serve.start], by simp [Serve.start], by simp [Serve.start], by simp [Serve.start]⟩
  have hp : Published s :=
    h.invariant (fun _ _ _ hok hstep hi => hi.step hok (step_moves hstep))
      ⟨hstart, by simp [Serve.start], by simp [Serve.start], by simp [Serve.start], .inr (.refl _),
        by simp [Serve.start], .inl ⟨rfl, rfl⟩, rfl⟩
  have hlatest := hp.settled.resolve_left (hp.not_owed hr)
  have hsnap : s.snap.Perm s.listing := by
    cases hreading : s.reading with
    | none => simpa [Serve.latest, hreading] using hlatest
    | some r =>
      have hwho := (hp.reading r hreading).1
      simp [hr.publish r.who] at hwho
  rcases hp.kept with ⟨_, hinner⟩ | ⟨who, list, hw⟩ | hph
  · rw [hp.written, hinner]
    exact hsnap
  · simp [hr.publish who] at hw
  · simp [hr.serving] at hph

end

/-! ## Deciding rest

The callers of publishes are not bounded, so a computed run is checked against
the list of those that took part. -/

section
variable {K : Type} {s s' : Serve K} {a : Action K}

/-- The caller whose publish an action moves. -/
def Action.who : Action K → Option Who
  | .insert c _ => some (.handler c)
  | .wakeCloser c => some (.closer c)
  | .recv c => some (.paths c)
  | .snapshot who _ => some who
  | .read who => some who
  | .store who _ => some who
  | .tick g => some (.canary g)
  | .abort c => some (.handler c)
  | .abortCanary g => some (.canary g)
  | .clear => some .main
  | _ => none

/-- Only callers of the list have a publish under way. -/
def Serve.OnlyBy (callers : List Who) (s : Serve K) : Prop :=
  ∀ who, who ∉ callers → s.publish who = .idle

/-- Whether nothing of a connection is in flight. -/
def Link.atRest (l : Link K) : Bool :=
  !l.handler.running && (l.closer ≠ .waiting || l.isOpen) && l.queue.isEmpty &&
    match l.watcher with
    | .absent => true
    | .watching _ => !l.events
    | .ended => true
    | _ => false

def Serve.atRest (callers : List Who) (s : Serve K) : Bool :=
  s.phase = .serving && callers.all (s.publish · = .idle) && s.links.all Link.atRest

theorem atRest_of {callers : List Who} (hby : s.OnlyBy callers) (h : s.atRest callers = true) :
    s.AtRest := by
  simp only [Serve.atRest, Bool.and_eq_true, decide_eq_true_eq, List.all_eq_true] at h
  obtain ⟨⟨hserving, hidle⟩, hlinks⟩ := h
  have hlink : ∀ (c : Nat) (l : Link K), s.links[c]? = some l → l.atRest = true :=
    fun c l hl => hlinks l (List.mem_of_getElem? hl)
  refine ⟨hserving, fun who => ?_, fun c l hl => ?_, fun c l hl hw => ?_, fun c l hl => ?_⟩
  · by_cases hw : who ∈ callers
    · exact hidle who hw
    · exact hby who hw
  all_goals
    have hr := hlink c l hl
    simp only [Link.atRest, Bool.and_eq_true, Bool.or_eq_true, Bool.not_eq_true', ne_eq,
      decide_eq_true_eq, List.isEmpty_iff] at hr
    obtain ⟨⟨⟨hrun, hcl⟩, hq⟩, hwatch⟩ := hr
  · exact hrun
  · simpa [hw] using hcl
  · refine ⟨hq, ?_, ?_, ?_, ?_⟩
    · intro e
      simp [e] at hwatch
    · intro e
      simp [e] at hwatch
    · intro change e
      simp [e] at hwatch
    · intro last e
      simpa [e] using hwatch

variable [DecidableEq K]

/-- Whether an action is one that `StatusOk` admits whatever is due. -/
def Serve.statusOk (s : Serve K) : Action K → Bool
  | .store who written =>
    match s.publish who with
    | .holding seq _ => s.stored ≤ seq && written
    | _ => true
  | .link c (.path now) => (s.links[c]?).all fun l =>
      match l.watcher with
      | .watching last => (sessionPathReport now).1 ≠ last
      | _ => false
  | .abort _ => false
  | .abortCanary _ => false
  | _ => true

theorem statusOk_sound (h : s.statusOk a = true) : StatusOk s a := by
  refine ⟨?_, ?_, ?_, ?_⟩
  · rintro who written seq list rfl hp
    simpa [Serve.statusOk, hp] using h
  · rintro c now l rfl hl _
    simp only [Serve.statusOk, hl, Option.all_some] at h
    split at h
    · rename_i last hw
      exact .inr (.inr ⟨last, hw, by simpa using h⟩)
    · cases h
  · rintro c rfl
    cases h
  · rintro g rfl
    cases h

variable [KeyText K]

theorem Serve.Moves.publish_other (hm : s.Moves a s') {who : Who} (hw : a.who ≠ some who) :
    s'.publish who = s.publish who := by
  cases hm with
  | insert | removed | recv | snapshot | taken | store | tick | abort | abortCanary | clear =>
    exact Function.update_of_ne (fun e => hw (by rw [e]; rfl)) _ _
  | _ => rfl

theorem Serve.OnlyBy.step {callers : List Who} (h : s.OnlyBy callers) (hm : s.Moves a s')
    (ha : a.who.all (· ∈ callers) = true) : s'.OnlyBy callers := by
  intro who hw
  rw [hm.publish_other, h who hw]
  intro he
  simp [he, hw] at ha

end

/-- A connected agent whose path watcher has read its label. -/
def watched (path : Path) : List (Action NodeId) :=
  [.dial (.filled 1) 0 (some path), .link 0 (.check true), .link 0 (.send .sent)] ++
    entered 0 (.filled 1) 0 ++ [.link 0 .startPaths, .link 0 .subscribe, .link 0 .label]

/-- A session that starts relayed and then finds a direct path. -/
def holepunched : List (Action NodeId) :=
  watched (.relayed, "relay".toList) ++
    [.link 0 (.path (some (.directWan, "a".toList))), .link 0 .wakePaths, .link 0 .enqueue,
      .recv 0, .snapshot (.paths 0) [⟨.filled 1, 0, 0, 7⟩], .read (.paths 0), .read (.paths 0),
      .store (.paths 0) true]

theorem status_true_at_rest_holepunched :
    ∃ s, Steps step StatusOk oneApproved holepunched s ∧ s.AtRest ∧
      s.file = [⟨text (NodeId.filled 1), .directWan, "a".toList, 7⟩] ∧
      s.file.Perm (s.sessions.entries.map fun e =>
        ⟨text e.1, (s.report e.2.conn).1, (s.report e.2.conn).2, e.2.since⟩) := by
  have hrun : (run (fun s a => if s.statusOk a && a.who.all (· ∈ [.handler 0, .paths 0]) then
      step s a else none) oneApproved holepunched).map
        (fun s => (s.atRest [.handler 0, .paths 0], s.file)) =
      some (true, [⟨text (NodeId.filled 1), .directWan, "a".toList, 7⟩]) := by
    decide +kernel
  obtain ⟨s, hs, hend⟩ := Option.map_eq_some_iff.mp hrun
  have hsteps : Steps step (fun s a => StatusOk s a ∧ a.who.all (· ∈ [.handler 0, .paths 0]) = true)
      oneApproved holepunched s :=
    (Steps.of_check hs).mono fun s a hc => by
      rw [Bool.and_eq_true] at hc
      exact ⟨statusOk_sound hc.1, hc.2⟩
  have hby : s.OnlyBy [.handler 0, .paths 0] :=
    hsteps.invariant (fun _ _ _ hok hstep hi => hi.step (step_moves hstep) hok.2)
      (fun _ _ => rfl)
  have hrest := atRest_of hby (congrArg Prod.fst hend)
  have hok := hsteps.mono fun _ _ h => h.1
  exact ⟨s, hok, hrest, congrArg Prod.snd hend, status_true_at_rest hok hrest⟩

/-- The remote address changes and the kind does not: the watcher takes the
event, publishes nothing, and `status.json` keeps the old address. -/
theorem status_stale_remote :
    ∃ s, Steps step always oneApproved
        (watched (.directWan, "a".toList) ++
          [.link 0 (.path (some (.directWan, "b".toList))), .link 0 .wakePaths]) s ∧ s.AtRest ∧
      s.file = [⟨text (NodeId.filled 1), .directWan, "a".toList, 7⟩] ∧
      s.listing = [⟨text (NodeId.filled 1), .directWan, "b".toList, 7⟩] := by
  have hrun : (run (fun s a => if a.who.all (· ∈ [.handler 0]) then step s a else none) oneApproved
      (watched (.directWan, "a".toList) ++
        [.link 0 (.path (some (.directWan, "b".toList))), .link 0 .wakePaths])).map
        (fun s => (s.atRest [.handler 0], s.file, s.listing)) =
      some (true, [⟨text (NodeId.filled 1), .directWan, "a".toList, 7⟩],
        [⟨text (NodeId.filled 1), .directWan, "b".toList, 7⟩]) := by
    decide +kernel
  obtain ⟨s, hs, hend⟩ := Option.map_eq_some_iff.mp hrun
  have hsteps : Steps step (fun _ a => a.who.all (· ∈ [.handler 0]) = true) oneApproved _ s :=
    Steps.of_check hs
  have hby : s.OnlyBy [.handler 0] :=
    hsteps.invariant (fun _ _ _ hok hstep hi => hi.step (step_moves hstep) hok) (fun _ _ => rfl)
  simp only [Prod.mk.injEq] at hend
  exact ⟨s, hsteps.mono fun _ _ _ => trivial, atRest_of hby hend.1, hend.2.1, hend.2.2⟩

end Egdod.Controller
