import Egdod.Forward.Transparent

/-! When one end of a tunnel sees the other's end of stream. A task ends a
stream only once it has come to the end of the one it reads, unless something
failed; so in a tunnel where nothing failed, the end that arrives is the one
that was sent, and nothing is missing before it. -/
namespace Egdod.Forward

open Text Posix StepSystem Pipe

/-! ## A task without its messages -/

/-- How far a task is: still talking, splicing, or over before its time. -/
inductive Progress where
  | early
  | splicing (pipe : Side → Direction)
  | gone

def Forwarder.progress : Forwarder → Progress
  | .splicing pipe => .splicing pipe
  | .ended => .gone
  | _ => .early

def Proxy.progress : Proxy → Progress
  | .splicing pipe => .splicing pipe
  | .ended => .gone
  | _ => .early

def Handler.progress : Handler → Progress
  | .splicing pipe => .splicing pipe
  | .ended => .gone
  | _ => .early

/-- The ends of the streams are where they were. -/
structure Ends.SameEnds (c c' : Ends) : Prop where
  nearUp : c'.near.up.closed = c.near.up.closed
  nearDown : c'.near.down.closed = c.near.down.closed
  farUp : c'.far.up.closed = c.far.up.closed
  farDown : c'.far.down.closed = c.far.down.closed

/-- What any of the tasks can do, as far as the ends of streams go. -/
inductive Moves (upSide : Side) : Progress → Ends → Progress → Ends → Prop
  | talk {c c'} : c.SameEnds c' → Moves upSide .early c .early c'
  | enter {c c'} : c.SameEnds c' → Moves upSide .early c (.splicing Pipe.start) c'
  | abandon {c c'} : c.SameEnds c' → Moves upSide .early c .gone c'.drop
  | poll {pipe side e pipe' c c'} : c.poll upSide pipe side e = some (pipe', c') →
      Moves upSide (.splicing pipe) c (.splicing pipe') c'
  | stop {pipe c} : Moves upSide (.splicing pipe) c .gone c.drop

theorem Ends.SameEnds.refl (c : Ends) : c.SameEnds c := ⟨rfl, rfl, rfl, rfl⟩

theorem Ends.sameEnds_putNear (c : Ends) (bs : Bytes) : c.SameEnds (c.putNear bs) :=
  ⟨rfl, rfl, rfl, rfl⟩

theorem Ends.sameEnds_putFar (c : Ends) (bs : Bytes) : c.SameEnds (c.putFar bs) :=
  ⟨rfl, rfl, rfl, rfl⟩

theorem Ends.sameEnds_readNear {c c' : Ends} {bs : Bytes} (h : c.readNear bs = some c') :
    c.SameEnds c' := by
  obtain ⟨up, hread, rfl⟩ := Option.map_eq_some_iff.mp h
  exact ⟨Channel.closed_read hread, rfl, rfl, rfl⟩

theorem Ends.sameEnds_readFar {c c' : Ends} {bs : Bytes} (h : c.readFar bs = some c') :
    c.SameEnds c' := by
  obtain ⟨down, hread, rfl⟩ := Option.map_eq_some_iff.mp h
  exact ⟨rfl, rfl, rfl, Channel.closed_read hread⟩

section
variable {codecs : Copy.Codecs} {agent remote : Str} {c c' : Ends} {e : TaskEvent}

theorem Forwarder.moves {f f' : Forwarder}
    (h : f.step codecs agent remote c e = some (f', c')) :
    Moves .aToB f.progress c f'.progress c' := by
  unfold Forwarder.step at h
  split at h
  case h_1 =>
    split at h <;> cases h
    · exact .talk (.refl c)
    · exact .abandon (.refl c)
  case h_2 =>
    cases h
    exact .abandon (.refl c)
  case h_3 | h_5 =>
    obtain ⟨⟨out, left'⟩, -, hmap⟩ := Option.map_eq_some_iff.mp h
    cases hmap
    split <;> exact .talk (c.sameEnds_putFar out)
  case h_4 =>
    obtain ⟨c₁, hread, h⟩ := Option.bind_eq_some_iff.mp h
    obtain ⟨received, -, h⟩ := Option.map_eq_some_iff.mp h
    have hsame := Ends.sameEnds_readFar hread
    unfold Forwarder.replied at h
    split at h
    · cases h
      exact .talk hsame
    · split at h <;> cases h
      · exact .talk hsame
      · exact .abandon hsame
    · cases h
      exact .abandon hsame
    · cases h
      exact .abandon hsame
  case h_6 =>
    obtain ⟨c₁, hread, h⟩ := Option.bind_eq_some_iff.mp h
    obtain ⟨received, -, h⟩ := Option.map_eq_some_iff.mp h
    have hsame := Ends.sameEnds_readFar hread
    unfold Forwarder.acked at h
    split at h <;> cases h
    · exact .talk hsame
    · exact .enter hsame
    · exact .abandon hsame
    · exact .abandon hsame
  case h_7 =>
    obtain ⟨⟨pipe', c₁⟩, hpoll, h⟩ := Option.map_eq_some_iff.mp h
    cases h
    exact .poll hpoll
  case h_8 | h_10 => cases h
  case h_9 =>
    cases h
    cases f with
    | splicing pipe => exact .stop
    | ended => contradiction
    | _ => exact .abandon (.refl c)

theorem Proxy.moves {p p' : Proxy} (h : p.step codecs c e = some (p', c')) :
    Moves .aToB p.progress c p'.progress c' := by
  unfold Proxy.step at h
  split at h
  case h_1 =>
    obtain ⟨c₁, hread, h⟩ := Option.bind_eq_some_iff.mp h
    obtain ⟨received, -, h⟩ := Option.map_eq_some_iff.mp h
    have hsame := Ends.sameEnds_readNear hread
    unfold Proxy.routed at h
    split at h <;> cases h
    · exact .talk hsame
    · exact .talk hsame
    · exact .abandon hsame
  case h_2 =>
    split at h <;> cases h
    · exact .talk (.refl c)
    · exact .talk (.refl c)
    · exact .abandon (.refl c)
  case h_3 =>
    obtain ⟨⟨out, left'⟩, -, hmap⟩ := Option.map_eq_some_iff.mp h
    dsimp only at hmap
    split at hmap <;> cases hmap
    · exact .abandon (c.sameEnds_putNear out)
    · exact .talk (c.sameEnds_putNear out)
  case h_4 =>
    obtain ⟨⟨out, left'⟩, -, hmap⟩ := Option.map_eq_some_iff.mp h
    cases hmap
    split
    · exact .enter (c.sameEnds_putNear out)
    · exact .talk (c.sameEnds_putNear out)
  case h_5 =>
    obtain ⟨⟨pipe', c₁⟩, hpoll, h⟩ := Option.map_eq_some_iff.mp h
    cases h
    exact .poll hpoll
  case h_6 | h_8 => cases h
  case h_7 =>
    cases h
    cases p with
    | splicing pipe => exact .stop
    | ended => contradiction
    | _ => exact .abandon (.refl c)

theorem Handler.moves {h h' : Handler} {dialled dialled' : Option Str}
    (hstep : h.step codecs c dialled e = some (h', c', dialled')) :
    Moves .bToA h.progress c h'.progress c' := by
  unfold Handler.step at hstep
  split at hstep
  case h_1 =>
    obtain ⟨c₁, hread, hstep⟩ := Option.bind_eq_some_iff.mp hstep
    obtain ⟨received, -, hstep⟩ := Option.map_eq_some_iff.mp hstep
    have hsame := Ends.sameEnds_readNear hread
    cases hstep
    unfold Handler.asked
    split
    · exact .talk hsame
    · exact .talk hsame
    · exact .abandon hsame
    · exact .abandon hsame
  case h_2 | h_3 =>
    split at hstep <;> cases hstep
    · exact .talk (.refl c)
    · exact .abandon (.refl c)
  case h_4 =>
    obtain ⟨⟨out, left'⟩, -, hmap⟩ := Option.map_eq_some_iff.mp hstep
    dsimp only at hmap
    split at hmap <;> cases hmap
    · exact .abandon (c.sameEnds_putNear out)
    · exact .talk (c.sameEnds_putNear out)
  case h_5 =>
    obtain ⟨⟨out, left'⟩, -, hmap⟩ := Option.map_eq_some_iff.mp hstep
    cases hmap
    split
    · exact .enter (c.sameEnds_putNear out)
    · exact .talk (c.sameEnds_putNear out)
  case h_6 =>
    obtain ⟨⟨pipe', c₁⟩, hpoll, hmap⟩ := Option.map_eq_some_iff.mp hstep
    cases hmap
    exact .poll hpoll
  case h_7 | h_9 => cases hstep
  case h_8 =>
    cases hstep
    cases h with
    | splicing pipe => exact .stop
    | ended => contradiction
    | _ => exact .abandon (.refl c)

end

/-! ## One direction -/

/-- A direction between two streams: it has come to the end only of a stream that has ended, and
it alone ends the stream it writes. -/
structure Follows (d : Direction) (src dst : Channel UInt8) : Prop where
  kept : ∃ es, d.Kept es
  atEnd : d.readDone = true → src.closed = true ∧ src.waiting = []
  last : dst.closed = true → d.Ended

/-- A stream that has ended stays as it is, but for its reader. -/
def Settles (c c' : Channel UInt8) : Prop :=
  c.closed = true → c'.closed = true ∧ (c.waiting = [] → c'.waiting = [])

theorem Settles.refl (c : Channel UInt8) : Settles c c := fun h => ⟨h, id⟩

theorem Settles.of_open {c : Channel UInt8} (h : c.closed = false) (c' : Channel UInt8) :
    Settles c c' := fun hclosed => absurd (h.symm.trans hclosed) (by simp)

theorem Settles.close (c : Channel UInt8) : Settles c c.close := fun _ => ⟨rfl, id⟩

section
variable {d d' : Direction} {src src' dst dst' : Channel UInt8} {e : Event}

theorem Follows.start (h : dst.closed = false) : Follows .start src dst :=
  ⟨⟨[], Direction.kept_start⟩, nofun, fun hclosed => absurd (h.symm.trans hclosed) (by simp)⟩

theorem Follows.mono (h : Follows d src dst) (hsrc : Settles src src')
    (hdst : dst'.closed = dst.closed) : Follows d src' dst' where
  kept := h.kept
  atEnd hdone := by
    obtain ⟨hclosed, hwaiting⟩ := h.atEnd hdone
    obtain ⟨hclosed', hkeeps⟩ := hsrc hclosed
    exact ⟨hclosed', hkeeps hwaiting⟩
  last hclosed := h.last (hdst ▸ hclosed)

theorem not_step_of_ended (h : d.Ended) : d.step e ≠ some d' := by
  obtain ⟨copied, hphase⟩ := h
  simp [Direction.step, hphase]

theorem not_reads_of_done {bs : Bytes} (h : d.readDone = true) : d.step (.read bs) ≠ some d' := by
  unfold Direction.step
  split <;> simp_all [Direction.reads]

/-- A poll that is neither a read nor a shutdown does nothing to the ends. -/
theorem pump_ends (h : pump d src dst e = some (d', src', dst')) :
    (d.readDone = true → src' = src) ∧ src'.closed = src.closed ∧
      (e = .eof → src'.closed = true ∧ src'.waiting = []) ∧
      ((∃ ok, e = .shut ok) ∨ dst'.closed = dst.closed) := by
  obtain ⟨d₁, hstep, h⟩ := Option.bind_eq_some_iff.mp h
  cases e with
  | read bs =>
    obtain ⟨src₁, hread, h⟩ := Option.map_eq_some_iff.mp h
    cases h
    exact ⟨fun hdone => absurd hstep (not_reads_of_done hdone), Channel.closed_read hread, nofun,
      .inr rfl⟩
  | eof =>
    dsimp only at h
    split_ifs at h with hend
    cases h
    exact ⟨fun _ => rfl, rfl, fun _ => Channel.atEnd_iff.mp hend, .inr rfl⟩
  | shut ok =>
    cases h
    exact ⟨fun _ => rfl, rfl, nofun, .inl ⟨ok, rfl⟩⟩
  | wrote | readError | writeError | flushed | flushError =>
    cases h
    exact ⟨fun _ => rfl, rfl, nofun, .inr rfl⟩

theorem Follows.pump (h : Follows d src dst) (hpump : pump d src dst e = some (d', src', dst')) :
    Follows d' src' dst' ∧ Settles dst dst' := by
  have hstep := (pump_eq_some hpump).1
  have hopen : dst.closed = false := by
    by_contra hclosed
    exact not_step_of_ended (h.last (by simpa using hclosed)) hstep
  obtain ⟨hsame, hclosed, heof, hshut⟩ := pump_ends hpump
  obtain ⟨es, hkept⟩ := h.kept
  have hkept' := hkept.step hstep
  refine ⟨⟨⟨_, hkept'⟩, ?_, ?_⟩, .of_open hopen _⟩
  · intro hdone
    rw [hkept'.done_iff, List.mem_append, List.mem_singleton, ← hkept.done_iff] at hdone
    rcases hdone with hdone | hnow
    · rw [hsame hdone]
      exact h.atEnd hdone
    · exact heof hnow.symm
  · intro hended
    rcases hshut with ⟨ok, rfl⟩ | hdst
    · unfold Direction.step at hstep
      split at hstep <;> try contradiction
      cases hstep
      exact ⟨_, rfl⟩
    · exact absurd (hopen.symm.trans (hdst ▸ hended)) (by simp)

/-- A stream that was ended by a copy that went well carries all of another that has ended. -/
theorem Follows.whole (h : Follows d src dst) (hwell : d.phase.copied ≠ some false)
    (hclosed : dst.closed = true) : src.closed = true ∧ src.waiting = [] ∧ d.held = d.out := by
  obtain ⟨copied, hphase⟩ := h.last hclosed
  obtain ⟨es, hkept⟩ := h.kept
  have hcopied : d.phase.copied = some true := by
    cases copied with
    | true => rw [hphase]; rfl
    | false => exact absurd (by rw [hphase]; rfl) hwell
  obtain ⟨hdone, hbuf⟩ := hkept.through hcopied
  obtain ⟨hend, hwaiting⟩ := h.atEnd hdone
  exact ⟨hend, hwaiting, Direction.held_of_empty hbuf⟩

end

/-! ## One task -/

/-- A task ends no stream while it talks; then each of its directions follows its stream. -/
structure Closing (upSide downSide : Side) (g : Progress) (c : Ends) : Prop where
  early : g = .early → c.far.up.closed = false ∧ c.near.down.closed = false
  up : ∀ pipe, g = .splicing pipe → Follows (pipe upSide) c.near.up c.far.up
  down : ∀ pipe, g = .splicing pipe → Follows (pipe downSide) c.far.down c.near.down

/-- What a task leaves of the ends of its streams. -/
structure Ends.Settled (c c' : Ends) : Prop where
  farUp : Settles c.far.up c'.far.up
  nearDown : Settles c.near.down c'.near.down
  nearUp : c'.near.up.closed = c.near.up.closed
  farDown : c'.far.down.closed = c.far.down.closed

section
variable {upSide downSide : Side} {g g' : Progress} {c c' : Ends} {near near' far far' : Duplex}

theorem Closing.gone (upSide downSide : Side) (c : Ends) : Closing upSide downSide .gone c :=
  ⟨nofun, nofun, nofun⟩

theorem Closing.moves (hne : upSide ≠ downSide) (h : Closing upSide downSide g c)
    (hmoves : Moves upSide g c g' c') : Closing upSide downSide g' c' ∧ c.Settled c' := by
  cases hmoves with
  | talk hsame =>
    obtain ⟨hup, hdown⟩ := h.early rfl
    exact ⟨⟨fun _ => ⟨hsame.farUp.trans hup, hsame.nearDown.trans hdown⟩, nofun, nofun⟩,
      .of_open hup _, .of_open hdown _, hsame.nearUp, hsame.farDown⟩
  | enter hsame =>
    obtain ⟨hup, hdown⟩ := h.early rfl
    refine ⟨⟨nofun, ?_, ?_⟩, .of_open hup _, .of_open hdown _, hsame.nearUp, hsame.farDown⟩
    · rintro _ ⟨⟩
      exact .start (hsame.farUp.trans hup)
    · rintro _ ⟨⟩
      exact .start (hsame.nearDown.trans hdown)
  | abandon hsame =>
    obtain ⟨hup, hdown⟩ := h.early rfl
    exact ⟨.gone _ _ _, .of_open hup _, .of_open hdown _, hsame.nearUp, hsame.farDown⟩
  | @poll pipe side e pipe' _ _ hpoll =>
    have hup := h.up pipe rfl
    have hdown := h.down pipe rfl
    unfold Ends.poll at hpoll
    split_ifs at hpoll with hside
    · subst hside
      obtain ⟨⟨d, src, dst⟩, hpump, hmap⟩ := Option.map_eq_some_iff.mp hpoll
      cases hmap
      obtain ⟨hfollows, hsettles⟩ := hup.pump hpump
      refine ⟨⟨nofun, ?_, ?_⟩, hsettles, .refl _, (pump_ends hpump).2.1, rfl⟩
      · rintro _ ⟨⟩
        rw [Function.update_self]
        exact hfollows
      · rintro _ ⟨⟩
        rw [Function.update_of_ne hne.symm]
        exact hdown
    · have hother : side = downSide := by
        cases side <;> cases upSide <;> cases downSide <;> simp_all
      subst hother
      obtain ⟨⟨d, src, dst⟩, hpump, hmap⟩ := Option.map_eq_some_iff.mp hpoll
      cases hmap
      obtain ⟨hfollows, hsettles⟩ := hdown.pump hpump
      refine ⟨⟨nofun, ?_, ?_⟩, .refl _, hsettles, rfl, (pump_ends hpump).2.1⟩
      · rintro _ ⟨⟩
        rw [Function.update_of_ne hne]
        exact hup
      · rintro _ ⟨⟩
        rw [Function.update_self]
        exact hfollows
  | stop => exact ⟨.gone _ _ _, .close _, .close _, rfl, rfl⟩

/-- What happens at the other end of a task's near connection. -/
theorem Closing.onNear (h : Closing upSide downSide g ⟨near, far⟩) (hup : Settles near.up near'.up)
    (hdown : near'.down.closed = near.down.closed) : Closing upSide downSide g ⟨near', far⟩ :=
  ⟨fun hg => ⟨(h.early hg).1, hdown.trans (h.early hg).2⟩,
    fun pipe hg => (h.up pipe hg).mono hup rfl,
    fun pipe hg => (h.down pipe hg).mono (.refl _) hdown⟩

theorem Closing.onFar (h : Closing upSide downSide g ⟨near, far⟩)
    (hdown : Settles far.down far'.down) (hup : far'.up.closed = far.up.closed) :
    Closing upSide downSide g ⟨near, far'⟩ :=
  ⟨fun hg => ⟨hup.trans (h.early hg).1, (h.early hg).2⟩,
    fun pipe hg => (h.up pipe hg).mono (.refl _) hup,
    fun pipe hg => (h.down pipe hg).mono hdown rfl⟩

end

/-! ## All three -/

/-- Nothing has failed: the task has not returned early, and neither copy has failed. -/
def Progress.Well : Progress → Prop
  | .early => True
  | .splicing pipe => ∀ side, (pipe side).phase.copied ≠ some false
  | .gone => False

instance : DecidablePred Progress.Well
  | .early => isTrue trivial
  | .splicing pipe => decidable_of_iff
      ((pipe .aToB).phase.copied ≠ some false ∧ (pipe .bToA).phase.copied ≠ some false)
      ⟨fun h side => by cases side; exacts [h.1, h.2], fun h => ⟨h .aToB, h .bToA⟩⟩
  | .gone => isFalse id

structure Tunnel.Well (s : Tunnel) : Prop where
  forwarder : s.forwarder.progress.Well
  proxy : s.proxy.progress.Well
  handler : s.handler.progress.Well

structure Tunnel.Closes (s : Tunnel) : Prop where
  forwarder : Closing .aToB .bToA s.forwarder.progress ⟨s.tcp, s.unix⟩
  proxy : Closing .aToB .bToA s.proxy.progress ⟨s.unix, s.quic⟩
  handler : Closing .bToA .aToB s.handler.progress ⟨s.quic, s.target⟩

section
variable {codecs : Copy.Codecs} {agent remote : Str} {s s' : Tunnel} {as : List Action}

theorem Tunnel.closes_start : Tunnel.start.Closes :=
  ⟨⟨fun _ => ⟨rfl, rfl⟩, nofun, nofun⟩, ⟨fun _ => ⟨rfl, rfl⟩, nofun, nofun⟩,
    ⟨fun _ => ⟨rfl, rfl⟩, nofun, nofun⟩⟩

theorem Tunnel.Closes.step {a : Action} (h : s.Closes)
    (hstep : step codecs agent remote s a = some s') : s'.Closes := by
  obtain ⟨hf, hp, hh⟩ := h
  cases a with
  | client bs =>
    simp only [Forward.step] at hstep
    split_ifs at hstep with hclosed
    cases hstep
    exact ⟨hf.onNear (.of_open (by simpa using hclosed) _) rfl, hp, hh⟩
  | clientEnd =>
    cases hstep
    exact ⟨hf.onNear (.close _) rfl, hp, hh⟩
  | target bs =>
    simp only [Forward.step] at hstep
    split_ifs at hstep with hclosed
    cases hstep
    have hopen : s.target.down.closed = false := by simpa using (not_or.mp hclosed).2
    exact ⟨hf, hp, hh.onFar (.of_open hopen _) rfl⟩
  | targetEnd =>
    simp only [Forward.step] at hstep
    split_ifs at hstep
    cases hstep
    exact ⟨hf, hp, hh.onFar (.close _) rfl⟩
  | forwarder e =>
    obtain ⟨⟨f, c⟩, hmove, hstep⟩ := Option.map_eq_some_iff.mp hstep
    obtain ⟨hown, hsettled⟩ := hf.moves (by decide) (Forwarder.moves hmove)
    cases hstep
    exact ⟨hown, hp.onNear hsettled.farUp hsettled.farDown, hh⟩
  | proxy e =>
    obtain ⟨⟨p, c⟩, hmove, hstep⟩ := Option.map_eq_some_iff.mp hstep
    obtain ⟨hown, hsettled⟩ := hp.moves (by decide) (Proxy.moves hmove)
    cases hstep
    exact ⟨hf.onFar hsettled.nearDown hsettled.nearUp, hown,
      hh.onNear hsettled.farUp hsettled.farDown⟩
  | handler e =>
    obtain ⟨⟨h, c, dialled⟩, hmove, hstep⟩ := Option.map_eq_some_iff.mp hstep
    obtain ⟨hown, hsettled⟩ := hh.moves (by decide) (Handler.moves hmove)
    cases hstep
    exact ⟨hf, hp.onFar hsettled.nearDown hsettled.nearUp, hown⟩

theorem Tunnel.closes_of_steps (h : Steps (Forward.step codecs agent remote) always .start as s) :
    s.Closes :=
  h.invariant (fun _ _ _ _ hstep hs => hs.step hstep) Tunnel.closes_start

theorem Forwarder.progress_eq {f : Forwarder} {pipe : Side → Direction}
    (h : f.progress = .splicing pipe) : f = .splicing pipe := by
  cases f <;> cases h
  rfl

theorem Proxy.progress_eq {p : Proxy} {pipe : Side → Direction}
    (h : p.progress = .splicing pipe) : p = .splicing pipe := by
  cases p <;> cases h
  rfl

theorem Handler.progress_eq {h : Handler} {pipe : Side → Direction}
    (hsplicing : h.progress = .splicing pipe) : h = .splicing pipe := by
  cases h <;> cases hsplicing
  rfl

/-- A task that ended a stream, with nothing failed, has passed on all of another that ended. -/
theorem Closing.whole_up {upSide downSide : Side} {g : Progress} {c : Ends}
    (h : Closing upSide downSide g c) (hwell : g.Well) (hclosed : c.far.up.closed = true) :
    ∃ pipe, g = .splicing pipe ∧ c.near.up.closed = true ∧ c.near.up.waiting = [] ∧
      (pipe upSide).held = (pipe upSide).out := by
  cases g with
  | early => exact absurd ((h.early rfl).1.symm.trans hclosed) (by simp)
  | splicing pipe => exact ⟨pipe, rfl, (h.up pipe rfl).whole (hwell upSide) hclosed⟩
  | gone => exact hwell.elim

theorem Closing.whole_down {upSide downSide : Side} {g : Progress} {c : Ends}
    (h : Closing upSide downSide g c) (hwell : g.Well) (hclosed : c.near.down.closed = true) :
    ∃ pipe, g = .splicing pipe ∧ c.far.down.closed = true ∧ c.far.down.waiting = [] ∧
      (pipe downSide).held = (pipe downSide).out := by
  cases g with
  | early => exact absurd ((h.early rfl).2.symm.trans hclosed) (by simp)
  | splicing pipe => exact ⟨pipe, rfl, (h.down pipe rfl).whole (hwell downSide) hclosed⟩
  | gone => exact hwell.elim

/-- The end that the target sees is the client's. -/
theorem Tunnel.Closes.up (h : s.Closes) (hok : s.Ok codecs agent remote) (hwell : s.Well)
    (hclosed : s.target.up.closed = true) :
    s.tcp.up.closed = true ∧ s.target.up.sent = s.tcp.up.sent := by
  obtain ⟨hpipe, hp, hquic, hwaiting₁, hheld₁⟩ := h.handler.whole_up hwell.handler hclosed
  obtain ⟨ppipe, hq, hunix, hwaiting₂, hheld₂⟩ := h.proxy.whole_up hwell.proxy hquic
  obtain ⟨fpipe, hr, htcp, hwaiting₃, hheld₃⟩ := h.forwarder.whole_up hwell.forwarder hunix
  have hhandler := hok.handler
  have hproxy := hok.proxy
  have hforwarder := hok.forwarder
  rw [Handler.progress_eq hp] at hhandler
  rw [Proxy.progress_eq hq] at hproxy
  rw [Forwarder.progress_eq hr] at hforwarder
  obtain ⟨f, addr, msg, -, hf, -, -, hs₁⟩ := hhandler
  obtain ⟨g, reply, msg', hg, -, hs₂⟩ := hproxy
  obtain ⟨f', g', r, q, -, -, -, hroute, hask, hs₃⟩ := hforwarder
  -- what each task read is what the one before it wrote
  have hquic' : f ++ (hpipe .bToA).held = (ppipe .aToB).out :=
    hs₁.up.taken.symm.trans ((Channel.taken_of_waiting hwaiting₁).trans hs₂.up.sent)
  have hunix' : g ++ (ppipe .aToB).held = r ++ q ++ (fpipe .aToB).out :=
    hs₂.up.taken.symm.trans ((Channel.taken_of_waiting hwaiting₂).trans hs₃.up.sent)
  have htcp' : (fpipe .aToB).held = s.tcp.up.sent :=
    hs₃.up.taken.symm.trans (Channel.taken_of_waiting hwaiting₃)
  rw [hheld₂, ← hquic', List.append_assoc] at hunix'
  have hall : g ++ (f ++ (hpipe .bToA).held) <+: r ++ (q ++ (fpipe .aToB).out) := by rw [hunix']
  obtain ⟨rfl, hrest⟩ := hg.cancel (framed_writeMsg hroute) hall
  obtain ⟨rfl, -⟩ := hf.cancel (framed_writeMsg hask) hrest
  have hsame := List.append_cancel_left (List.append_cancel_left hunix')
  refine ⟨htcp, ?_⟩
  calc s.target.up.sent = (hpipe .bToA).out := hs₁.up.sent
    _ = (fpipe .aToB).out := by rw [← hheld₁, hsame]
    _ = s.tcp.up.sent := by rw [← hheld₃, htcp']

/-- The end that the client sees is the target's. -/
theorem Tunnel.Closes.down (h : s.Closes) (hok : s.Ok codecs agent remote) (hwell : s.Well)
    (hclosed : s.tcp.down.closed = true) :
    s.target.down.closed = true ∧ s.tcp.down.sent = s.target.down.sent := by
  obtain ⟨fpipe, hr, hunix, hwaiting₁, hheld₁⟩ := h.forwarder.whole_down hwell.forwarder hclosed
  obtain ⟨ppipe, hq, hquic, hwaiting₂, hheld₂⟩ := h.proxy.whole_down hwell.proxy hunix
  obtain ⟨hpipe, hp, htarget, hwaiting₃, hheld₃⟩ := h.handler.whole_down hwell.handler hquic
  have hhandler := hok.handler
  have hproxy := hok.proxy
  have hforwarder := hok.forwarder
  rw [Handler.progress_eq hp] at hhandler
  rw [Proxy.progress_eq hq] at hproxy
  rw [Forwarder.progress_eq hr] at hforwarder
  obtain ⟨f, addr, msg, -, -, -, hmsg, hs₁⟩ := hhandler
  obtain ⟨g, reply, msg', -, hmsg', hs₂⟩ := hproxy
  obtain ⟨f', g', r, q, hf', hg', -, -, -, hs₃⟩ := hforwarder
  have hunix' : f' ++ g' ++ (fpipe .bToA).held = msg' ++ (ppipe .bToA).out :=
    hs₃.down.taken.symm.trans ((Channel.taken_of_waiting hwaiting₁).trans hs₂.down.sent)
  have hquic' : (ppipe .bToA).held = msg ++ (hpipe .aToB).out :=
    hs₂.down.taken.symm.trans ((Channel.taken_of_waiting hwaiting₂).trans hs₁.down.sent)
  have htarget' : (hpipe .aToB).held = s.target.down.sent :=
    hs₁.down.taken.symm.trans (Channel.taken_of_waiting hwaiting₃)
  rw [← hheld₂, hquic', List.append_assoc] at hunix'
  have hall : f' ++ (g' ++ (fpipe .bToA).held) <+: msg' ++ (msg ++ (hpipe .aToB).out) := by
    rw [hunix']
  obtain ⟨rfl, hrest⟩ := hf'.cancel (framed_writeMsg hmsg') hall
  obtain ⟨rfl, -⟩ := hg'.cancel (framed_writeMsg hmsg) hrest
  have hsame := List.append_cancel_left (List.append_cancel_left hunix')
  refine ⟨htarget, ?_⟩
  calc s.tcp.down.sent = (fpipe .bToA).out := hs₃.down.sent
    _ = (hpipe .aToB).out := by rw [← hheld₁, hsame]
    _ = s.target.down.sent := by rw [← hheld₃, htarget']

/-- Where no task has returned early and no copy has failed, an end that has come through the
tunnel is the end that went into it, with every byte before it. -/
theorem tunnel_end_genuine (h : Steps (step codecs agent remote) always .start as s)
    (hwell : s.Well) :
    (s.target.up.closed = true → s.tcp.up.closed = true ∧ s.target.up.sent = s.tcp.up.sent) ∧
    (s.tcp.down.closed = true →
      s.target.down.closed = true ∧ s.tcp.down.sent = s.target.down.sent) := by
  have hcloses := Tunnel.closes_of_steps h
  have hok := Tunnel.ok_of_steps h
  exact ⟨hcloses.up hok hwell, hcloses.down hok hwell⟩

end

/-- A direction passes on some bytes and then the end. -/
def carry (side : Side) (bs : Bytes) : List TaskEvent :=
  [.poll side (.read bs), .poll side (.wrote bs.length), .poll side .eof, .poll side .flushed,
    .poll side (.shut true)]

/-- Two bytes each way, and both ends. -/
def conversation : List Action :=
  opening ++ [.clientEnd] ++ (carry .aToB [7, 8]).map .forwarder ++
    (carry .aToB [7, 8]).map .proxy ++ (carry .bToA [7, 8]).map .handler ++
    [.target [9], .target [10], .targetEnd] ++ (carry .aToB [9, 10]).map .handler ++
    (carry .bToA [9, 10]).map .proxy ++ (carry .bToA [9, 10]).map .forwarder

theorem tunnel_end_genuine_conversation :
    ∃ s, Steps (step Postcard.codecs "any".toList sshd) always .start conversation s ∧ s.Well ∧
      s.target.up.closed = true ∧ s.target.up.sent = [7, 8] ∧
      s.target.up.sent = s.tcp.up.sent ∧ s.tcp.down.sent = s.target.down.sent := by
  have hrun : (run (step Postcard.codecs "any".toList sshd) .start conversation).map
      (fun s => ((s.target.up.sent, s.target.up.closed, s.tcp.down.closed),
        decide s.forwarder.progress.Well, decide s.proxy.progress.Well,
        decide s.handler.progress.Well)) =
      some (([7, 8], true, true), true, true, true) := by
    decide +kernel
  obtain ⟨s, hsteps, hview⟩ := exists_steps_of_view hrun
  simp only [Prod.mk.injEq, decide_eq_true_eq] at hview
  obtain ⟨⟨hsent, hup, hdown⟩, hf, hp, hh⟩ := hview
  have hends := tunnel_end_genuine hsteps ⟨hf, hp, hh⟩
  exact ⟨s, hsteps, ⟨hf, hp, hh⟩, hup, hsent, (hends.1 hup).2, (hends.2 hdown).2⟩

end Egdod.Forward
