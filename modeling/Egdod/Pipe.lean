import Egdod.Lib.Parallel
import Egdod.Framing

/-! `splice`: two copies that run side by side until both are through. Each
copies what its reader produces into its writer and then shuts the writer
down, whichever way the copy ended. -/
namespace Egdod.Pipe

open Posix StepSystem Parallel

/-! ## One direction -/

/-- What the halves of one direction do when they are polled. -/
inductive Event where
  | read (bs : Bytes)
  | eof
  | readError
  /-- The writer took the next `n` bytes. -/
  | wrote (n : Nat)
  | writeError
  | flushed
  | flushError
  /-- `shutdown` returned, with an error or without. -/
  | shut (ok : Bool)
  deriving DecidableEq

/-- Copying, or on the way through `shutdown` after a copy that ended well or not, or done. -/
inductive Phase where
  | copying
  | shutting (copied : Bool)
  | ended (copied : Bool)
  deriving DecidableEq

/-- A copy with its buffer, of which `pos` bytes are written; `out` is what the
writer has been given. -/
structure Direction where
  phase : Phase
  buf : Bytes
  pos : Nat
  readDone : Bool
  needFlush : Bool
  out : Bytes
  deriving DecidableEq

def Direction.start : Direction := ⟨.copying, [], 0, false, false, []⟩

/-- The size of the buffer of `tokio::io::copy`. -/
def bufSize : Nat := 8192

/-- Whether the copy polls its reader: there is room, and no end yet. -/
def Direction.reads (d : Direction) : Bool := !d.readDone && d.buf.length < bufSize

/-- The writer took `n` bytes; a buffer written out is empty again. -/
def Direction.take (d : Direction) (n : Nat) : Direction :=
  let out := d.out ++ (d.buf.drop d.pos).take n
  if d.pos + n = d.buf.length then { d with buf := [], pos := 0, needFlush := true, out := out }
  else { d with pos := d.pos + n, needFlush := true, out := out }

/-- One poll of a half that is ready. Of `tokio::io::copy` this takes what its documentation
says: it reads into a buffer of 8 KB and writes what it has read, in order, until the reader is at
its end or one half fails, and passes that failure on. A write of nothing is a failure, and what
is written is flushed before the copy waits or ends. Both results of `copy` are dropped. -/
def Direction.step (d : Direction) (e : Event) : Option Direction :=
  match d.phase, e with
  | .copying, .read bs =>
    if d.reads ∧ bs ≠ [] ∧ d.buf.length + bs.length ≤ bufSize then
      some { d with buf := d.buf ++ bs }
    else none
  | .copying, .eof => if d.reads then some { d with readDone := true } else none
  | .copying, .readError => if d.reads then some { d with phase := .shutting false } else none
  | .copying, .wrote n =>
    if d.pos < d.buf.length ∧ d.pos + n ≤ d.buf.length then
      if n = 0 then some { d with phase := .shutting false } else some (d.take n)
    else none
  | .copying, .writeError =>
    if d.pos < d.buf.length then some { d with phase := .shutting false } else none
  | .copying, .flushed =>
    if d.pos = d.buf.length then
      if d.readDone then some { d with phase := .shutting true }
      else if d.needFlush then some { d with needFlush := false } else none
    else none
  | .copying, .flushError =>
    if d.pos = d.buf.length ∧ (d.readDone ∨ d.needFlush) then
      some { d with phase := .shutting false }
    else none
  | .shutting copied, .shut _ => some { d with phase := .ended copied }
  | _, _ => none

/-- The result of the copy, once there is one. -/
def Phase.copied : Phase → Option Bool
  | .copying => none
  | .shutting copied | .ended copied => some copied

/-- What a poll of the reader produced. -/
def Event.bytes : Event → Bytes
  | .read bs => bs
  | _ => []

/-- What the reader has produced. -/
def produced (es : List Event) : Bytes := es.flatMap Event.bytes

/-- An event that makes the copy fail. -/
def Event.fails : Event → Bool
  | .readError | .writeError | .flushError => true
  | .wrote n => n = 0
  | _ => false

/-- The end that `shutdown` gives the writer is the reader's: the copy went
well, the reader came to its end, and all that it produced was written. -/
def Direction.Genuine (d : Direction) (es : List Event) : Prop :=
  d.phase.copied = some true ∧ .eof ∈ es ∧ d.out = produced es

theorem produced_snoc (es : List Event) (e : Event) :
    produced (es ++ [e]) = produced es ++ e.bytes := by
  simp [produced]

theorem fails_snoc (es : List Event) (e : Event) :
    (∀ e' ∈ es ++ [e], e'.fails = false) ↔ (∀ e' ∈ es, e'.fails = false) ∧ e.fails = false := by
  simp [or_imp, forall_and]

/-- What a direction holds of what it has read, and how its copy ended. -/
structure Direction.Kept (d : Direction) (es : List Event) : Prop where
  written : d.out ++ d.buf.drop d.pos = produced es
  room : d.pos < d.buf.length ∨ d.buf = [] ∧ d.pos = 0
  done_iff : d.readDone = true ↔ .eof ∈ es
  copied_iff : d.phase.copied ≠ some false ↔ ∀ e ∈ es, e.fails = false
  through : d.phase.copied = some true → d.readDone = true ∧ d.buf = []

theorem Direction.kept_start : Direction.start.Kept [] where
  written := rfl
  room := .inr ⟨rfl, rfl⟩
  done_iff := by simp [start]
  copied_iff := by simp [start, Phase.copied]
  through h := by cases h

section
variable {d : Direction} {es : List Event} {e : Event}

/-- A poll that moves no bytes and takes the copy to another phase. -/
theorem Direction.Kept.turn (h : d.Kept es) (hbytes : e.bytes = []) (heof : e ≠ .eof) {p : Phase}
    (hcopied : p.copied ≠ some false ↔ d.phase.copied ≠ some false ∧ e.fails = false)
    (hthrough : p.copied = some true → d.readDone = true ∧ d.buf = []) :
    Kept { d with phase := p } (es ++ [e]) where
  written := by
    rw [produced_snoc, hbytes, List.append_nil]
    exact h.written
  room := h.room
  done_iff := by simp [h.done_iff, heof.symm]
  copied_iff := by rw [fails_snoc, ← h.copied_iff, hcopied]
  through := hthrough

/-- A failure of either half ends the copy where it is. -/
theorem Direction.Kept.fail (h : d.Kept es) (hfails : e.fails = true) (hbytes : e.bytes = [])
    (heof : e ≠ .eof) : Kept { d with phase := .shutting false } (es ++ [e]) :=
  h.turn hbytes heof (by simp [Phase.copied, hfails]) (by simp [Phase.copied])

theorem Direction.take_written (n : Nat) :
    (d.take n).out ++ (d.take n).buf.drop (d.take n).pos = d.out ++ d.buf.drop d.pos := by
  have hsplit : d.out ++ (d.buf.drop d.pos).take n ++ d.buf.drop (d.pos + n) =
      d.out ++ d.buf.drop d.pos := by
    rw [← List.drop_drop, List.append_assoc, List.take_append_drop]
  unfold take
  split
  · rename_i hall
    rw [hall, List.drop_length] at hsplit
    exact hsplit
  · exact hsplit

theorem Direction.take_room {n : Nat} (hn : d.pos + n ≤ d.buf.length) :
    (d.take n).pos < (d.take n).buf.length ∨ (d.take n).buf = [] ∧ (d.take n).pos = 0 := by
  unfold take
  split
  · exact .inr ⟨rfl, rfl⟩
  · exact .inl (by dsimp only; omega)

@[simp] theorem Direction.take_phase (n : Nat) : (d.take n).phase = d.phase := by
  unfold take; split <;> rfl

@[simp] theorem Direction.take_readDone (n : Nat) : (d.take n).readDone = d.readDone := by
  unfold take; split <;> rfl

/-- A poll that goes well leaves the copy going. -/
theorem Direction.Kept.goOn (h : d.Kept es) (hphase : d.phase = .copying) (he : e.fails = false)
    {d' : Direction} (hphase' : d'.phase = .copying)
    (hwritten : d'.out ++ d'.buf.drop d'.pos = d.out ++ d.buf.drop d.pos ++ e.bytes)
    (hroom : d'.pos < d'.buf.length ∨ d'.buf = [] ∧ d'.pos = 0)
    (hdone : d'.readDone = true ↔ d.readDone = true ∨ e = .eof) : d'.Kept (es ++ [e]) where
  written := by rw [hwritten, h.written, produced_snoc]
  room := hroom
  done_iff := by simp [hdone, h.done_iff, eq_comm]
  copied_iff := by rw [fails_snoc, ← h.copied_iff, hphase, hphase', and_iff_left he]
  through hcopied := by
    rw [hphase'] at hcopied
    cases hcopied

theorem Direction.Kept.pos_le (h : d.Kept es) : d.pos ≤ d.buf.length := by
  rcases h.room with hlt | ⟨_, hpos⟩
  · exact hlt.le
  · simp [hpos]

theorem Direction.Kept.step (h : d.Kept es) {d' : Direction} (hstep : d.step e = some d') :
    d'.Kept (es ++ [e]) := by
  unfold Direction.step at hstep
  split at hstep
  case h_1 bs hphase =>
    split_ifs at hstep with hread
    cases hstep
    obtain ⟨_, hbs, _⟩ := hread
    have hlength : 0 < bs.length := List.length_pos_iff.mpr hbs
    refine h.goOn hphase rfl hphase ?_ (.inl ?_) (by simp)
    · dsimp only
      rw [List.drop_append_of_le_length h.pos_le, ← List.append_assoc]
      rfl
    · have := h.pos_le
      simp only [List.length_append]
      omega
  case h_2 hphase =>
    split_ifs at hstep
    cases hstep
    exact h.goOn hphase rfl hphase (by simp [Event.bytes]) h.room (by simp)
  case h_3 =>
    split_ifs at hstep
    cases hstep
    exact h.fail rfl rfl (by simp)
  case h_4 n hphase =>
    split_ifs at hstep with hrange hn
    · cases hstep
      exact h.fail (by simp [Event.fails, hn]) rfl (by simp)
    · cases hstep
      exact h.goOn hphase (by simp [Event.fails, hn]) (by simp [hphase])
        (by simp [Event.bytes, take_written]) (take_room hrange.2) (by simp)
  case h_5 =>
    split_ifs at hstep
    cases hstep
    exact h.fail rfl rfl (by simp)
  case h_6 hphase =>
    split_ifs at hstep with hall hdone
    · cases hstep
      have hbuf : d.buf = [] := by
        rcases h.room with hlt | ⟨hbuf, _⟩
        · omega
        · exact hbuf
      exact h.turn rfl (by simp) (by simp [hphase, Phase.copied, Event.fails]) fun _ =>
        ⟨hdone, hbuf⟩
    · cases hstep
      exact h.goOn hphase rfl hphase (by simp [Event.bytes]) h.room (by simp)
  case h_7 =>
    split_ifs at hstep
    cases hstep
    exact h.fail rfl rfl (by simp)
  case h_8 copied ok hphase =>
    cases hstep
    have hthrough := h.through
    rw [hphase] at hthrough
    exact h.turn rfl (by simp) (by simp [hphase, Phase.copied, Event.fails]) hthrough
  case h_9 => cases hstep

theorem kept_of_steps (h : Steps Direction.step always .start es d) : d.Kept es :=
  h.history (P := fun es d => d.Kept es) Direction.kept_start
    fun _ _ _ _ _ hkept _ hstep => hkept.step hstep

theorem Direction.Kept.out_isPrefix (h : d.Kept es) : d.out <+: produced es := by
  rw [← h.written]
  exact List.prefix_append _ _

/-- The bytes a direction has given its writer, as `spliced` has them. -/
theorem Direction.Kept.exists_fates (h : d.Kept es) :
    ∃ fates, spliced fates (es.map Event.bytes) = d.out :=
  exists_spliced (List.flatMap_def ▸ h.out_isPrefix)

/-- The writer was given the reader's own end exactly where nothing failed. -/
theorem Direction.Kept.genuine_iff (h : d.Kept es) (hshut : d.phase.copied ≠ none) :
    d.Genuine es ↔ ∀ e ∈ es, e.fails = false := by
  rw [← h.copied_iff]
  constructor
  · intro hgenuine
    simp [hgenuine.1]
  · intro hcopied
    have htrue : d.phase.copied = some true := by
      cases hresult : d.phase.copied with
      | none => exact absurd hresult hshut
      | some copied =>
        cases copied with
        | true => rfl
        | false => exact absurd hresult hcopied
    obtain ⟨hdone, hbuf⟩ := h.through htrue
    have hwritten := h.written
    rw [hbuf, List.drop_nil, List.append_nil] at hwritten
    exact ⟨htrue, h.done_iff.mp hdone, hwritten⟩

/-- A direction that has not ended can go on well. -/
theorem Direction.Kept.exists_step (h : d.Kept es) (hphase : ∀ copied, d.phase ≠ .ended copied) :
    ∃ e, e.fails = false ∧ (d.step e).isSome := by
  cases hp : d.phase with
  | ended copied => exact absurd hp (hphase copied)
  | shutting copied => exact ⟨.shut true, rfl, by simp [Direction.step, hp]⟩
  | copying =>
    rcases h.room with hlt | ⟨hbuf, hpos⟩
    · have hone : d.pos + 1 ≤ d.buf.length := hlt
      exact ⟨.wrote 1, rfl, by simp [Direction.step, hp, hlt, hone]⟩
    · cases hdone : d.readDone with
      | true => exact ⟨.flushed, rfl, by simp [Direction.step, hp, hbuf, hpos, hdone]⟩
      | false => exact ⟨.eof, rfl, by simp [Direction.step, hp, reads, hbuf, hdone, bufSize]⟩

end

/-! ## Both directions -/

inductive Side where
  | aToB
  | bToA
  deriving DecidableEq

/-- `splice`: `join!` polls both, and neither ends the other. -/
def step (s : Side → Direction) (a : Side × Event) : Option (Side → Direction) :=
  move Direction.step s a

def start : Side → Direction := fun _ => .start

/-- Whether a direction's share of `splice` is over. `splice` returns when both are. -/
def Direction.Ended (d : Direction) : Prop := ∃ copied, d.phase = .ended copied

/-- In each direction of `splice`, whatever the halves do, the writer has a
part of what the reader produced; what the direction can do it can do whatever
became of the other, and it can do something until it has ended; and the end
of stream given to the writer is the reader's exactly where neither half has
failed. -/
theorem end_genuine_iff {as : List (Side × Event)} {s : Side → Direction}
    (h : Steps step always start as s) (side : Side) :
    (s side).out <+: produced (actionsOf side as) ∧
      (∀ es d, Steps Direction.step always (s side) es d →
        Steps step always s (es.map fun e => (side, e)) (Function.update s side d)) ∧
      (¬ (s side).Ended → ∃ e, e.fails = false ∧ (step s (side, e)).isSome) ∧
      ((s side).phase.copied ≠ none →
        ((s side).Genuine (actionsOf side as) ↔
          ∀ e ∈ actionsOf side as, e.fails = false)) := by
  have hkept := kept_of_steps (steps_actionsOf h side)
  have hgoes : ¬ (s side).Ended → ∃ e, e.fails = false ∧ (step s (side, e)).isSome := by
    intro hended
    obtain ⟨e, hfails, hstep⟩ := hkept.exists_step fun copied hphase => hended ⟨copied, hphase⟩
    exact ⟨e, hfails, by simpa [step, move] using hstep⟩
  exact ⟨hkept.out_isPrefix, fun es d hes => steps_map hes, hgoes, hkept.genuine_iff⟩

/-- One direction is carried to its end while the writer of the other fails. -/
def oneSided : List (Side × Event) :=
  [(.aToB, .read [1, 2]), (.bToA, .read [9]), (.aToB, .wrote 1), (.bToA, .writeError),
    (.bToA, .shut false), (.aToB, .wrote 1), (.aToB, .eof), (.aToB, .flushed), (.aToB, .shut true)]

theorem end_genuine_iff_oneSided :
    ∃ s, Steps step always start oneSided s ∧ (s .bToA).Ended ∧
      (s .aToB).Genuine (actionsOf .aToB oneSided) ∧ (s .aToB).out = [1, 2] := by
  have hrun : (run step start oneSided).isSome := by decide +kernel
  have hsteps : Steps step always start oneSided ((run step start oneSided).get hrun) :=
    .of_run (fun _ _ _ => trivial) (by simp)
  have hshut : (((run step start oneSided).get hrun) .aToB).phase.copied = some true := rfl
  have hgenuine := ((end_genuine_iff hsteps .aToB).2.2.2 (by simp [hshut])).mpr (by decide)
  exact ⟨_, hsteps, ⟨false, rfl⟩, hgenuine, rfl⟩

/-- The reader fails after one byte. -/
def lostReader : List Event := [.read [1], .wrote 1, .readError, .shut true]

/-- A writer is shut down without an error though its reader never came to its end. -/
theorem end_forged :
    ∃ s, Steps step always start (lostReader.map fun e => (.aToB, e)) s ∧
      .shut true ∈ lostReader ∧ (s .aToB).Ended ∧ (s .aToB).out = [1] ∧
      .eof ∉ actionsOf .aToB (lostReader.map fun e => (Side.aToB, e)) ∧
      ¬ (s .aToB).Genuine (actionsOf .aToB (lostReader.map fun e => (Side.aToB, e))) := by
  have hrun : Steps Direction.step always (start .aToB) lostReader
      ⟨.ended false, [], 0, false, true, [1]⟩ :=
    .of_run (fun _ _ _ => trivial) (by decide +kernel)
  exact ⟨_, steps_map hrun, by decide, ⟨false, rfl⟩, rfl, by decide, fun h => by cases h.1⟩

end Egdod.Pipe
