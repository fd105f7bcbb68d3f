import Egdod.Lib.Run
import Egdod.Proto
import Mathlib.Algebra.Group.Nat.Defs

/-! `agent::exec`: a child, two pumps that read its pipes, a bounded channel,
a task that writes frames to the stream, and the caller that waits for all
of them and signs off. The caller stops waiting for output when it makes no
progress, aborts the pumps, and has to say so before it reports a status. -/
namespace Egdod.Exec

open Text Posix StepSystem

def execChunk : Nat := 32 * 1024

/-- Capacity of the channel between pumps and writer. -/
def channelCap : Nat := 16

/-- The child's two pipes. -/
inductive Source where
  | stdout
  | stderr
  deriving DecidableEq, Repr

/-- The frame a pump makes of a chunk. -/
def Source.frame : Source → Bytes → ExecFrame
  | .stdout, bs => .stdout bs
  | .stderr, bs => .stderr bs

/-- What frames carry of a pipe. -/
def payload (src : Source) (frames : List ExecFrame) : Bytes :=
  frames.flatMap fun f =>
    match src, f with
    | .stdout, .stdout bs => bs
    | .stderr, .stderr bs => bs
    | _, _ => []

/-- A `pump_frames` task: at its read, at its send, or over, with the reason.
`closed` is a send that found the receiver gone. -/
inductive Pump where
  | absent
  | reading
  | sending (bs : Bytes)
  | ended
  | readFailed
  | closed
  | aborted
  deriving DecidableEq

/-- Whether the task is over and its end of the channel dropped. -/
def Pump.over : Pump → Bool
  | .ended | .readFailed | .closed | .aborted => true
  | _ => false

/-- The chunk a pump has read and not sent. -/
def Pump.buffer : Pump → Bytes
  | .sending bs => bs
  | _ => []

/-- The writer task; it returns the stream, or nothing once a write failed. -/
inductive Writer where
  | absent
  | idle
  | writing (f : ExecFrame)
  | returned (ok : Bool)
  deriving DecidableEq

def Writer.held : Writer → List ExecFrame
  | .writing f => [f]
  | _ => []

/-- `std::process::ExitStatus`. -/
inductive ExitStatus where
  | code (c : Int32)
  | signal (n : Int32)

/-- Signal deaths are reported as the shell does. -/
def exitCode : ExitStatus → Int32
  | .code c => c
  | .signal n => 128 + n

/-- The caller: before the spawn, in `wait`, in `drain_output` with the
progress it last saw, waiting for the writer, writing its last frames, or
back. `cut` says whether the pumps were told to stop. -/
inductive Caller where
  | spawning
  | waiting
  | draining (code : Int32) (before : Nat)
  | joining (code : Int32) (cut : Bool)
  | truncating (code : Int32)
  | exiting (code : Int32) (cut : Bool)
  | returned (cut : Bool)
  deriving DecidableEq

/-- Whether the pumps have been told to stop. -/
def Caller.cut : Caller → Bool
  | .joining _ cut | .exiting _ cut | .returned cut => cut
  | .truncating _ => true
  | _ => false

structure State where
  /-- How much of each pipe has been read. -/
  read : Source → Nat
  pumps : Source → Pump
  queue : List ExecFrame
  writer : Writer
  /-- `Progress`. -/
  frames : Nat
  sending : Bool
  caller : Caller
  /-- The frames on the stream. -/
  sent : List ExecFrame

def State.start : State :=
  ⟨fun _ => 0, fun _ => .absent, [], .absent, 0, false, .spawning, []⟩

inductive PumpEvent where
  | read (n : Nat)
  | eof
  | readFail
  | send
  | refused
  | abort
  deriving DecidableEq

/-- A write that fails may still have put its frame on the stream. -/
inductive WriterEvent where
  | recv
  | wrote
  | broke (landed : Bool)
  | close
  deriving DecidableEq

inductive CallerEvent where
  | spawn (ok landed : Bool)
  | exited (status : ExitStatus)
  | waitFail
  | drained
  | timeout (late : Bool)
  | joined
  | joinTimeout
  | wrote
  | broke (landed : Bool)

inductive Event where
  | pump (src : Source) (e : PumpEvent)
  | writer (e : WriterEvent)
  | caller (e : CallerEvent)

def State.setPump (s : State) (src : Source) (p : Pump) : State :=
  { s with pumps := Function.update s.pumps src p }

/-- One step of `pump_frames` on a pipe that carries `child`. -/
def State.pumpStep (child : Source → Bytes) (s : State) (src : Source) (e : PumpEvent) :
    Option State :=
  match s.pumps src, e with
  | .reading, .read n =>
    if 0 < n ∧ n ≤ execChunk ∧ s.read src + n ≤ (child src).length then
      some { s with
        pumps := Function.update s.pumps src (.sending (((child src).drop (s.read src)).take n))
        read := Function.update s.read src (s.read src + n) }
    else none
  | .reading, .eof => if s.read src = (child src).length then some (s.setPump src .ended) else none
  -- a read error ends the pump like the end of the file does
  | .reading, .readFail => some (s.setPump src .readFailed)
  | .sending bs, .send =>
    match s.writer with
    | .idle | .writing _ =>
      if s.queue.length < channelCap then
        some { s with
          pumps := Function.update s.pumps src .reading
          queue := s.queue ++ [src.frame bs] }
      else none
    | _ => none
  | .sending _, .refused =>
    match s.writer with
    | .returned _ => some (s.setPump src .closed)
    | _ => none
  | .reading, .abort | .sending _, .abort =>
    if s.caller.cut then some (s.setPump src .aborted) else none
  | _, _ => none

/-- One step of the writer task. Its receiver goes with it, and what is
queued then goes with the receiver. -/
def State.writerStep (s : State) (e : WriterEvent) : Option State :=
  match s.writer, e with
  | .idle, .recv =>
    match s.queue with
    | f :: rest => some { s with queue := rest, writer := .writing f, sending := true }
    | [] => none
  | .idle, .close =>
    if s.queue = [] ∧ (s.pumps .stdout).over ∧ (s.pumps .stderr).over then
      some { s with writer := .returned true }
    else none
  | .writing f, .wrote => some { s with
      sent := s.sent ++ [f]
      writer := .idle
      sending := false
      frames := (s.frames + 1) % 2 ^ 64 }
  | .writing f, .broke landed => some { s with
      sent := if landed then s.sent ++ [f] else s.sent
      writer := .returned false
      queue := []
      sending := false }
  | _, _ => none

def emptyArgv : Str := "empty argv".toList

/-- One step of `exec` itself. `drain_output` is `drained` and `timeout`; it
may be past its cap (`late`) whenever a wait times out. -/
def State.callerStep (argv : List Str) (error : Str) (s : State) (e : CallerEvent) : Option State :=
  match s.caller, e with
  | .spawning, .spawn ok landed =>
    match argv, ok with
    | [], _ => some { s with
        sent := if landed then [.failed emptyArgv] else []
        caller := .returned false }
    | program :: _, false => some { s with
        sent := if landed then [.failed ("spawning ".toList ++ program ++ ": ".toList ++ error)]
          else []
        caller := .returned false }
    | _ :: _, true => some { s with
        pumps := fun _ => .reading
        writer := .idle
        caller := .waiting }
  | .waiting, .exited status => some { s with caller := .draining (exitCode status) s.frames }
  | .waiting, .waitFail => some { s with caller := .returned false }
  | .draining code _, .drained =>
    if (s.pumps .stdout).over ∧ (s.pumps .stderr).over then
      some { s with caller := .joining code false }
    else none
  | .draining code before, .timeout late =>
    if (s.frames = before ∧ s.sending = false) ∨ late = true then
      some { s with caller := .joining code true }
    else some { s with caller := .draining code s.frames }
  | .joining code cut, .joined =>
    match s.writer with
    | .returned true =>
      some { s with caller := if cut then .truncating code else .exiting code false }
    | .returned false => some { s with caller := .returned cut }
    | _ => none
  | .joining _ cut, .joinTimeout => some { s with caller := .returned cut }
  | .truncating code, .wrote =>
    some { s with sent := s.sent ++ [.truncated], caller := .exiting code true }
  | .truncating _, .broke landed => some { s with
      sent := if landed then s.sent ++ [.truncated] else s.sent
      caller := .returned true }
  | .exiting code cut, .wrote =>
    some { s with sent := s.sent ++ [.exit code], caller := .returned cut }
  | .exiting code cut, .broke landed => some { s with
      sent := if landed then s.sent ++ [.exit code] else s.sent
      caller := .returned cut }
  | _, _ => none

def step (child : Source → Bytes) (argv : List Str) (error : Str) (s : State) :
    Event → Option State
  | .pump src e => s.pumpStep child src e
  | .writer e => s.writerStep e
  | .caller e => s.callerStep argv error e

/-- Pipe reads yield data or the end of the file. -/
def ReadsWork (_ : State) (e : Event) : Prop := ∀ src, e ≠ .pump src .readFail

/-! ## Where the output is -/

@[simp] theorem payload_nil (src : Source) : payload src [] = [] := rfl

@[simp] theorem payload_append (src : Source) (a b : List ExecFrame) :
    payload src (a ++ b) = payload src a ++ payload src b := by
  simp [payload]

theorem payload_mono (src : Source) {a b : List ExecFrame} (h : a <+: b) :
    payload src a <+: payload src b := by
  obtain ⟨rest, rfl⟩ := h
  exact ⟨payload src rest, (payload_append src a rest).symm⟩

theorem payload_frame (src other : Source) (bs : Bytes) :
    payload src [other.frame bs] = if src = other then bs else [] := by
  cases src <;> cases other <;> simp [payload, Source.frame]

@[simp] theorem payload_exit (src : Source) (c : Int32) : payload src [.exit c] = [] := by
  cases src <;> rfl

@[simp] theorem payload_truncated (src : Source) : payload src [.truncated] = [] := by
  cases src <;> rfl

/-- No status among the frames. -/
def NoExit (frames : List ExecFrame) : Prop := ∀ c, ExecFrame.exit c ∉ frames

/-- Frames past the pumps: on the stream, with the writer, in the channel. -/
def State.past (s : State) : List ExecFrame := s.sent ++ s.writer.held ++ s.queue

/-- The last frames, depending on where the caller is. -/
def State.Closing (child : Source → Bytes) (s : State) : Prop :=
  match s.caller with
  | .spawning | .waiting | .draining _ _ | .joining _ _ => NoExit s.sent
  | .truncating _ => NoExit s.sent ∧ s.writer = .returned true
  | .exiting _ cut => NoExit s.sent ∧ s.writer = .returned true ∧
      (.truncated ∈ s.sent ∨ cut = false ∧ ∀ src, payload src s.sent = child src)
  | .returned _ => NoExit s.sent ∨ s.writer = .returned true ∧ ∃ pre c,
      s.sent = pre ++ [.exit c] ∧ NoExit pre ∧
        (.truncated ∈ pre ∨ ∀ src, payload src pre = child src)

/-- Invariant. What is past a pump is what it read, less its buffer; a pump
or a writer that is over by force is the only thing that loses bytes. -/
structure Sound (child : Source → Bytes) (s : State) : Prop where
  flow : ∀ src, payload src s.past <+: (child src).take (s.read src)
  kept : ∀ src, s.writer ≠ .returned false → s.pumps src ≠ .aborted →
    payload src s.past ++ (s.pumps src).buffer = (child src).take (s.read src)
  whole : ∀ src, s.pumps src = .ended → s.read src = (child src).length
  works : ∀ src, s.pumps src ≠ .readFailed
  closed : ∀ src, s.pumps src = .closed → s.writer = .returned false
  aborted : ∀ src, s.pumps src = .aborted → s.caller.cut = true
  done : s.writer = .returned true → s.queue = [] ∧ ∀ src, (s.pumps src).over = true
  plain : NoExit (s.writer.held ++ s.queue)
  unstarted : s.caller = .spawning → s.writer = .absent ∧ s.sent = [] ∧ s.queue = [] ∧
    ∀ src, s.read src = 0 ∧ s.pumps src = .absent
  closing : s.Closing child

section
variable {child : Source → Bytes} {argv : List Str} {error : Str} {s s' : State}

theorem Sound.start : Sound child State.start := by
  refine ⟨?_, ?_, ?_, ?_, ?_, ?_, ?_, ?_, ?_, ?_⟩ <;>
    simp [State.start, State.past, State.Closing, Writer.held, Pump.buffer, NoExit]

theorem noExit_append {a b : List ExecFrame} : NoExit (a ++ b) ↔ NoExit a ∧ NoExit b := by
  simp [NoExit, forall_and]

theorem noExit_frame (src : Source) (bs : Bytes) : NoExit [src.frame bs] := by
  cases src <;> simp [NoExit, Source.frame]

/-- A pump that moves has been started. -/
theorem Sound.started (h : Sound child s) (src : Source) (hp : s.pumps src ≠ .absent) :
    s.caller ≠ .spawning :=
  fun hc => hp ((h.unstarted hc).2.2.2 src).2

/-! ## The pumps -/

theorem pumps_cases (s : State) (src : Source) (p : Pump) (u : Source) :
    u = src ∧ Function.update s.pumps src p u = p ∨
      u ≠ src ∧ Function.update s.pumps src p u = s.pumps u := by
  by_cases hu : u = src
  · exact .inl ⟨hu, by simp [hu]⟩
  · exact .inr ⟨hu, by simp [hu]⟩

/-- A pump whose state changes with nothing else, for a reason it carries. -/
theorem Sound.setPump (h : Sound child s) {src : Source} {p : Pump}
    (hnow : s.pumps src ≠ .absent)
    (hkept : s.writer ≠ .returned false → p ≠ .aborted →
      payload src s.past ++ p.buffer = (child src).take (s.read src))
    (hwhole : p = .ended → s.read src = (child src).length) (hworks : p ≠ .readFailed)
    (hclosed : p = .closed → s.writer = .returned false)
    (haborted : p = .aborted → s.caller.cut = true)
    (hdone : s.writer = .returned true → p.over = true) : Sound child (s.setPump src p) := by
  have other : ∀ u, u = src ∧ (s.setPump src p).pumps u = p ∨
      u ≠ src ∧ (s.setPump src p).pumps u = s.pumps u := pumps_cases s src p
  refine ⟨h.flow, fun u hw => ?_, fun u => ?_, fun u => ?_, fun u => ?_, fun u => ?_, fun hw => ?_,
    h.plain, fun hc => absurd hc (h.started src hnow), h.closing⟩
  · rcases other u with ⟨rfl, hu⟩ | ⟨_, hu⟩ <;> rw [hu]
    · exact hkept hw
    · exact h.kept u hw
  · rcases other u with ⟨rfl, hu⟩ | ⟨_, hu⟩ <;> rw [hu]
    · exact hwhole
    · exact h.whole u
  · rcases other u with ⟨rfl, hu⟩ | ⟨_, hu⟩ <;> rw [hu]
    · exact hworks
    · exact h.works u
  · rcases other u with ⟨rfl, hu⟩ | ⟨_, hu⟩ <;> rw [hu]
    · exact hclosed
    · exact h.closed u
  · rcases other u with ⟨rfl, hu⟩ | ⟨_, hu⟩ <;> rw [hu]
    · exact haborted
    · exact h.aborted u
  · refine ⟨(h.done hw).1, fun u => ?_⟩
    rcases other u with ⟨rfl, hu⟩ | ⟨_, hu⟩ <;> rw [hu]
    · exact hdone hw
    · exact (h.done hw).2 u

/-- More of the pipe read: the new chunk is in the buffer. -/
theorem Sound.pumpRead (h : Sound child s) {src : Source} {n : Nat} (hp : s.pumps src = .reading)
    (hw : s.writer ≠ .returned true) :
    Sound child { s with
      pumps := Function.update s.pumps src (.sending (((child src).drop (s.read src)).take n))
      read := Function.update s.read src (s.read src + n) } := by
  have other := pumps_cases s src (.sending (((child src).drop (s.read src)).take n))
  have hread : ∀ u, u ≠ src →
      Function.update s.read src (s.read src + n) u = s.read u := fun u hu => by simp [hu]
  refine ⟨fun u => ?_, fun u hw ha => ?_, fun u hu' => ?_, fun u => ?_, fun u => ?_, fun u => ?_,
    fun h' => absurd h' hw, h.plain, fun hc => absurd hc (h.started src (by simp [hp])), h.closing⟩
  · by_cases hu : u = src
    · subst hu
      simp only [Function.update_self]
      exact (h.flow u).trans (List.take_prefix_take_left (Nat.le_add_right _ _))
    · simp only [hread u hu]
      exact h.flow u
  · rcases other u with ⟨rfl, hu⟩ | ⟨hne, hu⟩
    · have hold := h.kept u hw (by simp [hp])
      simp only [hp, Pump.buffer, List.append_nil] at hold
      simp only [hu, Pump.buffer, Function.update_self, List.take_add, ← hold]
      rfl
    · simp only [hu, hread u hne] at ha ⊢
      exact h.kept u hw ha
  · rcases other u with ⟨rfl, hu⟩ | ⟨hne, hu⟩
    · simp at hu'
    · simp only [hu, hread u hne] at hu' ⊢
      exact h.whole u hu'
  · rcases other u with ⟨rfl, hu⟩ | ⟨_, hu⟩ <;> simp only [hu]
    · simp
    · exact h.works u
  · rcases other u with ⟨rfl, hu⟩ | ⟨_, hu⟩ <;> simp only [hu]
    · simp
    · exact h.closed u
  · rcases other u with ⟨rfl, hu⟩ | ⟨_, hu⟩ <;> simp only [hu]
    · simp
    · exact h.aborted u

/-- A buffer moved to the channel. -/
theorem Sound.pumpSend (h : Sound child s) {src : Source} {bs : Bytes}
    (hp : s.pumps src = .sending bs) (hw : ∀ ok, s.writer ≠ .returned ok) :
    Sound child { s with
      pumps := Function.update s.pumps src .reading
      queue := s.queue ++ [src.frame bs] } := by
  have other := pumps_cases s src .reading
  have hpast : ∀ u, payload u (s.sent ++ s.writer.held ++ (s.queue ++ [src.frame bs])) =
      payload u s.past ++ if u = src then bs else [] := by
    intro u
    rw [← List.append_assoc, payload_append, payload_frame]
    rfl
  have hkept := h.kept src (hw false) (by simp [hp])
  simp only [hp, Pump.buffer] at hkept
  refine ⟨fun u => ?_, fun u hw ha => ?_, fun u hu' => ?_, fun u => ?_, fun u => ?_, fun u => ?_,
    fun h' => absurd h' (hw true), ?_, fun hc => absurd hc (h.started src (by simp [hp])),
    h.closing⟩
  · change payload u (s.sent ++ s.writer.held ++ (s.queue ++ [src.frame bs])) <+: _
    rw [hpast]
    split
    · rename_i hu
      subst hu
      exact hkept ▸ List.prefix_refl _
    · rw [List.append_nil]
      exact h.flow u
  · change payload u (s.sent ++ s.writer.held ++ (s.queue ++ [src.frame bs])) ++ _ = _
    rw [hpast]
    rcases other u with ⟨rfl, hu⟩ | ⟨hne, hu⟩
    · simp only [hu, Pump.buffer, if_true, List.append_nil]
      exact hkept
    · simp only [hu, hne, if_false, List.append_nil] at ha ⊢
      exact h.kept u hw ha
  · rcases other u with ⟨rfl, hu⟩ | ⟨_, hu⟩
    · simp at hu'
    · exact h.whole u (hu ▸ hu')
  · rcases other u with ⟨rfl, hu⟩ | ⟨_, hu⟩ <;> simp only [hu]
    · simp
    · exact h.works u
  · rcases other u with ⟨rfl, hu⟩ | ⟨_, hu⟩ <;> simp only [hu]
    · simp
    · exact h.closed u
  · rcases other u with ⟨rfl, hu⟩ | ⟨_, hu⟩ <;> simp only [hu]
    · simp
    · exact h.aborted u
  · change NoExit (s.writer.held ++ (s.queue ++ [src.frame bs]))
    rw [← List.append_assoc]
    exact noExit_append.mpr ⟨h.plain, noExit_frame src bs⟩

theorem Sound.pumpStep {src : Source} {e : PumpEvent} (hok : e ≠ .readFail)
    (hstep : s.pumpStep child src e = some s') (h : Sound child s) : Sound child s' := by
  -- a pump that is not over keeps the writer from returning its stream
  have busy : (s.pumps src).over = false → s.writer ≠ .returned true := fun hp hw => by
    simp [(h.done hw).2 src] at hp
  unfold State.pumpStep at hstep
  split at hstep
  case h_1 n hp =>
    split at hstep
    · cases hstep
      exact h.pumpRead hp (busy (by simp [hp, Pump.over]))
    · cases hstep
  case h_2 hp =>
    split at hstep
    · rename_i hend
      cases hstep
      refine h.setPump (by simp [hp]) (fun hw _ => ?_) (fun _ => hend) (by simp) (by simp)
        (by simp) (by simp [Pump.over])
      simpa [hp, Pump.buffer] using h.kept src hw (by simp [hp])
    · cases hstep
  case h_3 => exact absurd rfl hok
  case h_4 bs hp =>
    split at hstep
    case h_1 hw | h_2 hw =>
      split at hstep
      · cases hstep
        exact h.pumpSend hp (by simp [hw])
      · cases hstep
    case h_3 => cases hstep
  case h_5 bs hp =>
    split at hstep
    · rename_i ok hw
      cases hstep
      have hfalse : s.writer = .returned false := by
        cases ok with
        | false => exact hw
        | true => exact absurd hw (busy (by simp [hp, Pump.over]))
      exact h.setPump (by simp [hp]) (fun hw _ => absurd hfalse hw) (by simp) (by simp)
        (fun _ => hfalse) (by simp) (by simp [Pump.over])
    · cases hstep
  case h_6 hp | h_7 hp =>
    split at hstep
    · rename_i hcut
      cases hstep
      exact h.setPump (by simp [hp]) (fun _ hne => absurd rfl hne) (by simp) (by simp) (by simp)
        (fun _ => hcut) (by simp [Pump.over])
    · cases hstep
  case h_8 => cases hstep

/-! ## The writer -/

/-- While the writer is at work, no last frame has been written. -/
theorem Sound.noExit (h : Sound child s) (hw : s.writer ≠ .returned true) : NoExit s.sent := by
  have hc := h.closing
  unfold State.Closing at hc
  split at hc
  case h_1 | h_2 | h_3 | h_4 => exact hc
  case h_5 => exact hc.1
  case h_6 => exact hc.1
  case h_7 => exact hc.elim id fun hret => absurd hret.1 hw

/-- What a step of the writer has to see to. -/
theorem Sound.writes (h : Sound child s) (hbusy : ∀ ok, s.writer ≠ .returned ok)
    (hnow : s.writer ≠ .absent) (hread : s'.read = s.read) (hpumps : s'.pumps = s.pumps)
    (hcaller : s'.caller = s.caller) (hpast : s'.past <+: s.past)
    (hall : s'.writer ≠ .returned false → s'.past = s.past)
    (hdone : s'.writer = .returned true → s'.queue = [] ∧ ∀ src, (s.pumps src).over = true)
    (hplain : NoExit (s'.writer.held ++ s'.queue)) (hsent : NoExit s'.sent) : Sound child s' := by
  refine ⟨fun u => ?_, fun u hw => ?_, ?_, ?_, fun u hu => ?_, ?_, ?_, hplain, fun hc => ?_, ?_⟩
  · rw [hread]
    exact (payload_mono u hpast).trans (h.flow u)
  · rw [hread, hpumps, hall hw]
    exact h.kept u (hbusy false)
  · rw [hread, hpumps]
    exact h.whole
  · rw [hpumps]
    exact h.works
  · rw [hpumps] at hu
    exact absurd (h.closed u hu) (hbusy false)
  · rw [hpumps, hcaller]
    exact h.aborted
  · rw [hpumps]
    exact hdone
  · rw [hcaller] at hc
    exact absurd (h.unstarted hc).1 hnow
  · -- past the writer the caller has nothing yet
    have hc := h.closing
    unfold State.Closing at hc ⊢
    rw [hcaller]
    cases hs : s.caller with
    | spawning | waiting | draining | joining => exact hsent
    | truncating => rw [hs] at hc; exact absurd hc.2 (hbusy true)
    | exiting => rw [hs] at hc; exact absurd hc.2.1 (hbusy true)
    | returned => exact .inl hsent

theorem Sound.writerStep {e : WriterEvent} (hstep : s.writerStep e = some s')
    (h : Sound child s) : Sound child s' := by
  have hplain := noExit_append.mp h.plain
  unfold State.writerStep at hstep
  split at hstep
  case h_1 hw =>
    have hout := h.noExit (by simp [hw])
    split at hstep
    · rename_i f rest hq
      cases hstep
      have hpast : s.sent ++ [f] ++ rest = s.past := by simp [State.past, hw, hq, Writer.held]
      have hqueue : NoExit ([f] ++ rest) := by simpa [hq] using hplain.2
      exact h.writes (by simp [hw]) (by simp [hw]) rfl rfl rfl (hpast ▸ List.prefix_refl _)
        (fun _ => hpast) (by simp) hqueue hout
    · cases hstep
  case h_2 hw =>
    split at hstep
    · rename_i hclose
      cases hstep
      have hpast : s.sent ++ [] ++ s.queue = s.past := by simp [State.past, hw, Writer.held]
      refine h.writes (by simp [hw]) (by simp [hw]) rfl rfl rfl (hpast ▸ List.prefix_refl _)
        (fun _ => hpast) (fun _ => ⟨hclose.1, fun src => ?_⟩) hplain.2 (h.noExit (by simp [hw]))
      cases src with
      | stdout => exact hclose.2.1
      | stderr => exact hclose.2.2
    · cases hstep
  case h_3 f hw =>
    cases hstep
    have hheld : NoExit [f] := by simpa [hw, Writer.held] using hplain.1
    have hpast : s.sent ++ [f] ++ [] ++ s.queue = s.past := by simp [State.past, hw, Writer.held]
    exact h.writes (by simp [hw]) (by simp [hw]) rfl rfl rfl (hpast ▸ List.prefix_refl _)
      (fun _ => hpast) (by simp) hplain.2
      (noExit_append.mpr ⟨h.noExit (by simp [hw]), hheld⟩)
  case h_4 f landed hw =>
    cases hstep
    have hheld : NoExit [f] := by simpa [hw, Writer.held] using hplain.1
    have hout := h.noExit (by simp [hw])
    refine h.writes (by simp [hw]) (by simp [hw]) rfl rfl rfl ?_ (fun hne => absurd rfl hne)
      (by simp) (by simp [NoExit, Writer.held]) ?_
    · cases landed <;> simp [State.past, hw, Writer.held]
    · cases landed with
      | false => exact hout
      | true => exact noExit_append.mpr ⟨hout, hheld⟩
  case h_5 => cases hstep

/-! ## The caller -/

/-- What a step of the caller has to see to; its own frames carry no output. -/
theorem Sound.calls (h : Sound child s) (caller : Caller) (last : List ExecFrame)
    (hlast : ∀ src, payload src last = []) (hcut : s.caller.cut = true → caller.cut = true)
    (hnow : caller ≠ .spawning)
    (hclosing : State.Closing child { s with sent := s.sent ++ last, caller := caller }) :
    Sound child { s with sent := s.sent ++ last, caller := caller } := by
  have hpast : ∀ src, payload src (s.sent ++ last ++ s.writer.held ++ s.queue) =
      payload src s.past := by
    simp [State.past, hlast]
  refine ⟨fun u => ?_, fun u => ?_, h.whole, h.works, h.closed, fun u hu => hcut (h.aborted u hu),
    h.done, h.plain, fun hc => absurd hc hnow, hclosing⟩
  · exact (hpast u).symm ▸ h.flow u
  · intro hw ha
    change payload u (s.sent ++ last ++ s.writer.held ++ s.queue) ++ _ = _
    rw [hpast]
    exact h.kept u hw ha

/-- A step of the caller that writes nothing. -/
theorem Sound.moves (h : Sound child s) {caller : Caller}
    (hcut : s.caller.cut = true → caller.cut = true) (hnow : caller ≠ .spawning)
    (hclosing : State.Closing child { s with caller := caller }) :
    Sound child { s with caller := caller } := by
  simpa using h.calls caller [] (by simp) hcut hnow (by simpa using hclosing)

/-- Once the writer has returned its stream and nobody was cut short, the
stream holds everything. -/
theorem Sound.complete (h : Sound child s) (hw : s.writer = .returned true)
    (hcut : s.caller.cut = false) (src : Source) : payload src s.sent = child src := by
  have hended : s.pumps src = .ended := by
    have hover := (h.done hw).2 src
    cases hp : s.pumps src with
    | ended => rfl
    | readFailed => exact absurd hp (h.works src)
    | closed => simp [h.closed src hp] at hw
    | aborted => simp [h.aborted src hp] at hcut
    | absent | reading | sending => simp [hp, Pump.over] at hover
  have hkept := h.kept src (by simp [hw]) (by simp [hended])
  rw [h.whole src hended, List.take_length] at hkept
  simpa [State.past, hw, (h.done hw).1, hended, Writer.held, Pump.buffer] using hkept

/-- A command that could not be run: one frame says so, or it was lost. -/
theorem Sound.refused (h : Sound child s) (hc : s.caller = .spawning) (reason : Str)
    (landed : Bool) : Sound child { s with
      sent := if landed then [.failed reason] else []
      caller := .returned false } := by
  have hlast : ∀ src, payload src (if landed then [.failed reason] else []) = [] := by
    intro src
    cases src <;> cases landed <;> rfl
  have hsent := (h.unstarted hc).2.1
  have hnone : NoExit (if landed then [.failed reason] else []) := by
    cases landed <;> simp [NoExit]
  simpa [hsent] using h.calls (.returned false) _ hlast (by simp [hc, Caller.cut])
    (by simp) (.inl (by simpa [hsent] using hnone))

theorem Sound.spawned (h : Sound child s) (hc : s.caller = .spawning) :
    Sound child { s with pumps := fun _ => .reading, writer := .idle, caller := .waiting } := by
  obtain ⟨_, hsent, hqueue, hread⟩ := h.unstarted hc
  refine ⟨fun u => ?_, fun u => ?_, ?_, ?_, ?_, ?_, ?_, ?_, ?_, ?_⟩ <;>
    simp [State.past, State.Closing, Writer.held, Pump.buffer, NoExit, hsent, hqueue, hread]

theorem Sound.callerStep {e : CallerEvent} (hstep : s.callerStep argv error e = some s')
    (h : Sound child s) : Sound child s' := by
  have hclosing := h.closing
  unfold State.callerStep at hstep
  split at hstep
  case h_1 ok landed hc =>
    split at hstep
    · cases hstep
      exact h.refused hc _ landed
    · cases hstep
      exact h.refused hc _ landed
    · cases hstep
      exact h.spawned hc
  case h_2 hc | h_3 hc =>
    simp only [State.Closing, hc] at hclosing
    cases hstep
    first
      | exact h.moves (by simp [hc, Caller.cut]) (by simp) hclosing
      | exact h.moves (by simp [hc, Caller.cut]) (by simp) (.inl hclosing)
  case h_4 hc =>
    simp only [State.Closing, hc] at hclosing
    split at hstep
    · cases hstep
      exact h.moves (by simp [hc, Caller.cut]) (by simp) hclosing
    · cases hstep
  case h_5 hc =>
    simp only [State.Closing, hc] at hclosing
    split at hstep
    · cases hstep
      exact h.moves (by simp [hc, Caller.cut]) (by simp) hclosing
    · cases hstep
      exact h.moves (by simp [hc, Caller.cut]) (by simp) hclosing
  case h_6 code cut hc =>
    simp only [State.Closing, hc] at hclosing
    split at hstep
    · rename_i hw
      cases hstep
      cases cut with
      | true => exact h.moves (by simp [Caller.cut]) (by simp) ⟨hclosing, hw⟩
      | false =>
        exact h.moves (by simp [hc, Caller.cut]) (by simp)
          ⟨hclosing, hw, .inr ⟨rfl, h.complete hw (by simp [hc, Caller.cut])⟩⟩
    · cases hstep
      exact h.moves (by simp [hc, Caller.cut]) (by simp) (.inl hclosing)
    · cases hstep
  case h_7 hc =>
    simp only [State.Closing, hc] at hclosing
    cases hstep
    exact h.moves (by simp [hc, Caller.cut]) (by simp) (.inl hclosing)
  case h_8 code hc =>
    simp only [State.Closing, hc] at hclosing
    cases hstep
    refine h.calls _ _ (by simp) (by simp [Caller.cut]) (by simp)
      ⟨?_, hclosing.2, .inl (by simp)⟩
    exact noExit_append.mpr ⟨hclosing.1, by simp [NoExit]⟩
  case h_9 landed hc =>
    simp only [State.Closing, hc] at hclosing
    cases hstep
    cases landed with
    | false => exact h.moves (by simp [Caller.cut]) (by simp) (.inl hclosing.1)
    | true =>
      refine h.calls _ _ (by simp) (by simp [Caller.cut]) (by simp) (.inl ?_)
      exact noExit_append.mpr ⟨hclosing.1, by simp [NoExit]⟩
  case h_10 code cut hc =>
    simp only [State.Closing, hc] at hclosing
    cases hstep
    obtain ⟨hnone, hw, hlast⟩ := hclosing
    exact h.calls _ _ (by simp) (by simp [hc, Caller.cut]) (by simp)
      (.inr ⟨hw, s.sent, code, rfl, hnone, hlast.imp id And.right⟩)
  case h_11 code cut landed hc =>
    simp only [State.Closing, hc] at hclosing
    cases hstep
    obtain ⟨hnone, hw, hlast⟩ := hclosing
    cases landed with
    | false => exact h.moves (by simp [hc, Caller.cut]) (by simp) (.inl hnone)
    | true =>
      exact h.calls _ _ (by simp) (by simp [hc, Caller.cut]) (by simp)
        (.inr ⟨hw, s.sent, code, rfl, hnone, hlast.imp id And.right⟩)
  case h_12 => cases hstep

theorem Sound.step {e : Event} (hok : ReadsWork s e) (hstep : step child argv error s e = some s')
    (h : Sound child s) : Sound child s' := by
  cases e with
  | pump src e => exact h.pumpStep (fun he => hok src (by rw [he])) hstep
  | writer e => exact h.writerStep hstep
  | caller e => exact h.callerStep hstep

/-- A status is the last frame, and what came before it settles the rest. -/
theorem Sound.exit (h : Sound child s) {pre post : List ExecFrame} {c : Int32}
    (hsent : s.sent = pre ++ .exit c :: post) :
    post = [] ∧ (.truncated ∈ pre ∨ ∀ src, payload src s.sent = child src) := by
  have hexit : ¬ NoExit s.sent := fun hn => hn c (by simp [hsent])
  have hc := h.closing
  unfold State.Closing at hc
  split at hc
  case h_1 | h_2 | h_3 | h_4 => exact absurd hc hexit
  case h_5 => exact absurd hc.1 hexit
  case h_6 => exact absurd hc.1 hexit
  case h_7 =>
    rcases hc with hnone | ⟨_, pre', c', hsent', hnone, hlast⟩
    · exact absurd hnone hexit
    · rw [hsent'] at hsent
      rcases List.eq_nil_or_concat post with rfl | ⟨post', f, rfl⟩
      · obtain ⟨rfl, _⟩ := List.append_inj' hsent rfl
        exact ⟨rfl, by simpa [hsent'] using hlast⟩
      · -- an earlier status would be among the frames before the last one
        rw [List.concat_eq_append, ← List.cons_append, ← List.append_assoc] at hsent
        obtain ⟨rfl, _⟩ := List.append_inj' hsent rfl
        exact absurd (by simp) (hnone c)

/-- Run theorem: what is on the stream of each pipe is a prefix of what the
child wrote to it; a status comes once and last; and a status without a
warning before it means that both outputs are there to the end. -/
theorem exit_certifies_output {es : List Event}
    (h : Steps (Exec.step child argv error) ReadsWork State.start es s) :
    (∀ src, payload src s.sent <+: child src) ∧
    (∀ pre c post, s.sent = pre ++ .exit c :: post → post = [] ∧ NoExit pre) ∧
    ∀ pre c, s.sent = pre ++ [.exit c] → .truncated ∉ pre →
      ∀ src, payload src s.sent = child src := by
  have hs : Sound child s := h.invariant (fun _ _ _ hok hstep hi => hi.step hok hstep) .start
  refine ⟨fun src => ?_, fun pre c post hsent => ⟨(hs.exit hsent).1, fun c' hc' => ?_⟩,
    fun pre c hsent hnot => ?_⟩
  · have hpast : s.sent <+: s.past := by
      simp [State.past]
    exact ((payload_mono src hpast).trans (hs.flow src)).trans (List.take_prefix _ _)
  · obtain ⟨a, b, rfl⟩ := List.append_of_mem hc'
    have hsplit : s.sent = a ++ .exit c' :: (b ++ .exit c :: post) := by
      simp [hsent]
    exact absurd (hs.exit hsplit).1 (by simp)
  · exact (hs.exit hsent).2.resolve_left hnot

end

/-- Whether an event is no failing read. -/
def Event.works : Event → Bool
  | .pump _ .readFail => false
  | _ => true

theorem readsWork_of_works {s : State} {e : Event} (h : e.works = true) : ReadsWork s e := by
  rintro src rfl
  cases h

/-- A child that says three bytes in two chunks and exits before they are
all read. -/
def shortRun : List Event :=
  [.caller (.spawn true true), .pump .stdout (.read 2), .pump .stderr .eof, .pump .stdout .send,
    .caller (.exited (.code 0)), .writer .recv, .pump .stdout (.read 1), .writer .wrote,
    .caller (.timeout false), .pump .stdout .send, .pump .stdout .eof, .caller .drained,
    .writer .recv, .writer .wrote, .writer .close, .caller .joined, .caller .wrote]

/-- Its output. -/
def threeBytes : Source → Bytes
  | .stdout => [1, 2, 3]
  | .stderr => []

theorem exit_certifies_output_shortRun :
    ∃ s, Steps (step threeBytes [['a']] []) ReadsWork State.start shortRun s ∧
      s.sent = [.stdout [1, 2], .stdout [3]] ++ [.exit 0] ∧
      ∀ src, payload src s.sent = threeBytes src := by
  have hrun : ((run (step threeBytes [['a']] []) State.start shortRun).map State.sent) =
      some ([.stdout [1, 2], .stdout [3]] ++ [.exit 0]) := by
    decide +kernel
  have hall : shortRun.all Event.works = true := by decide
  obtain ⟨s, hs, hsent⟩ := Option.map_eq_some_iff.mp hrun
  have hsteps : Steps (step threeBytes [['a']] []) ReadsWork State.start shortRun s :=
    Steps.of_run (fun e he _ => readsWork_of_works (List.all_eq_true.mp hall e he)) hs
  exact ⟨s, hsteps, hsent, (exit_certifies_output hsteps).2.2 _ 0 hsent (by decide)⟩

end Egdod.Exec
