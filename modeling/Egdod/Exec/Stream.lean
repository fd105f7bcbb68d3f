import Egdod.Exec.Agent
import Egdod.Exec.Output
import Egdod.Framing

/-! `recv_exec_output` on the bytes of its stream, frame by frame, with sinks
that may fail. A whole stream comes to what its frames come to; a stream that
was cut has no status to report. -/
namespace Egdod.Exec

open Posix Stream

inductive ExecError where
  | reading (e : ReadError)
  | output (e : OutputError)
  | writing
  deriving DecidableEq

/-- Whether a frame is for one of the sinks. -/
def sinks : ExecFrame → Bool
  | .stdout _ | .stderr _ => true
  | _ => false

section
variable (codec : Codec ExecFrame)

/-- The `while let` loop. `faults` says of each call on a sink whether it fails; a call that is
not listed works. -/
def recvFrames (max : Nat) (faults : List Bool) (s : Output) (r : Reader UInt8) :
    Except ExecError (Output × List Bool) :=
  match _h : readMsgOpt codec r with
  | .error e => .error (.reading e)
  | .ok none => .ok (s, faults)
  | .ok (some (frame, rest)) =>
    match s.frame max frame with
    | .error e => .error (.output e)
    | .ok s =>
      if sinks frame then
        if faults.headD false then .error .writing else recvFrames max faults.tail s rest
      else recvFrames max faults s rest
termination_by r.content.length
decreasing_by
  all_goals exact readMsgOpt_shorter _h

/-- The loop, the two flushes and the status. -/
def recvExecStream (max : Nat) (faults : List Bool) (r : Reader UInt8) :
    Except ExecError (Int32 × Bytes × Bytes) :=
  match recvFrames codec max faults .empty r with
  | .error e => .error e
  | .ok (s, faults) =>
    if (faults.take 2).any id then .error .writing
    else
      match s.code with
      | some code => .ok (code, s.out, s.err)
      | none => .error (.output .noStatus)

end

/-- What an agent sends for a command that ran: output, perhaps a word that there was more of
it, and the status last. -/
structure Report where
  output : List (Source × Bytes)
  truncated : Bool
  code : Int32

def Report.body (rep : Report) : List ExecFrame :=
  rep.output.map (fun (src, bs) => src.frame bs) ++ if rep.truncated then [.truncated] else []

def Report.frames (rep : Report) : List ExecFrame := rep.body ++ [.exit rep.code]

theorem Report.noExit_body (rep : Report) : NoExit rep.body := by
  refine noExit_append.mpr ⟨fun c hc => ?_, fun c hc => ?_⟩
  · obtain ⟨⟨src, bs⟩, -, hframe⟩ := List.mem_map.mp hc
    exact noExit_frame src bs c (List.mem_singleton.mpr hframe.symm)
  · split at hc
    · simp at hc
    · simp at hc

section
variable {codec : Codec ExecFrame} {max : Nat} {r rest : Reader UInt8} {s s' : Output}
  {faults faults' : List Bool} {frame : ExecFrame} {frames : List ExecFrame} {bytes : Bytes}

/-! ## One turn of the loop -/

theorem recvFrames_error {e : ReadError} (h : readMsgOpt codec r = .error e) :
    recvFrames codec max faults s r = .error (.reading e) := by
  rw [recvFrames]
  split <;> simp_all

theorem recvFrames_none (h : readMsgOpt codec r = .ok none) :
    recvFrames codec max faults s r = .ok (s, faults) := by
  rw [recvFrames]
  split <;> simp_all

theorem recvFrames_some (h : readMsgOpt codec r = .ok (some (frame, rest))) :
    recvFrames codec max faults s r =
      match s.frame max frame with
      | .error e => .error (.output e)
      | .ok s =>
        if sinks frame then
          if faults.headD false then .error .writing
          else recvFrames codec max faults.tail s rest
        else recvFrames codec max faults s rest := by
  rw [recvFrames]
  split
  · simp_all
  · simp_all
  · rename_i h'
    cases h.symm.trans h'
    rfl

/-! ## Whole streams -/

theorem recvFrames_whole (h : writeMsgs codec frames = some bytes) (hr : r.content = bytes)
    (hbroken : r.broken = false) :
    recvFrames codec max [] s r =
      match frames.foldlM (Output.frame max) s with
      | .error e => .error (.output e)
      | .ok s => .ok (s, []) := by
  induction frames generalizing s r bytes with
  | nil =>
    cases h
    exact recvFrames_none (readMsgOpt_end hr hbroken)
  | cons frame frames ih =>
    obtain ⟨first, rest, hfirst, hrest, rfl⟩ := writeMsgs_cons h
    obtain ⟨r', hread, hcontent, hb⟩ := readMsgOpt_whole hfirst hr
    rw [recvFrames_some hread, List.foldlM_cons]
    cases s.frame max frame with
    | error e => rfl
    | ok s' =>
      have := ih (s := s') hrest hcontent (hb.trans hbroken)
      simpa [Bind.bind, Except.bind] using this

/-- With sinks that take everything, the bytes of a whole stream come to what its frames come
to. -/
theorem recvExecStream_whole (h : writeMsgs codec frames = some bytes) (hr : r.content = bytes)
    (hbroken : r.broken = false) :
    recvExecStream codec max [] r = (recvExecOutput max frames).mapError .output := by
  rw [recvExecStream, recvFrames_whole h hr hbroken, recvExecOutput]
  cases frames.foldlM (Output.frame max) Output.empty with
  | error e => rfl
  | ok s => cases hcode : s.code <;> simp [Bind.bind, Except.bind, Except.mapError, hcode]

/-! ## Cut streams -/

/-- Only an exit frame brings a status. -/
theorem code_frame (h : s.frame max frame = .ok s') (hframe : ∀ c, frame ≠ .exit c) :
    s'.code = s.code := by
  cases frame with
  | stdout bs | stderr bs =>
    unfold Output.frame Output.charge at h
    dsimp only at h
    split at h
    · cases h
      rfl
    · cases h
  | exit c => exact absurd rfl (hframe c)
  | failed e => cases h
  | truncated =>
    cases h
    rfl

/-- Without another message the loop leaves things as they are, if it does not fail. -/
theorem recvFrames_ended
    (h : readMsgOpt codec r = .ok none ∨ ∃ e, readMsgOpt codec r = .error e)
    (hok : recvFrames codec max faults s r = .ok (s', faults')) : s' = s := by
  rcases h with hnone | ⟨e, he⟩
  · rw [recvFrames_none hnone] at hok
    cases hok
    rfl
  · rw [recvFrames_error he] at hok
    cases hok

/-- Run lemma: a stream cut before the end of its last frame has brought no status, when none
of the frames before it does. -/
theorem recvFrames_cut {last : ExecFrame} (hno : NoExit frames)
    (h : writeMsgs codec (frames ++ [last]) = some bytes) (hr : r.content <+: bytes)
    (hne : r.content ≠ bytes) (hok : recvFrames codec max faults s r = .ok (s', faults')) :
    s'.code = s.code := by
  induction frames generalizing s r bytes faults with
  | nil =>
    obtain ⟨first, rest, hfirst, hrest, rfl⟩ := writeMsgs_cons h
    cases hrest
    rcases readMsgOpt_carried hfirst hr with ⟨-, -, hend⟩ | ⟨r', -, hcontent, hmore, -⟩
    · rw [recvFrames_ended hend hok]
    · rw [List.prefix_nil.mp hmore] at hcontent
      exact absurd hcontent hne
  | cons frame frames ih =>
    obtain ⟨first, rest, hfirst, hrest, rfl⟩ := writeMsgs_cons h
    rcases readMsgOpt_carried hfirst hr with ⟨-, -, hend⟩ | ⟨r', hread, hcontent, hmore, -⟩
    · rw [recvFrames_ended hend hok]
    · have hno' : NoExit frames := fun c hc => hno c (List.mem_cons_of_mem _ hc)
      have hne' : r'.content ≠ rest := fun e => hne (by rw [hcontent, e])
      rw [recvFrames_some hread] at hok
      split at hok
      · cases hok
      · rename_i s₁ hframe
        have hcode : s₁.code = s.code :=
          code_frame hframe fun c hc => hno c (hc ▸ List.mem_cons_self)
        rw [← hcode]
        split at hok
        · split at hok
          · cases hok
          · exact ih hno' hrest hmore hne' hok
        · exact ih hno' hrest hmore hne' hok

/-- A report that is cut is an error, whatever the ceiling and the sinks. -/
theorem recvExecStream_cut {rep : Report} (h : writeMsgs codec rep.frames = some bytes)
    (hr : r.content <+: bytes) (hne : r.content ≠ bytes) :
    ∃ e, recvExecStream codec max faults r = .error e := by
  unfold recvExecStream
  split
  · rename_i e _
    exact ⟨e, rfl⟩
  · rename_i s faults' hok
    have hcode : s.code = none := recvFrames_cut rep.noExit_body h hr hne hok
    rw [hcode]
    split
    · exact ⟨_, rfl⟩
    · exact ⟨_, rfl⟩

end

end Egdod.Exec
