import Egdod.Exec.Stream
import Egdod.Postcard

/-! A command from end to end: the agent that runs it, whatever becomes of the
bytes it sends on their way, and the receiver on the controller's side. A
status the receiver returns is the child's own, and without a warning the two
sinks hold all the child wrote. -/
namespace Egdod.Exec

open Text Posix Stream StepSystem

/-! ## The receiver -/

/-- `recv_exec_output` with the warning it logs: the status, whether it warned, and what the
sinks took. -/
def recvWarned (codec : Codec ExecFrame) (max : Nat) (faults : List Bool) (r : Reader UInt8) :
    Except ExecError (Int32 × Bool × Bytes × Bytes) :=
  match recvFrames codec max faults .empty r with
  | .error e => .error e
  | .ok (s, faults) =>
    if (faults.take 2).any id then .error .writing
    else
      match s.code with
      | some code => .ok (code, s.truncated, s.out, s.err)
      | none => .error (.output .noStatus)

section
variable {codec : Codec ExecFrame} {max : Nat} {r : Reader UInt8} {s s' : Output}
  {faults faults' : List Bool} {frames : List ExecFrame} {bytes : Bytes}

/-- The warning aside, this is the receiver. -/
theorem recvExecStream_eq_warned :
    recvExecStream codec max faults r =
      (recvWarned codec max faults r).map fun (code, _, out) => (code, out) := by
  unfold recvExecStream recvWarned
  rcases recvFrames codec max faults .empty r with e | ⟨s, faults'⟩
  · rfl
  · dsimp only
    split
    · rfl
    · cases s.code <;> rfl

/-- Run lemma: of a stream that is cut somewhere, the loop takes the frames that arrived
whole. -/
theorem recvFrames_taken (h : writeMsgs codec frames = some bytes) (hr : r.content <+: bytes)
    (hok : recvFrames codec max faults s r = .ok (s', faults')) :
    ∃ taken, taken <+: frames ∧ taken.foldlM (Output.frame max) s = .ok s' := by
  induction frames generalizing s r bytes faults with
  | nil =>
    cases h
    have hempty : r.content.length < 4 := by simp [List.prefix_nil.mp hr]
    have hended : readMsgOpt codec r = .ok none ∨ ∃ e, readMsgOpt codec r = .error e := by
      rw [readMsgOpt_short codec hempty]
      cases r.broken with
      | false => exact .inl rfl
      | true => exact .inr ⟨.readingLength, rfl⟩
    exact ⟨[], List.prefix_refl _, by rw [recvFrames_ended hended hok]; rfl⟩
  | cons frame frames ih =>
    obtain ⟨first, rest, hfirst, hrest, rfl⟩ := writeMsgs_cons h
    rcases readMsgOpt_carried hfirst hr with ⟨-, -, hended⟩ | ⟨r', hread, -, hmore, -⟩
    · exact ⟨[], List.nil_prefix, by rw [recvFrames_ended hended hok]; rfl⟩
    · rw [recvFrames_some hread] at hok
      split at hok
      · cases hok
      · rename_i s₁ hframe
        have hgo : ∃ taken, taken <+: frames ∧ taken.foldlM (Output.frame max) s₁ = .ok s' := by
          split at hok
          · split at hok
            · cases hok
            · exact ih hrest hmore hok
          · exact ih hrest hmore hok
        obtain ⟨taken, htaken, hfold⟩ := hgo
        refine ⟨frame :: taken, List.cons_prefix_cons.mpr ⟨rfl, htaken⟩, ?_⟩
        rw [List.foldlM_cons, hframe]
        exact hfold

/-- What one frame does to the variables. -/
theorem Output.frame_ok {frame : ExecFrame} (h : s.frame max frame = .ok s') :
    s'.out = s.out ++ payload .stdout [frame] ∧ s'.err = s.err ++ payload .stderr [frame] ∧
      (s'.truncated = true ↔ s.truncated = true ∨ frame = .truncated) ∧
      ∀ c, s'.code = some c → s.code = some c ∨ frame = .exit c := by
  cases frame with
  | stdout bs | stderr bs =>
    unfold Output.frame Output.charge at h
    dsimp only at h
    split at h
    · cases h
      simp [payload]
    · cases h
  | exit c =>
    cases h
    simp [payload]
  | failed e => cases h
  | truncated =>
    cases h
    simp [payload]

theorem foldlM_frame (h : frames.foldlM (Output.frame max) s = .ok s') :
    s'.out = s.out ++ payload .stdout frames ∧ s'.err = s.err ++ payload .stderr frames ∧
      (s'.truncated = true ↔ s.truncated = true ∨ .truncated ∈ frames) ∧
      ∀ c, s'.code = some c → s.code = some c ∨ .exit c ∈ frames := by
  induction frames generalizing s with
  | nil =>
    cases h
    simp
  | cons frame frames ih =>
    rw [List.foldlM_cons] at h
    cases hframe : s.frame max frame with
    | error e =>
      rw [hframe] at h
      cases h
    | ok s₁ =>
      rw [hframe] at h
      obtain ⟨hout, herr, htruncated, hcode⟩ := Output.frame_ok hframe
      obtain ⟨hout', herr', htruncated', hcode'⟩ := ih h
      have hsplit : frame :: frames = [frame] ++ frames := rfl
      refine ⟨?_, ?_, ?_, fun c hc => ?_⟩
      · rw [hout', hout, hsplit, payload_append, List.append_assoc]
      · rw [herr', herr, hsplit, payload_append, List.append_assoc]
      · rw [htruncated', htruncated, List.mem_cons, or_assoc, eq_comm (a := frame)]
      · rcases hcode' c hc with hold | hmem
        · rcases hcode c hold with hold | rfl
          · exact .inl hold
          · exact .inr List.mem_cons_self
        · exact .inr (List.mem_cons_of_mem _ hmem)

end

/-! ## The status -/

/-- The status the caller will report. -/
def Caller.code : Caller → Option Int32
  | .draining code _ | .joining code _ | .truncating code | .exiting code _ => some code
  | _ => none

/-- Every status under way is one of those allowed. -/
structure Reports (allowed : Int32 → Prop) (s : State) : Prop where
  caller : ∀ c, s.caller.code = some c → allowed c
  past : ∀ c, .exit c ∈ s.past → allowed c

section
variable {allowed allowed' : Int32 → Prop} {child : Source → Bytes} {argv : List Str} {error : Str}
  {s s' : State}

theorem Reports.start : Reports allowed State.start :=
  ⟨by simp [State.start, Caller.code], by simp [State.start, State.past, Writer.held]⟩

theorem Reports.mono (h : Reports allowed s) (hle : ∀ c, allowed c → allowed' c) :
    Reports allowed' s :=
  ⟨fun c hc => hle c (h.caller c hc), fun c hc => hle c (h.past c hc)⟩

/-- A step that leaves the caller alone and adds no status. -/
theorem Reports.keeps (h : Reports allowed s) (hcaller : s'.caller = s.caller)
    (hpast : ∀ c, .exit c ∈ s'.past → .exit c ∈ s.past) : Reports allowed s' :=
  ⟨fun c hc => h.caller c (hcaller ▸ hc), fun c hc => h.past c (hpast c hc)⟩

theorem Reports.pumpStep {src : Source} {e : PumpEvent}
    (hstep : s.pumpStep child src e = some s') (h : Reports allowed s) : Reports allowed s' := by
  unfold State.pumpStep at hstep
  split at hstep
  case h_1 | h_2 | h_6 | h_7 =>
    split at hstep
    · cases hstep
      exact h.keeps rfl fun _ hc => hc
    · cases hstep
  case h_3 =>
    cases hstep
    exact h.keeps rfl fun _ hc => hc
  case h_4 bs hp =>
    split at hstep
    case h_1 | h_2 =>
      split at hstep
      · cases hstep
        refine h.keeps rfl fun c hc => ?_
        -- what a pump sends is output
        have hframe : .exit c ∉ [src.frame bs] := noExit_frame src bs c
        simp only [State.past, List.mem_append] at hc ⊢
        tauto
      · cases hstep
    case h_3 => cases hstep
  case h_5 =>
    split at hstep
    · cases hstep
      exact h.keeps rfl fun _ hc => hc
    · cases hstep
  case h_8 => cases hstep

theorem Reports.writerStep {e : WriterEvent} (hstep : s.writerStep e = some s')
    (h : Reports allowed s) : Reports allowed s' := by
  unfold State.writerStep at hstep
  split at hstep
  case h_1 hw =>
    split at hstep
    · rename_i f rest hq
      cases hstep
      exact h.keeps rfl fun c hc => by simpa [State.past, hw, hq, Writer.held] using hc
    · cases hstep
  case h_2 hw =>
    split at hstep
    · cases hstep
      exact h.keeps rfl fun c hc => by simpa [State.past, hw, Writer.held] using hc
    · cases hstep
  case h_3 f hw =>
    cases hstep
    exact h.keeps rfl fun c hc => by simpa [State.past, hw, Writer.held] using hc
  case h_4 f landed hw =>
    cases hstep
    refine h.keeps rfl fun c hc => ?_
    cases landed <;> simp [State.past, hw, Writer.held] at hc ⊢ <;> tauto
  case h_5 => cases hstep

/-- A step of the caller that carries its status on, with what it writes last. -/
theorem Reports.calls (h : Reports allowed s) (caller : Caller) (last : List ExecFrame)
    (hcaller : ∀ c, caller.code = some c → allowed c)
    (hlast : ∀ c, .exit c ∈ last → allowed c) :
    Reports allowed { s with sent := s.sent ++ last, caller := caller } := by
  refine ⟨hcaller, fun c hc => ?_⟩
  have hsplit : .exit c ∈ s.past ∨ .exit c ∈ last := by
    simp only [State.past, List.mem_append] at hc ⊢
    tauto
  exact hsplit.elim (h.past c) (hlast c)

theorem Reports.moves (h : Reports allowed s) {caller : Caller}
    (hcaller : ∀ c, caller.code = some c → allowed c) :
    Reports allowed { s with caller := caller } := by
  simpa using h.calls caller [] hcaller (by simp)

theorem Reports.callerStep {e : CallerEvent}
    (hexit : ∀ status, e = .exited status → allowed (exitCode status))
    (hstep : s.callerStep argv error e = some s') (h : Reports allowed s) :
    Reports allowed s' := by
  have hcode := h.caller
  unfold State.callerStep at hstep
  split at hstep
  case h_1 ok landed hc =>
    split at hstep
    case h_1 | h_2 =>
      cases hstep
      refine ⟨by simp [Caller.code], fun c hc => h.past c ?_⟩
      cases landed <;> simp [State.past] at hc ⊢ <;> tauto
    case h_3 =>
      cases hstep
      refine ⟨by simp [Caller.code], fun c hc => h.past c ?_⟩
      simp [State.past, Writer.held] at hc ⊢
      tauto
  case h_2 status hc =>
    cases hstep
    refine h.moves fun c hcode' => ?_
    cases hcode'
    exact hexit status rfl
  case h_3 hc =>
    cases hstep
    exact h.moves (by simp [Caller.code])
  case h_4 hc =>
    simp only [hc] at hcode
    split at hstep
    · cases hstep
      exact h.moves hcode
    · cases hstep
  case h_5 hc =>
    simp only [hc] at hcode
    split at hstep
    · cases hstep
      exact h.moves hcode
    · cases hstep
      exact h.moves hcode
  case h_6 code cut hc =>
    simp only [hc] at hcode
    split at hstep
    · cases hstep
      cases cut
      · exact h.moves hcode
      · exact h.moves hcode
    · cases hstep
      exact h.moves (by simp [Caller.code])
    · cases hstep
  case h_7 hc =>
    cases hstep
    exact h.moves (by simp [Caller.code])
  case h_8 code hc =>
    simp only [hc] at hcode
    cases hstep
    exact h.calls _ _ hcode (by simp)
  case h_9 landed hc =>
    cases hstep
    cases landed with
    | false => exact h.moves (by simp [Caller.code])
    | true => exact h.calls _ _ (by simp [Caller.code]) (by simp)
  case h_10 code cut hc =>
    simp only [hc] at hcode
    cases hstep
    exact h.calls _ _ (by simp [Caller.code]) (by simpa [Caller.code] using hcode)
  case h_11 code cut landed hc =>
    simp only [hc] at hcode
    cases hstep
    cases landed with
    | false => exact h.moves (by simp [Caller.code])
    | true => exact h.calls _ _ (by simp [Caller.code]) (by simpa [Caller.code] using hcode)
  case h_12 => cases hstep

theorem Reports.step {e : Event}
    (hexit : ∀ status, e = .caller (.exited status) → allowed (exitCode status))
    (hstep : step child argv error s e = some s') (h : Reports allowed s) :
    Reports allowed s' := by
  cases e with
  | pump src e => exact h.pumpStep hstep
  | writer e => exact h.writerStep hstep
  | caller e => exact h.callerStep (fun status he => hexit status (by rw [he])) hstep

/-- Run lemma: a status on the stream is that of an exit the agent waited for. -/
theorem exit_of_exited {es : List Event} {c : Int32}
    (h : Steps (Exec.step child argv error) ReadsWork State.start es s) (hc : .exit c ∈ s.sent) :
    ∃ status, .caller (.exited status) ∈ es ∧ c = exitCode status := by
  have hreports : Reports (fun c => ∃ status, .caller (.exited status) ∈ es ∧
      c = exitCode status) s := by
    refine Steps.history (P := fun es s => Reports (fun c => ∃ status,
      .caller (.exited status) ∈ es ∧ c = exitCode status) s) .start ?_ h
    intro es m e t _ hm _ hstep
    refine Reports.step (fun status he => ⟨status, by simp [he], rfl⟩) hstep (hm.mono ?_)
    intro c hc
    obtain ⟨status, hmem, rfl⟩ := hc
    exact ⟨status, List.mem_append_left _ hmem, rfl⟩
  exact hreports.past c (by simp [State.past, hc])

end

/-! ## End to end -/

section
variable {codec : Codec ExecFrame} {max : Nat} {faults : List Bool} {r : Reader UInt8}
  {child : Source → Bytes} {argv : List Str} {error : Str} {s : State} {es : List Event}
  {bytes : Bytes} {chunks : List Bytes} {fates : List (Option Nat)} {code : Int32} {warned : Bool}
  {out err : Bytes}

/-- What a receiver that succeeds has gathered. -/
theorem recvWarned_ok (h : recvWarned codec max faults r = .ok (code, warned, out, err)) :
    ∃ got faults', recvFrames codec max faults .empty r =
      .ok (⟨some code, warned, got, out, err⟩, faults') := by
  unfold recvWarned at h
  rcases hframes : recvFrames codec max faults .empty r with e | ⟨s, faults'⟩
  · rw [hframes] at h
    cases h
  · obtain ⟨code', warned', got, out', err'⟩ := s
    rw [hframes] at h
    dsimp only at h
    split at h
    · cases h
    · cases code' with
      | none => cases h
      | some code' =>
        cases h
        exact ⟨got, faults', rfl⟩

/-- Take any run of the agent, however its tasks interleave, whatever part of its stream
arrives at the controller's proxy and in whatever chunks, wherever a write of the proxy fails,
and however the client's reads break it up. A status the client then reports is the exit status
of the child, what the client wrote is a prefix of each of the child's outputs, and if the client
did not warn it is all of them. -/
theorem remote_exec_faithful
    (hrun : Steps (step child argv error) ReadsWork State.start es s)
    (hbytes : writeMsgs codec s.sent = some bytes) (hchunks : chunks.flatten <+: bytes)
    (hr : r.content <+: spliced fates chunks)
    (hok : recvWarned codec max faults r = .ok (code, warned, out, err)) :
    (∃ status, .caller (.exited status) ∈ es ∧ code = exitCode status) ∧
    out <+: child .stdout ∧ err <+: child .stderr ∧
    (warned = false → out = child .stdout ∧ err = child .stderr) := by
  have hs : Sound child s := hrun.invariant (fun _ _ _ hok hstep hi => hi.step hok hstep) .start
  obtain ⟨got, faults', hframes⟩ := recvWarned_ok hok
  have hcontent : r.content <+: bytes :=
    (hr.trans (spliced_prefix_flatten fates chunks)).trans hchunks
  obtain ⟨taken, htaken, hfold⟩ := recvFrames_taken hbytes hcontent hframes
  obtain ⟨hout, herr, hwarned, hcode⟩ := foldlM_frame hfold
  have hexit : .exit code ∈ taken := (hcode code rfl).resolve_left (by simp [Output.empty])
  -- a status is the last frame there is, so none is missing behind it
  have hall : taken = s.sent := by
    obtain ⟨pre, post, rfl⟩ := List.append_of_mem hexit
    obtain ⟨rest, hrest⟩ := htaken
    have hsplit : s.sent = pre ++ .exit code :: (post ++ rest) := by simp [← hrest]
    have hlast := (hs.exit hsplit).1
    rw [← hrest, (List.append_eq_nil_iff.mp hlast).2, List.append_nil]
  subst hall
  have hflow : ∀ src, payload src s.sent <+: child src := fun src =>
    ((payload_mono src (by simp [State.past])).trans (hs.flow src)).trans (List.take_prefix _ _)
  have hout : out = payload .stdout s.sent := hout
  have herr : err = payload .stderr s.sent := herr
  refine ⟨exit_of_exited hrun hexit, hout ▸ hflow .stdout, herr ▸ hflow .stderr, ?_⟩
  intro hquiet
  obtain ⟨pre, post, hsplit⟩ := List.append_of_mem hexit
  have hnot : .truncated ∉ pre := by
    intro hmem
    have hwarn : warned = true := hwarned.mpr (.inr (by simp [hsplit, hmem]))
    rw [hquiet] at hwarn
    cases hwarn
  have hwhole := (hs.exit hsplit).2.resolve_left hnot
  exact ⟨hout.trans (hwhole .stdout), herr.trans (hwhole .stderr)⟩

/-- Two chunks at the proxy, neither a frame, and a client whose reads break them up again. -/
theorem remote_exec_faithful_shortRun :
    ∃ s bytes, Steps (step threeBytes [['a']] []) ReadsWork State.start shortRun s ∧
      writeMsgs (Postcard.codec Postcard.execFrame) s.sent = some bytes ∧
      ∃ chunks, chunks.flatten = bytes ∧ ∃ r : Reader UInt8, r.content = spliced [none] chunks ∧
        recvWarned (Postcard.codec Postcard.execFrame) 100 [] r = .ok (0, false, [1, 2, 3], []) ∧
        ∃ status, .caller (.exited status) ∈ shortRun ∧ 0 = exitCode status := by
  have hview : (run (step threeBytes [['a']] []) State.start shortRun).map State.sent =
      some [.stdout [1, 2], .stdout [3], .exit 0] := by
    decide +kernel
  have hall : shortRun.all Event.works = true := by decide
  obtain ⟨s, hs, hsent⟩ := Option.map_eq_some_iff.mp hview
  have hsteps : Steps (step threeBytes [['a']] []) ReadsWork State.start shortRun s :=
    Steps.of_run (fun e he _ => readsWork_of_works (List.all_eq_true.mp hall e he)) hs
  have hbytes : writeMsgs (Postcard.codec Postcard.execFrame) s.sent =
      some [4, 0, 0, 0, 0, 2, 1, 2, 3, 0, 0, 0, 0, 1, 3, 2, 0, 0, 0, 2, 0] := by
    rw [hsent]
    decide +kernel
  have hok : recvWarned (Postcard.codec Postcard.execFrame) 100 []
      ⟨[[4, 0, 0, 0, 0, 2, 1, 2, 3, 0], [0, 0, 0, 1, 3, 2, 0, 0, 0, 2, 0]], false⟩ =
        .ok (0, false, [1, 2, 3], []) := by
    rw [recvWarned, recvFrames_whole hbytes rfl rfl, hsent]
    rfl
  have hcontent : Reader.content
      ⟨[[4, 0, 0, 0, 0, 2, 1, 2, 3, 0], [0, 0, 0, 1, 3, 2, 0, 0, 0, 2, 0]], false⟩ =
        spliced [none] [[4, 0, 0, 0, 0, 2], [1, 2, 3, 0, 0, 0, 0, 1, 3, 2, 0, 0, 0, 2, 0]] := rfl
  exact ⟨s, _, hsteps, hbytes, _, rfl, _, hcontent, hok,
    (remote_exec_faithful hsteps hbytes (List.prefix_refl (List.flatten _))
      (by rw [hcontent]) hok).1⟩

end

end Egdod.Exec
