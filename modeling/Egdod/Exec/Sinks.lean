import Egdod.Exec.Stream
import Egdod.Postcard

/-! What `recv_exec_output` leaves in its sinks, whatever frames come in
whatever order and however it ends: the output of the frames up to the first
that fails or would cross the ceiling. -/
namespace Egdod.Exec

open Posix Stream

section
variable (codec : Codec ExecFrame)

/-- The `while let` loop with sinks that take everything: the error that ended it, if one did,
and the variables then. -/
def recvLoop (max : Nat) (s : Output) (r : Reader UInt8) : Option ExecError × Output :=
  match _h : readMsgOpt codec r with
  | .error e => (some (.reading e), s)
  | .ok none => (none, s)
  | .ok (some (frame, rest)) =>
    match s.frame max frame with
    | .error e => (some (.output e), s)
    | .ok s => recvLoop max s rest
termination_by r.content.length
decreasing_by exact readMsgOpt_shorter _h

/-- `recv_exec_output`: its result, and what the two sinks hold then. -/
def recvSinks (max : Nat) (r : Reader UInt8) : Except ExecError Int32 × Bytes × Bytes :=
  match recvLoop codec max .empty r with
  | (some e, s) => (.error e, s.out, s.err)
  | (none, s) =>
    match s.code with
    | some code => (.ok code, s.out, s.err)
    | none => (.error (.output .noStatus), s.out, s.err)

end

section
variable {codec : Codec ExecFrame} {max : Nat} {r rest : Reader UInt8} {s : Output}
  {frame : ExecFrame} {frames : List ExecFrame} {bytes : Bytes}

/-! ## One turn of the loop -/

theorem recvLoop_error {e : ReadError} (h : readMsgOpt codec r = .error e) :
    recvLoop codec max s r = (some (.reading e), s) := by
  rw [recvLoop]
  split <;> simp_all

theorem recvLoop_none (h : readMsgOpt codec r = .ok none) :
    recvLoop codec max s r = (none, s) := by
  rw [recvLoop]
  split <;> simp_all

theorem recvLoop_some (h : readMsgOpt codec r = .ok (some (frame, rest))) :
    recvLoop codec max s r =
      match s.frame max frame with
      | .error e => (some (.output e), s)
      | .ok s => recvLoop codec max s rest := by
  rw [recvLoop]
  split
  · simp_all
  · simp_all
  · rename_i h'
    cases h.symm.trans h'
    rfl

/-- The same loop as the one that says of every call on a sink whether it fails, when none
does. -/
theorem recvFrames_eq_loop (s : Output) (r : Reader UInt8) :
    recvFrames codec max [] s r =
      match recvLoop codec max s r with
      | (some e, _) => .error e
      | (none, s) => .ok (s, []) := by
  induction hn : r.content.length using Nat.strongRecOn generalizing s r with
  | ind n ih =>
    cases hread : readMsgOpt codec r with
    | error e => rw [recvFrames_error hread, recvLoop_error hread]
    | ok got =>
      match got with
      | none => rw [recvFrames_none hread, recvLoop_none hread]
      | some (frame, rest) =>
        rw [recvFrames_some hread, recvLoop_some hread]
        cases s.frame max frame with
        | error e => rfl
        | ok s' =>
          have hrest := ih _ (hn ▸ readMsgOpt_shorter hread) s' rest rfl
          simpa using hrest

theorem recvExecStream_eq_sinks (r : Reader UInt8) :
    recvExecStream codec max [] r =
      (recvSinks codec max r).1.map fun code => (code, (recvSinks codec max r).2) := by
  rw [recvExecStream, recvFrames_eq_loop, recvSinks]
  rcases recvLoop codec max .empty r with ⟨_ | e, s⟩
  · cases hcode : s.code <;> simp [hcode, Except.map]
  · rfl

/-! ## Whole streams -/

/-- The loop on frames. -/
def takeFrames (max : Nat) : Output → List ExecFrame → Option OutputError × Output
  | s, [] => (none, s)
  | s, frame :: frames =>
    match s.frame max frame with
    | .error e => (some e, s)
    | .ok s => takeFrames max s frames

theorem recvLoop_whole (max : Nat) (s : Output) (h : writeMsgs codec frames = some bytes)
    (hr : r.content = bytes) (hbroken : r.broken = false) :
    recvLoop codec max s r =
      ((takeFrames max s frames).1.map .output, (takeFrames max s frames).2) := by
  induction frames generalizing s r bytes with
  | nil =>
    cases h
    exact recvLoop_none (readMsgOpt_end hr hbroken)
  | cons frame frames ih =>
    obtain ⟨first, rest, hfirst, hrest, rfl⟩ := writeMsgs_cons h
    obtain ⟨r', hread, hcontent, hb⟩ := readMsgOpt_whole hfirst hr
    rw [recvLoop_some hread, takeFrames]
    cases s.frame max frame with
    | error e => rfl
    | ok s' => exact ih s' hrest hcontent (hb.trans hbroken)

/-! ## What is taken of a sequence of frames -/

/-- How much output frames carry. -/
def total (frames : List ExecFrame) : Nat :=
  (payload .stdout frames).length + (payload .stderr frames).length

/-- The statuses reported, first to last. -/
def exits (frames : List ExecFrame) : List Int32 :=
  frames.filterMap fun
    | .exit code => some code
    | _ => none

/-- Frames without a failure whose output, on top of `got` bytes, never exceeds the ceiling. -/
def Within (max got : Nat) (frames : List ExecFrame) : Prop :=
  (∀ e, .failed e ∉ frames) ∧ ∀ part, part <+: frames → got + total part ≤ max

theorem total_cons (frame : ExecFrame) (frames : List ExecFrame) :
    total (frame :: frames) = total [frame] + total frames := by
  simp only [total, payload, List.flatMap_cons, List.flatMap_nil, List.append_nil,
    List.length_append]
  omega

theorem payload_cons (src : Source) (frame : ExecFrame) (frames : List ExecFrame) :
    payload src (frame :: frames) = payload src [frame] ++ payload src frames := by
  simp [payload]

theorem within_nil {got : Nat} (h : got ≤ max) : Within max got [] := by
  refine ⟨by simp, fun part hpart => ?_⟩
  rw [List.prefix_nil.mp hpart]
  exact h

theorem within_cons {got : Nat} :
    Within max got (frame :: frames) ↔
      got ≤ max ∧ (∀ e, frame ≠ .failed e) ∧ Within max (got + total [frame]) frames := by
  constructor
  · rintro ⟨hfail, hsum⟩
    refine ⟨by simpa [total, payload] using hsum [] List.nil_prefix, fun e he => ?_, fun e he => ?_,
      fun part hpart => ?_⟩
    · exact hfail e (by simp [he])
    · exact hfail e (List.mem_cons_of_mem _ he)
    · have := hsum (frame :: part) (List.cons_prefix_cons.mpr ⟨rfl, hpart⟩)
      rw [total_cons] at this
      omega
  · rintro ⟨hgot, hframe, hfail, hsum⟩
    refine ⟨fun e he => ?_, fun part hpart => ?_⟩
    · rcases List.mem_cons.mp he with he | he
      · exact hframe e he.symm
      · exact hfail e he
    · cases part with
      | nil => simpa [total, payload] using hgot
      | cons f part =>
        obtain ⟨rfl, htail⟩ := List.cons_prefix_cons.mp hpart
        have := hsum part htail
        rw [total_cons]
        omega

theorem charge_eq (max : Nat) {bs : Bytes} (h : s.got + bs.length < 2 ^ 64) :
    s.charge max bs =
      if s.got + bs.length ≤ max then .ok { s with got := s.got + bs.length }
      else .error (.overCeiling max) := by
  simp only [Output.charge, Nat.mod_eq_of_lt h]

/-- A frame is taken as a whole or ends the loop. -/
theorem frame_cases (frame : ExecFrame) (hsize : s.got + total [frame] < 2 ^ 64)
    (hgot : s.got ≤ max) :
    (∃ s', s.frame max frame = .ok s' ∧ (∀ e, frame ≠ .failed e) ∧
      s'.got = s.got + total [frame] ∧ s'.got ≤ max ∧
      s'.out = s.out ++ payload .stdout [frame] ∧ s'.err = s.err ++ payload .stderr [frame] ∧
      s'.code = (exits [frame]).getLast?.or s.code) ∨
    ∃ e, s.frame max frame = .error e ∧
      ((∃ e, frame = .failed e) ∨ max < s.got + total [frame]) := by
  cases frame with
  | stdout bs | stderr bs =>
    have hsmall : s.got + bs.length < 2 ^ 64 := by simpa [total, payload] using hsize
    have hcharge := charge_eq max hsmall
    by_cases hle : s.got + bs.length ≤ max
    · rw [if_pos hle] at hcharge
      refine .inl ⟨_, by rw [Output.frame, hcharge]; rfl, by simp, ?_⟩
      simp [total, payload, exits, hle]
    · rw [if_neg hle] at hcharge
      refine .inr ⟨.overCeiling max, by rw [Output.frame, hcharge]; rfl, .inr ?_⟩
      simpa [total, payload] using hle
  | exit code => exact .inl ⟨_, rfl, by simp, by simp [total, payload, exits, hgot]⟩
  | failed e => exact .inr ⟨_, rfl, .inl ⟨e, rfl⟩⟩
  | truncated => exact .inl ⟨_, rfl, by simp, by simp [total, payload, exits, hgot]⟩

theorem exits_cons (frame : ExecFrame) (frames : List ExecFrame) (code : Option Int32) :
    (exits (frame :: frames)).getLast?.or code =
      (exits frames).getLast?.or ((exits [frame]).getLast?.or code) := by
  have happend : exits (frame :: frames) = exits [frame] ++ exits frames :=
    List.filterMap_append (l := [frame])
  rw [happend, List.getLast?_append]
  cases (exits frames).getLast? <;> simp

/-- Run lemma: the loop takes the longest sequence of frames that stays within the ceiling. -/
theorem takeFrames_spec (frames : List ExecFrame) (hsize : s.got + total frames < 2 ^ 64)
    (hgot : s.got ≤ max) :
    ∃ taken, taken <+: frames ∧ Within max s.got taken ∧
      (∀ part, part <+: frames → Within max s.got part → part <+: taken) ∧
      (takeFrames max s frames).2.out = s.out ++ payload .stdout taken ∧
      (takeFrames max s frames).2.err = s.err ++ payload .stderr taken ∧
      (takeFrames max s frames).2.code = (exits taken).getLast?.or s.code ∧
      ((takeFrames max s frames).1 = none ↔ taken = frames) := by
  induction frames generalizing s with
  | nil =>
    refine ⟨[], List.prefix_refl _, within_nil hgot, fun part hpart _ => hpart, ?_⟩
    simp [takeFrames, payload, exits]
  | cons frame frames ih =>
    rw [total_cons] at hsize
    rcases frame_cases frame (by omega) hgot with
      ⟨s', hframe, hok, hgot', hmax, hout, herr, hcode⟩ | ⟨e, hframe, hwhy⟩
    · obtain ⟨taken, hbegin, hwithin, hlongest, htout, hterr, htcode, hall⟩ :=
        ih (s := s') (by omega) hmax
      rw [hgot'] at hwithin hlongest
      refine ⟨frame :: taken, List.cons_prefix_cons.mpr ⟨rfl, hbegin⟩,
        within_cons.mpr ⟨hgot, hok, hwithin⟩, fun part hpart hw => ?_, ?_⟩
      · cases part with
        | nil => exact List.nil_prefix
        | cons f part =>
          obtain ⟨rfl, htail⟩ := List.cons_prefix_cons.mp hpart
          obtain ⟨-, -, hrest⟩ := within_cons.mp hw
          exact List.cons_prefix_cons.mpr ⟨rfl, hlongest part htail hrest⟩
      · simp only [takeFrames, hframe]
        refine ⟨?_, ?_, ?_, ?_⟩
        · rw [htout, hout, payload_cons .stdout frame taken, List.append_assoc]
        · rw [hterr, herr, payload_cons .stderr frame taken, List.append_assoc]
        · rw [htcode, hcode, exits_cons frame taken]
        · rw [hall, List.cons.injEq]
          simp
    · refine ⟨[], List.nil_prefix, within_nil hgot, fun part hpart hw => ?_, ?_⟩
      · cases part with
        | nil => exact List.prefix_refl _
        | cons f part =>
          obtain ⟨rfl, -⟩ := List.cons_prefix_cons.mp hpart
          obtain ⟨-, hok, -, hsum⟩ := within_cons.mp hw
          rcases hwhy with ⟨e, he⟩ | hover
          · exact absurd he (hok e)
          · have := hsum [] List.nil_prefix
            simp only [total, payload, List.flatMap_nil, List.length_nil] at this hover
            omega
      · simp [takeFrames, hframe, payload, exits]

/-- What is written is the output of the longest sequence of frames without a failure and
within the ceiling, and the result is a status exactly if that is all of them and one of them
reports it. -/
theorem recvSinks_longest (h : writeMsgs codec frames = some bytes) (hr : r.content = bytes)
    (hclean : r.broken = false) (hsize : total frames < 2 ^ 64) (max : Nat) :
    ∃ taken, taken <+: frames ∧ Within max 0 taken ∧
      (∀ part, part <+: frames → Within max 0 part → part <+: taken) ∧
      (recvSinks codec max r).2 = (payload .stdout taken, payload .stderr taken) ∧
      (∀ code, (recvSinks codec max r).1 = .ok code ↔
        taken = frames ∧ (exits taken).getLast? = some code) ∧
      (recvSinks codec max r).2.1.length + (recvSinks codec max r).2.2.length ≤ max := by
  obtain ⟨taken, hbegin, hwithin, hlongest, hout, herr, hcode, hall⟩ :=
    takeFrames_spec frames (s := .empty) (by simpa [Output.empty]) (Nat.zero_le max)
  have hloop := recvLoop_whole max .empty h hr hclean
  replace hout : (takeFrames max .empty frames).2.out = payload .stdout taken := hout
  replace herr : (takeFrames max .empty frames).2.err = payload .stderr taken := herr
  replace hcode : (takeFrames max .empty frames).2.code = (exits taken).getLast? :=
    hcode.trans Option.or_none
  have hsinks : (recvSinks codec max r).2 = (payload .stdout taken, payload .stderr taken) := by
    rw [← hout, ← herr, recvSinks, hloop]
    rcases takeFrames max .empty frames with ⟨_ | e, s⟩
    · cases hs : s.code <;> simp [hs]
    · rfl
  refine ⟨taken, hbegin, hwithin, hlongest, hsinks, fun code => ?_, ?_⟩
  · rw [← hall, ← hcode, recvSinks, hloop]
    rcases takeFrames max .empty frames with ⟨_ | e, s⟩
    · cases hs : s.code <;> simp [hs]
    · simp
  · have htotal := hwithin.2 taken (List.prefix_refl _)
    rw [hsinks]
    simpa [total, Output.empty] using htotal

end

/-- Four bytes under a ceiling of three: no more than three are written, and there is no
status. -/
theorem recvSinks_longest_three :
    ∃ bytes, writeMsgs (Postcard.codec Postcard.execFrame)
        [.stdout [1, 2], .exit 0, .stderr [3], .stdout [4], .truncated] = some bytes ∧
      (∀ code, (recvSinks (Postcard.codec Postcard.execFrame) 3 ⟨[bytes], false⟩).1 ≠ .ok code) ∧
      (recvSinks (Postcard.codec Postcard.execFrame) 3 ⟨[bytes], false⟩).2.1.length +
        (recvSinks (Postcard.codec Postcard.execFrame) 3 ⟨[bytes], false⟩).2.2.length ≤ 3 := by
  have hwrite : (writeMsgs (Postcard.codec Postcard.execFrame)
      [.stdout [1, 2], .exit 0, .stderr [3], .stdout [4], .truncated]).isSome := by decide +kernel
  obtain ⟨bytes, hbytes⟩ := Option.isSome_iff_exists.mp hwrite
  obtain ⟨taken, -, hwithin, -, -, hok, hmax⟩ :=
    recvSinks_longest (r := ⟨[bytes], false⟩) hbytes (by simp [Reader.content]) rfl (by decide) 3
  refine ⟨bytes, hbytes, fun code hcode => ?_, hmax⟩
  obtain ⟨rfl, -⟩ := (hok code).mp hcode
  exact absurd (hwithin.2 _ (List.prefix_refl _)) (by decide)

end Egdod.Exec
