import Egdod.Lib.Files
import Egdod.Lib.Lines
import Egdod.Lib.Memory
import Egdod.Lib.Run

/-! `relay` of `boot/init.c`: what a child prints goes to the kernel's log, a
record for every line. The lines are found in a buffer of fixed size that is
refilled, scanned and moved down; a line that fills it is written as far as it
is there. -/
namespace Egdod.Boot.Relay

open Posix StepSystem Memory Lines

/-- `KMSG_CHUNK`. -/
def kmsgChunk : Nat := 900

/-- The size of `buf` in `relay`. -/
def bufSize : Nat := 4 * kmsgChunk

theorem bufSize_pos : 0 < bufSize := by decide

/-- The size of `rec` in `kmsg_line`. -/
def recSize : Nat := kmsgChunk + 4

def newline : UInt8 := 10

/-- `"<5>"`. -/
def tag : Bytes := [60, 53, 62]

/-! ## Records -/

/-- How a write to the log ends; `invalid` is `EINVAL`. -/
inductive Wrote where
  | ok
  | invalid
  | failed
  deriving DecidableEq

/-- The log: the records it has taken, and what becomes of the next writes.
A write that is not listed works. -/
structure Log where
  records : List Bytes
  fates : List Wrote
  deriving DecidableEq

def Log.write (log : Log) (record : Bytes) : Wrote × Log :=
  match log.fates with
  | [] => (.ok, { log with records := log.records ++ [record] })
  | .ok :: fates => (.ok, ⟨log.records ++ [record], fates⟩)
  | w :: fates => (w, ⟨log.records, fates⟩)

def kmsgLoop : Nat → Block UInt8 recSize → Log → Bytes → Option Log
  | 0, _, _, _ => none
  | fuel + 1, record, log, line => do
    let take := min line.length kmsgChunk
    let record ← record.store 0 tag
    let record ← record.store 3 (line.take take)
    match log.write (← record.load 0 (take + 3)) with
    | (.failed, log) => some log
    | (_, log) =>
      if line.drop take = [] then some log else kmsgLoop fuel record log (line.drop take)

/-- `kmsg_line`. Its record starts with whatever is on the stack. -/
def kmsgLine (stack : Block UInt8 recSize) (log : Log) (line : Bytes) : Option Log :=
  kmsgLoop (line.length + 1) stack log line

/-! ## The buffer -/

/-- `kmsg_line` for the bytes from `start` up to `i`, unless there are none. -/
def emit (stack : Block UInt8 recSize) (buf : Block UInt8 bufSize) (start i : Nat) (log : Log) :
    Option Log :=
  if start < i then (buf.load start (i - start)).bind (kmsgLine stack log) else some log

/-- The loop over `i`, with the bytes it has left. Returns where the last line starts. -/
def scan (stack : Block UInt8 recSize) (buf : Block UInt8 bufSize) :
    Nat → Nat → Nat → Log → Option (Nat × Log)
  | 0, _, start, log => some (start, log)
  | left + 1, i, start, log => do
    if (← buf.get i) ≠ newline then scan stack buf left (i + 1) start log
    else
      let log ← emit stack buf start i log
      scan stack buf left (i + 1) (i + 1) log

/-- What a `read` brings: an interruption, bytes, or the end of the input or an error. -/
inductive Read where
  | interrupted
  | data (bs : Bytes)
  | ended
  deriving DecidableEq

inductive Phase where
  | reading
  | exited
  /-- An access has left its memory. -/
  | overrun
  deriving DecidableEq

structure State where
  phase : Phase
  buf : Block UInt8 bufSize
  n : Nat
  log : Log

/-- What is asked of `read`. -/
def State.request (s : State) : Nat := bufSize - s.n

/-- `read` has put its bytes behind those that were there. -/
def State.fill (stack : Block UInt8 recSize) (s : State) (bs : Bytes) : Option State := do
  let buf ← s.buf.store s.n bs
  let n := s.n + bs.length
  let (start, log) ← scan stack buf n 0 0 s.log
  if start = 0 ∧ n = bufSize then
    let log ← (buf.load 0 n).bind (kmsgLine stack log)
    some { s with buf := buf, n := 0, log := log }
  else
    let buf ← buf.store 0 (← buf.load start (n - start))
    some { s with buf := buf, n := n - start, log := log }

/-- The input is over. -/
def State.finish (stack : Block UInt8 recSize) (s : State) : Option State := do
  let log ← emit stack s.buf 0 s.n s.log
  some { s with phase := .exited, log := log }

def State.orOverrun (s : State) (s' : Option State) : State := s'.getD { s with phase := .overrun }

/-- One turn of `relay`. `read` brings at least one byte and at most what was asked. -/
def step (stack : Block UInt8 recSize) (s : State) (r : Read) : Option State :=
  match s.phase, r with
  | .reading, .interrupted => some s
  | .reading, .data bs =>
    if bs ≠ [] ∧ bs.length ≤ s.request then some (s.orOverrun (s.fill stack bs)) else none
  | .reading, .ended => some (s.orOverrun (s.finish stack))
  | _, _ => none

def start (buf : Block UInt8 bufSize) (fates : List Wrote) : State :=
  ⟨.reading, buf, 0, ⟨[], fates⟩⟩

/-- What was read. -/
def delivered (rs : List Read) : Bytes :=
  rs.flatMap fun r => match r with
    | .data bs => bs
    | _ => []

/-! ## The reference -/

/-- The records for a line. -/
def recordsOf (line : Bytes) : List Bytes := (cut kmsgChunk line).map (tag ++ ·)

/-- The records for an input: its lines that are not empty, each in pieces. -/
def reference (input : Bytes) : List Bytes :=
  ((input.splitOn newline).filter (· ≠ [])).flatMap recordsOf

theorem recordsOf_nil : recordsOf [] = [] := by rw [recordsOf, cut_nil (by decide)]; rfl

theorem reference_line {line : Bytes} (h : newline ∉ line) : reference line = recordsOf line := by
  have hplain : ∀ c ∈ line, (c == newline) = false := by
    intro c hc
    exact beq_false_of_ne fun heq => h (heq ▸ hc)
  rw [reference, List.splitOn, List.splitOnP_eq_singleton hplain]
  by_cases hnil : line = []
  · simp [hnil, recordsOf_nil]
  · simp [hnil]

theorem reference_nil : reference [] = [] := by rw [reference_line (by simp), recordsOf_nil]

theorem reference_newline (xs ys : Bytes) :
    reference (xs ++ newline :: ys) = reference xs ++ reference ys := by
  simp only [reference, List.splitOn]
  rw [List.splitOnP_append_cons _ _ (by simp), List.filter_append, List.flatMap_append]

/-- What comes later does not change the records for `done`. -/
def Settled (done : Bytes) : Prop :=
  ∀ rest, reference (done ++ rest) = reference done ++ reference rest

theorem settled_nil : Settled [] := fun rest => by simp [reference_nil]

theorem Settled.append {xs ys : Bytes} (hxs : Settled xs) (hys : Settled ys) :
    Settled (xs ++ ys) := by
  intro rest
  rw [List.append_assoc, hxs, hys, hxs, List.append_assoc]

theorem settled_newline (xs : Bytes) : Settled (xs ++ [newline]) := by
  intro rest
  have hone := reference_newline xs []
  rw [reference_nil, List.append_nil] at hone
  rw [List.append_assoc, List.singleton_append, reference_newline, hone]

/-- A part of a line that makes whole pieces. -/
theorem settled_whole {xs : Bytes} (hplain : newline ∉ xs) (hwhole : kmsgChunk ∣ xs.length) :
    Settled xs := by
  have hcut : ∀ line, newline ∉ line → reference (xs ++ line) = reference xs ++ reference line := by
    intro line hline
    rw [reference_line (by simp [hplain, hline]), reference_line hplain, reference_line hline,
      recordsOf, cut_append (by decide) hwhole, List.map_append]
    rfl
  intro rest
  by_cases hrest : newline ∈ rest
  · obtain ⟨line, tail, rfl, hline⟩ := List.eq_append_cons_of_mem hrest
    rw [← List.append_assoc, reference_newline, hcut line hline, reference_newline,
      List.append_assoc]
  · exact hcut rest hrest

/-- Every byte but the newlines stands in the records once and in order. -/
theorem flatMap_reference (input : Bytes) :
    (reference input).flatMap (List.drop 3) = input.filter (· ≠ newline) := by
  have hline : ∀ line, newline ∉ line →
      (reference line).flatMap (List.drop 3) = line.filter (· ≠ newline) := by
    intro line hline
    have hall : line.filter (· ≠ newline) = line :=
      List.filter_eq_self.mpr (Text.forall_ne_of_not_mem hline)
    rw [reference_line hline, recordsOf, List.flatMap_map, hall]
    simpa [tag, ← List.flatten_eq_flatMap] using flatten_cut (by decide) line
  induction hn : input.length using Nat.strongRecOn generalizing input with
  | ind n ih =>
    by_cases hmem : newline ∈ input
    · obtain ⟨line, rest, rfl, hplain⟩ := List.eq_append_cons_of_mem hmem
      have hlt : rest.length < n := by
        rw [← hn, List.length_append, List.length_cons]
        omega
      rw [reference_newline, List.flatMap_append, hline line hplain, ih _ hlt rest rfl]
      simp
    · exact hline input hmem

theorem length_lt_of_mem_reference {input record : Bytes} (h : record ∈ reference input) :
    record.length < recSize := by
  obtain ⟨line, -, hrecord⟩ := List.mem_flatMap.mp h
  obtain ⟨piece, hpiece, rfl⟩ := List.mem_map.mp hrecord
  have := length_le_of_mem_cut hpiece
  simp only [List.length_append, tag, recSize, List.length_cons, List.length_nil]
  omega

/-! ## Writing -/

/-- The log has taken a part of `records`, all of them if no write fails. -/
def Log.Takes (log : Log) (records : List Bytes) (log' : Log) : Prop :=
  ∃ taken, log'.records = log.records ++ taken ∧ List.Sublist taken records ∧
    log'.fates <:+ log.fates ∧ ((∀ w ∈ log.fates, w = .ok) → taken = records)

theorem Log.takes_nil (log : Log) : log.Takes [] log :=
  ⟨[], by simp, List.Sublist.refl _, List.suffix_refl _, fun _ => rfl⟩

theorem Log.Takes.append {log log' log'' : Log} {rs rs' : List Bytes} (h : log.Takes rs log')
    (h' : log'.Takes rs' log'') : log.Takes (rs ++ rs') log'' := by
  obtain ⟨taken, hrecords, hsub, hfates, hall⟩ := h
  obtain ⟨taken', hrecords', hsub', hfates', hall'⟩ := h'
  refine ⟨taken ++ taken', by rw [hrecords', hrecords, List.append_assoc], hsub.append hsub',
    hfates'.trans hfates, fun hok => ?_⟩
  rw [hall hok, hall' fun w hw => hok w (hfates.mem hw)]

theorem Log.write_cases {log log' : Log} {record : Bytes} {w : Wrote}
    (h : log.write record = (w, log')) :
    log'.fates <:+ log.fates ∧ ((w = .ok ∧ log'.records = log.records ++ [record]) ∨
      (w ≠ .ok ∧ w ∈ log.fates ∧ log'.records = log.records)) := by
  unfold write at h
  split at h
  · cases h
    exact ⟨List.suffix_refl _, .inl ⟨rfl, rfl⟩⟩
  · rename_i fates hfates
    cases h
    rw [hfates]
    exact ⟨List.suffix_cons _ _, .inl ⟨rfl, rfl⟩⟩
  · rename_i w' fates hne hfates
    cases h
    rw [hfates]
    exact ⟨List.suffix_cons _ _, .inr ⟨hne, List.mem_cons_self, rfl⟩⟩

theorem Log.takes_write {log log' : Log} {record : Bytes} {w : Wrote}
    (h : log.write record = (w, log')) : log.Takes [record] log' := by
  obtain ⟨hfates, ⟨-, hrecords⟩ | ⟨hw, hmem, hrecords⟩⟩ := write_cases h
  · exact ⟨[record], hrecords, List.Sublist.refl _, hfates, fun _ => rfl⟩
  · exact ⟨[], by simp [hrecords], List.nil_sublist _, hfates, fun hok => absurd (hok w hmem) hw⟩

/-- After a write that failed, what was left of the line is given up. -/
theorem Log.takes_failed {log log' : Log} {record : Bytes} (h : log.write record = (.failed, log'))
    (records : List Bytes) : log.Takes records log' := by
  obtain ⟨hfates, ⟨hw, -⟩ | ⟨hw, hmem, hrecords⟩⟩ := write_cases h
  · cases hw
  · exact ⟨[], by simp [hrecords], List.nil_sublist _, hfates, fun hok => absurd (hok _ hmem) hw⟩

/-- A piece fits in the record behind its tag. -/
theorem exists_record (record : Block UInt8 recSize) {piece : Bytes}
    (h : piece.length ≤ kmsgChunk) :
    ∃ tagged full, record.store 0 tag = some tagged ∧ tagged.store 3 piece = some full ∧
      full.load 0 (piece.length + 3) = some (tag ++ piece) := by
  obtain ⟨tagged, htagged, hholds⟩ := record.holds_nil.store tag (by decide)
  have hfit : tag.length + piece.length ≤ recSize := by
    simp only [tag, recSize, List.length_cons, List.length_nil]
    omega
  obtain ⟨full, hfull, hholds⟩ := hholds.store piece hfit
  have hload := Block.Holds.load [] (tag ++ piece) hholds
  rw [List.length_append, Nat.add_comm] at hload
  exact ⟨tagged, full, htagged, hfull, hload⟩

/-- `kmsg_line` stays inside its record and writes the line in pieces. -/
theorem kmsgLoop_takes {fuel : Nat} {line : Bytes} (hline : line ≠ []) (hfuel : line.length < fuel)
    (record : Block UInt8 recSize) (log : Log) :
    ∃ log', kmsgLoop fuel record log line = some log' ∧ log.Takes (recordsOf line) log' := by
  induction fuel generalizing line record log with
  | zero => omega
  | succ fuel ih =>
    have hlength : (line.take (min line.length kmsgChunk)).length = min line.length kmsgChunk := by
      simp
    have hfit : (line.take (min line.length kmsgChunk)).length ≤ kmsgChunk := by
      rw [hlength]
      exact Nat.min_le_right _ _
    obtain ⟨tagged, full, htagged, hfull, hload⟩ := exists_record record hfit
    rw [hlength] at hload
    simp only [kmsgLoop, htagged, hfull, hload, Option.bind_eq_bind, Option.bind_some]
    by_cases hshort : line.length ≤ kmsgChunk
    · have hrecords : recordsOf line = [tag ++ line] := by
        rw [recordsOf, cut_of_le hline hshort]
        rfl
      simp only [Nat.min_eq_left hshort, List.take_length, List.drop_length, if_true, hrecords]
      split
      · rename_i log' hwrite
        exact ⟨log', rfl, Log.takes_write hwrite⟩
      · rename_i w log' _ hwrite
        exact ⟨log', rfl, Log.takes_write hwrite⟩
    · have hchunk : min line.length kmsgChunk = kmsgChunk := by omega
      rw [hchunk] at hlength
      have hne : line.take kmsgChunk ≠ [] := List.length_pos_iff.mp (by rw [hlength]; decide)
      have hrest : (line.drop kmsgChunk).length = line.length - kmsgChunk := List.length_drop
      have hrest' : line.drop kmsgChunk ≠ [] := List.length_pos_iff.mp (by omega)
      have hrecords : recordsOf line =
          [tag ++ line.take kmsgChunk] ++ recordsOf (line.drop kmsgChunk) := by
        have hwhole : kmsgChunk ∣ (line.take kmsgChunk).length := by simp [hlength]
        have hcut := cut_append (by decide) hwhole (line.drop kmsgChunk)
        rw [List.take_append_drop, cut_of_le hne hlength.le] at hcut
        rw [recordsOf, hcut]
        rfl
      simp only [hchunk, hrest', if_false]
      split
      · rename_i log' hwrite
        exact ⟨log', rfl, Log.takes_failed hwrite _⟩
      · rename_i w log' _ hwrite
        have hshorter : (line.drop kmsgChunk).length < fuel := by
          have : 0 < kmsgChunk := by decide
          omega
        obtain ⟨log'', hloop, htakes⟩ := ih hrest' hshorter full log'
        rw [hrecords]
        exact ⟨log'', hloop, (Log.takes_write hwrite).append htakes⟩

theorem kmsgLine_takes {line : Bytes} (hline : line ≠ []) (hplain : newline ∉ line)
    (stack : Block UInt8 recSize) (log : Log) :
    ∃ log', kmsgLine stack log line = some log' ∧ log.Takes (reference line) log' := by
  rw [reference_line hplain]
  exact kmsgLoop_takes hline (Nat.lt_succ_self _) stack log

/-! ## Scanning and moving down -/

/-- A line in the buffer is written unless it is empty. -/
theorem emit_takes (stack : Block UInt8 recSize) {buf : Block UInt8 bufSize} {earlier line : Bytes}
    (hholds : buf.Holds (earlier ++ line)) (hline : newline ∉ line) (log : Log) :
    ∃ log', emit stack buf earlier.length (earlier.length + line.length) log = some log' ∧
      log.Takes (reference line) log' := by
  unfold emit
  by_cases hnil : line = []
  · subst hnil
    refine ⟨log, if_neg (by simp), ?_⟩
    rw [reference_nil]
    exact log.takes_nil
  · have hpos := List.length_pos_iff.mpr hnil
    rw [if_pos (by omega), Nat.add_sub_cancel_left, Block.Holds.load earlier line hholds]
    exact kmsgLine_takes hnil hline stack log

/-- The scan writes the lines that are complete and stops at the start of the last one. -/
theorem scan_takes (stack : Block UInt8 recSize) {buf : Block UInt8 bufSize}
    {earlier line rest : Bytes} (hholds : buf.Holds (earlier ++ line ++ rest))
    (hline : newline ∉ line) (log : Log) :
    ∃ done last log', line ++ rest = done ++ last ∧ newline ∉ last ∧ Settled done ∧
      scan stack buf rest.length (earlier.length + line.length) earlier.length log =
        some (earlier.length + done.length, log') ∧ log.Takes (reference done) log' := by
  induction rest generalizing earlier line log with
  | nil =>
    exact ⟨[], line, log, by simp, hline, settled_nil, rfl, by
      rw [reference_nil]
      exact log.takes_nil⟩
  | cons c rest ih =>
    have hget := hholds.get
    rw [List.length_append] at hget
    simp only [List.length_cons, scan, hget, Option.bind_eq_bind, Option.bind_some]
    by_cases hc : c = newline
    · subst hc
      obtain ⟨log₁, hemit, hfirst⟩ := emit_takes stack hholds.left hline log
      have hholds' : buf.Holds (earlier ++ line ++ [newline] ++ [] ++ rest) := by simpa using hholds
      obtain ⟨done, last, log', hsplit, hlast, hsettled, hscan, htakes⟩ :=
        ih hholds' (by simp) log₁
      simp only [List.nil_append] at hsplit
      simp only [List.length_append, List.length_singleton, List.length_nil, Nat.add_zero] at hscan
      rw [if_neg (by simp), hemit, Option.bind_some, hscan]
      refine ⟨line ++ [newline] ++ done, last, log', by simp [hsplit], hlast,
        (settled_newline line).append hsettled, by simp; omega, ?_⟩
      rw [List.append_assoc, List.singleton_append, reference_newline]
      exact hfirst.append htakes
    · have hholds' : buf.Holds (earlier ++ (line ++ [c]) ++ rest) := by simpa using hholds
      obtain ⟨done, last, log', hsplit, hlast, hsettled, hscan, htakes⟩ :=
        ih hholds' (by simp [hline, Ne.symm hc]) log
      rw [List.length_append, ← Nat.add_assoc] at hscan
      rw [if_pos hc]
      exact ⟨done, last, log', by simpa using hsplit, hlast, hsettled, hscan, htakes⟩

theorem scan_content (stack : Block UInt8 recSize) {buf : Block UInt8 bufSize} {content : Bytes}
    (hholds : buf.Holds content) (log : Log) :
    ∃ done last log', content = done ++ last ∧ newline ∉ last ∧ Settled done ∧
      scan stack buf content.length 0 0 log = some (done.length, log') ∧
      log.Takes (reference done) log' := by
  have hholds' : buf.Holds ([] ++ [] ++ content) := hholds
  simpa using scan_takes stack hholds' (by simp) log

/-- A relay that has read `input`: all of it is in the records up to the
unfinished line in the buffer, and the buffer has room. -/
structure State.Follows (s : State) (fates : List Wrote) (input : Bytes) : Prop where
  room : s.n < bufSize
  split : ∃ done last, input = done ++ last ∧ last.length = s.n ∧ s.buf.Holds last ∧
    newline ∉ last ∧ Settled done ∧ Log.Takes ⟨[], fates⟩ (reference done) s.log

theorem Log.Takes.settled {log log' log'' : Log} {done more : Bytes} (hsettled : Settled done)
    (h : log.Takes (reference done) log') (h' : log'.Takes (reference more) log'') :
    log.Takes (reference (done ++ more)) log'' := by
  rw [hsettled]
  exact h.append h'

theorem fill_follows (stack : Block UInt8 recSize) {s : State} {fates : List Wrote}
    {input bs : Bytes} (h : s.Follows fates input) (hbs : bs.length ≤ s.request) :
    ∃ s', s.fill stack bs = some s' ∧ s'.phase = s.phase ∧ s'.Follows fates (input ++ bs) := by
  obtain ⟨hroom, done, last, rfl, hn, hholds, hlast, hsettled, htakes⟩ := h
  have hfit : last.length + bs.length ≤ bufSize := by
    unfold State.request at hbs
    omega
  obtain ⟨buf, hstore, hbuf⟩ := hholds.store bs hfit
  obtain ⟨complete, last', log, hsplit, hlast', hcomplete, hscan, hwrote⟩ :=
    scan_content stack hbuf s.log
  have hlength : last.length + bs.length = complete.length + last'.length := by
    rw [← List.length_append, hsplit, List.length_append]
  rw [hsplit] at hbuf
  rw [List.length_append] at hscan
  have hsettled' := hsettled.append hcomplete
  have htakes' := htakes.settled hsettled hwrote
  have hinput : done ++ last ++ bs = done ++ complete ++ last' := by
    rw [List.append_assoc, hsplit, List.append_assoc]
  simp only [State.fill, ← hn, hstore, hscan, Option.bind_eq_bind, Option.bind_some]
  by_cases hfull : complete.length = 0 ∧ last.length + bs.length = bufSize
  · -- a line that fills the buffer is whole pieces
    obtain rfl := List.length_eq_zero_iff.mp hfull.1
    have hall : last.length + bs.length = last'.length := by simpa using hlength
    have hlast'' : last'.length = bufSize := hall.symm.trans hfull.2
    have hne : last' ≠ [] := List.length_pos_iff.mp (by rw [hlast'']; decide)
    have hload : buf.load 0 last'.length = some last' := Block.Holds.load [] last' hbuf
    have hwhole : Settled last' := settled_whole hlast' (by rw [hlast'']; decide)
    obtain ⟨log', hline, hrest⟩ := kmsgLine_takes hne hlast' stack log
    rw [if_pos hfull, hall, hload, Option.bind_some, hline]
    exact ⟨_, rfl, rfl, bufSize_pos, done ++ [] ++ last', [], by simp [hinput], rfl, buf.holds_nil,
      by simp, hsettled'.append hwhole, htakes'.settled hsettled' hrest⟩
  · rw [if_neg hfull, hlength, Nat.add_sub_cancel_left, Block.Holds.load complete last' hbuf]
    obtain ⟨moved, hmove, hmoved⟩ := buf.holds_nil.store last' (by simp; omega)
    rw [List.length_nil] at hmove
    simp only [Option.bind_some, hmove]
    refine ⟨_, rfl, rfl, ?_, done ++ complete, last', hinput, rfl, hmoved, hlast', hsettled',
      htakes'⟩
    show last'.length < bufSize
    omega

theorem finish_takes (stack : Block UInt8 recSize) {s : State} {fates : List Wrote}
    {input : Bytes} (h : s.Follows fates input) :
    ∃ s', s.finish stack = some s' ∧ s'.phase = .exited ∧
      Log.Takes ⟨[], fates⟩ (reference input) s'.log := by
  obtain ⟨-, done, last, rfl, hn, hholds, hlast, hsettled, htakes⟩ := h
  have hholds' : s.buf.Holds ([] ++ last) := hholds
  obtain ⟨log, hemit, hrest⟩ := emit_takes stack hholds' hlast s.log
  rw [List.length_nil, Nat.zero_add, hn] at hemit
  simp only [State.finish, hemit, Option.bind_eq_bind, Option.bind_some]
  exact ⟨_, rfl, rfl, htakes.settled hsettled hrest⟩

/-! ## Whole runs -/

/-- What holds after the reads `rs`. -/
def State.Relayed (s : State) (fates : List Wrote) (rs : List Read) : Prop :=
  (s.phase = .reading ∧ s.Follows fates (delivered rs)) ∨
    (s.phase = .exited ∧ Log.Takes ⟨[], fates⟩ (reference (delivered rs)) s.log)

theorem delivered_append (rs rs' : List Read) :
    delivered (rs ++ rs') = delivered rs ++ delivered rs' := List.flatMap_append

theorem relayed_start (buf : Block UInt8 bufSize) (fates : List Wrote) :
    (start buf fates).Relayed fates [] := by
  refine .inl ⟨rfl, bufSize_pos, [], [], rfl, rfl, buf.holds_nil, by simp, settled_nil, ?_⟩
  rw [reference_nil]
  exact Log.takes_nil _

theorem relayed_step {stack : Block UInt8 recSize} {s s' : State} {fates : List Wrote}
    {rs : List Read} {r : Read} (h : s.Relayed fates rs) (hstep : step stack s r = some s') :
    s'.Relayed fates (rs ++ [r]) := by
  rcases h with ⟨hphase, hfollows⟩ | ⟨hphase, -⟩
  · unfold State.Relayed
    rw [delivered_append]
    cases r with
    | interrupted =>
      simp only [step, hphase, Option.some.injEq] at hstep
      subst hstep
      exact .inl ⟨hphase, by simpa [delivered] using hfollows⟩
    | data bs =>
      simp only [step, hphase] at hstep
      split_ifs at hstep with hbs
      obtain ⟨filled, hfill, hphase', hfollows'⟩ := fill_follows stack hfollows hbs.2
      simp only [hfill, State.orOverrun, Option.getD_some, Option.some.injEq] at hstep
      subst hstep
      exact .inl ⟨hphase'.trans hphase, by simpa [delivered] using hfollows'⟩
    | ended =>
      obtain ⟨finished, hfinish, hphase', htakes⟩ := finish_takes stack hfollows
      simp only [step, hphase, hfinish, State.orOverrun, Option.getD_some,
        Option.some.injEq] at hstep
      subst hstep
      exact .inr ⟨hphase', by simpa [delivered] using htakes⟩
  · simp [step, hphase] at hstep

section
variable {stack : Block UInt8 recSize} {buf : Block UInt8 bufSize} {fates : List Wrote}
  {rs : List Read} {s : State}

theorem relayed_of_steps (h : Steps (step stack) always (start buf fates) rs s) :
    s.Relayed fates rs :=
  h.history (P := fun rs s => s.Relayed fates rs) (relayed_start buf fates)
    fun _ _ _ _ _ hrelayed _ hstep => relayed_step hrelayed hstep

/-- The log has a part of the reference at any time. -/
theorem State.Relayed.exists_takes (h : s.Relayed fates rs) :
    ∃ input, Log.Takes ⟨[], fates⟩ (reference input) s.log := by
  rcases h with ⟨-, -, done, _, _, _, _, _, _, htakes⟩ | ⟨-, htakes⟩
  · exact ⟨done, htakes⟩
  · exact ⟨_, htakes⟩

/-- However the input is read, `relay` stays inside its memory, asks for at
least one byte and takes what it is given until the input is over; its records
are then, if every write works, those of the reference, which hold every byte
but the newlines. -/
theorem relay_reference (hok : ∀ w ∈ fates, w = .ok)
    (h : Steps (step stack) always (start buf fates) rs s) :
    s.phase ≠ .overrun ∧ (∀ record ∈ s.log.records, record.length ≤ recSize) ∧
      (s.phase = .reading → 0 < s.request ∧
        (∀ bs : Bytes, bs ≠ [] → bs.length ≤ s.request →
          ∃ s', step stack s (.data bs) = some s' ∧ s'.phase = .reading) ∧
        ∃ s', step stack s .ended = some s' ∧ s'.phase = .exited) ∧
      (s.phase = .exited → s.log.records = reference (delivered rs) ∧
        s.log.records.flatMap (List.drop 3) = (delivered rs).filter (· ≠ newline)) := by
  have hrelayed := relayed_of_steps h
  have hnever : s.phase ≠ .overrun := by
    rcases hrelayed with ⟨hphase, -⟩ | ⟨hphase, -⟩ <;> simp [hphase]
  have hshort : ∀ record ∈ s.log.records, record.length ≤ recSize := by
    obtain ⟨input, taken, hrecords, hsub, -⟩ := hrelayed.exists_takes
    intro record hrecord
    rw [hrecords, List.nil_append] at hrecord
    exact (length_lt_of_mem_reference (hsub.mem hrecord)).le
  refine ⟨hnever, hshort, fun hreading => ?_, fun hexited => ?_⟩
  · rcases hrelayed with ⟨-, hfollows⟩ | ⟨hphase, -⟩
    · refine ⟨Nat.sub_pos_of_lt hfollows.room, fun bs hne hle => ?_, ?_⟩
      · obtain ⟨s', hfill, hphase', -⟩ := fill_follows stack hfollows hle
        exact ⟨s', by simp [step, hreading, hne, hle, hfill, State.orOverrun],
          hphase'.trans hreading⟩
      · obtain ⟨s', hfinish, hphase', -⟩ := finish_takes stack hfollows
        exact ⟨s', by simp [step, hreading, hfinish, State.orOverrun], hphase'⟩
    · rw [hphase] at hreading
      cases hreading
  · rcases hrelayed with ⟨hphase, -⟩ | ⟨-, taken, hrecords, -, -, hall⟩
    · rw [hphase] at hexited
      cases hexited
    · have hrecords' : s.log.records = reference (delivered rs) := by
        rw [hrecords, hall hok]
        rfl
      exact ⟨hrecords', by rw [hrecords', flatMap_reference]⟩

end

/-- Two lines and an empty one, in parts. -/
def printed : List Read := [.data [97], .interrupted, .data [98, 10, 10, 99], .data [100], .ended]

theorem relay_reference_printed :
    ∃ s, Steps (step ⟨List.replicate recSize 0, by simp⟩) always
        (start ⟨List.replicate bufSize 0, by simp⟩ [.ok]) printed s ∧
      s.log.records = [tag ++ [97, 98], tag ++ [99, 100]] := by
  have hrun : (StepSystem.run (step ⟨List.replicate recSize 0, by simp⟩)
      (start ⟨List.replicate bufSize 0, by simp⟩ [.ok]) printed).map (fun s => s.phase) =
        some .exited := by
    decide +kernel
  obtain ⟨s, hs, hphase⟩ := Option.map_eq_some_iff.mp hrun
  have hsteps : Steps _ always _ printed s := .of_run (fun _ _ _ => trivial) hs
  have hrecords := ((relay_reference (by decide) hsteps).2.2.2 hphase).1
  exact ⟨s, hsteps, hrecords.trans (by decide +kernel)⟩

end Egdod.Boot.Relay
