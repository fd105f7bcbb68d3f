import Egdod.Copy.Landing
import Egdod.Lib.Stream

/-! One call of `recv_file_body` with the stream it reads from. The call
succeeds only on all of the stream, which is then what the destination holds;
until it does the destination is as it was. Every run comes to an end. -/
namespace Egdod.Copy

open Text Posix Stream StepSystem

structure Intake where
  fs : Files Str
  call : Receive
  reader : Reader UInt8

inductive Intake.Action where
  | step (a : Answer)
  | read
  | land (n : Nat)
  | landFail

def Intake.start (fs : Files Str) (x : Transfer) (r : Reader UInt8) : Intake :=
  ⟨fs, .start x, r⟩

def Receive.reading (c : Receive) : Bool :=
  match c.pc with
  | .read _ => true
  | _ => false

/-- What a read of the stream comes to, and the stream after it. -/
def arrival (r : Reader UInt8) : Answer × Reader UInt8 :=
  match r.read chunk with
  | .data bs rest => (.data bs, rest)
  | .eof => (.data [], r)
  | .failed => (.fail, r)

/-- The call's reads are answered by the stream, its other calls by the system. -/
def Intake.step (sha : Bytes → Digest) (base : Str) (s : Intake) : Intake.Action → Option Intake
  | .step a =>
    if s.call.reading then none
    else (s.call.next sha base s.fs a).map fun (fs, c) => ⟨fs, c, s.reader⟩
  | .read =>
    if s.call.reading then
      (s.call.next sha base s.fs (arrival s.reader).1).map fun (fs, c) =>
        ⟨fs, c, (arrival s.reader).2⟩
    else none
  | .land n => (s.call.land s.fs n).map fun (fs, c) => ⟨fs, c, s.reader⟩
  | .landFail => s.call.landFail.map fun c => ⟨s.fs, c, s.reader⟩

/-- The body has been read to its end. -/
def Pc.drained : Pc → Bool
  | .flush _ (.ok _) | .sync _ (.ok _) | .chmod _ | .rename _ | .returned _ (.ok _) => true
  | _ => false

section
variable {sha : Bytes → Digest} {base : Str} {fs fs' : Files Str} {c c' : Receive} {p : Part}
  {x : Transfer} {r : Reader UInt8} {s s' : Intake} {a : Intake.Action}

theorem reading_iff : c.reading = true ↔ ∃ p, c.pc = .read p := by
  unfold Receive.reading
  split
  · rename_i p hpc
    exact ⟨fun _ => ⟨p, hpc⟩, fun _ => rfl⟩
  · rename_i hpc
    exact ⟨nofun, fun ⟨p, h⟩ => absurd h (hpc p)⟩

/-- A read brings something, or the stream is at its end, clean or not. -/
theorem arrival_cases (r : Reader UInt8) :
    (∃ bs rest, arrival r = (.data bs, rest) ∧ bs ≠ [] ∧ bs.length ≤ chunk ∧
      bs ++ rest.content = r.content ∧ rest.broken = r.broken) ∨
    (arrival r = (.data [], r) ∧ r.content = [] ∧ r.broken = false) ∨
    (arrival r = (.fail, r)) := by
  rcases r.read_cases (show 0 < chunk by decide) with ⟨bs, rest, hread, h⟩ | ⟨hnil, hread⟩
  · exact .inl ⟨bs, rest, by simp [arrival, hread], h⟩
  · cases hb : r.broken with
    | false => exact .inr (.inl ⟨by simp [arrival, hread, hb], hnil, rfl⟩)
    | true => exact .inr (.inr (by simp [arrival, hread, hb]))

/-! ## What a call does between reads -/

/-- Nothing arrives, and the end of the body is not reached. -/
theorem Receive.Moves.between (hm : c.Moves sha base fs fs' c') (hr : c.reading = false) :
    c'.received = c.received ∧ (c'.pc.drained = true → c.pc.drained = true) := by
  have notRead : ∀ p, c.pc ≠ .read p := fun p hp => by simp [Receive.reading, hp] at hr
  cases hm with
  | arrived hpc | oversent hpc | ended hpc | broke hpc => exact absurd hpc (notRead _)
  | onward hpc =>
    refine ⟨rfl, ?_⟩
    rcases hpc with ⟨_, rfl⟩ | ⟨_, rfl⟩ | ⟨_, _, rfl⟩ <;> simp [Pc.drained]
  | @flushed p outcome hpc => exact ⟨rfl, by cases outcome <;> simp [Pc.drained, hpc]⟩
  | verified hpc | moded hpc | landed hpc => exact ⟨rfl, fun _ => by simp [Pc.drained, hpc]⟩
  | wrote | writeLost => exact ⟨rfl, id⟩
  | _ => exact ⟨rfl, by simp [Pc.drained]⟩

theorem Receive.Moves.transfer (hm : c.Moves sha base fs fs' c') : c'.transfer = c.transfer := by
  cases hm <;> rfl

/-- The move that ends a call finds the blocking thread idle. -/
theorem Receive.Moves.ends_idle (hm : c.Moves sha base fs fs' c') (h : c.Sound sha base fs)
    (hr : c'.result ≠ none) : c'.io = .idle := by
  have hnone := hm.not_returned h
  cases hm with
  | refused hp => exact h.idle hp
  | landed hpc => simp only [Receive.Sound, hpc] at h; exact h.1.2
  | removed hpc | left hpc => simp only [Receive.Sound, hpc] at h; exact h.2
  | onward hpc => rcases hpc with ⟨_, rfl⟩ | ⟨_, rfl⟩ | ⟨_, _, rfl⟩ <;> exact absurd rfl hr
  | wrote | writeLost => exact absurd hnone hr
  | _ => exact absurd rfl hr

/-- The move that ends a call well gives the destination what arrived. -/
theorem Receive.Moves.succeeds (hm : c.Moves sha base fs fs' c') (h : c.Sound sha base fs)
    (hok : c'.result = some (.ok ())) : c'.transfer.Complete sha c'.received ∧
      fs'.stat base = some ⟨c'.received, c'.transfer.mode % 0o10000⟩ := by
  have hnone := hm.not_returned h
  cases hm with
  | landed hpc hrename =>
    simp only [Receive.Sound, hpc] at h
    refine ⟨h.2.2, ?_⟩
    rw [Files.stat_rename hrename, Files.stat_of_dir h.1.1.linked, h.2.1]
  | onward hpc => rcases hpc with ⟨_, rfl⟩ | ⟨_, rfl⟩ | ⟨_, _, rfl⟩ <;> cases hok
  | wrote | writeLost => cases hnone.symm.trans hok
  | _ => cases hok

/-- A move that does not end the call keeps it sound. -/
theorem Receive.Moves.keeps_sound (hm : c.Moves sha base fs fs' c') (h : c.Sound sha base fs)
    (hr : c'.result = none) : c'.Sound sha base fs' := by
  refine hm.sound h fun p e hpc => ?_
  have hio : c.io = .idle := by
    simp only [Receive.Sound, hpc] at h
    exact h.2
  cases hm with
  | removed | left => cases hr
  | onward hpc' => simp [hpc] at hpc'
  | gaveUp hpc' => simp [hpc] at hpc'
  | refused hp => simp [hpc, Pc.part] at hp
  | wrote _ hio' | writeLost hio' => simp [hio] at hio'
  | _ hpc' => simp [hpc] at hpc'

/-! ## One step -/

/-- What a step has to do with the stream: it leaves it alone, takes what arrived off it, or
finds its clean end. -/
inductive Intake.Takes (s s' : Intake) : Prop
  | nothing : s'.reader = s.reader → s'.call.received = s.call.received →
      (s'.call.pc.drained = true → s.call.pc.drained = true) → Takes s s'
  | some {bs : Bytes} : bs ≠ [] → s'.call.received = s.call.received ++ bs →
      bs ++ s'.reader.content = s.reader.content → s'.reader.broken = s.reader.broken →
      s'.call.pc.drained = false → Takes s s'
  | last : s'.reader = s.reader → s'.call.received = s.call.received →
      s.reader.content = [] → s.reader.broken = false → Takes s s'

theorem Intake.takes_read (h : s.step sha base .read = some s') : s.Takes s' := by
  simp only [Intake.step] at h
  split at h
  · rename_i hread
    obtain ⟨p, hpc⟩ := reading_iff.mp hread
    obtain ⟨⟨fs', c'⟩, hnext, rfl⟩ := Option.map_eq_some_iff.mp h
    rcases arrival_cases s.reader with
      ⟨bs, rest, harr, hne, hle, hcontent, hb⟩ | ⟨harr, hnil, hb⟩ | harr
    · simp only [harr, Receive.next, hpc, hle, hne, if_true, if_false] at hnext ⊢
      split at hnext
      · cases hnext
        exact .some hne rfl hcontent hb rfl
      · cases hnext
        exact .some hne rfl hcontent hb rfl
    · simp only [harr, Receive.next, hpc, List.length_nil, Nat.zero_le, if_true] at hnext ⊢
      cases hnext
      exact .last rfl rfl hnil hb
    · simp only [harr, Receive.next, hpc] at hnext ⊢
      cases hnext
      exact .nothing rfl rfl (by simp [Pc.drained])
  · cases h

/-- A step is a move of the call. -/
theorem Intake.step_cases (h : s.step sha base a = some s') :
    s.call.Moves sha base s.fs s'.fs s'.call ∧ s.Takes s' := by
  cases a with
  | step a =>
    simp only [Intake.step] at h
    split at h
    · cases h
    · rename_i hread
      obtain ⟨⟨fs', c'⟩, hnext, rfl⟩ := Option.map_eq_some_iff.mp h
      have hm : s.call.Moves sha base s.fs fs' c' := Receive.next_moves hnext
      obtain ⟨hreceived, hdrained⟩ := hm.between (by simpa using hread)
      exact ⟨hm, .nothing rfl hreceived hdrained⟩
  | read =>
    refine ⟨?_, Intake.takes_read h⟩
    simp only [Intake.step] at h
    split at h
    · obtain ⟨⟨fs', c'⟩, hnext, rfl⟩ := Option.map_eq_some_iff.mp h
      exact Receive.next_moves hnext
    · cases h
  | land n =>
    obtain ⟨⟨fs', c'⟩, hland, rfl⟩ := Option.map_eq_some_iff.mp h
    refine ⟨Receive.land_moves hland, ?_⟩
    unfold Receive.land at hland
    split at hland
    · split at hland
      · cases hland
        exact .nothing rfl rfl id
      · cases hland
    · cases hland
  | landFail =>
    obtain ⟨c', hland, rfl⟩ := Option.map_eq_some_iff.mp h
    refine ⟨Receive.landFail_moves hland, ?_⟩
    unfold Receive.landFail at hland
    split at hland
    · cases hland
      exact .nothing rfl rfl id
    · cases hland

/-! ## Runs -/

/-- What holds of a call and its stream all along: `r` is the stream as it was at first and
`original` what was at the destination. -/
structure Intake.Sound (sha : Bytes → Digest) (base : Str) (original : Option Inode) (x : Transfer)
    (r : Reader UInt8) (s : Intake) : Prop where
  transfer : s.call.transfer = x
  content : s.call.received ++ s.reader.content = r.content
  broken : s.reader.broken = r.broken
  sound : s.call.result = none → s.call.Sound sha base s.fs
  idle : s.call.result ≠ none → s.call.io = .idle
  drained : s.call.pc.drained = true → s.reader.content = [] ∧ s.reader.broken = false
  untouched : s.call.result ≠ some (.ok ()) → s.fs.stat base = original
  landed : s.call.result = some (.ok ()) → x.Complete sha s.call.received ∧
    s.fs.stat base = some ⟨s.call.received, x.mode % 0o10000⟩

theorem Intake.Sound.start (fs : Files Str) (x : Transfer) (r : Reader UInt8) :
    Intake.Sound sha base (fs.stat base) x r (.start fs x r) :=
  ⟨rfl, rfl, rfl, fun _ => Receive.sound_start x, fun h => absurd rfl h, nofun, fun _ => rfl, nofun⟩

/-- A call that has returned does nothing more. -/
theorem Receive.Moves.running (hm : c.Moves sha base fs fs' c')
    (hidle : c.result ≠ none → c.io = .idle) : c.result = none := by
  by_contra hr
  have hio := hidle hr
  obtain ⟨res, hres⟩ := Option.ne_none_iff_exists'.mp hr
  obtain ⟨part, hpc⟩ := pc_of_result hres
  cases hm with
  | onward h => simp [hpc] at h
  | refused _ h => exact hr h
  | gaveUp h => simp [hpc] at h
  | wrote _ h | writeLost h => simp [hio] at h
  | _ h => simp [hpc] at h

theorem Intake.Sound.step {original : Option Inode} (h : Intake.Sound sha base original x r s)
    (hstep : s.step sha base a = some s') : Intake.Sound sha base original x r s' := by
  obtain ⟨hm, htakes⟩ := Intake.step_cases hstep
  have hnone := hm.running h.idle
  have hsound := h.sound hnone
  have hold : s.fs.stat base = original := h.untouched (by simp [hnone])
  refine ⟨hm.transfer.trans h.transfer, ?_, ?_, fun hr => hm.keeps_sound hsound hr,
    hm.ends_idle hsound, ?_, fun hr => ?_, fun hr => ?_⟩
  · cases htakes with
    | nothing hreader hreceived | last hreader hreceived =>
      rw [hreader, hreceived]
      exact h.content
    | some _ hreceived hcontent =>
      rw [hreceived, List.append_assoc, hcontent]
      exact h.content
  · cases htakes with
    | nothing hreader | last hreader =>
      rw [hreader]
      exact h.broken
    | some _ _ _ hb => exact hb.trans h.broken
  · intro hdrained
    cases htakes with
    | nothing hreader _ hback =>
      rw [hreader]
      exact h.drained (hback hdrained)
    | some _ _ _ _ hnot => simp [hnot] at hdrained
    | last hreader _ hnil hb =>
      rw [hreader]
      exact ⟨hnil, hb⟩
  · rcases hm.destination hsound with hsame | ⟨hok, -⟩
    · exact hsame.trans hold
    · exact absurd hok hr
  · have htransfer := hm.transfer.trans h.transfer
    simpa only [htransfer] using hm.succeeds hsound hr

variable {as : List Intake.Action}

theorem Intake.Sound.of_steps (h : Steps (Intake.step sha base) always (.start fs x r) as s) :
    Intake.Sound sha base (fs.stat base) x r s :=
  h.invariant (fun _ _ _ _ hstep hi => hi.step hstep) (.start fs x r)

/-- Success is all of a stream that ended cleanly, in place. -/
theorem Intake.Sound.whole {original : Option Inode} (h : Intake.Sound sha base original x r s)
    (hok : s.call.result = some (.ok ())) : r.broken = false ∧ x.Complete sha r.content ∧
      s.fs.stat base = some ⟨r.content, x.mode % 0o10000⟩ := by
  obtain ⟨part, hpc⟩ := pc_of_result hok
  obtain ⟨hnil, hb⟩ := h.drained (by simp [hpc, Pc.drained])
  have hreceived : s.call.received = r.content := by simpa [hnil] using h.content
  rw [← hreceived, ← h.broken]
  exact ⟨hb, h.landed hok⟩

/-! ## Every run ends -/

def Pc.rank : Pc → Nat
  | .check => 20
  | .createDir => 19
  | .freeSpace => 18
  | .create tries => 9 + tries
  | .write _ bs => 10 + 2 * bs.length
  | .read _ => 8
  | .flush _ _ => 7
  | .sync _ _ => 6
  | .chmod _ => 5
  | .rename _ => 4
  | .remove _ _ => 3
  | .returned _ _ => 0

/-- What the blocking thread still has to do. -/
def Inflight.left : Inflight → Nat
  | .busy rest => 1 + rest.length
  | _ => 0

def Receive.rank (c : Receive) : Nat := c.io.left + c.pc.rank

/-- How much there is left to do at most. A byte on the stream counts for the buffer and the
thread it is still to go through. -/
def Intake.left (s : Intake) : Nat := 5 * s.reader.content.length + s.call.rank

theorem rank_afterVerdict (p : Part) (v : Except RecvError Unit) : (afterVerdict p v).rank < 6 := by
  cases v <;> simp [afterVerdict, Pc.rank]

theorem Receive.rank_next {a : Answer} (h : c.next sha base fs a = some (fs', c'))
    (hr : c.reading = false) : c'.rank < c.rank := by
  have notRead : ∀ p, c.pc ≠ .read p := fun p hp => by simp [Receive.reading, hp] at hr
  unfold Receive.next at h
  split at h
  case h_1 hpc => split at h <;> cases h <;> simp [Receive.rank, Pc.rank, hpc]
  case h_2 hpc | h_3 hpc | h_5 hpc | h_6 hpc | h_15 hpc | h_17 hpc | h_19 hpc | h_20 hpc =>
    cases h
    simp [Receive.rank, Pc.rank, hpc]
  case h_7 hpc =>
    cases h
    simp only [Receive.rank, Pc.rank, hpc]
    omega
  case h_4 hpc => split at h <;> cases h <;> simp [Receive.rank, Pc.rank, hpc]
  case h_8 hpc =>
    split at h
    · split at h <;> cases h <;> simp [Receive.rank, Pc.rank, hpc]
      omega
    · cases h
  case h_9 p hpc | h_10 p _ hpc => exact absurd hpc (notRead p)
  -- the buffer goes to the thread
  case h_11 p bs hpc =>
    split at h
    · rename_i hio
      cases h
      simp only [Receive.rank, Pc.rank, Inflight.left, hpc, hio]
      omega
    · cases h
    · cases h
      simp only [Receive.rank, Pc.rank, Inflight.left, hpc]
      omega
  case h_12 p outcome hpc =>
    have hrank : c.pc.rank = 7 := by rw [hpc]; rfl
    split at h
    · cases h
      simp [Receive.rank, Pc.rank, hpc]
    · cases h
    · rename_i hio
      cases h
      have := rank_afterVerdict p (c.verdict sha outcome (.error .flushing))
      simp only [Receive.rank, hrank, Inflight.left, hio]
      omega
  case h_13 p outcome hpc =>
    have hrank : c.pc.rank = 6 := by rw [hpc]; rfl
    cases h
    have := rank_afterVerdict p (c.verdict sha outcome (.ok ()))
    simp only [Receive.rank, hrank]
    omega
  case h_14 p outcome hpc =>
    have hrank : c.pc.rank = 6 := by rw [hpc]; rfl
    cases h
    have := rank_afterVerdict p (c.verdict sha outcome (.error .flushing))
    simp only [Receive.rank, hrank]
    omega
  case h_16 hpc | h_18 hpc => split at h <;> cases h <;> simp [Receive.rank, Pc.rank, hpc]
  case h_21 => cases h

theorem Intake.left_read (h : s.step sha base .read = some s') : s'.left < s.left := by
  simp only [Intake.step] at h
  split at h
  · rename_i hread
    obtain ⟨p, hpc⟩ := reading_iff.mp hread
    obtain ⟨⟨fs', c'⟩, hnext, rfl⟩ := Option.map_eq_some_iff.mp h
    rcases arrival_cases s.reader with
      ⟨bs, rest, harr, hne, hle, hcontent, -⟩ | ⟨harr, -, -⟩ | harr
    · have hlen : bs.length + rest.content.length = s.reader.content.length := by
        rw [← hcontent, List.length_append]
      have hpos : 0 < bs.length := List.length_pos_of_ne_nil hne
      simp only [harr, Receive.next, hpc, hle, hne, if_true, if_false] at hnext ⊢
      split at hnext <;> cases hnext <;>
        simp only [Intake.left, Receive.rank, Pc.rank, hpc] <;> omega
    · simp only [harr, Receive.next, hpc, List.length_nil, Nat.zero_le, if_true] at hnext ⊢
      cases hnext
      simp [Intake.left, Receive.rank, Pc.rank, hpc]
    · simp only [harr, Receive.next, hpc] at hnext ⊢
      cases hnext
      simp [Intake.left, Receive.rank, Pc.rank, hpc]
  · cases h

theorem left_landed {rest : Bytes} {n : Nat} (hpos : 0 < n) (hle : n ≤ rest.length) :
    (Inflight.landed rest n).left < (Inflight.busy rest).left := by
  unfold Inflight.landed
  split
  · simp only [Inflight.left]
    omega
  · simp only [Inflight.left, List.length_drop]
    omega

/-- Every step leaves less to do. -/
theorem Intake.left_step (h : s.step sha base a = some s') : s'.left < s.left := by
  cases a with
  | step a =>
    simp only [Intake.step] at h
    split at h
    · cases h
    · rename_i hread
      obtain ⟨⟨fs', c'⟩, hnext, rfl⟩ := Option.map_eq_some_iff.mp h
      have := Receive.rank_next hnext (by simpa using hread)
      simp only [Intake.left]
      omega
  | read => exact Intake.left_read h
  | land n =>
    obtain ⟨⟨fs', c'⟩, hland, rfl⟩ := Option.map_eq_some_iff.mp h
    unfold Receive.land at hland
    split at hland
    · rename_i hio
      split at hland
      · rename_i hn
        cases hland
        have := left_landed hn.1 hn.2.1
        simp only [Intake.left, Receive.rank, hio]
        omega
      · cases hland
    · cases hland
  | landFail =>
    obtain ⟨c', hland, rfl⟩ := Option.map_eq_some_iff.mp h
    unfold Receive.landFail at hland
    split at hland
    · rename_i hio
      cases hland
      simp only [Intake.left, Receive.rank, Inflight.left, hio]
      omega
    · cases hland

/-- Run lemma: no run is longer than there was to do. -/
theorem Intake.length_le (h : Steps (Intake.step sha base) always s as s') :
    as.length + s'.left ≤ s.left :=
  h.length_add_le (I := fun _ => True) Intake.left (fun _ _ _ _ _ _ => trivial)
    (fun _ _ _ _ hstep _ => Intake.left_step hstep) trivial

/-- Until it returns, a call can go on. -/
theorem Intake.progress (hr : s.call.result = none) : ∃ a s', s.step sha base a = some s' := by
  obtain ⟨fs, c, r⟩ := s
  cases hpc : c.pc with
  | returned part res => simp [Receive.result, hpc] at hr
  | check =>
    refine ⟨.step .ok, ?_⟩
    by_cases hle : c.transfer.len ≤ c.transfer.max <;>
      simp [Intake.step, Receive.reading, Receive.next, hpc, hle]
  | createDir | freeSpace | sync | chmod | rename | remove =>
    refine ⟨.step .fail, ?_⟩
    simp [Intake.step, Receive.reading, Receive.next, hpc]
  | create tries =>
    cases tries with
    | zero => exact ⟨.step .ok, by simp [Intake.step, Receive.reading, Receive.next, hpc]⟩
    | succ n => exact ⟨.step .fail, by simp [Intake.step, Receive.reading, Receive.next, hpc]⟩
  | read p =>
    refine ⟨.read, ?_⟩
    rcases arrival_cases r with ⟨bs, rest, harr, hne, hle, -⟩ | ⟨harr, -⟩ | harr
    · simp only [Intake.step, Receive.reading, Receive.next, hpc, harr, hne, hle, if_true, if_false]
      split <;> exact ⟨_, rfl⟩
    · simp [Intake.step, Receive.reading, Receive.next, hpc, harr]
    · simp [Intake.step, Receive.reading, Receive.next, hpc, harr]
  -- here the call may have to wait for the thread, which can always give up
  | write | flush =>
    cases hio : c.io with
    | idle | failed =>
      exact ⟨.step .ok, by simp [Intake.step, Receive.reading, Receive.next, hpc, hio]⟩
    | busy rest => exact ⟨.landFail, by simp [Intake.step, Receive.landFail, hio]⟩

end

end Egdod.Copy
