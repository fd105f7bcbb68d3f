import Egdod.Copy.Receive

/-! A file lands whole or not at all. A staging file belongs to one call
from its creation to its rename or removal, whatever other calls do; what it
holds is a prefix of what arrived, and the rename happens only once that
prefix is everything announced. -/
namespace Egdod.Copy

open Text Posix StepSystem

/-- Removing one's own staging file does not fail. -/
def UnlinkWorks (s : Copies) (a : Action) : Prop :=
  ∀ t c p e, a = .step t .fail → s.calls t = some c → c.pc ≠ .remove p e

/-- A call that has a staging file in place. -/
structure Receive.Held (base : Str) (fs : Files Str) (c : Receive) (p : Part) : Prop where
  aside : p.tmp ≠ base
  linked : fs.dir p.tmp = some p.fd
  pos : (fs.inode p.fd).bytes.length = c.pos
  fits : c.pos + c.io.rest.length ≤ c.transfer.len
  size : c.pos ≤ maxFileSize
  allowed : c.transfer.len ≤ c.transfer.max

/-- Nothing received is lost: it is in the staging file, with the blocking
thread, or in the buffer `bs` about to be handed over. -/
structure Receive.Intact (fs : Files Str) (c : Receive) (p : Part) (bs : Bytes) : Prop where
  got : c.got = c.received.length
  announced : c.received.length ≤ c.transfer.len
  bounded : c.received.length ≤ maxFileSize + chunk + bs.length
  buffer : bs.length ≤ chunk
  data : c.io ≠ .failed → (fs.inode p.fd).bytes ++ c.io.rest ++ bs = c.received

/-- No byte has arrived yet. -/
def Receive.Fresh (c : Receive) : Prop :=
  c.received = [] ∧ c.got = 0 ∧ c.pos = 0 ∧ c.io = .idle

/-- What holds of a call where it stands. -/
def Receive.Sound (sha : Bytes → Digest) (base : Str) (fs : Files Str) (c : Receive) : Prop :=
  match c.pc with
  | .check => c.Fresh
  | .createDir | .freeSpace | .create _ => c.Fresh ∧ c.transfer.len ≤ c.transfer.max
  | .read p => c.Held base fs p ∧ c.Intact fs p []
  | .write p bs => c.Held base fs p ∧ c.Intact fs p bs
  | .flush p (.ok _) => c.Held base fs p ∧ c.Intact fs p []
  | .flush p (.error _) => c.Held base fs p
  | .sync p (.ok _) => (c.Held base fs p ∧ c.io = .idle) ∧ c.Intact fs p []
  | .sync p (.error _) | .remove p _ => c.Held base fs p ∧ c.io = .idle
  | .chmod p => (c.Held base fs p ∧ c.io = .idle) ∧ (fs.inode p.fd).bytes = c.received ∧
      c.transfer.Complete sha c.received
  | .rename p => (c.Held base fs p ∧ c.io = .idle) ∧
      fs.inode p.fd = ⟨c.received, c.transfer.mode % 0o10000⟩ ∧
      c.transfer.Complete sha c.received
  | .returned part r => c.io = .idle ∧ ∀ p, part = some p →
      p.fd < fs.next ∧ (fs.inode p.fd).bytes.length ≤ c.transfer.len ∧
        ∀ e, r = .error e → ∀ q, fs.dir q ≠ some p.fd

theorem partName_ne_base (base : Str) (nonce : Bytes) : partName base nonce ≠ base := by
  intro h
  have := congrArg List.length h
  simp [partName] at this

section
variable {sha : Bytes → Digest} {base : Str} {fs fs' : Files Str} {c c' : Receive} {p : Part}
  {bs rest : Bytes} {n : Nat}

theorem Receive.sound_start (x : Transfer) : (Receive.start x).Sound sha base fs :=
  ⟨rfl, rfl, rfl, rfl⟩

/-- Wherever a call holds a staging file, it is in place. -/
theorem Receive.Sound.held (h : c.Sound sha base fs) (hp : c.pc.part = some p)
    (hr : c.result = none) : c.Held base fs p := by
  unfold Receive.Sound at h
  cases hpc : c.pc with
  | check | createDir | freeSpace | create => simp [hpc, Pc.part] at hp
  | returned => simp [Receive.result, hpc] at hr
  | read | write | remove => simp [hpc, Pc.part] at hp h; exact hp ▸ h.1
  | chmod | rename => simp [hpc, Pc.part] at hp h; exact hp ▸ h.1.1
  | flush q o =>
    cases o with
    | ok | error => simp [hpc, Pc.part] at hp h; first | exact hp ▸ h.1 | exact hp ▸ h
  | sync q o =>
    cases o with
    | ok | error => simp [hpc, Pc.part] at hp h; first | exact hp ▸ h.1.1 | exact hp ▸ h.1

theorem Receive.Sound.returned {part : Option Part} {r : Except RecvError Unit}
    (h : c.Sound sha base fs) (hpc : c.pc = .returned part r) :
    c.io = .idle ∧ ∀ p, part = some p →
      p.fd < fs.next ∧ (fs.inode p.fd).bytes.length ≤ c.transfer.len ∧
        ∀ e, r = .error e → ∀ q, fs.dir q ≠ some p.fd := by
  simpa only [Receive.Sound, hpc] using h

theorem pc_of_result {r : Except RecvError Unit} (h : c.result = some r) :
    ∃ part, c.pc = .returned part r := by
  unfold Receive.result at h
  split at h
  · rename_i part _ hpc
    cases h
    exact ⟨part, hpc⟩
  · cases h

/-- A staging inode is an allocated one and holds no more than announced. -/
theorem Receive.Sound.inode (h : c.Sound sha base fs) (hp : c.pc.part = some p) :
    p.fd < fs.next ∧ (fs.inode p.fd).bytes.length ≤ c.transfer.len := by
  cases hr : c.result with
  | none =>
    have held := h.held hp hr
    exact ⟨fs.bound _ _ held.linked, by have := held.pos; have := held.fits; omega⟩
  | some r =>
    obtain ⟨part, hpc⟩ := pc_of_result hr
    rw [hpc] at hp
    obtain ⟨_, hall⟩ := h.returned hpc
    obtain ⟨hlt, hlen, _⟩ := hall p hp
    exact ⟨hlt, hlen⟩

/-- A call that has returned stays as it is. -/
theorem Receive.Moves.not_returned (hm : c.Moves sha base fs fs' c') (h : c.Sound sha base fs) :
    c.result = none := by
  cases hr : c.result with
  | none => rfl
  | some r =>
    obtain ⟨part, hpc⟩ := pc_of_result hr
    have hio := (h.returned hpc).1
    cases hm with
    | onward h => simp [hpc] at h
    | refused _ h => exact hr.symm.trans h
    | gaveUp h => simp [hpc] at h
    | wrote _ h | writeLost h => simp [hio] at h
    | _ h => simp [hpc] at h

/-- The part of a call once it has one, and the new one of a call that
creates it. -/
theorem Receive.Moves.part (hm : c.Moves sha base fs fs' c') :
    c'.pc.part = c.pc.part ∨ c.pc.part = none ∧ ∃ p, c'.pc.part = some p ∧ p.fd = fs.next := by
  cases hm with
  | created hpc hnew =>
    obtain ⟨_, _, hfd⟩ := Files.createNew_some hnew
    exact .inr ⟨by simp [hpc, Pc.part], _, rfl, hfd⟩
  | onward h =>
    left
    rcases h with ⟨h, rfl⟩ | ⟨h, rfl⟩ | ⟨_, h, rfl⟩ <;> simp [h, Pc.part]
  | refused h => exact .inl h.symm
  | gaveUp h => exact .inl (by rcases h with h | h <;> simp [h, Pc.part])
  | wrote | writeLost => exact .inl rfl
  | _ h => exact .inl (by simp [h, Pc.part])

/-- A move keeps to the inode of its own staging file, or to a new one. -/
theorem Receive.Moves.touches (hm : c.Moves sha base fs fs' c') (h : c.Sound sha base fs) :
    ∃ fd, Files.Touches fs fs' base fd ∧
      (c.pc.part = none ∧ fd = fs.next ∨ ∃ p, c.pc.part = some p ∧ p.fd = fd) := by
  have hr := hm.not_returned h
  cases hp : c.pc.part with
  | none =>
    refine ⟨fs.next, ?_, .inl ⟨rfl, rfl⟩⟩
    cases hm with
    | created hpc hnew =>
      obtain ⟨hnone, rfl, _⟩ := Files.createNew_some hnew
      exact Files.touches_create hnone base _
    | moded hpc | landed hpc | removed hpc => simp [hpc, Pc.part] at hp
    | wrote hp' => simp [hp] at hp'
    | _ => exact .refl _ _ _
  | some p =>
    have held := h.held hp hr
    refine ⟨p.fd, ?_, .inr ⟨p, rfl, rfl⟩⟩
    cases hm with
    | created hpc => simp [hpc, Pc.part] at hp
    | moded hpc hc =>
      cases (show c.pc.part = some _ by rw [hpc]; rfl).symm.trans hp
      obtain ⟨i, hi, rfl⟩ := Files.chmod_some hc
      cases hi.symm.trans held.linked
      exact Files.touches_setInode _ _ _ _
    | landed hpc hr =>
      cases (show c.pc.part = some _ by rw [hpc]; rfl).symm.trans hp
      exact Files.touches_rename held.linked hr
    | removed hpc =>
      cases (show c.pc.part = some _ by rw [hpc]; rfl).symm.trans hp
      exact Files.touches_unlink held.linked base
    | wrote hp' =>
      cases hp'.symm.trans hp
      exact Files.touches_pwrite _ _ _ _ _
    | _ => exact .refl _ _ _

/-- Frame: a call does not notice what happens to other inodes. -/
theorem Receive.Sound.frame {fd : Nat} (h : c.Sound sha base fs)
    (ht : Files.Touches fs fs' base fd) (hne : ∀ p, c.pc.part = some p → p.fd ≠ fd) :
    c.Sound sha base fs' := by
  have same : ∀ p, c.pc.part = some p → fs'.inode p.fd = fs.inode p.fd := fun p hp =>
    ht.inode _ (hne p hp) (h.inode hp).1
  have held : ∀ p, c.pc.part = some p → c.Held base fs p → c.Held base fs' p := fun p hp hh =>
    ⟨hh.aside, ht.keeps _ _ (hne p hp) hh.aside hh.linked, by rw [same p hp]; exact hh.pos,
      hh.fits, hh.size, hh.allowed⟩
  have intact : ∀ p bs, c.pc.part = some p → c.Intact fs p bs → c.Intact fs' p bs :=
    fun p bs hp hi => ⟨hi.got, hi.announced, hi.bounded, hi.buffer,
      (same p hp).symm ▸ hi.data⟩
  unfold Receive.Sound at h ⊢
  cases hpc : c.pc with
  | check | createDir | freeSpace | create => simpa only [hpc] using h
  | read p | write p bs =>
    simp only [hpc] at h ⊢
    have hp : c.pc.part = some p := by rw [hpc]; rfl
    exact ⟨held p hp h.1, intact p _ hp h.2⟩
  | flush p o =>
    have hp : c.pc.part = some p := by rw [hpc]; rfl
    cases o with
    | ok => simp only [hpc] at h ⊢; exact ⟨held p hp h.1, intact p _ hp h.2⟩
    | error => simp only [hpc] at h ⊢; exact held p hp h
  | sync p o =>
    have hp : c.pc.part = some p := by rw [hpc]; rfl
    cases o with
    | ok => simp only [hpc] at h ⊢; exact ⟨⟨held p hp h.1.1, h.1.2⟩, intact p _ hp h.2⟩
    | error => simp only [hpc] at h ⊢; exact ⟨held p hp h.1, h.2⟩
  | remove p =>
    have hp : c.pc.part = some p := by rw [hpc]; rfl
    simp only [hpc] at h ⊢
    exact ⟨held p hp h.1, h.2⟩
  | chmod p | rename p =>
    have hp : c.pc.part = some p := by rw [hpc]; rfl
    simp only [hpc] at h ⊢
    rw [same p hp]
    exact ⟨⟨held p hp h.1.1, h.1.2⟩, h.2⟩
  | returned part r =>
    simp only [hpc] at h ⊢
    refine ⟨h.1, fun p hp => ?_⟩
    obtain ⟨hlt, hlen, hgone⟩ := h.2 p hp
    have hpart : c.pc.part = some p := by rw [hpc]; exact hp
    refine ⟨Nat.lt_of_lt_of_le hlt ht.next, by rw [same p hpart]; exact hlen, fun e he q hq => ?_⟩
    exact hgone e he q (ht.gains q _ (hne p hpart) hq)

/-! ## The moves of a call -/

theorem Inflight.rest_landed : (Inflight.landed rest n).rest = rest.drop n := by
  unfold Inflight.landed
  split
  · rename_i h
    simp [Inflight.rest, h]
  · rfl

theorem bytes_pwrite_end {pos : Nat} (h : (fs.inode p.fd).bytes.length = pos) :
    ((fs.pwrite p.fd pos bs).inode p.fd).bytes = (fs.inode p.fd).bytes ++ bs := by
  subst h
  simp [Files.pwrite, Files.setInode, Files.spliceAt_length]

theorem Receive.Held.wrote (h : c.Held base fs p) (hio : c.io = .busy rest)
    (hn : n ≤ rest.length) (hsize : c.pos + n ≤ maxFileSize) {pc : Pc} :
    Receive.Held base (fs.pwrite p.fd c.pos (rest.take n))
      { c with pos := c.pos + n, io := .landed rest n, pc := pc } p := by
  have hfits := h.fits
  rw [hio] at hfits
  simp only [Inflight.rest] at hfits
  refine ⟨h.aside, h.linked, ?_, ?_, hsize, h.allowed⟩
  · rw [bytes_pwrite_end h.pos, List.length_append, h.pos, List.length_take, Nat.min_eq_left hn]
  · simp only [Inflight.rest_landed, List.length_drop]
    omega

theorem Receive.Intact.wrote (h : c.Intact fs p bs) (held : c.Held base fs p)
    (hio : c.io = .busy rest) {pc : Pc} :
    Receive.Intact (fs.pwrite p.fd c.pos (rest.take n))
      { c with pos := c.pos + n, io := .landed rest n, pc := pc } p bs := by
  refine ⟨h.got, h.announced, h.bounded, h.buffer, fun _ => ?_⟩
  have hdata := h.data (by simp [hio])
  rw [hio] at hdata
  rw [bytes_pwrite_end held.pos, Inflight.rest_landed, List.append_assoc _ (rest.take n),
    List.take_append_drop]
  exact hdata

/-- Only what is outside the file and the thread changes. -/
theorem Receive.Held.goto (h : c.Held base fs p) {received : Bytes} {got : Nat} {pc : Pc} :
    Receive.Held base fs { c with received := received, got := got, pc := pc } p :=
  ⟨h.aside, h.linked, h.pos, h.fits, h.size, h.allowed⟩

theorem Receive.Held.settle (h : c.Held base fs p) {io : Inflight} {pc : Pc} (hio : io.rest = []) :
    Receive.Held base fs { c with io := io, pc := pc } p := by
  refine ⟨h.aside, h.linked, h.pos, ?_, h.size, h.allowed⟩
  have := h.fits
  simp only [hio, List.length_nil]
  omega

/-- The length counter does not wrap: a file ends long before. -/
theorem Receive.Intact.arrived (h : c.Intact fs p []) (hlen : bs.length ≤ chunk)
    (hle : (c.got + bs.length) % 2 ^ 64 ≤ c.transfer.len) {pc : Pc} :
    Receive.Intact fs { c with
      received := c.received ++ bs
      got := (c.got + bs.length) % 2 ^ 64
      pc := pc } p bs := by
  have hbound := h.bounded
  have hlast : (c.got + bs.length) % 2 ^ 64 = (c.received ++ bs).length := by
    rw [h.got, List.length_append]
    apply Nat.mod_eq_of_lt
    simp only [maxFileSize, chunk, List.length_nil] at hbound hlen
    omega
  refine ⟨hlast, hlast ▸ hle, ?_, hlen, fun hio => ?_⟩
  · simp only [List.length_append, List.length_nil] at hbound ⊢
    omega
  · have := h.data hio
    simp only [List.append_nil] at this
    rw [this]

theorem Receive.Intact.handed (h : c.Intact fs p bs) (held : c.Held base fs p)
    (hio : c.io = .idle) {pc : Pc} :
    Receive.Held base fs { c with io := .busy bs, pc := pc } p ∧
      Receive.Intact fs { c with io := .busy bs, pc := pc } p [] := by
  have hdata : (fs.inode p.fd).bytes ++ bs = c.received := by
    simpa [hio, Inflight.rest] using h.data (by simp [hio])
  have hlen : c.pos + bs.length = c.received.length := by
    rw [← hdata, List.length_append, held.pos]
  have hsize := held.size
  have hbuf := h.buffer
  have hann := h.announced
  refine ⟨⟨held.aside, held.linked, held.pos, ?_, held.size, held.allowed⟩,
    ⟨h.got, hann, ?_, Nat.zero_le _, fun _ => ?_⟩⟩
  · simp only [Inflight.rest]
    omega
  · simp only [List.length_nil]
    omega
  · simpa [Inflight.rest] using hdata

/-- An error is the only thing that hides bytes from the file. -/
theorem Receive.Intact.writeLost (h : c.Intact fs p bs) {pc : Pc} :
    Receive.Intact fs { c with io := .failed, pc := pc } p bs :=
  ⟨h.got, h.announced, h.bounded, h.buffer, fun hne => absurd rfl hne⟩

theorem Receive.Intact.goto (h : c.Intact fs p bs) {pc : Pc} :
    Receive.Intact fs { c with pc := pc } p bs :=
  ⟨h.got, h.announced, h.bounded, h.buffer, h.data⟩

theorem Receive.sound_created {nonce : Bytes} {fs' : Files Str} {fd : Nat} (hf : c.Fresh)
    (hmax : c.transfer.len ≤ c.transfer.max)
    (hnew : fs.createNew (partName base nonce) 0o600 = some (fs', fd)) :
    Receive.Sound sha base fs' { c with pc := .read ⟨partName base nonce, fd⟩ } := by
  obtain ⟨hrec, hgot, hpos, hio⟩ := hf
  obtain ⟨_, rfl, rfl⟩ := Files.createNew_some hnew
  refine ⟨⟨partName_ne_base _ _, by simp [Files.create], ?_, ?_, ?_, hmax⟩,
    ⟨?_, ?_, ?_, Nat.zero_le _, fun _ => ?_⟩⟩
  · simp [Files.create, hpos]
  · simp [hpos, hio, Inflight.rest]
  · simp [hpos]
  · simp [hgot, hrec]
  · simp [hrec]
  · simp [hrec]
  · simp [Files.create, hio, hrec, Inflight.rest]

/-- Before it has a staging file, a call has nothing. -/
theorem Receive.Sound.idle (h : c.Sound sha base fs) (hp : c.pc.part = none) : c.io = .idle := by
  unfold Receive.Sound at h
  cases hpc : c.pc with
  | check => simp only [hpc] at h; exact h.2.2.2
  | createDir | freeSpace | create => simp only [hpc] at h; exact h.1.2.2.2
  | returned => simp only [hpc] at h; exact h.1
  | _ => simp [hpc, Pc.part] at hp

theorem Receive.Sound.wrote (h : c.Sound sha base fs) (hp : c.pc.part = some p)
    (hio : c.io = .busy rest) (hn : n ≤ rest.length) (hsize : c.pos + n ≤ maxFileSize) :
    Receive.Sound sha base (fs.pwrite p.fd c.pos (rest.take n))
      { c with pos := c.pos + n, io := .landed rest n } := by
  unfold Receive.Sound at h ⊢
  cases hpc : c.pc with
  | check | createDir | freeSpace | create => simp [hpc, Pc.part] at hp
  | read q | write q bs =>
    simp only [hpc] at h ⊢
    cases (show c.pc.part = some q by rw [hpc]; rfl).symm.trans hp
    exact ⟨h.1.wrote hio hn hsize, h.2.wrote h.1 hio⟩
  | flush q o =>
    cases (show c.pc.part = some q by rw [hpc]; rfl).symm.trans hp
    cases o with
    | ok => simp only [hpc] at h ⊢; exact ⟨h.1.wrote hio hn hsize, h.2.wrote h.1 hio⟩
    | error => simp only [hpc] at h ⊢; exact h.wrote hio hn hsize
  -- past the flush the thread has nothing left to write
  | sync q o =>
    cases o with
    | ok => simp [hpc, hio] at h
    | error => simp [hpc, hio] at h
  | _ => simp [hpc, hio] at h

theorem Receive.Sound.writeLost (h : c.Sound sha base fs) (hio : c.io = .busy rest) :
    Receive.Sound sha base fs { c with io := .failed } := by
  unfold Receive.Sound at h ⊢
  cases hpc : c.pc with
  | check | createDir | freeSpace | create => simp [hpc, hio, Receive.Fresh] at h
  | read q | write q bs => simp only [hpc] at h ⊢; exact ⟨h.1.settle rfl, h.2.writeLost⟩
  | flush q o =>
    cases o with
    | ok => simp only [hpc] at h ⊢; exact ⟨h.1.settle rfl, h.2.writeLost⟩
    | error => simp only [hpc] at h ⊢; exact h.settle rfl
  | sync q o =>
    cases o with
    | ok => simp [hpc, hio] at h
    | error => simp [hpc, hio] at h
  | _ => simp [hpc, hio] at h

/-- Once a verdict is in, the staging file holds exactly what was announced. -/
theorem Receive.Intact.complete (h : c.Intact fs p []) (held : c.Held base fs p)
    (hio : c.io = .idle) (hgot : c.got = c.transfer.len)
    (hsha : sha c.received = c.transfer.sha256) :
    (fs.inode p.fd).bytes = c.received ∧ c.transfer.Complete sha c.received := by
  refine ⟨?_, h.got.symm.trans hgot, hsha, held.allowed⟩
  simpa [hio, Inflight.rest] using h.data (by simp [hio])

/-- The removal of a staging file ends a call with nothing left behind. -/
theorem Receive.Held.removed {e : RecvError} (h : c.Held base fs p) (hio : c.io = .idle) :
    Receive.Sound sha base (fs.unlink p.tmp) { c with pc := .returned (some p) (.error e) } := by
  refine ⟨hio, ?_⟩
  rintro _ ⟨⟩
  refine ⟨fs.bound _ _ h.linked, ?_, fun _ _ => Files.dir_unlink_ne h.linked⟩
  have hpos := h.pos
  have hfits := h.fits
  simp only [Files.unlink]
  omega

/-- Step lemma for the call that moves. -/
theorem Receive.Moves.sound (hm : c.Moves sha base fs fs' c') (h : c.Sound sha base fs)
    (hrm : ∀ p e, c.pc = .remove p e → fs' = fs.unlink p.tmp) : c'.Sound sha base fs' := by
  cases hm with
  | fit hpc hle => simp only [Receive.Sound, hpc] at h; exact ⟨h, hle⟩
  | onward hpc =>
    rcases hpc with ⟨hpc, rfl⟩ | ⟨hpc, rfl⟩ | ⟨_, hpc, rfl⟩ <;>
      simp only [Receive.Sound, hpc] at h <;> exact h
  | refused hp => exact ⟨h.idle hp, by simp⟩
  | created hpc hnew =>
    simp only [Receive.Sound, hpc] at h
    exact Receive.sound_created h.1 h.2 hnew
  | arrived hpc hlen hle =>
    simp only [Receive.Sound, hpc] at h
    exact ⟨h.1.goto, h.2.arrived hlen hle⟩
  | oversent hpc | broke hpc => simp only [Receive.Sound, hpc] at h; exact h.1.goto
  | ended hpc => simp only [Receive.Sound, hpc] at h; exact ⟨h.1.goto, h.2.goto⟩
  | handed hpc hio => simp only [Receive.Sound, hpc] at h; exact h.2.handed h.1 hio
  | writeFailed hpc hio => simp only [Receive.Sound, hpc] at h; exact h.1.settle rfl
  | @flushed p outcome hpc hio =>
    cases outcome with
    | ok => simp only [Receive.Sound, hpc] at h; exact ⟨⟨h.1.goto, hio⟩, h.2.goto⟩
    | error => simp only [Receive.Sound, hpc] at h; exact ⟨h.goto, hio⟩
  | @flushFailed p outcome e hpc hio =>
    cases outcome with
    | ok => simp only [Receive.Sound, hpc] at h; exact ⟨h.1.settle rfl, rfl⟩
    | error => simp only [Receive.Sound, hpc] at h; exact ⟨h.settle rfl, rfl⟩
  | verified hpc hgot hsha =>
    simp only [Receive.Sound, hpc] at h
    obtain ⟨⟨held, hio⟩, hi⟩ := h
    exact ⟨⟨held.goto, hio⟩, hi.complete held hio hgot hsha⟩
  | @rejected p outcome e hpc =>
    cases outcome with
    | ok => simp only [Receive.Sound, hpc] at h; exact ⟨h.1.1.goto, h.1.2⟩
    | error => simp only [Receive.Sound, hpc] at h; exact ⟨h.1.goto, h.2⟩
  | @moded p fs' hpc hc =>
    simp only [Receive.Sound, hpc] at h
    obtain ⟨⟨held, hio⟩, hbytes, hcomplete⟩ := h
    obtain ⟨i, hi, rfl⟩ := Files.chmod_some hc
    cases hi.symm.trans held.linked
    refine ⟨⟨⟨held.aside, held.linked, ?_, held.fits, held.size, held.allowed⟩, hio⟩, ?_, hcomplete⟩
    · simpa [Files.setInode] using held.pos
    · simp [Files.setInode, hbytes]
  | @landed p fs' hpc hr =>
    simp only [Receive.Sound, hpc] at h
    obtain ⟨⟨held, hio⟩, hinode, hcomplete⟩ := h
    obtain ⟨_, _, hsame, hnext, _⟩ := Files.rename_some hr
    refine ⟨hio, ?_⟩
    rintro _ ⟨⟩
    refine ⟨hnext ▸ fs.bound _ _ held.linked, ?_, by simp⟩
    rw [hsame, hinode]
    exact Nat.le_of_eq hcomplete.1
  | gaveUp hpc =>
    rcases hpc with hpc | hpc <;> simp only [Receive.Sound, hpc] at h <;>
      exact ⟨h.1.1.goto, h.1.2⟩
  | removed hpc => simp only [Receive.Sound, hpc] at h; exact h.1.removed h.2
  | left hpc => rw [hrm _ _ hpc]; simp only [Receive.Sound, hpc] at h; exact h.1.removed h.2
  | wrote hp hio hn hsize => exact h.wrote hp hio hn hsize
  | writeLost hio => exact h.writeLost hio

/-- The destination changes only when a verified call renames onto it. -/
theorem Receive.Moves.destination (hm : c.Moves sha base fs fs' c') (h : c.Sound sha base fs) :
    fs'.stat base = fs.stat base ∨
    c'.result = some (.ok ()) ∧ c'.transfer.Complete sha c'.received ∧
      fs'.stat base = some ⟨c'.received, c'.transfer.mode % 0o10000⟩ := by
  have hr := hm.not_returned h
  have held := fun p hp => h.held (p := p) hp hr
  -- a staging inode is not the one behind the destination
  have apart : ∀ p, c.pc.part = some p → fs.dir base ≠ some p.fd := fun p hp hb =>
    (held p hp).aside (fs.single _ _ _ (held p hp).linked hb)
  cases hm with
  | created hpc hnew =>
    obtain ⟨_, rfl, _⟩ := Files.createNew_some hnew
    exact .inl (Files.sameAt_create (partName_ne_base _ _).symm _).stat
  | @moded p _ hpc hc =>
    have hp : c.pc.part = some p := by rw [hpc]; rfl
    exact .inl (Files.sameAt_chmod (held p hp).aside.symm hc).stat
  | @landed p _ hpc hrename =>
    have hp : c.pc.part = some p := by rw [hpc]; rfl
    simp only [Receive.Sound, hpc] at h
    refine .inr ⟨rfl, h.2.2, ?_⟩
    rw [Files.stat_rename hrename, Files.stat_of_dir (held p hp).linked, h.2.1]
  | @removed p _ hpc =>
    have hp : c.pc.part = some p := by rw [hpc]; rfl
    exact .inl (Files.sameAt_unlink (held p hp).aside.symm).stat
  | @wrote p _ _ hp => exact .inl (Files.sameAt_pwrite (apart p hp) _ _).stat
  | _ => exact .inl rfl

/-! ## Any number of calls -/

variable {s s' : Copies} {a : Action} {t : Nat}

/-- Under the assumption, the removal a call is at takes its file away. -/
theorem UnlinkWorks.unlinked {e : RecvError} (hok : UnlinkWorks s a)
    (hstep : step sha base s a = some s') (hc : s.calls a.call = some c)
    (hpc : c.pc = .remove p e) (hio : c.io = .idle) : s'.fs = s.fs.unlink p.tmp := by
  cases a with
  | start t x => simp [step, show s.calls t = some c from hc] at hstep
  | step t answer =>
    obtain ⟨c₁, hc₁, hrest⟩ := Option.bind_eq_some_iff.mp hstep
    cases hc.symm.trans hc₁
    obtain ⟨⟨fs, c'⟩, hnext, rfl⟩ := Option.map_eq_some_iff.mp hrest
    cases answer with
    | ok =>
      simp only [Receive.next, hpc, Option.some.injEq, Prod.mk.injEq] at hnext
      exact hnext.1.symm
    | fail => exact absurd hpc (hok t c p e rfl hc)
    | figures | nonce | data => simp [Receive.next, hpc] at hnext
  | land t n => simp [step, show s.calls t = some c from hc, Receive.land, hio] at hstep
  | landFail t => simp [step, show s.calls t = some c from hc, Receive.landFail, hio] at hstep

/-- Every call is sound, staging files are apart, and the destination is as
it was or as a call that returned left it. -/
structure Copies.Sound (sha : Bytes → Digest) (base : Str) (original : Option Inode)
    (s : Copies) : Prop where
  calls : ∀ t c, s.calls t = some c → c.Sound sha base s.fs
  apart : ∀ t u c d p q, t ≠ u → s.calls t = some c → s.calls u = some d →
    c.pc.part = some p → d.pc.part = some q → p.fd ≠ q.fd
  destination : s.fs.stat base = original ∨ ∃ t c, s.calls t = some c ∧
    c.result = some (.ok ()) ∧ c.transfer.Complete sha c.received ∧
      s.fs.stat base = some ⟨c.received, c.transfer.mode % 0o10000⟩

theorem Copies.Sound.before (fs : Files Str) :
    Copies.Sound sha base (fs.stat base) (Copies.before fs) :=
  ⟨by simp [Copies.before], by simp [Copies.before], .inl rfl⟩

/-- A call that has returned is as it was, whoever moves. -/
theorem Copies.Sound.keeps_returned {original : Option Inode}
    (h : Copies.Sound sha base original s) (hstep : step sha base s a = some s')
    (hc : s.calls t = some c) {r : Except RecvError Unit} (hr : c.result = some r) :
    s'.calls t = some c := by
  rcases step_cases hstep with ⟨u, x, rfl, hnone, rfl⟩ | ⟨d, fs', d', hd, hm, rfl⟩
  · have hut : t ≠ u := fun e => by simp [e, hnone] at hc
    simpa [Copies.set, hut] using hc
  · have hut : t ≠ a.call := by
      rintro rfl
      cases hd.symm.trans hc
      simp [hm.not_returned (h.calls _ _ hd)] at hr
    simpa [Copies.set, hut] using hc

/-- What a mover touches is no other call's. -/
theorem Copies.Sound.apart_of_mover {original : Option Inode} {d : Receive} {u fd : Nat}
    (h : Copies.Sound sha base original s) (hc : s.calls t = some c) (hu : s.calls u = some d)
    (hne : u ≠ t)
    (hfd : c.pc.part = none ∧ fd = s.fs.next ∨ ∃ p, c.pc.part = some p ∧ p.fd = fd) :
    ∀ q, d.pc.part = some q → q.fd ≠ fd := by
  intro q hq
  rcases hfd with ⟨_, rfl⟩ | ⟨p, hp, rfl⟩
  · exact Nat.ne_of_lt ((h.calls u d hu).inode hq).1
  · exact h.apart u t d c q p hne hu hc hq hp

theorem Copies.Sound.step {original : Option Inode} (hok : UnlinkWorks s a)
    (hstep : step sha base s a = some s') (h : Copies.Sound sha base original s) :
    Copies.Sound sha base original s' := by
  refine ⟨?_, ?_, ?_⟩
  · intro u d hu
    rcases step_cases hstep with ⟨t, x, rfl, _, rfl⟩ | ⟨c, fs', c', hc, hm, rfl⟩
    · rcases calls_set hu with ⟨_, rfl⟩ | ⟨_, hu⟩
      · exact Receive.sound_start x
      · exact h.calls u d hu
    · rcases calls_set hu with ⟨_, rfl⟩ | ⟨hne, hu⟩
      · have hs := h.calls _ _ hc
        refine hm.sound hs fun p e hpc => hok.unlinked hstep hc hpc ?_
        simp only [Receive.Sound, hpc] at hs
        exact hs.2
      · obtain ⟨fd, ht, hfd⟩ := hm.touches (h.calls _ _ hc)
        exact (h.calls u d hu).frame ht (h.apart_of_mover hc hu hne hfd)
  · intro u v d e p q huv hu hv hp hq
    rcases step_cases hstep with ⟨t, x, rfl, _, rfl⟩ | ⟨c, fs', c', hc, hm, rfl⟩
    · -- a call that has just started has no staging file
      rcases calls_set hu with ⟨_, rfl⟩ | ⟨_, hu⟩
      · cases hp
      · rcases calls_set hv with ⟨_, rfl⟩ | ⟨_, hv⟩
        · cases hq
        · exact h.apart u v d e p q huv hu hv hp hq
    · -- the mover kept its staging file or took an inode beyond all others
      have mover : ∀ w x y z, w ≠ a.call → s.calls w = some x → x.pc.part = some y →
          c'.pc.part = some z → y.fd ≠ z.fd := by
        intro w x y z hw hx hy hz
        rcases hm.part with hsame | ⟨_, z', hz', hfd⟩
        · exact h.apart w _ x c y z hw hx hc hy (hsame ▸ hz)
        · cases hz.symm.trans hz'
          exact hfd ▸ Nat.ne_of_lt ((h.calls w x hx).inode hy).1
      rcases calls_set hu with ⟨hut, rfl⟩ | ⟨hut, hu⟩ <;>
        rcases calls_set hv with ⟨hvt, rfl⟩ | ⟨hvt, hv⟩
      · exact absurd (hut.trans hvt.symm) huv
      · exact (mover v e q p hvt hv hq hp).symm
      · exact mover u d p q hut hu hp hq
      · exact h.apart u v d e p q huv hu hv hp hq
  · have keep : s'.fs.stat base = s.fs.stat base → s'.fs.stat base = original ∨
        ∃ t c, s'.calls t = some c ∧ c.result = some (.ok ()) ∧
          c.transfer.Complete sha c.received ∧
          s'.fs.stat base = some ⟨c.received, c.transfer.mode % 0o10000⟩ := by
      intro hsame
      rw [hsame]
      rcases h.destination with hold | ⟨t, c, hc, hr, hrest⟩
      · exact .inl hold
      · exact .inr ⟨t, c, h.keeps_returned hstep hc hr, hr, hrest⟩
    rcases step_cases hstep with ⟨t, x, rfl, _, rfl⟩ | ⟨c, fs', c', hc, hm, rfl⟩
    · exact keep rfl
    · rcases hm.destination (h.calls _ _ hc) with hsame | hlanded
      · exact keep hsame
      · exact .inr ⟨a.call, c', by simp [Copies.set], hlanded⟩

/-- A step that changes the destination is the last one of a call that
succeeds. -/
theorem Copies.Sound.changes {original : Option Inode} (h : Copies.Sound sha base original s)
    (hstep : Copy.step sha base s a = some s') (hne : s'.fs.stat base ≠ s.fs.stat base) :
    ∃ c, s'.calls a.call = some c ∧ c.result = some (.ok ()) := by
  rcases step_cases hstep with ⟨t, x, rfl, _, rfl⟩ | ⟨c, fs', c', hc, hm, rfl⟩
  · exact absurd rfl hne
  · rcases hm.destination (h.calls _ _ hc) with hsame | ⟨hr, _⟩
    · exact absurd hsame hne
    · exact ⟨c', by simp [Copies.set], hr⟩

variable {as : List Action}

theorem Copies.sound_of_steps {fs : Files Str}
    (h : Steps (step sha base) UnlinkWorks (Copies.before fs) as s) :
    Copies.Sound sha base (fs.stat base) s :=
  h.invariant (fun _ _ _ hok hstep hi => hi.step hok hstep) (.before fs)

/-- What a call returned it has returned for good. -/
theorem Copies.Sound.stays_returned {original : Option Inode} {r : Except RecvError Unit}
    (h : Copies.Sound sha base original s) (hc : s.calls t = some c) (hr : c.result = some r)
    (hrun : Steps (Copy.step sha base) UnlinkWorks s as s') : s'.calls t = some c := by
  have keep := hrun.invariant
    (I := fun m => Copies.Sound sha base original m ∧ m.calls t = some c)
    (fun m a m' hok hstep hi => ⟨hi.1.step hok hstep, hi.1.keeps_returned hstep hi.2 hr⟩)
    ⟨h, hc⟩
  exact keep.2

/-- Run theorem: at every moment the destination is as it was or holds the
complete body of one call with that call's mode; no staging file holds more
than was announced for it; and a call that returned an error has no staging
file left and made no step that changed the destination. -/
theorem lands_whole_or_not {fs : Files Str}
    (h : Steps (step sha base) UnlinkWorks (Copies.before fs) as s) :
    (s.fs.stat base = fs.stat base ∨ ∃ t c, s.calls t = some c ∧
      c.transfer.Complete sha c.received ∧
      s.fs.stat base = some ⟨c.received, c.transfer.mode % 0o10000⟩) ∧
    (∀ t c p, s.calls t = some c → c.pc.part = some p →
      (s.fs.inode p.fd).bytes.length ≤ c.transfer.len) ∧
    ∀ t c e, s.calls t = some c → c.result = some (.error e) →
      (∀ p, c.pc.part = some p → ∀ q, s.fs.dir q ≠ some p.fd) ∧
      ∀ as₁ a as₂ m m', as = as₁ ++ a :: as₂ → a.call = t →
        Steps (step sha base) UnlinkWorks (Copies.before fs) as₁ m →
        step sha base m a = some m' → m'.fs.stat base = m.fs.stat base := by
  have hs := Copies.sound_of_steps h
  refine ⟨?_, fun t c p hc hp => ((hs.calls t c hc).inode hp).2, fun t c e hc hr => ⟨?_, ?_⟩⟩
  · rcases hs.destination with hold | ⟨t, c, hc, _, hcomplete, hstat⟩
    · exact .inl hold
    · exact .inr ⟨t, c, hc, hcomplete, hstat⟩
  · intro p hp
    obtain ⟨part, hpc⟩ := pc_of_result hr
    rw [hpc] at hp
    exact (((hs.calls t c hc).returned hpc).2 p hp).2.2 e rfl
  · rintro as₁ a as₂ m m' rfl rfl hm hstep
    obtain ⟨m₁, hm₁, hrest⟩ := Steps.append_iff.mp h
    cases hm₁.det hm
    cases hrest with
    | cons hok hstep' hrest =>
      cases hstep'.symm.trans hstep
      by_contra hne
      obtain ⟨d, hd, hok'⟩ := (Copies.sound_of_steps hm).changes hstep hne
      have hlast := ((Copies.sound_of_steps hm).step hok hstep).stays_returned hd hok' hrest
      cases hlast.symm.trans hc
      cases hok'.symm.trans hr

end

/-- A toy digest, to run the machine with. -/
def byteSum (bs : Bytes) : Digest := .filled 32 (bs.foldl (· + ·) 0)

/-- Two calls with one destination and the same first nonce. Call 0 gets what
was announced, its first write still under way when the second arrives;
call 1 gets a byte too many. -/
def twoCopies : List Action :=
  let nonce : Answer := .nonce [0, 0, 0, 0, 0, 0, 0, 0]
  let figures : Answer := .figures ⟨0, 0, 0⟩
  [.start 0 ⟨3, .filled 32 6, 0o644, 10⟩, .start 1 ⟨2, .filled 32 6, 0o600, 10⟩,
    .step 0 .ok, .step 0 .ok, .step 0 figures, .step 0 nonce,
    .step 1 .ok, .step 1 .ok, .step 1 figures, .step 1 nonce,
    .step 1 (.nonce [0, 0, 0, 0, 0, 0, 0, 1]),
    .step 0 (.data [1, 2]), .step 0 .ok, .land 0 1, .step 0 (.data [3]),
    .step 1 (.data [1, 2, 3]), .land 0 1, .step 0 .ok, .step 1 .ok, .land 0 1,
    .step 0 (.data []), .step 0 .ok, .step 0 .ok, .step 1 .ok, .step 0 .ok, .step 0 .ok,
    .step 1 .ok]

/-- The destination of a run and how its calls 0 and 1 ended. -/
def Copies.probe (s : Copies) : Option Inode × Option Bool × Option Bool :=
  let ended t := ((s.calls t).bind Receive.result).map Except.isOk
  (s.fs.stat "f".toList, ended 0, ended 1)

/-- An action that is no failing system call. -/
def Action.succeeds : Action → Bool
  | .step _ .fail => false
  | _ => true

theorem unlinkWorks_of_succeeds {s : Copies} {a : Action} (h : a.succeeds = true) :
    UnlinkWorks s a := by
  rintro t c p e rfl
  cases h

theorem lands_whole_or_not_twoCopies :
    ∃ s, Steps (step byteSum "f".toList) UnlinkWorks (Copies.before Files.empty) twoCopies s ∧
      s.fs.stat "f".toList = some ⟨[1, 2, 3], 0o644⟩ ∧
      ∃ c, s.calls 1 = some c ∧ (∃ e, c.result = some (.error e)) ∧
        ∀ p, c.pc.part = some p → ∀ q, s.fs.dir q ≠ some p.fd := by
  have hrun : ((run (step byteSum "f".toList) (Copies.before Files.empty) twoCopies).map
      Copies.probe) = some (some ⟨[1, 2, 3], 0o644⟩, some true, some false) := by
    decide +kernel
  have hall : twoCopies.all Action.succeeds = true := by decide
  obtain ⟨s, hs, hprobe⟩ := Option.map_eq_some_iff.mp hrun
  have hsteps : Steps (step byteSum "f".toList) UnlinkWorks _ twoCopies s :=
    Steps.of_run (fun a ha _ => unlinkWorks_of_succeeds (List.all_eq_true.mp hall a ha)) hs
  simp only [Copies.probe, Prod.mk.injEq] at hprobe
  obtain ⟨hstat, _, hended⟩ := hprobe
  obtain ⟨r, hr, herr⟩ := Option.map_eq_some_iff.mp hended
  obtain ⟨c, hc, hresult⟩ := Option.bind_eq_some_iff.mp hr
  cases r with
  | ok => cases herr
  | error e =>
    exact ⟨s, hsteps, hstat, c, hc, ⟨e, hresult⟩,
      ((lands_whole_or_not hsteps).2.2 1 c e hc hresult).1⟩

end Egdod.Copy
