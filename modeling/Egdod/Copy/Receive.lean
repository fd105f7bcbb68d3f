import Egdod.Key
import Egdod.Lib.Files
import Egdod.Lib.Run
import Egdod.Proto
import Mathlib.Algebra.Group.Nat.Defs

/-! `recv_file_body`, any number of calls at once on one destination, taken
one file system call at a time. Writes go through tokio's `File`, which hands
a chunk to a blocking thread and reports the outcome of that write to the
next `write_all` or to `flush`; the thread's progress is therefore a step of
its own. -/
namespace Egdod.Copy

open Text Posix StepSystem

/-- `CHUNK`, the size of the read buffer. -/
def chunk : Nat := 64 * 1024

/-- Past this offset every write fails: `loff_t` is signed. -/
def maxFileSize : Nat := 2 ^ 63 - 1

/-- What the peer announced, and the receiver's ceiling. -/
structure Transfer where
  len : Nat
  sha256 : Digest
  mode : Nat
  max : Nat
  deriving DecidableEq

/-- A body that is all of what was announced, and admissible. -/
def Transfer.Complete (sha : Bytes → Digest) (x : Transfer) (body : Bytes) : Prop :=
  body.length = x.len ∧ sha body = x.sha256 ∧ x.len ≤ x.max

instance (sha : Bytes → Digest) (x : Transfer) (body : Bytes) : Decidable (x.Complete sha body) :=
  inferInstanceAs (Decidable (_ ∧ _ ∧ _))

inductive RecvError where
  | overCeiling (len max : Nat)
  | creatingDir
  | statvfs
  | noSpace (len free : Nat)
  | creatingPart
  | noStagingName
  | readingBody
  | sentMore (len : Nat)
  | writingBody
  | flushing
  | wrongLength (len got : Nat)
  | shaMismatch
  | settingMode
  | renaming
  deriving DecidableEq

/-- The fields of `statvfs` that are looked at. -/
structure Statvfs where
  blocks : Nat
  bfree : Nat
  frsize : Nat

/-- `ensure_free_space`. No blocks at all means no accounting, not full. -/
def ensureFreeSpace (fs : Statvfs) (len : Nat) : Except RecvError Unit :=
  if fs.blocks = 0 then .ok ()
  else
    let free := min (fs.bfree * fs.frsize) (2 ^ 64 - 1)
    if len ≤ free then .ok () else .error (.noSpace len free)

/-- The staging name next to a destination. -/
def partName (base : Str) (nonce : Bytes) : Str := base ++ ".egdod-part.".toList ++ hex nonce

/-- A staging file: its name and the inode behind the descriptor. -/
structure Part where
  tmp : Str
  fd : Nat
  deriving DecidableEq

/-- What the blocking thread of a `File` is doing: nothing, a write of which
`rest` is still to come, or done with an error nobody has seen yet. -/
inductive Inflight where
  | idle
  | busy (rest : Bytes)
  | failed
  deriving DecidableEq

def Inflight.rest : Inflight → Bytes
  | .busy rest => rest
  | _ => []

/-- The thread after `n` more bytes. -/
def Inflight.landed (rest : Bytes) (n : Nat) : Inflight :=
  if n = rest.length then .idle else .busy (rest.drop n)

/-- Where a call stands, each at the call it makes next. -/
inductive Pc where
  | check
  | createDir
  | freeSpace
  | create (tries : Nat)
  | read (p : Part)
  | write (p : Part) (bs : Bytes)
  | flush (p : Part) (outcome : Except RecvError Unit)
  | sync (p : Part) (outcome : Except RecvError Unit)
  | chmod (p : Part)
  | rename (p : Part)
  | remove (p : Part) (error : RecvError)
  | returned (part : Option Part) (result : Except RecvError Unit)

/-- The staging file a call has created, if it got that far. -/
def Pc.part : Pc → Option Part
  | .check | .createDir | .freeSpace | .create _ => none
  | .read p | .write p _ | .flush p _ | .sync p _ | .chmod p | .rename p | .remove p _ => some p
  | .returned part _ => part

/-- A call of `recv_file_body`. `received` is what the hasher has been fed. -/
structure Receive where
  transfer : Transfer
  received : Bytes
  got : Nat
  pos : Nat
  io : Inflight
  pc : Pc

def Receive.start (x : Transfer) : Receive := ⟨x, [], 0, 0, .idle, .check⟩

def Receive.result (c : Receive) : Option (Except RecvError Unit) :=
  match c.pc with
  | .returned _ r => some r
  | _ => none

/-- What a call gets back from the system call it is at: success, failure,
file system figures, a nonce, or bytes of the body (none at its end). -/
inductive Answer where
  | ok
  | fail
  | figures (fs : Statvfs)
  | nonce (bs : Bytes)
  | data (bs : Bytes)

/-- The verdict on what was received, once the staging file is closed. -/
def Receive.verdict (sha : Bytes → Digest) (c : Receive) (outcome flushed : Except RecvError Unit) :
    Except RecvError Unit := do
  outcome
  flushed
  if c.got ≠ c.transfer.len then throw (.wrongLength c.transfer.len c.got)
  if sha c.received ≠ c.transfer.sha256 then throw .shaMismatch

/-- What follows a verdict. -/
def afterVerdict (p : Part) : Except RecvError Unit → Pc
  | .ok _ => .chmod p
  | .error e => .remove p e

/-- The call a `Receive` is at and what follows it in the source. -/
def Receive.next (sha : Bytes → Digest) (base : Str) (fs : Files Str) (c : Receive) (a : Answer) :
    Option (Files Str × Receive) :=
  match c.pc, a with
  | .check, .ok =>
    if c.transfer.len ≤ c.transfer.max then some (fs, { c with pc := .createDir })
    else some (fs, { c with
      pc := .returned none (.error (.overCeiling c.transfer.len c.transfer.max)) })
  | .createDir, .ok => some (fs, { c with pc := .freeSpace })
  | .createDir, .fail => some (fs, { c with pc := .returned none (.error .creatingDir) })
  | .freeSpace, .figures v =>
    match ensureFreeSpace v c.transfer.len with
    | .ok _ => some (fs, { c with pc := .create 8 })
    | .error e => some (fs, { c with pc := .returned none (.error e) })
  | .freeSpace, .fail => some (fs, { c with pc := .returned none (.error .statvfs) })
  | .create 0, .ok => some (fs, { c with pc := .returned none (.error .noStagingName) })
  | .create (_ + 1), .fail => some (fs, { c with pc := .returned none (.error .creatingPart) })
  | .create (tries + 1), .nonce bs =>
    if bs.length = 8 then
      match fs.createNew (partName base bs) 0o600 with
      | none => some (fs, { c with pc := .create tries })
      | some (fs', fd) => some (fs', { c with pc := .read ⟨partName base bs, fd⟩ })
    else none
  | .read p, .fail => some (fs, { c with pc := .flush p (.error .readingBody) })
  | .read p, .data bs =>
    if bs.length ≤ chunk then
      if bs = [] then some (fs, { c with pc := .flush p (.ok ()) })
      else
        let got := (c.got + bs.length) % 2 ^ 64
        if got > c.transfer.len then
          some (fs, { c with
            received := c.received ++ bs
            got := got
            pc := .flush p (.error (.sentMore c.transfer.len)) })
        else some (fs, { c with
          received := c.received ++ bs
          got := got
          pc := .write p bs })
    else none
  -- `write_all` waits for the write before it, whose error it then returns
  | .write p bs, .ok =>
    match c.io with
    | .idle => some (fs, { c with io := .busy bs, pc := .read p })
    | .busy _ => none
    | .failed => some (fs, { c with io := .idle, pc := .flush p (.error .writingBody) })
  | .flush p outcome, .ok =>
    match c.io with
    | .idle => some (fs, { c with pc := .sync p outcome })
    | .busy _ => none
    | .failed => some (fs, { c with
        io := .idle
        pc := afterVerdict p (c.verdict sha outcome (.error .flushing)) })
  | .sync p outcome, .ok =>
    some (fs, { c with pc := afterVerdict p (c.verdict sha outcome (.ok ())) })
  | .sync p outcome, .fail =>
    some (fs, { c with pc := afterVerdict p (c.verdict sha outcome (.error .flushing)) })
  | .chmod p, .fail => some (fs, { c with pc := .remove p .settingMode })
  | .chmod p, .ok =>
    match fs.chmod p.tmp c.transfer.mode with
    | some fs' => some (fs', { c with pc := .rename p })
    | none => some (fs, { c with pc := .remove p .settingMode })
  | .rename p, .fail => some (fs, { c with pc := .remove p .renaming })
  | .rename p, .ok =>
    match fs.rename p.tmp base with
    | some fs' => some (fs', { c with pc := .returned (some p) (.ok ()) })
    | none => some (fs, { c with pc := .remove p .renaming })
  -- whether the removal works is not looked at
  | .remove p e, .ok => some (fs.unlink p.tmp, { c with pc := .returned (some p) (.error e) })
  | .remove p e, .fail => some (fs, { c with pc := .returned (some p) (.error e) })
  | _, _ => none

/-- The blocking thread writes `n` more bytes. -/
def Receive.land (fs : Files Str) (c : Receive) (n : Nat) : Option (Files Str × Receive) :=
  match c.pc.part, c.io with
  | some p, .busy rest =>
    if 0 < n ∧ n ≤ rest.length ∧ c.pos + n ≤ maxFileSize then
      some (fs.pwrite p.fd c.pos (rest.take n),
        { c with pos := c.pos + n, io := .landed rest n })
    else none
  | _, _ => none

/-- The blocking thread gives up. -/
def Receive.landFail (c : Receive) : Option Receive :=
  match c.io with
  | .busy _ => some { c with io := .failed }
  | _ => none

/-- The directory of the destination and the calls on it. -/
structure Copies where
  fs : Files Str
  calls : Nat → Option Receive

inductive Action where
  | start (t : Nat) (x : Transfer)
  | step (t : Nat) (a : Answer)
  | land (t n : Nat)
  | landFail (t : Nat)

/-- The call an action is for. -/
def Action.call : Action → Nat
  | .start t _ => t
  | .step t _ => t
  | .land t _ => t
  | .landFail t => t

def Copies.before (fs : Files Str) : Copies := ⟨fs, fun _ => none⟩

/-- One call after its move. -/
def Copies.set (s : Copies) (t : Nat) (fs : Files Str) (c : Receive) : Copies :=
  ⟨fs, Function.update s.calls t (some c)⟩

def step (sha : Bytes → Digest) (base : Str) (s : Copies) : Action → Option Copies
  | .start t x =>
    match s.calls t with
    | some _ => none
    | none => some (s.set t s.fs (.start x))
  | .step t a =>
    (s.calls t).bind fun c => (c.next sha base s.fs a).map fun (fs, c) => s.set t fs c
  | .land t n =>
    (s.calls t).bind fun c => (c.land s.fs n).map fun (fs, c) => s.set t fs c
  | .landFail t =>
    (s.calls t).bind fun c => c.landFail.map fun c => s.set t s.fs c

/-! ## What one step can do -/

/-- Every way a call moves, with the facts its branch was taken on. -/
inductive Receive.Moves (sha : Bytes → Digest) (base : Str) (fs : Files Str) (c : Receive) :
    Files Str → Receive → Prop
  | fit : c.pc = .check → c.transfer.len ≤ c.transfer.max →
      Moves sha base fs c fs { c with pc := .createDir }
  | onward {pc} : c.pc = .createDir ∧ pc = .freeSpace ∨ c.pc = .freeSpace ∧ pc = .create 8 ∨
        (∃ n, c.pc = .create (n + 1) ∧ pc = .create n) →
      Moves sha base fs c fs { c with pc := pc }
  | refused {e} : c.pc.part = none → c.result = none →
      Moves sha base fs c fs { c with pc := .returned none (.error e) }
  | created {n nonce fs' fd} : c.pc = .create (n + 1) →
      fs.createNew (partName base nonce) 0o600 = some (fs', fd) →
      Moves sha base fs c fs' { c with pc := .read ⟨partName base nonce, fd⟩ }
  | arrived {p bs} : c.pc = .read p → bs.length ≤ chunk →
      (c.got + bs.length) % 2 ^ 64 ≤ c.transfer.len →
      Moves sha base fs c fs { c with
        received := c.received ++ bs
        got := (c.got + bs.length) % 2 ^ 64
        pc := .write p bs }
  | oversent {p bs e} : c.pc = .read p →
      Moves sha base fs c fs { c with
        received := c.received ++ bs
        got := (c.got + bs.length) % 2 ^ 64
        pc := .flush p (.error e) }
  | ended {p} : c.pc = .read p → Moves sha base fs c fs { c with pc := .flush p (.ok ()) }
  | broke {p e} : c.pc = .read p → Moves sha base fs c fs { c with pc := .flush p (.error e) }
  | handed {p bs} : c.pc = .write p bs → c.io = .idle →
      Moves sha base fs c fs { c with io := .busy bs, pc := .read p }
  | writeFailed {p bs e} : c.pc = .write p bs → c.io = .failed →
      Moves sha base fs c fs { c with io := .idle, pc := .flush p (.error e) }
  | flushed {p outcome} : c.pc = .flush p outcome → c.io = .idle →
      Moves sha base fs c fs { c with pc := .sync p outcome }
  | flushFailed {p outcome e} : c.pc = .flush p outcome → c.io = .failed →
      Moves sha base fs c fs { c with io := .idle, pc := .remove p e }
  | verified {p} : c.pc = .sync p (.ok ()) → c.got = c.transfer.len →
      sha c.received = c.transfer.sha256 → Moves sha base fs c fs { c with pc := .chmod p }
  | rejected {p outcome e} : c.pc = .sync p outcome →
      Moves sha base fs c fs { c with pc := .remove p e }
  | moded {p fs'} : c.pc = .chmod p → fs.chmod p.tmp c.transfer.mode = some fs' →
      Moves sha base fs c fs' { c with pc := .rename p }
  | landed {p fs'} : c.pc = .rename p → fs.rename p.tmp base = some fs' →
      Moves sha base fs c fs' { c with pc := .returned (some p) (.ok ()) }
  | gaveUp {p e} : c.pc = .chmod p ∨ c.pc = .rename p →
      Moves sha base fs c fs { c with pc := .remove p e }
  | removed {p e} : c.pc = .remove p e →
      Moves sha base fs c (fs.unlink p.tmp) { c with pc := .returned (some p) (.error e) }
  | left {p e} : c.pc = .remove p e →
      Moves sha base fs c fs { c with pc := .returned (some p) (.error e) }
  | wrote {p rest n} : c.pc.part = some p → c.io = .busy rest → n ≤ rest.length →
      c.pos + n ≤ maxFileSize →
      Moves sha base fs c (fs.pwrite p.fd c.pos (rest.take n))
        { c with pos := c.pos + n, io := .landed rest n }
  | writeLost {rest} : c.io = .busy rest → Moves sha base fs c fs { c with io := .failed }

theorem verdict_cases (sha : Bytes → Digest) (c : Receive)
    (outcome flushed : Except RecvError Unit) :
    (∃ e, c.verdict sha outcome flushed = .error e) ∨
    (c.verdict sha outcome flushed = .ok () ∧ outcome = .ok () ∧ flushed = .ok () ∧
      c.got = c.transfer.len ∧ sha c.received = c.transfer.sha256) := by
  cases outcome with
  | error e => exact .inl ⟨e, rfl⟩
  | ok u =>
    cases flushed with
    | error e => exact .inl ⟨e, rfl⟩
    | ok v =>
      by_cases hgot : c.got = c.transfer.len
      · by_cases hsha : sha c.received = c.transfer.sha256
        · right
          refine ⟨?_, rfl, rfl, hgot, hsha⟩
          simp [Receive.verdict, hgot, hsha, Bind.bind, Except.bind, pure, Except.pure]
        · left
          refine ⟨.shaMismatch, ?_⟩
          simp [Receive.verdict, hgot, hsha, Bind.bind, Except.bind, throw, throwThe,
            MonadExceptOf.throw]
      · left
        refine ⟨.wrongLength c.transfer.len c.got, ?_⟩
        simp [Receive.verdict, hgot, Bind.bind, Except.bind, throw, throwThe,
          MonadExceptOf.throw]

section
variable {sha : Bytes → Digest} {base : Str} {fs fs' : Files Str} {c c' : Receive}

theorem Receive.next_moves {a : Answer} (h : c.next sha base fs a = some (fs', c')) :
    c.Moves sha base fs fs' c' := by
  unfold Receive.next at h
  split at h
  case h_1 hpc =>
    split at h
    · rename_i hle
      cases h
      exact .fit hpc hle
    · cases h
      exact .refused (by simp [hpc, Pc.part]) (by simp [hpc, Receive.result])
  case h_2 hpc => cases h; exact .onward (.inl ⟨hpc, rfl⟩)
  case h_4 hpc =>
    split at h
    · cases h; exact .onward (.inr (.inl ⟨hpc, rfl⟩))
    · cases h; exact .refused (by simp [hpc, Pc.part]) (by simp [hpc, Receive.result])
  case h_3 hpc | h_5 hpc | h_6 hpc | h_7 hpc =>
    cases h
    exact .refused (by simp [hpc, Pc.part]) (by simp [hpc, Receive.result])
  case h_8 n bs hpc =>
    split at h
    · split at h
      · cases h; exact .onward (.inr (.inr ⟨n, hpc, rfl⟩))
      · rename_i hnew
        cases h
        exact .created hpc hnew
    · cases h
  case h_9 p hpc => cases h; exact .broke hpc
  case h_10 p bs hpc =>
    split at h
    · rename_i hlen
      split at h
      · cases h; exact .ended hpc
      · dsimp only at h
        split at h
        · cases h; exact .oversent hpc
        · rename_i hle
          cases h
          exact .arrived hpc hlen (Nat.le_of_not_gt hle)
    · cases h
  case h_11 p bs hpc =>
    split at h
    · rename_i hio
      cases h
      exact .handed hpc hio
    · cases h
    · rename_i hio
      cases h
      exact .writeFailed hpc hio
  case h_12 p outcome hpc =>
    split at h
    · rename_i hio
      cases h
      exact .flushed hpc hio
    · cases h
    · rename_i hio
      rcases verdict_cases sha c outcome (.error .flushing) with ⟨e, he⟩ | ⟨_, _, hf, _⟩
      · rw [he] at h
        cases h
        exact .flushFailed hpc hio
      · cases hf
  case h_13 p outcome hpc =>
    rcases verdict_cases sha c outcome (.ok ()) with ⟨e, he⟩ | ⟨hv, rfl, _, hgot, hsha⟩
    · rw [he] at h
      cases h
      exact .rejected hpc
    · rw [hv] at h
      cases h
      exact .verified hpc hgot hsha
  case h_14 p outcome hpc =>
    rcases verdict_cases sha c outcome (.error .flushing) with ⟨e, he⟩ | ⟨_, _, hf, _⟩
    · rw [he] at h
      cases h
      exact .rejected hpc
    · cases hf
  case h_15 p hpc => cases h; exact .gaveUp (.inl hpc)
  case h_16 p hpc =>
    split at h
    · rename_i hc
      cases h
      exact .moded hpc hc
    · cases h; exact .gaveUp (.inl hpc)
  case h_17 p hpc => cases h; exact .gaveUp (.inr hpc)
  case h_18 p hpc =>
    split at h
    · rename_i hr
      cases h
      exact .landed hpc hr
    · cases h; exact .gaveUp (.inr hpc)
  case h_19 p e hpc => cases h; exact .removed hpc
  case h_20 p e hpc => cases h; exact .left hpc
  case h_21 => cases h

theorem Receive.land_moves {n : Nat} (h : c.land fs n = some (fs', c')) :
    c.Moves sha base fs fs' c' := by
  unfold Receive.land at h
  split at h
  · rename_i p rest hp hio
    split at h
    · rename_i hn
      cases h
      exact .wrote hp hio hn.2.1 hn.2.2
    · cases h
  · cases h

theorem Receive.landFail_moves (h : c.landFail = some c') : c.Moves sha base fs fs c' := by
  unfold Receive.landFail at h
  split at h
  · rename_i rest hio
    cases h
    exact .writeLost hio
  · cases h

/-- A step starts a call or moves one. -/
theorem step_cases {s s' : Copies} {a : Action} (h : step sha base s a = some s') :
    (∃ t x, a = .start t x ∧ s.calls t = none ∧ s' = s.set t s.fs (.start x)) ∨
    (∃ c fs c', s.calls a.call = some c ∧ c.Moves sha base s.fs fs c' ∧
      s' = s.set a.call fs c') := by
  cases a with
  | start t x =>
    left
    simp only [step] at h
    split at h
    · cases h
    · rename_i hnone
      cases h
      exact ⟨t, x, rfl, hnone, rfl⟩
  | step t a =>
    right
    obtain ⟨c, hc, hrest⟩ := Option.bind_eq_some_iff.mp h
    obtain ⟨⟨fs, c'⟩, hnext, rfl⟩ := Option.map_eq_some_iff.mp hrest
    exact ⟨c, fs, c', hc, Receive.next_moves hnext, rfl⟩
  | land t n =>
    right
    obtain ⟨c, hc, hrest⟩ := Option.bind_eq_some_iff.mp h
    obtain ⟨⟨fs, c'⟩, hnext, rfl⟩ := Option.map_eq_some_iff.mp hrest
    exact ⟨c, fs, c', hc, Receive.land_moves hnext, rfl⟩
  | landFail t =>
    right
    obtain ⟨c, hc, hrest⟩ := Option.bind_eq_some_iff.mp h
    obtain ⟨c', hnext, rfl⟩ := Option.map_eq_some_iff.mp hrest
    exact ⟨c, s.fs, c', hc, Receive.landFail_moves hnext, rfl⟩

/-- After a move, a call is the one that moved or one of the others. -/
theorem calls_set {s : Copies} {t u : Nat} {other : Receive}
    (h : (s.set t fs c).calls u = some other) :
    (u = t ∧ c = other) ∨ (u ≠ t ∧ s.calls u = some other) := by
  by_cases hu : u = t
  · exact .inl ⟨hu, by simpa [Copies.set, hu] using h⟩
  · exact .inr ⟨hu, by simpa [Copies.set, hu] using h⟩

end

end Egdod.Copy
