import Egdod.Lib.Run
import Egdod.Lib.Files
import Egdod.State.Approved

/-! `load_or_create_key`, one file system call at a time. Any number of calls
run on one key path, each for a process with its own pid, and the environment
may let any call of the operating system fail. -/
namespace Egdod.Identity

open Posix StepSystem Egdod.State

/-- What to do about a key file that exists but cannot be used. -/
inductive OnUnusable
  | replace
  | refuse
  deriving DecidableEq, Repr

/-- The key path and, beside it, what `unique_tmp` names for a process. -/
inductive Name
  | key
  | tmp (pid : Nat)
  deriving DecidableEq, Repr

structure SecretKey where
  bytes : Bytes
  size : bytes.length = 32
  deriving DecidableEq, Repr

/-- The step an error names. -/
inductive Failure
  | notKey
  | reading
  | getrandom
  | creatingParent
  | restricting
  | creating
  | writing
  | flushing
  | renaming
  deriving DecidableEq, Repr

def readKey : Except IoError Bytes → Except Failure (Option SecretKey)
  | .ok bytes => if h : bytes.length = 32 then .ok (some ⟨bytes, h⟩) else .error .notKey
  | .error .notFound => .ok none
  | .error .other => .error .reading

/-- Where a call stands, each at the system call it makes next. -/
inductive Pc
  | read
  | random
  | parentExists (key : SecretKey)
  | mkdir (key : SecretKey)
  | restrict (key : SecretKey)
  | create (key : SecretKey)
  | write (key : SecretKey) (fd off : Nat)
  | sync (key : SecretKey)
  | rename (key : SecretKey)
  | returned (result : Except Failure SecretKey)
  deriving DecidableEq

/-- `before` and `epoch` are bookkeeping: what the path held when the call
read it, and how many renames had landed by then. -/
structure Call where
  pid : Nat
  unusable : OnUnusable
  pc : Pc
  before : Option Bytes
  epoch : Nat
  deriving DecidableEq

structure Disk where
  fs : Files Name
  parent : Bool
  renames : Nat

structure State where
  disk : Disk
  calls : List Call

/-- How a system call ends: `key` is what `getrandom` filled in, `wrote` how
many bytes one `write` took. -/
inductive Answer
  | ok
  | key (k : SecretKey)
  | wrote (n : Nat)
  | fail
  deriving DecidableEq

inductive Action
  | call (pid : Nat) (unusable : OnUnusable)
  | step (i : Nat) (a : Answer)

def Disk.readKey (d : Disk) : Except Failure (Option SecretKey) :=
  Identity.readKey (ofEntry (d.fs.read .key))

/-- The call has read the path. -/
def Call.saw (c : Call) (d : Disk) (pc : Pc) : Call :=
  { c with pc := pc, before := d.fs.read .key, epoch := d.renames }

/-- The match on `read_key`. -/
def Call.onRead (c : Call) : Except Failure (Option SecretKey) → Pc
  | .ok (some k) => .returned (.ok k)
  | .ok none => .random
  | .error e => if c.unusable = .replace then .random else .returned (.error e)

/-- The next system call and what follows it in the source. A failed call
never removes what it staged. -/
def Call.next (d : Disk) (c : Call) (a : Answer) : Option (Disk × Call) :=
  match c.pc, a with
  | .read, .ok => some (d, c.saw d (c.onRead d.readKey))
  | .read, .fail => some (d, c.saw d (c.onRead (.error .reading)))
  | .random, .key k => some (d, { c with pc := .parentExists k })
  | .random, .fail => some (d, { c with pc := .returned (.error .getrandom) })
  | .parentExists k, .ok =>
    some (d, { c with pc := if d.parent then .create k else .mkdir k })
  | .parentExists k, .fail => some (d, { c with pc := .mkdir k })
  | .mkdir k, .ok => some ({ d with parent := true }, { c with pc := .restrict k })
  | .mkdir _, .fail => some (d, { c with pc := .returned (.error .creatingParent) })
  | .restrict k, .ok => some (d, { c with pc := .create k })
  | .restrict _, .fail => some (d, { c with pc := .returned (.error .restricting) })
  | .create k, .ok =>
    match if d.parent then d.fs.createNew (.tmp c.pid) 0o600 else none with
    | some (fs, fd) => some ({ d with fs := fs }, { c with pc := .write k fd 0 })
    | none => some (d, { c with pc := .returned (.error .creating) })
  | .create _, .fail => some (d, { c with pc := .returned (.error .creating) })
  | .write k fd off, .wrote n =>
    if 0 < n ∧ off + n ≤ 32 then
      some ({ d with fs := d.fs.pwrite fd off ((k.bytes.drop off).take n) },
        { c with pc := if off + n = 32 then .sync k else .write k fd (off + n) })
    else none
  | .write _ _ _, .fail => some (d, { c with pc := .returned (.error .writing) })
  | .sync k, .ok => some (d, { c with pc := .rename k })
  | .sync _, .fail => some (d, { c with pc := .returned (.error .flushing) })
  | .rename k, .ok =>
    (d.fs.rename (.tmp c.pid) .key).map fun fs =>
      ({ d with fs := fs, renames := d.renames + 1 }, { c with pc := .returned (.ok k) })
  | .rename _, .fail => some (d, { c with pc := .returned (.error .renaming) })
  | _, _ => none

def State.begin (s : State) (pid : Nat) (unusable : OnUnusable) : State :=
  { s with calls := s.calls ++ [⟨pid, unusable, .read, none, 0⟩] }

def step (s : State) : Action → Option State
  | .call pid unusable => some (s.begin pid unusable)
  | .step i a => do
    let c ← s.calls[i]?
    let (d, c') ← c.next s.disk a
    some ⟨d, s.calls.set i c'⟩

/-! ## What a system call can do -/

/-- The error of a step that the environment lets fail, where failing ends the call. -/
def Pc.failsWith : Pc → Option Failure
  | .random => some .getrandom
  | .mkdir _ => some .creatingParent
  | .restrict _ => some .restricting
  | .create _ => some .creating
  | .write _ _ _ => some .writing
  | .sync _ => some .flushing
  | .rename _ => some .renaming
  | _ => none

inductive Call.Moves (d : Disk) (c : Call) : Answer → Disk → Call → Prop
  | read (r) : c.pc = .read → r = d.readKey → Call.Moves d c .ok d (c.saw d (c.onRead r))
  | readFail : c.pc = .read → Call.Moves d c .fail d (c.saw d (c.onRead (.error .reading)))
  | random (k) : c.pc = .random → Call.Moves d c (.key k) d { c with pc := .parentExists k }
  | parent (k) : c.pc = .parentExists k → d.parent = true →
      Call.Moves d c .ok d { c with pc := .create k }
  | noParent (k) : c.pc = .parentExists k → d.parent = false →
      Call.Moves d c .ok d { c with pc := .mkdir k }
  | parentFail (k) : c.pc = .parentExists k → Call.Moves d c .fail d { c with pc := .mkdir k }
  | mkdir (k) : c.pc = .mkdir k →
      Call.Moves d c .ok { d with parent := true } { c with pc := .restrict k }
  | restrict (k) : c.pc = .restrict k → Call.Moves d c .ok d { c with pc := .create k }
  | create (k) : c.pc = .create k → d.parent = true → d.fs.dir (.tmp c.pid) = none →
      Call.Moves d c .ok { d with fs := d.fs.create (.tmp c.pid) 0o600 }
        { c with pc := .write k d.fs.next 0 }
  | refused (k) : c.pc = .create k → (d.parent = true → d.fs.dir (.tmp c.pid) ≠ none) →
      Call.Moves d c .ok d { c with pc := .returned (.error .creating) }
  | write (k fd off n) : c.pc = .write k fd off → 0 < n → off + n ≤ 32 →
      Call.Moves d c (.wrote n) { d with fs := d.fs.pwrite fd off ((k.bytes.drop off).take n) }
        { c with pc := if off + n = 32 then .sync k else .write k fd (off + n) }
  | sync (k) : c.pc = .sync k → Call.Moves d c .ok d { c with pc := .rename k }
  | rename (k fs) : c.pc = .rename k → d.fs.rename (.tmp c.pid) .key = some fs →
      Call.Moves d c .ok { d with fs := fs, renames := d.renames + 1 }
        { c with pc := .returned (.ok k) }
  | failed (e) : c.pc.failsWith = some e →
      Call.Moves d c .fail d { c with pc := .returned (.error e) }

theorem next_cases {d d' : Disk} {c c' : Call} {a : Answer} (h : c.next d a = some (d', c')) :
    Call.Moves d c a d' c' := by
  have failed : ∀ e, c.pc.failsWith = some e →
      (d, { c with pc := .returned (.error e) }) = (d', c') → Call.Moves d c .fail d' c' := by
    rintro e he ⟨⟩
    exact .failed e he
  unfold Call.next at h
  split at h
  case h_1 hpc => cases h; exact .read _ hpc rfl
  case h_2 hpc => cases h; exact .readFail hpc
  case h_3 k hpc => cases h; exact .random k hpc
  case h_4 hpc => exact failed _ (by rw [hpc]; rfl) (Option.some.inj h)
  case h_5 k hpc =>
    cases h
    cases hparent : d.parent with
    | true => simpa [hparent] using Call.Moves.parent k hpc hparent
    | false => simpa [hparent] using Call.Moves.noParent k hpc hparent
  case h_6 k hpc => cases h; exact .parentFail k hpc
  case h_7 k hpc => cases h; exact .mkdir k hpc
  case h_8 hpc => exact failed _ (by rw [hpc]; rfl) (Option.some.inj h)
  case h_9 k hpc => cases h; exact .restrict k hpc
  case h_10 hpc => exact failed _ (by rw [hpc]; rfl) (Option.some.inj h)
  case h_11 k hpc =>
    split at h
    case h_1 fs fd hcreate =>
      cases h
      split at hcreate
      · rename_i hparent
        obtain ⟨hnone, rfl, rfl⟩ := Files.createNew_some hcreate
        exact .create k hpc hparent hnone
      · cases hcreate
    case h_2 hcreate =>
      cases h
      refine .refused k hpc fun hparent hnone => ?_
      simp [hparent, Files.createNew, hnone] at hcreate
  case h_12 hpc => exact failed _ (by rw [hpc]; rfl) (Option.some.inj h)
  case h_13 k fd off n hpc =>
    split at h
    case isTrue hn => cases h; exact .write k fd off n hpc hn.1 hn.2
    case isFalse => cases h
  case h_14 hpc => exact failed _ (by rw [hpc]; rfl) (Option.some.inj h)
  case h_15 k hpc => cases h; exact .sync k hpc
  case h_16 hpc => exact failed _ (by rw [hpc]; rfl) (Option.some.inj h)
  case h_17 k hpc =>
    obtain ⟨fs, hfs, heq⟩ := Option.map_eq_some_iff.mp h
    cases heq
    exact .rename k fs hpc hfs
  case h_18 hpc => exact failed _ (by rw [hpc]; rfl) (Option.some.inj h)
  case h_19 => cases h

inductive State.Moves (s : State) : Action → State → Prop
  | call (pid u) : State.Moves s (.call pid u) (s.begin pid u)
  | move (i c a d c') : s.calls[i]? = some c → Call.Moves s.disk c a d c' →
      State.Moves s (.step i a) ⟨d, s.calls.set i c'⟩

theorem step_cases {s s' : State} {act : Action} (h : step s act = some s') : s.Moves act s' := by
  cases act with
  | call pid u =>
    cases h
    exact .call pid u
  | step i a =>
    simp only [step, Option.bind_eq_bind, Option.bind_eq_some_iff] at h
    obtain ⟨c, hc, ⟨d, c'⟩, hnext, heq⟩ := h
    cases heq
    exact .move i c a d c' hc (next_cases hnext)

/-! ## Staging files

A call that has created its staging file and not renamed it away, still
running or not, keeps every later call of the same process from creating one. -/

/-- Ended with a staging file left behind. -/
def Pc.leftBehind : Pc → Bool
  | .returned (.error .writing) | .returned (.error .flushing)
  | .returned (.error .renaming) => true
  | _ => false

/-- The staging name is taken by the call. -/
def Pc.blocks : Pc → Bool
  | .write _ _ _ | .sync _ | .rename _ => true
  | .returned (.error .writing) | .returned (.error .flushing)
  | .returned (.error .renaming) => true
  | _ => false

/-- A failing step leaves the staging name as taken as it was. -/
theorem Pc.blocks_returned {pc : Pc} {e : Failure} (h : pc.failsWith = some e) :
    (Pc.returned (.error e)).blocks = pc.blocks := by
  cases pc <;> cases h <;> rfl

/-- What the staging name of a call's process holds for it. -/
def Call.Staged (d : Disk) (c : Call) : Prop :=
  match c.pc with
  | .write k fd off =>
    d.fs.dir (.tmp c.pid) = some fd ∧ (d.fs.inode fd).bytes = k.bytes.take off ∧ off < 32
  | .sync k | .rename k => d.fs.read (.tmp c.pid) = some k.bytes
  | .returned (.error .writing) | .returned (.error .flushing) | .returned (.error .renaming) =>
    d.fs.dir (.tmp c.pid) ≠ none
  | _ => True

theorem Call.Staged.of_not_blocks {d : Disk} {c : Call} (h : c.pc.blocks = false) : c.Staged d := by
  unfold Call.Staged
  split <;> simp_all [Pc.blocks]

theorem Disk.readKey_error (d : Disk) :
    ∀ e, d.readKey = .error e → e = .notKey ∨ e = .reading := by
  intro e he
  unfold Disk.readKey Identity.readKey at he
  split at he
  · split at he <;> simp_all
  · cases he
  · cases he
    exact .inr rfl

/-- A call that ends with its read has staged nothing. -/
theorem Call.onRead_blocks (c : Call) {r : Except Failure (Option SecretKey)}
    (h : ∀ e, r = .error e → e = .notKey ∨ e = .reading) : (c.onRead r).blocks = false := by
  unfold Call.onRead
  split
  · rfl
  · rfl
  · rename_i e
    rcases h e rfl with rfl | rfl <;> split <;> rfl

theorem dir_ne_none_of_read {fs : Files Name} {p : Name} {bytes : Bytes}
    (h : fs.read p = some bytes) : fs.dir p ≠ none := by
  intro hnone
  simp [Files.read, Files.stat, hnone] at h

theorem Call.Staged.dir_ne_none {d : Disk} {c : Call} (h : c.Staged d) (hb : c.pc.blocks = true) :
    d.fs.dir (.tmp c.pid) ≠ none := by
  unfold Call.Staged at h
  split at h
  case h_1 => simp [h.1]
  case h_2 | h_3 => exact dir_ne_none_of_read h
  case h_4 | h_5 | h_6 => exact h
  case h_7 => simp_all [Pc.blocks]

theorem Call.Staged.frame {d d' : Disk} {c : Call} (h : c.Staged d)
    (hsame : Files.SameAt d.fs d'.fs (.tmp c.pid)) : c.Staged d' := by
  unfold Call.Staged at h ⊢
  split
  case h_1 k fd off hpc =>
    simp only [hpc] at h
    exact ⟨hsame.1.trans h.1, by rw [hsame.2 fd h.1]; exact h.2.1, h.2.2⟩
  case h_2 k hpc | h_3 k hpc =>
    simp only [hpc] at h
    exact hsame.read.trans h
  case h_4 hpc | h_5 hpc | h_6 hpc =>
    simp only [hpc] at h
    rwa [hsame.1]
  case h_7 => trivial

/-- Where a system call of one process leaves the staging name of another alone. -/
theorem Call.Moves.sameAt {d d' : Disk} {c c' : Call} {a : Answer} (h : Call.Moves d c a d' c')
    (hc : c.Staged d) {pid : Nat} (hpid : pid ≠ c.pid) :
    Files.SameAt d.fs d'.fs (.tmp pid) := by
  have hname : Name.tmp pid ≠ .tmp c.pid := fun e => hpid (Name.tmp.inj e)
  cases h with
  | create k _ _ _ => exact Files.sameAt_create hname _
  | write k fd off n hpc _ _ =>
    simp only [Call.Staged, hpc] at hc
    exact Files.sameAt_pwrite (fun e => hname (d.fs.single _ _ fd e hc.1)) _ _
  | rename k fs _ hfs => exact Files.sameAt_rename hfs hname (by simp)
  | _ => exact .refl _ _

/-- The call keeps its own staging file as its next step needs it. -/
theorem Call.Moves.staged {d d' : Disk} {c c' : Call} {a : Answer} (h : Call.Moves d c a d' c')
    (hc : c.Staged d) : c'.Staged d' := by
  cases h with
  | create k _ _ _ => simp [Call.Staged, Files.create]
  | write k fd off n hpc hn hle =>
    simp only [Call.Staged, hpc] at hc
    obtain ⟨hdir, hbytes, hoff⟩ := hc
    have hwrite : ((d.fs.pwrite fd off ((k.bytes.drop off).take n)).inode fd).bytes
        = k.bytes.take (off + n) := by
      simp only [Files.pwrite, Files.setInode, Function.update_self, hbytes]
      exact Files.spliceAt_take (by rw [k.size]; omega) n
    by_cases hend : off + n = 32
    · simp only [Call.Staged, hend, if_true]
      have hdir' : (d.fs.pwrite fd off ((k.bytes.drop off).take n)).dir (.tmp c.pid) =
          some fd := hdir
      rw [Files.read_of_dir hdir', hwrite, hend, List.take_of_length_le (Nat.le_of_eq k.size)]
    · simp only [Call.Staged, hend, if_false]
      exact ⟨hdir, hwrite, by omega⟩
  | sync k hpc => simpa [Call.Staged, hpc] using hc
  | failed e he =>
    cases hb : c.pc.blocks with
    | true =>
      have hdir := hc.dir_ne_none hb
      unfold Call.Staged
      split <;> first | exact hdir | trivial
    | false => exact .of_not_blocks ((Pc.blocks_returned he).trans hb)
  | read r _ hr => exact .of_not_blocks (c.onRead_blocks (hr ▸ d.readKey_error))
  | readFail _ =>
    have hread : (c.onRead (.error .reading)).blocks = false :=
      c.onRead_blocks fun e he => .inr (Except.error.inj he).symm
    exact .of_not_blocks hread
  | _ => exact .of_not_blocks rfl

/-- A call that newly takes its staging name found it free. -/
theorem Call.Moves.dir_none {d d' : Disk} {c c' : Call} {a : Answer} (h : Call.Moves d c a d' c')
    (hfree : c.pc.blocks = false) (hb : c'.pc.blocks = true) : d.fs.dir (.tmp c.pid) = none := by
  cases h with
  | create k _ _ hnone => exact hnone
  | write k fd off n hpc _ _ | sync k hpc => simp [hpc, Pc.blocks] at hfree
  | failed e he =>
    have := (Pc.blocks_returned he).symm.trans hb
    simp [hfree] at this
  | read r _ hr =>
    have hread : (c.onRead r).blocks = false := c.onRead_blocks (hr ▸ d.readKey_error)
    cases hread.symm.trans hb
  | readFail _ =>
    have hread : (c.onRead (.error .reading)).blocks = false :=
      c.onRead_blocks fun e he => .inr (Except.error.inj he).symm
    cases hread.symm.trans hb
  | _ => cases hb

theorem Call.Moves.pid {d d' : Disk} {c c' : Call} {a : Answer} (h : Call.Moves d c a d' c') :
    c'.pid = c.pid := by
  cases h <;> rfl

/-- A call that holds no staging file leaves the taken staging names alone. -/
theorem Call.Moves.sameAt_taken {d d' : Disk} {c c' : Call} {a : Answer}
    (h : Call.Moves d c a d' c') (hfree : c.pc.blocks = false)
    (htaken : d.fs.dir (.tmp c.pid) ≠ none) : Files.SameAt d.fs d'.fs (.tmp c.pid) := by
  cases h with
  | create k _ _ hnone => exact absurd hnone htaken
  | write k fd off n hpc _ _ | rename k fs hpc _ => simp [hpc, Pc.blocks] at hfree
  | _ => exact .refl _ _

/-- Every staging file is as its owner left it, and no process has two. -/
structure Sound (s : State) : Prop where
  staged : ∀ c ∈ s.calls, c.Staged s.disk
  single : ∀ (i j : Nat) (c c' : Call), s.calls[i]? = some c → s.calls[j]? = some c' →
    c.pc.blocks → c'.pc.blocks → c.pid = c'.pid → i = j

theorem calls_set {calls : List Call} {i j : Nat} {c c₂ : Call}
    (h : (calls.set i c)[j]? = some c₂) : (j = i ∧ c₂ = c) ∨ (j ≠ i ∧ calls[j]? = some c₂) := by
  rw [List.getElem?_set] at h
  split at h
  case isTrue hij =>
    split at h
    · cases h
      exact .inl ⟨hij.symm, rfl⟩
    · cases h
  case isFalse hij => exact .inr ⟨Ne.symm hij, h⟩

theorem calls_begin {s : State} {pid j : Nat} {u : OnUnusable} {c : Call}
    (h : (s.begin pid u).calls[j]? = some c) :
    s.calls[j]? = some c ∨ (j = s.calls.length ∧ c = ⟨pid, u, .read, none, 0⟩) := by
  simp only [State.begin, List.getElem?_append] at h
  split at h
  · exact .inl h
  · have hj : j - s.calls.length = 0 := by
      have := (List.getElem?_eq_some_iff.mp h).1
      simpa using this
    simp only [hj, List.getElem?_cons_zero, Option.some.injEq] at h
    exact .inr ⟨by omega, h.symm⟩

theorem Sound.begin {s : State} (hs : Sound s) (pid : Nat) (u : OnUnusable) :
    Sound (s.begin pid u) := by
  constructor
  · intro c hc
    rcases List.mem_append.mp hc with hc | hc
    · exact hs.staged c hc
    · rw [List.mem_singleton.mp hc]
      exact .of_not_blocks rfl
  · intro i j c c' hi hj hb hb' hpid
    rcases calls_begin hi with hi | ⟨_, rfl⟩
    · rcases calls_begin hj with hj | ⟨_, rfl⟩
      · exact hs.single i j c c' hi hj hb hb' hpid
      · cases hb'
    · cases hb

theorem Sound.move {s : State} (hs : Sound s) {i : Nat} {c c' : Call} {a : Answer} {d : Disk}
    (hc : s.calls[i]? = some c) (hm : Call.Moves s.disk c a d c') :
    Sound ⟨d, s.calls.set i c'⟩ := by
  have hown : c.Staged s.disk := hs.staged c (List.mem_of_getElem? hc)
  -- a call with the mover's pid and a staging file of its own: the mover has none
  have hrival : ∀ {j : Nat} {c₂ : Call}, j ≠ i → s.calls[j]? = some c₂ → c₂.pc.blocks = true →
      c₂.pid = c.pid → c.pc.blocks = false ∧ s.disk.fs.dir (.tmp c.pid) ≠ none := by
    intro j c₂ hj hc₂ hb hpid
    constructor
    · by_contra hmine
      exact hj (hs.single j i c₂ c hc₂ hc hb (by simpa using hmine) hpid)
    · rw [← hpid]
      exact (hs.staged c₂ (List.mem_of_getElem? hc₂)).dir_ne_none hb
  constructor
  · intro c₂ hmem
    obtain ⟨j, hj⟩ := List.mem_iff_getElem?.mp hmem
    rcases calls_set hj with ⟨_, rfl⟩ | ⟨hne, hj⟩
    · exact hm.staged hown
    · have hc₂ := hs.staged c₂ (List.mem_of_getElem? hj)
      by_cases hpid : c₂.pid = c.pid
      · cases hb : c₂.pc.blocks with
        | false => exact .of_not_blocks hb
        | true =>
          obtain ⟨hfree, htaken⟩ := hrival hne hj hb hpid
          refine hc₂.frame ?_
          rw [hpid]
          exact hm.sameAt_taken hfree htaken
      · exact hc₂.frame (hm.sameAt hown hpid)
  · intro j k c₂ c₃ hj hk hb hb' hpid
    -- nobody newly takes a name that another call of the process has taken
    have hnew : ∀ {j : Nat} {c₂ : Call}, j ≠ i → s.calls[j]? = some c₂ → c₂.pc.blocks = true →
        c'.pc.blocks = true → c₂.pid ≠ c'.pid := by
      intro j c₂ hne hj hb hb' hpid
      obtain ⟨hfree, htaken⟩ := hrival hne hj hb (hpid.trans hm.pid)
      exact htaken (hm.dir_none hfree hb')
    rcases calls_set hj with ⟨rfl, rfl⟩ | ⟨hji, hj'⟩
    · rcases calls_set hk with ⟨rfl, _⟩ | ⟨hki, hk'⟩
      · rfl
      · exact absurd hpid.symm (hnew hki hk' hb' hb)
    · rcases calls_set hk with ⟨rfl, rfl⟩ | ⟨_, hk'⟩
      · exact absurd hpid (hnew hji hj' hb hb')
      · exact hs.single j k c₂ c₃ hj' hk' hb hb' hpid

theorem State.Moves.sound {s s' : State} {a : Action} (h : s.Moves a s') (hs : Sound s) :
    Sound s' := by
  cases h with
  | call pid u => exact hs.begin pid u
  | move i c a d c' hc hm => exact hs.move hc hm

/-! ## The key path -/

/-- Only the rename of a complete key changes what the path holds. -/
theorem Call.Moves.key {d d' : Disk} {c c' : Call} {a : Answer} (h : Call.Moves d c a d' c')
    (hc : c.Staged d) :
    (d'.fs.read .key = d.fs.read .key ∧ d'.renames = d.renames) ∨
      ∃ k, c.pc = .rename k ∧ c'.pc = .returned (.ok k) ∧ d'.fs.read .key = some k.bytes ∧
        d'.renames = d.renames + 1 := by
  cases h with
  | create k _ _ _ => exact .inl ⟨(Files.sameAt_create (by simp) _).read, rfl⟩
  | write k fd off n hpc _ _ =>
    simp only [Call.Staged, hpc] at hc
    refine .inl ⟨(Files.sameAt_pwrite ?_ _ _).read, rfl⟩
    intro hkey
    cases d.fs.single _ _ fd hkey hc.1
  | rename k fs hpc hfs =>
    simp only [Call.Staged, hpc] at hc
    exact .inr ⟨k, hpc, rfl, (Files.read_rename hfs).trans hc, rfl⟩
  | _ => exact .inl ⟨rfl, rfl⟩

/-- The path is absent, as it was, or a complete key. -/
def Whole (before : Option Bytes) (d : Disk) : Prop :=
  d.fs.read .key = before ∨ ∃ k : SecretKey, d.fs.read .key = some k.bytes

theorem Whole.run {ok : State → Action → Prop} {s t : State} {as : List Action}
    (h : Steps step ok s as t) (hs : Sound s) : Whole (s.disk.fs.read .key) t.disk := by
  have hboth : Sound t ∧ Whole (s.disk.fs.read .key) t.disk := by
    refine h.invariant (I := fun u => Sound u ∧ Whole (s.disk.fs.read .key) u.disk) ?_
      ⟨hs, .inl rfl⟩
    rintro u a u' - hstep ⟨hu, hwhole⟩
    have hm := step_cases hstep
    refine ⟨hm.sound hu, ?_⟩
    cases hm with
    | call pid u => exact hwhole
    | move i c a d c' hc hm =>
      rcases hm.key (hu.staged c (List.mem_of_getElem? hc)) with ⟨hkey, _⟩ | ⟨k, _, _, hkey, _⟩
      · unfold Whole
        rwa [hkey]
      · exact .inr ⟨k, hkey⟩
  exact hboth.2

end Egdod.Identity
