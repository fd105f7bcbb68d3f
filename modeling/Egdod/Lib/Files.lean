import Mathlib.Data.List.Basic
import Mathlib.Logic.Function.Basic

/-! A directory of names over a table of inodes, with the few calls a
program that stages and renames makes. Open descriptors are inode numbers:
a rename moves a name and leaves every descriptor where it was, so a writer
that still holds one keeps writing to the file under its new name. -/
namespace Posix

abbrev Bytes := List UInt8

structure Inode where
  bytes : Bytes
  mode : Nat
  deriving DecidableEq, Repr

/-- Names are hard-linked once and only to allocated inodes. -/
structure Files (P : Type) where
  dir : P → Option Nat
  inode : Nat → Inode
  next : Nat
  bound : ∀ p i, dir p = some i → i < next
  single : ∀ p q i, dir p = some i → dir q = some i → p = q

namespace Files

variable {P : Type}

/-- A directory with no names in it. -/
def empty : Files P where
  dir := fun _ => none
  inode := fun _ => ⟨[], 0⟩
  next := 0
  bound := by simp
  single := by simp

def stat (fs : Files P) (p : P) : Option Inode := (fs.dir p).map fs.inode

def read (fs : Files P) (p : P) : Option Bytes := (fs.stat p).map Inode.bytes

/-- Replaces what one inode holds. -/
def setInode (fs : Files P) (i : Nat) (n : Inode) : Files P :=
  { fs with inode := Function.update fs.inode i n }

/-- Bytes after a write at an offset; a hole reads as zeros. -/
def spliceAt (old : Bytes) (off : Nat) (bs : Bytes) : Bytes :=
  old.take off ++ List.replicate (off - old.length) 0 ++ bs ++ old.drop (off + bs.length)

def pwrite (fs : Files P) (i off : Nat) (bs : Bytes) : Files P :=
  fs.setInode i { fs.inode i with bytes := spliceAt (fs.inode i).bytes off bs }

/-- `chmod(2)` keeps the permission bits only. -/
def chmod (fs : Files P) (p : P) (mode : Nat) : Option (Files P) :=
  (fs.dir p).map fun i => fs.setInode i { fs.inode i with mode := mode % 0o10000 }

/-! ## Frames

`SameAt` is what a call leaves alone: a name, its inode and its bytes. -/

/-- A name has the same inode with the same contents in both. -/
def SameAt (fs fs' : Files P) (p : P) : Prop :=
  fs'.dir p = fs.dir p ∧ ∀ i, fs.dir p = some i → fs'.inode i = fs.inode i

theorem SameAt.refl (fs : Files P) (p : P) : SameAt fs fs p := ⟨rfl, fun _ _ => rfl⟩

theorem SameAt.trans {fs fs' fs'' : Files P} {p : P} (h : SameAt fs fs' p)
    (h' : SameAt fs' fs'' p) : SameAt fs fs'' p :=
  ⟨h'.1.trans h.1, fun i hi => (h'.2 i (h.1.trans hi)).trans (h.2 i hi)⟩

theorem SameAt.stat {fs fs' : Files P} {p : P} (h : SameAt fs fs' p) :
    fs'.stat p = fs.stat p := by
  unfold Files.stat
  rw [h.1]
  cases hp : fs.dir p with
  | none => rfl
  | some i => simp [h.2 i hp]

theorem SameAt.read {fs fs' : Files P} {p : P} (h : SameAt fs fs' p) :
    fs'.read p = fs.read p := by
  unfold Files.read
  rw [h.stat]

theorem read_of_dir {fs : Files P} {p : P} {i : Nat} (h : fs.dir p = some i) :
    fs.read p = some (fs.inode i).bytes := by
  simp [Files.read, Files.stat, h]

theorem stat_of_dir {fs : Files P} {p : P} {i : Nat} (h : fs.dir p = some i) :
    fs.stat p = some (fs.inode i) := by
  simp [Files.stat, h]

theorem sameAt_setInode {fs : Files P} {p : P} {i : Nat} (h : fs.dir p ≠ some i) (n : Inode) :
    SameAt fs (fs.setInode i n) p := by
  refine ⟨rfl, fun j hj => ?_⟩
  have : j ≠ i := fun e => h (e ▸ hj)
  simp [setInode, this]

theorem sameAt_pwrite {fs : Files P} {p : P} {i : Nat} (h : fs.dir p ≠ some i) (off : Nat)
    (bs : Bytes) : SameAt fs (fs.pwrite i off bs) p :=
  sameAt_setInode h _

theorem sameAt_chmod {fs fs' : Files P} {p q : P} {mode : Nat} (h : q ≠ p)
    (hc : fs.chmod p mode = some fs') : SameAt fs fs' q := by
  obtain ⟨i, hi, rfl⟩ := Option.map_eq_some_iff.mp hc
  exact sameAt_setInode (fun hq => h (fs.single q p i hq hi)) _

/-- Writing the next bytes of a body extends what is there of it. -/
theorem spliceAt_take {body : Bytes} {off : Nat} (h : off ≤ body.length) (n : Nat) :
    spliceAt (body.take off) off ((body.drop off).take n) = body.take (off + n) := by
  have hlen : (body.take off).length = off := by simp [h]
  have hdrop : (body.take off).drop (off + ((body.drop off).take n).length) = [] := by
    rw [List.drop_eq_nil_iff]
    omega
  rw [spliceAt, hdrop, hlen, Nat.sub_self, List.replicate_zero, List.append_nil, List.append_nil,
    List.take_take, Nat.min_self, List.take_add]

/-- Writing at the end appends. -/
theorem spliceAt_length (old bs : Bytes) : spliceAt old old.length bs = old ++ bs := by
  simp [spliceAt]

/-! ## Owning an inode

What a call does that keeps to one inode and to the name `dst` it will be
published under: no other inode changes or gains a name, and none but the
one behind `dst` loses its own. -/

structure Touches (fs fs' : Files P) (dst : P) (fd : Nat) : Prop where
  inode : ∀ i, i ≠ fd → i < fs.next → fs'.inode i = fs.inode i
  next : fs.next ≤ fs'.next
  gains : ∀ q i, i ≠ fd → fs'.dir q = some i → fs.dir q = some i
  keeps : ∀ q i, i ≠ fd → q ≠ dst → fs.dir q = some i → fs'.dir q = some i

theorem Touches.refl (fs : Files P) (dst : P) (fd : Nat) : Touches fs fs dst fd :=
  ⟨fun _ _ _ => rfl, Nat.le_refl _, fun _ _ _ h => h, fun _ _ _ _ h => h⟩

theorem touches_setInode (fs : Files P) (dst : P) (i : Nat) (n : Inode) :
    Touches fs (fs.setInode i n) dst i :=
  ⟨fun j hj _ => by simp [setInode, hj], Nat.le_refl _, fun _ _ _ h => h, fun _ _ _ _ h => h⟩

theorem touches_pwrite (fs : Files P) (dst : P) (i off : Nat) (bs : Bytes) :
    Touches fs (fs.pwrite i off bs) dst i :=
  touches_setInode fs dst i _

/-- A mode change, spelled out. -/
theorem chmod_some {fs fs' : Files P} {p : P} {mode : Nat} (h : fs.chmod p mode = some fs') :
    ∃ i, fs.dir p = some i ∧
      fs' = fs.setInode i { fs.inode i with mode := mode % 0o10000 } := by
  obtain ⟨i, hi, rfl⟩ := Option.map_eq_some_iff.mp h
  exact ⟨i, hi, rfl⟩

/-! ## Names -/

variable [DecidableEq P]

/-- Gives a name a new empty inode, whatever the name held before. -/
def create (fs : Files P) (p : P) (mode : Nat) : Files P where
  dir := Function.update fs.dir p (some fs.next)
  inode := Function.update fs.inode fs.next ⟨[], mode⟩
  next := fs.next + 1
  bound := by
    intro q i h
    by_cases hq : q = p
    · subst hq
      simp at h
      omega
    · have := fs.bound q i (by simpa [hq] using h)
      omega
  single := by
    intro q r i hq hr
    by_cases h₁ : q = p <;> by_cases h₂ : r = p
    · rw [h₁, h₂]
    · simp [h₁, h₂] at hq hr
      have := fs.bound r i hr
      omega
    · simp [h₁, h₂] at hq hr
      have := fs.bound q i hq
      omega
    · exact fs.single q r i (by simpa [h₁] using hq) (by simpa [h₂] using hr)

/-- `O_CREAT | O_TRUNC`: an existing file keeps its inode and loses its bytes. -/
def openTrunc (fs : Files P) (p : P) (mode : Nat) : Files P × Nat :=
  match fs.dir p with
  | some i => (fs.setInode i { fs.inode i with bytes := [] }, i)
  | none => (fs.create p mode, fs.next)

/-- `O_CREAT | O_EXCL`: refuses a name that exists. -/
def createNew (fs : Files P) (p : P) (mode : Nat) : Option (Files P × Nat) :=
  match fs.dir p with
  | some _ => none
  | none => some (fs.create p mode, fs.next)

/-- Removes a name; a descriptor on its inode stays good. -/
def unlink (fs : Files P) (p : P) : Files P where
  dir := Function.update fs.dir p none
  inode := fs.inode
  next := fs.next
  bound := by
    intro q i h
    by_cases hq : q = p
    · simp [hq] at h
    · exact fs.bound q i (by simpa [hq] using h)
  single := by
    intro q r i hq hr
    by_cases h₁ : q = p
    · simp [h₁] at hq
    · by_cases h₂ : r = p
      · simp [h₂] at hr
      · exact fs.single q r i (by simpa [h₁] using hq) (by simpa [h₂] using hr)

/-- The name `dst` becomes the inode of `src` in one step. -/
def moved (fs : Files P) (src dst : P) (i : Nat) (h : fs.dir src = some i) : Files P where
  dir := Function.update (Function.update fs.dir src none) dst (some i)
  inode := fs.inode
  next := fs.next
  bound := by
    intro q j hj
    by_cases hq : q = dst
    · have : i = j := by simpa [hq] using hj
      exact this ▸ fs.bound src i h
    · by_cases hs : q = src
      · simp [hs] at hj
        simp [← hs, hq] at hj
      · exact fs.bound q j (by simpa [hq, hs] using hj)
  single := by
    -- a name other than `dst` that still has inode `i` would be `src`
    have only : ∀ q j, q ≠ dst →
        Function.update (Function.update fs.dir src none) dst (some i) q = some j →
        q ≠ src ∧ fs.dir q = some j := by
      intro q j hq hj
      rw [Function.update_of_ne hq] at hj
      by_cases hs : q = src
      · simp [hs] at hj
      · exact ⟨hs, by rwa [Function.update_of_ne hs] at hj⟩
    intro q r j hq hr
    by_cases h₁ : q = dst <;> by_cases h₂ : r = dst
    · rw [h₁, h₂]
    · have hj : i = j := by simpa [h₁] using hq
      obtain ⟨hne, hr'⟩ := only r j h₂ hr
      exact absurd (fs.single r src i (hj ▸ hr') h) hne
    · have hj : i = j := by simpa [h₂] using hr
      obtain ⟨hne, hq'⟩ := only q j h₁ hq
      exact absurd (fs.single q src i (hj ▸ hq') h) hne
    · exact fs.single q r j (only q j h₁ hq).2 (only r j h₂ hr).2

def rename (fs : Files P) (src dst : P) : Option (Files P) :=
  match h : fs.dir src with
  | some i => some (fs.moved src dst i h)
  | none => none

theorem sameAt_create {fs : Files P} {p q : P} (h : q ≠ p) (mode : Nat) :
    SameAt fs (fs.create p mode) q := by
  refine ⟨by simp [create, h], fun i hi => ?_⟩
  have : i ≠ fs.next := Nat.ne_of_lt (fs.bound q i hi)
  simp [create, this]

theorem sameAt_openTrunc {fs : Files P} {p q : P} (h : q ≠ p) (mode : Nat) :
    SameAt fs (fs.openTrunc p mode).1 q := by
  unfold openTrunc
  split
  · rename_i i hi
    exact sameAt_setInode (fun hq => h (fs.single q p i hq hi)) _
  · exact sameAt_create h mode

theorem sameAt_unlink {fs : Files P} {p q : P} (h : q ≠ p) : SameAt fs (fs.unlink p) q :=
  ⟨by simp [unlink, h], fun _ _ => rfl⟩

/-- A successful rename, spelled out. -/
theorem rename_some {fs fs' : Files P} {src dst : P} (h : fs.rename src dst = some fs') :
    ∃ i, fs.dir src = some i ∧ fs'.inode = fs.inode ∧ fs'.next = fs.next ∧
      fs'.dir = Function.update (Function.update fs.dir src none) dst (some i) := by
  unfold rename at h
  split at h
  · rename_i i hi
    cases h
    exact ⟨i, hi, rfl, rfl, rfl⟩
  · cases h

/-- A file that can be read can be renamed. -/
theorem exists_rename {fs : Files P} {src : P} {bs : Bytes} (h : fs.read src = some bs) (dst : P) :
    ∃ fs', fs.rename src dst = some fs' := by
  unfold rename
  split
  · exact ⟨_, rfl⟩
  · rename_i hnone
    simp [Files.read, Files.stat, hnone] at h

theorem sameAt_rename {fs fs' : Files P} {src dst q : P} (h : fs.rename src dst = some fs')
    (hs : q ≠ src) (hd : q ≠ dst) : SameAt fs fs' q := by
  obtain ⟨i, _, hinode, _, hdir⟩ := rename_some h
  exact ⟨by simp [hdir, hs, hd], fun _ _ => by rw [hinode]⟩

theorem stat_rename {fs fs' : Files P} {src dst : P} (h : fs.rename src dst = some fs') :
    fs'.stat dst = fs.stat src := by
  obtain ⟨i, hi, hinode, _, hdir⟩ := rename_some h
  simp [Files.stat, hdir, hi, hinode]

theorem read_rename {fs fs' : Files P} {src dst : P} (h : fs.rename src dst = some fs') :
    fs'.read dst = fs.read src := by
  simp [Files.read, stat_rename h]

theorem createNew_some {fs fs' : Files P} {p : P} {mode fd : Nat}
    (h : fs.createNew p mode = some (fs', fd)) :
    fs.dir p = none ∧ fs' = fs.create p mode ∧ fd = fs.next := by
  unfold createNew at h
  split at h
  · cases h
  · rename_i hnone
    cases h
    exact ⟨hnone, rfl, rfl⟩

theorem touches_create {fs : Files P} {p : P} (h : fs.dir p = none) (dst : P) (mode : Nat) :
    Touches fs (fs.create p mode) dst fs.next := by
  refine ⟨fun i hi _ => by simp [create, hi], Nat.le_succ _, fun q i hi hq => ?_,
    fun q i _ _ hq => ?_⟩
  · by_cases hqp : q = p
    · simp [create, hqp, Ne.symm hi] at hq
    · simpa [create, hqp] using hq
  · have hqp : q ≠ p := fun e => by simp [e, h] at hq
    simpa [create, hqp] using hq

theorem touches_unlink {fs : Files P} {p : P} {fd : Nat} (h : fs.dir p = some fd) (dst : P) :
    Touches fs (fs.unlink p) dst fd := by
  refine ⟨fun _ _ _ => rfl, Nat.le_refl _, fun q i _ hq => ?_, fun q i hi _ hq => ?_⟩
  · by_cases hqp : q = p
    · simp [unlink, hqp] at hq
    · simpa [unlink, hqp] using hq
  · have hqp : q ≠ p := fun e => hi (Option.some.inj ((e ▸ hq).symm.trans h))
    simpa [unlink, hqp] using hq

/-- An unlinked inode has no name left. -/
theorem dir_unlink_ne {fs : Files P} {p : P} {fd : Nat} (h : fs.dir p = some fd) (q : P) :
    (fs.unlink p).dir q ≠ some fd := by
  intro hq
  by_cases hqp : q = p
  · simp [unlink, hqp] at hq
  · exact hqp (fs.single q p fd (by simpa [unlink, hqp] using hq) h)

theorem touches_rename {fs fs' : Files P} {src dst : P} {fd : Nat} (h : fs.dir src = some fd)
    (hr : fs.rename src dst = some fs') : Touches fs fs' dst fd := by
  obtain ⟨i, hi, hinode, hnext, hdir⟩ := rename_some hr
  cases h.symm.trans hi
  refine ⟨fun _ _ _ => by rw [hinode], Nat.le_of_eq hnext.symm, fun q i hi hq => ?_,
    fun q i hi hd hq => ?_⟩
  · rw [hdir] at hq
    by_cases hqd : q = dst
    · simp [hqd, Ne.symm hi] at hq
    · rw [Function.update_of_ne hqd] at hq
      by_cases hqs : q = src
      · simp [hqs] at hq
      · rwa [Function.update_of_ne hqs] at hq
  · have hqs : q ≠ src := fun e => hi (Option.some.inj ((e ▸ hq).symm.trans h))
    simpa [hdir, hd, hqs] using hq

theorem dir_openTrunc (fs : Files P) (p : P) (mode : Nat) :
    (fs.openTrunc p mode).1.dir p = some (fs.openTrunc p mode).2 := by
  unfold openTrunc
  split
  · rename_i i hi
    exact hi
  · simp [create]

theorem bytes_openTrunc (fs : Files P) (p : P) (mode : Nat) :
    ((fs.openTrunc p mode).1.inode (fs.openTrunc p mode).2).bytes = [] := by
  unfold openTrunc
  split
  · simp [setInode]
  · simp [create]

theorem next_le_openTrunc (fs : Files P) (p : P) (mode : Nat) :
    fs.next ≤ (fs.openTrunc p mode).1.next := by
  unfold openTrunc
  split
  · exact Nat.le_refl _
  · exact Nat.le_succ _

/-- A name that had an old inode before an open has it after. -/
theorem dir_openTrunc_old {fs : Files P} {p q : P} {mode i : Nat} (hi : i < fs.next)
    (h : (fs.openTrunc p mode).1.dir q = some i) : fs.dir q = some i := by
  by_cases hq : q = p
  · subst hq
    unfold openTrunc at h
    split at h
    · exact h
    · simp [create] at h
      omega
  · rwa [(sameAt_openTrunc hq mode).1] at h

end Files

end Posix
