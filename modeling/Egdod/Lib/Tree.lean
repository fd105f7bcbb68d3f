import Egdod.Lib.Text

/-! Directories, as far as making them goes. The file system is any type of
states with a `mkdir` and a test for directories that agree with each other;
`createDirAll` is the walk of the standard library over them. -/
namespace Posix

open Text

/-- A path as `std::path` takes it apart. The last component comes first. -/
structure Path where
  absolute : Bool
  parts : List Str
  deriving DecidableEq

namespace Path

def empty : Path := ⟨false, []⟩

/-- The directory a process runs in. -/
def current : Path := ⟨false, [['.']]⟩

/-- `Path::file_name`: the last component, if it names an entry. -/
def fileName (p : Path) : Option Str :=
  match p.parts with
  | [] => none
  | name :: _ => if name = ['.'] ∨ name = ['.', '.'] then none else some name

/-- `Path::parent`. -/
def parent (p : Path) : Option Path :=
  match p.parts with
  | [] => none
  | _ :: up => some ⟨p.absolute, up⟩

end Path

/-- The kinds of error that are told apart. -/
inductive MkdirError where
  | notFound
  | other
  deriving DecidableEq

/-- A file system with directories: `mkdir` makes one where there was none. -/
structure DirOps (σ : Type) where
  mkdir : σ → Path → Except MkdirError σ
  isDir : σ → Path → Bool
  mkdir_new : ∀ {s s' p}, mkdir s p = .ok s' → isDir s p = false ∧ isDir s' p = true
  mkdir_found : ∀ {s p}, isDir s p = true → mkdir s p = .error .other

namespace DirOps

variable {σ : Type} (ops : DirOps σ)

/-- `mkdir` where a directory that is there already will do. -/
def ensure (s : σ) (p : Path) : σ × Bool :=
  match ops.mkdir s p with
  | .ok s' => (s', true)
  | .error _ => (s, ops.isDir s p)

/-- The walk of `create_dir_all`: up while a parent is missing, then down. -/
def createFrom (absolute : Bool) : List Str → σ → σ × Bool
  | [], s =>
    if absolute then
      match ops.mkdir s ⟨absolute, []⟩ with
      | .error .notFound => (s, false)
      | _ => ops.ensure s ⟨absolute, []⟩
    else (s, true)
  | name :: up, s =>
    match ops.mkdir s ⟨absolute, name :: up⟩ with
    | .error .notFound =>
      match createFrom absolute up s with
      | (s', false) => (s', false)
      | (s', true) => ops.ensure s' ⟨absolute, name :: up⟩
    | _ => ops.ensure s ⟨absolute, name :: up⟩

/-- `std::fs::create_dir_all`: the state it leaves and whether it succeeded. -/
def createDirAll (s : σ) (p : Path) : σ × Bool := ops.createFrom p.absolute p.parts s

variable {ops} {s s' : σ} {p : Path}

theorem isDir_of_ensure (h : ops.ensure s p = (s', true)) : ops.isDir s' p = true := by
  unfold ensure at h
  split at h
  · rename_i hmk
    cases h
    exact (ops.mkdir_new hmk).2
  · simp only [Prod.mk.injEq] at h
    exact h.1 ▸ h.2

theorem ensure_of_isDir (h : ops.isDir s p = true) : ops.ensure s p = (s, true) := by
  simp [ensure, ops.mkdir_found h, h]

theorem isDir_of_createDirAll (hne : p ≠ .empty) (h : ops.createDirAll s p = (s', true)) :
    ops.isDir s' p = true := by
  obtain ⟨absolute, parts⟩ := p
  unfold createDirAll at h
  cases parts with
  | nil =>
    have habs : absolute = true := by
      cases absolute with
      | true => rfl
      | false => exact absurd rfl hne
    subst habs
    simp only [createFrom, if_true] at h
    split at h
    · cases h
    · exact isDir_of_ensure h
  | cons name up =>
    simp only [createFrom] at h
    split at h
    · split at h
      · cases h
      · exact isDir_of_ensure h
    · exact isDir_of_ensure h

theorem createDirAll_of_isDir (h : ops.isDir s p = true) : ops.createDirAll s p = (s, true) := by
  obtain ⟨absolute, parts⟩ := p
  have hmk := ops.mkdir_found h
  have hensure := ensure_of_isDir h
  cases parts with
  | nil => cases absolute <;> simp [createDirAll, createFrom, hmk, hensure]
  | cons name up => simp [createDirAll, createFrom, hmk, hensure]

/-- A walk that succeeds has left the file system as it was exactly if the
directory was there. -/
theorem createDirAll_eq_iff (hne : p ≠ .empty) (h : ops.createDirAll s p = (s', true)) :
    s' = s ↔ ops.isDir s p = true := by
  constructor
  · rintro rfl
    exact isDir_of_createDirAll hne h
  · intro hdir
    rw [createDirAll_of_isDir hdir] at h
    exact (congrArg Prod.fst h).symm

end DirOps

end Posix
