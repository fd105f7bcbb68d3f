import Egdod.Copy.Intake
import Egdod.Lib.Tree

/-! What a declaration costs before a byte of the body is read. The ceiling
comes first; free space can only be asked of a directory that is there, so
`create_dir_all` comes before it. -/
namespace Egdod.Copy

open Text Posix Stream StepSystem

/-- Directories, and the figures `statvfs` gives for one. -/
structure Disk (σ : Type) extends DirOps σ where
  statvfs : σ → Posix.Path → Option Statvfs

/-- The directory of a destination. -/
def destDir (dest : Posix.Path) : Posix.Path :=
  match dest.parent with
  | some p => if p = .empty then .current else p
  | none => .current

inductive AdmitError where
  | notFilePath
  | recv (e : RecvError)
  deriving DecidableEq

/-- `recv_file_body` up to its staging file: the directories it leaves, and
whether it goes on. -/
def checkDeclared {σ : Type} (disk : Disk σ) (tree : σ) (dest : Posix.Path) (x : Transfer) :
    σ × Except AdmitError Unit :=
  if x.len ≤ x.max then
    if dest.fileName.isSome then
      match disk.createDirAll tree (destDir dest) with
      | (tree', false) => (tree', .error (.recv .creatingDir))
      | (tree', true) =>
        match disk.statvfs tree' (destDir dest) with
        | none => (tree', .error (.recv .statvfs))
        | some v => (tree', (ensureFreeSpace v x.len).mapError .recv)
    else (tree, .error .notFilePath)
  else (tree, .error (.recv (.overCeiling x.len x.max)))

/-- An error that is about the declared length alone. -/
def RecvError.isRefusal : RecvError → Bool
  | .overCeiling _ _ | .noSpace _ _ => true
  | _ => false

inductive Phase where
  | admission
  | body
  | refused (e : AdmitError)

/-- One call of `recv_file_body` with all it can touch. -/
structure Delivery (σ : Type) where
  phase : Phase
  tree : σ
  intake : Intake

inductive Delivery.Action where
  | declared
  | body (a : Intake.Action)

section
variable {σ : Type} {sha : Bytes → Digest} {disk : Disk σ} {tree tree' : σ} {dest : Posix.Path}
  {x : Transfer} {files fs fs' : Files Str} {r : Reader UInt8} {base : Str} {c c' : Receive}

def Delivery.start (tree : σ) (files : Files Str) (x : Transfer) (r : Reader UInt8) : Delivery σ :=
  ⟨.admission, tree, .start files x r⟩

def Delivery.step (sha : Bytes → Digest) (disk : Disk σ) (dest : Posix.Path) (s : Delivery σ) :
    Delivery.Action → Option (Delivery σ)
  | .declared =>
    match s.phase with
    | .admission =>
      match checkDeclared disk s.tree dest s.intake.call.transfer with
      | (tree, .ok _) => some ⟨.body, tree,
          { s.intake with call := { s.intake.call with pc := .create 8 } }⟩
      | (tree, .error e) => some ⟨.refused e, tree, s.intake⟩
    | _ => none
  | .body a =>
    match s.phase with
    | .body => (s.intake.step sha (dest.fileName.getD []) a).map fun i => { s with intake := i }
    | _ => none

def Delivery.result (s : Delivery σ) : Option (Except AdmitError Unit) :=
  match s.phase with
  | .admission => none
  | .body => s.intake.call.result.map (·.mapError .recv)
  | .refused e => some (.error e)

/-! ## What admission can come to -/

/-- Every way out of `checkDeclared`, with what was found on the way. -/
inductive Admits (disk : Disk σ) (tree : σ) (dest : Posix.Path) (x : Transfer) :
    σ → Except AdmitError Unit → Prop
  | overCeiling : x.max < x.len →
      Admits disk tree dest x tree (.error (.recv (.overCeiling x.len x.max)))
  | notFilePath : Admits disk tree dest x tree (.error .notFilePath)
  | noDir {after} : disk.createDirAll tree (destDir dest) = (after, false) →
      Admits disk tree dest x after (.error (.recv .creatingDir))
  | noFigures {after} : Admits disk tree dest x after (.error (.recv .statvfs))
  | noSpace {after v e} : x.len ≤ x.max →
      disk.createDirAll tree (destDir dest) = (after, true) → ensureFreeSpace v x.len = .error e →
      Admits disk tree dest x after (.error (.recv e))
  | admitted {after v} : x.len ≤ x.max → ensureFreeSpace v x.len = .ok () →
      Admits disk tree dest x after (.ok ())

theorem admits (disk : Disk σ) (tree : σ) (dest : Posix.Path) (x : Transfer) :
    Admits disk tree dest x (checkDeclared disk tree dest x).1
      (checkDeclared disk tree dest x).2 := by
  unfold checkDeclared
  split_ifs with hle hname
  · split
    · rename_i hdir
      exact .noDir hdir
    · rename_i hdir
      split
      · exact .noFigures
      · rename_i v _
        cases hfree : ensureFreeSpace v x.len with
        | ok u => exact .admitted hle hfree
        | error e => exact .noSpace hle hdir hfree
  · exact .notFilePath
  · exact .overCeiling (by omega)

theorem admits_of_eq {res : Except AdmitError Unit}
    (h : checkDeclared disk tree dest x = (tree', res)) :
    Admits disk tree dest x tree' res := by
  have hall := admits disk tree dest x
  rwa [h] at hall

theorem destDir_ne_empty (dest : Posix.Path) : destDir dest ≠ .empty := by
  unfold destDir
  split
  · split_ifs with hp
    · exact nofun
    · exact hp
  · exact nofun

/-- A call that is turned away for its length has left the directories as
they were exactly if it was turned away by the ceiling or the directory was
there. -/
theorem Admits.tree_eq_iff {e : RecvError} (he : e.isRefusal = true)
    (h : Admits disk tree dest x tree' (.error (.recv e))) :
    tree' = tree ↔ x.max < x.len ∨ disk.isDir tree (destDir dest) = true := by
  cases h with
  | overCeiling hlt => simp [hlt]
  | noDir | noFigures => cases he
  | noSpace hle hdir _ =>
    rw [DirOps.createDirAll_eq_iff (destDir_ne_empty dest) hdir]
    simp [Nat.not_lt.mpr hle]

/-! ## The same call in one directory -/

/-- A call that is admitted is at its staging file, as in the model that looks
at one directory only. -/
theorem steps_of_admitted (h : checkDeclared disk tree dest x = (tree', .ok ())) :
    ∃ v, Steps (Intake.step sha base) always (.start files x r)
      [.step .ok, .step .ok, .step (.figures v)]
      ⟨files, { Receive.start x with pc := .create 8 }, r⟩ := by
  cases admits_of_eq h with
  | @admitted _ v hle hfree =>
    refine ⟨v, .of_run (fun _ _ _ => trivial) ?_⟩
    simp [run, Intake.step, Intake.start, Receive.reading, Receive.next, Receive.start, hle, hfree]

/-- A call that is turned away for its length returns, there too. -/
theorem steps_of_refusal {e : RecvError} (he : e.isRefusal = true)
    (h : checkDeclared disk tree dest x = (tree', .error (.recv e))) :
    ∃ as, Steps (Intake.step sha base) always (.start files x r) as
      ⟨files, { Receive.start x with pc := .returned none (.error e) }, r⟩ := by
  cases admits_of_eq h with
  | overCeiling hlt =>
    refine ⟨[.step .ok], .of_run (fun _ _ _ => trivial) ?_⟩
    simp [run, Intake.step, Intake.start, Receive.reading, Receive.next, Receive.start,
      Nat.not_le.mpr hlt]
  | noDir | noFigures => cases he
  | @noSpace _ v _ hle _ hfree =>
    refine ⟨[.step .ok, .step .ok, .step (.figures v)], .of_run (fun _ _ _ => trivial) ?_⟩
    simp [run, Intake.step, Intake.start, Receive.reading, Receive.next, Receive.start, hle, hfree]

/-! ## Past admission -/

def NoRefusal (o : Except RecvError Unit) : Prop := ∀ e, o = .error e → e.isRefusal = false

/-- Past admission, with no refusal on its way out. -/
def Pc.Late : Pc → Prop
  | .check | .createDir | .freeSpace => False
  | .flush _ o | .sync _ o | .returned _ o => NoRefusal o
  | .remove _ e => e.isRefusal = false
  | _ => True

theorem noRefusal_error {e : RecvError} (h : e.isRefusal = false) : NoRefusal (.error e) := by
  rintro _ ⟨⟩
  exact h

theorem noRefusal_ok : NoRefusal (.ok ()) := nofun

theorem late_afterVerdict {p : Part} {outcome flushed : Except RecvError Unit}
    (ho : NoRefusal outcome) (hf : NoRefusal flushed) :
    (afterVerdict p (c.verdict sha outcome flushed)).Late := by
  cases outcome with
  | error e => exact ho e rfl
  | ok u =>
    cases flushed with
    | error e => exact hf e rfl
    | ok v =>
      by_cases hgot : c.got = c.transfer.len <;>
        by_cases hsha : sha c.received = c.transfer.sha256 <;>
        simp [Receive.verdict, hgot, hsha, Bind.bind, Except.bind, throw, throwThe,
          MonadExceptOf.throw, pure, Except.pure, afterVerdict, Pc.Late, RecvError.isRefusal]

theorem Receive.late_next {a : Answer} (h : c.next sha base fs a = some (fs', c'))
    (hl : c.pc.Late) : c'.pc.Late := by
  unfold Receive.next at h
  split at h
  case h_1 hpc | h_2 hpc | h_3 hpc | h_4 hpc | h_5 hpc => simp [Pc.Late, hpc] at hl
  case h_6 | h_7 | h_9 => cases h; exact noRefusal_error rfl
  case h_8 =>
    split at h
    · split at h <;> cases h <;> trivial
    · cases h
  case h_10 =>
    split_ifs at h
    · cases h; exact noRefusal_ok
    · dsimp only at h
      split_ifs at h
      · cases h; exact noRefusal_error rfl
      · cases h; trivial
  case h_11 =>
    split at h
    · cases h; trivial
    · cases h
    · cases h; exact noRefusal_error rfl
  case h_12 hpc =>
    rw [hpc] at hl
    split at h
    · cases h; exact hl
    · cases h
    · cases h; exact late_afterVerdict hl (noRefusal_error rfl)
  case h_13 hpc => rw [hpc] at hl; cases h; exact late_afterVerdict hl noRefusal_ok
  case h_14 hpc => rw [hpc] at hl; cases h; exact late_afterVerdict hl (noRefusal_error rfl)
  case h_15 | h_17 => cases h; rfl
  case h_16 => split at h <;> cases h <;> trivial
  case h_18 => split at h <;> cases h <;> first | rfl | exact noRefusal_ok
  case h_19 hpc | h_20 hpc => rw [hpc] at hl; cases h; exact noRefusal_error hl
  case h_21 => cases h

theorem Intake.late_step {s s' : Intake} {a : Intake.Action} (h : s.step sha base a = some s')
    (hl : s.call.pc.Late) : s'.call.pc.Late := by
  cases a with
  | step a =>
    simp only [Intake.step] at h
    split_ifs at h
    obtain ⟨⟨fs', c'⟩, hnext, rfl⟩ := Option.map_eq_some_iff.mp h
    exact Receive.late_next hnext hl
  | read =>
    simp only [Intake.step] at h
    split_ifs at h
    obtain ⟨⟨fs', c'⟩, hnext, rfl⟩ := Option.map_eq_some_iff.mp h
    exact Receive.late_next hnext hl
  | land n =>
    obtain ⟨⟨fs', c'⟩, hland, rfl⟩ := Option.map_eq_some_iff.mp h
    unfold Receive.land at hland
    split at hland
    · split_ifs at hland
      cases hland
      exact hl
    · cases hland
  | landFail =>
    obtain ⟨c', hland, rfl⟩ := Option.map_eq_some_iff.mp h
    unfold Receive.landFail at hland
    split at hland
    · cases hland
      exact hl
    · cases hland

/-! ## What a refusal costs -/

/-- Where a call stands: not begun, turned away, or past admission. -/
def Delivery.Sound (disk : Disk σ) (tree : σ) (dest : Posix.Path) (files : Files Str) (x : Transfer)
    (r : Reader UInt8) (s : Delivery σ) : Prop :=
  match s.phase with
  | .admission => s.tree = tree ∧ s.intake = .start files x r
  | .refused e => Admits disk tree dest x s.tree (.error e) ∧ s.intake = .start files x r
  | .body => s.intake.call.pc.Late

theorem Delivery.Sound.step {s s' : Delivery σ} {a : Delivery.Action}
    (hstep : s.step sha disk dest a = some s') (h : s.Sound disk tree dest files x r) :
    s'.Sound disk tree dest files x r := by
  obtain ⟨phase, tree₁, intake⟩ := s
  cases a with
  | declared =>
    cases phase with
    | body | refused => cases hstep
    | admission =>
      obtain ⟨rfl, rfl⟩ := h
      simp only [Delivery.step] at hstep
      split at hstep
      · cases hstep
        exact trivial
      · rename_i hcheck
        cases hstep
        exact ⟨admits_of_eq hcheck, rfl⟩
  | body a =>
    cases phase with
    | admission | refused => cases hstep
    | body =>
      obtain ⟨intake', hint, rfl⟩ := Option.map_eq_some_iff.mp hstep
      exact Intake.late_step hint h

/-- A call that is turned away for its declared length has touched no file and
not the stream. It has left the directories as they were exactly if it was
turned away by the ceiling or the destination's directory was there. -/
theorem refusal_costs_iff {as : List Delivery.Action} {s : Delivery σ} {e : RecvError}
    (h : Steps (Delivery.step sha disk dest) always (.start tree files x r) as s)
    (hres : s.result = some (.error (.recv e))) (he : e.isRefusal = true) :
    s.intake.fs = files ∧ s.intake.reader = r ∧
      (s.tree = tree ↔ x.max < x.len ∨ disk.isDir tree (destDir dest) = true) := by
  have hs : s.Sound disk tree dest files x r :=
    h.invariant (fun _ _ _ _ hstep => Delivery.Sound.step hstep) ⟨rfl, rfl⟩
  obtain ⟨phase, tree₁, intake⟩ := s
  cases phase with
  | admission => cases hres
  | refused e' =>
    cases hres
    obtain ⟨hadmits, rfl⟩ := hs
    exact ⟨rfl, rfl, hadmits.tree_eq_iff he⟩
  | body =>
    -- past admission no error is a refusal
    simp only [Delivery.result, Option.map_eq_some_iff] at hres
    obtain ⟨res, hret, hmap⟩ := hres
    obtain ⟨part, hpc⟩ := pc_of_result hret
    simp only [Delivery.Sound, hpc] at hs
    cases res with
    | ok u => cases hmap
    | error e' =>
      have hee : e' = e := by simpa [Except.mapError] using hmap
      subst hee
      cases he.symm.trans (hs e' rfl)

end

/-- A file system that is its list of directories, with 4096 bytes free. -/
def smallDisk : Disk (List Posix.Path) where
  mkdir s p :=
    if s.contains p then .error .other
    else match p.parent with
      | some q => if s.contains q then .ok (p :: s) else .error .notFound
      | none => .error .notFound
  isDir s p := s.contains p
  mkdir_new := by
    intro s s' p h
    split_ifs at h with hp
    split at h
    · split_ifs at h
      cases h
      exact ⟨by simpa using hp, by simp⟩
    · cases h
  mkdir_found h := if_pos h
  statvfs _ _ := some ⟨1, 1, 4096⟩

/-- `/new` and, in it, a destination. -/
def newDir : Posix.Path := ⟨true, [['n', 'e', 'w']]⟩

def newDest : Posix.Path := ⟨true, ['x'] :: newDir.parts⟩

def tooLong : Transfer := ⟨5000, .filled 32 0, 0o644, 10000⟩

theorem refusal_costs_iff_found :
    ∃ s : Delivery (List Posix.Path), Steps (Delivery.step byteSum smallDisk newDest) always
        (.start [newDir, ⟨true, []⟩] Files.empty tooLong ⟨[[1, 2]], false⟩) [.declared] s ∧
      s.result = some (.error (.recv (.noSpace 5000 4096))) ∧
      s.intake.fs = Files.empty ∧ s.intake.reader = ⟨[[1, 2]], false⟩ ∧
      s.tree = [newDir, ⟨true, []⟩] := by
  have hrun : (run (Delivery.step byteSum smallDisk newDest)
      (.start [newDir, ⟨true, []⟩] Files.empty tooLong ⟨[[1, 2]], false⟩) [.declared]).map
      Delivery.result = some (some (.error (.recv (.noSpace 5000 4096)))) := by
    decide +kernel
  obtain ⟨s, hs, hres⟩ := Option.map_eq_some_iff.mp hrun
  have hsteps := Steps.of_run (fun _ _ _ => trivial) hs
  obtain ⟨hfiles, hreader, htree⟩ := refusal_costs_iff hsteps hres rfl
  exact ⟨s, hsteps, hres, hfiles, hreader, htree.mpr (.inr (by decide +kernel))⟩

/-- The directory is not there: the call is turned away for want of space and
has made the directory. -/
theorem refusal_makes_dir :
    ((run (Delivery.step byteSum smallDisk newDest)
      (.start [⟨true, []⟩] Files.empty tooLong ⟨[[1, 2]], false⟩) [.declared]).map
      fun s => (s.result, s.tree)) =
      some (some (.error (.recv (.noSpace 5000 4096))), [newDir, ⟨true, []⟩]) := by
  decide +kernel

end Egdod.Copy
