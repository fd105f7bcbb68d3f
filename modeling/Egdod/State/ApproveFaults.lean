import Egdod.State.ApproveAlone

/-! What is left of `approve` when something fails. The two files are replaced
one after the other, so a failure between them shows; and a failure of the
second read of `approved` is taken for an empty file. -/
namespace Egdod.State

open Text Posix StepSystem

section
variable {K : Type} [DecidableEq K] [KeyText K] {codec : PendingCodec} {fs₀ fs fs' : Files Name}
  {pid : Nat} {key : K} {faulty : Prop} {w : Write K} {task task' : Task K} {o : Outcome}

/-! ## Failing halfway

`approve` may fail after `approved` is replaced: what remains is the change
to `pending.json`, and nothing takes the new list back. -/

/-- The call has not failed, or neither file tells. -/
def FailedClean (fs₀ : Files Name) (s : Files Name × Task K) : Prop :=
  s.2.pc = .returned none → (approvedIn s.1 : Except IoError (Finset K)) = approvedIn fs₀ ∧
    s.1.read (.file .pending) = fs₀.read (.file .pending)

theorem approvedIn_of_sameAt (h : Files.SameAt fs₀ fs (.file .approved)) :
    (approvedIn fs : Except IoError (Finset K)) = approvedIn fs₀ := by
  unfold approvedIn
  rw [h.read]

theorem keysIn_of_sameAt (h : Files.SameAt fs₀ fs (.file .approved)) :
    (keysIn fs : Finset K) = keysIn fs₀ := by
  unfold keysIn
  rw [h.read]

theorem failedClean_of_sameAt (h : ∀ f, Files.SameAt fs₀ fs (.file f)) (task : Task K) :
    FailedClean fs₀ (fs, task) :=
  fun _ => ⟨approvedIn_of_sameAt (h _), (h _).read⟩

/-- With the key in the list, the files tell. -/
theorem Drafts.not_failedClean (hw : Drafts fs₀ key faulty w)
    (hread : fs.read (.file .approved) = some w.body) (hpc : task.pc = .returned none) :
    ¬ FailedClean fs₀ (fs, task) := by
  intro h
  have hkeys : (keysIn fs : Finset K) = keysIn fs₀ := by
    have happroved := (h hpc).1
    unfold approvedIn at happroved
    simp only [keysIn, approvedSet, happroved]
  apply hw.fresh
  rw [← hkeys, hw.keysIn_of_read hread]
  exact Finset.mem_insert_self _ _

/-- A failure leaves the files as they were unless it is one of the calls
that revise `pending.json`. -/
theorem Approving.failedClean_step (h : Approving codec fs₀ task.pid key faulty fs task.pc)
    (hstep : task.next codec fs o = some (fs', task')) :
    FailedClean fs₀ (fs', task') ↔ pendingWorks codec (fs, task) o = true := by
  generalize hpc : task.pc = pc at h
  cases h with
  | readying | reading | rereading =>
    cases Task.next_files (by simp [Task.writing, hpc]) hstep
    simp [failedClean_of_sameAt fun _ => Files.SameAt.refl _ _, pendingWorks, hpc]
  | appending hw hu =>
    rw [← hpc] at hu
    rw [pendingWorks_of_underway codec o hu]
    simp only [hw.file, reduceCtorEq, false_imp_iff, iff_true]
    rcases hu.step hstep with ⟨_, hfiles, _⟩ | ⟨_, _, hu'⟩ | ⟨_, _, hl⟩
    · exact failedClean_of_sameAt hfiles task'
    · exact fun hr => absurd hr (hu'.not_returned _)
    · intro hr
      cases hr.symm.trans (hl.forgets key hw.forget)
  | forgetting hw hbody hpending hrev =>
    rw [← hpc] at hrev
    obtain ⟨hrev', hfails⟩ := hrev.step hstep
    have hread : fs'.read (.file .approved) = some _ := hrev'.sameAt_approved.read.trans hbody
    rw [← not_iff_not, Bool.not_eq_true, ← hfails]
    constructor
    · intro hunclean
      by_contra hne
      exact hunclean fun hr => absurd hr hne
    · exact hw.not_failedClean hread
  | already | failed => exact absurd hpc (Task.next_moves hstep |>.not_returned _)

/-- A failed `approve` has changed neither what `approved()` gives nor
`pending.json` exactly if it did not fail in `forget_pending`: by then the
new list is in place. -/
theorem failed_approve_iff {os : List Outcome} {s : Files Name × Task K}
    (h : Steps (aloneStep codec) always (fs₀, (Call.approve key).begin pid) os s)
    (herr : s.2.pc = .returned none) :
    ((approvedIn s.1 : Except IoError (Finset K)) = approvedIn fs₀ ∧
      s.1.read (.file .pending) = fs₀.read (.file .pending)) ↔
    Steps (aloneStep codec) (fun s o => pendingWorks codec s o = true)
      (fs₀, (Call.approve key).begin pid) os s := by
  rw [← h.good_iff (ApprovingAt codec fs₀ key True) (FailedClean fs₀)
    (fun s o t hstep hs => hs.step (fun _ => trivial) hstep)
    (fun s o t hstep hs hbad => ?_)
    (fun s o t hstep hs _ => hs.failedClean_step hstep)
    (.begin codec fs₀ pid key True) nofun]
  · simp only [FailedClean, herr, forall_const]
  · refine absurd (fun hr => ?_) hbad
    exact absurd hr (Task.next_moves hstep |>.not_returned _)

/-- Writing the staging file fails. -/
theorem failed_approve_iff_staging :
    ∃ s, Steps (aloneStep serdeJson) always
        (Files.empty, (Call.approve (NodeId.filled 1)).begin 7)
        [.ok 0, .ok 0, .ok 0, .ok 0, .fail] s ∧
      s.2.pc = .returned none ∧
      (approvedIn s.1 : Except IoError (Finset NodeId)) = approvedIn Files.empty ∧
      s.1.read (.file .pending) = (Files.empty : Files Name).read (.file .pending) := by
  have hrun : (run (fun s o => if pendingWorks serdeJson s o
        then aloneStep serdeJson s o else none)
      (Files.empty, (Call.approve (NodeId.filled 1)).begin 7)
      [.ok 0, .ok 0, .ok 0, .ok 0, .fail]).map (·.2.result) = some (some none) := by
    decide +kernel
  obtain ⟨s, hs, hres⟩ := Option.map_eq_some_iff.mp hrun
  have hworks := Steps.of_check hs
  have hsteps := hworks.mono fun _ _ _ => trivial
  exact ⟨s, hsteps, pc_of_result hres, (failed_approve_iff hsteps (pc_of_result hres)).mpr hworks⟩

/-- `pending.json` does not parse: the call fails and the key is approved. -/
theorem failed_approve_approves :
    ((run (aloneStep serdeJson)
      ((Files.empty.create (.file .pending) 0o644).pwrite 0 0 [0x78],
        (Call.approve (NodeId.filled 1)).begin 7)
      [.ok 0, .ok 0, .ok 0, .ok 0, .ok 65, .ok 0, .ok 0]).map
      fun s => (s.2.result, (keysIn s.1 : Finset NodeId))) =
      some (some none, {NodeId.filled 1}) := by
  decide +kernel

/-! ## What a fault can take away -/

/-- A rename over `approved` puts back the keys in force: there are none, or
what was read before is what the file holds. -/
def putsBack (s : Files Name × Task K) (o : Outcome) : Bool :=
  match s.2.pc, o with
  | .rename w, .ok _ => w.file ≠ .approved ∨ w.read = s.1.read (.file .approved) ∨
      (keysIn s.1 : Finset K) = ∅
  | _, _ => true

theorem putsBack_of_ne_rename (s : Files Name × Task K) (o : Outcome)
    (h : ∀ w, s.2.pc = .rename w → w.file = .approved → o = .fail) : putsBack s o = true := by
  unfold putsBack
  split
  · rename_i w n hpc
    by_cases hw : w.file = .approved
    · cases h w hpc hw
    · simp [hw]
  · rfl

theorem putsBack_of_rename {s : Files Name × Task K} {n : UInt64} (hpc : s.2.pc = .rename w)
    (hw : w.file = .approved) : putsBack s (.ok n) = true ↔
      w.read = s.1.read (.file .approved) ∨ (keysIn s.1 : Finset K) = ∅ := by
  simp [putsBack, hpc, hw]

/-- The draft keeps the keys in force exactly if it was drawn up from the
file that holds them. -/
theorem Drafts.subset_iff (hw : Drafts fs₀ key faulty w) :
    (keysIn fs₀ : Finset K) ⊆ insert key (approvedSet (ofEntry w.read)) ↔
      w.read = fs₀.read (.file .approved) ∨ (keysIn fs₀ : Finset K) = ∅ := by
  by_cases hread : w.read = fs₀.read (.file .approved)
  · simp only [hread, true_or, iff_true]
    exact Finset.subset_insert _ _
  · have hnone : w.read = none := (hw.read.resolve_left hread).2
    have hempty : (approvedSet (ofEntry w.read) : Finset K) = ∅ := by
      rw [hnone]
      rfl
    rw [hempty]
    simp only [hread, false_or]
    constructor
    · intro hsub
      refine Finset.eq_empty_of_forall_notMem fun k hk => ?_
      have hk' : k = key := by simpa using hsub hk
      exact hw.fresh (hk' ▸ hk)
    · intro h
      simp [h]

/-- A step keeps the keys in force exactly if it does not rename a draft drawn
up from less. -/
theorem Approving.keys_step (h : Approving codec fs₀ task.pid key faulty fs task.pc)
    (hstep : task.next codec fs o = some (fs', task'))
    (hkept : (keysIn fs₀ : Finset K) ⊆ keysIn fs) :
    (keysIn fs₀ : Finset K) ⊆ keysIn fs' ↔ putsBack (fs, task) o = true := by
  generalize hpc : task.pc = pc at h
  cases h with
  | readying | reading | rereading =>
    rw [Task.next_files (by simp [Task.writing, hpc]) hstep]
    exact iff_of_true hkept (putsBack_of_ne_rename _ _ (by simp [hpc]))
  | appending hw hu =>
    have hsame := hu.sameAt .approved
    rw [← hpc] at hu
    rcases hu.step hstep with ⟨ho, hfiles, _⟩ | ⟨_, hne, hu'⟩ | ⟨ho, hrename, hl⟩
    · rw [keysIn_of_sameAt (hfiles _)]
      exact iff_of_true subset_rfl (putsBack_of_ne_rename _ _ fun _ _ _ => ho)
    · rw [keysIn_of_sameAt (hu'.sameAt _)]
      refine iff_of_true subset_rfl (putsBack_of_ne_rename _ _ fun w' hw' _ => ?_)
      simp only at hw'
      rw [hw'] at hu hne
      exact absurd (congrArg Pc.rename hu.eq_of_rename) hne
    · obtain ⟨n, rfl⟩ : ∃ n, o = .ok n := by
        cases o with
        | fail => exact absurd rfl ho
        | ok n => exact ⟨n, rfl⟩
      have hbody := hl.body
      rw [hw.file] at hbody
      rw [putsBack_of_rename hrename hw.file, hw.keysIn_of_read hbody, hw.subset_iff,
        hsame.read, keysIn_of_sameAt hsame]
  | forgetting hw hbody hpending hrev =>
    have hfs := hrev.sameAt_approved
    rw [← hpc] at hrev
    have hfs' := (hrev.step hstep).1.sameAt_approved
    rw [keysIn_of_sameAt hfs', ← keysIn_of_sameAt hfs]
    refine iff_of_true hkept (putsBack_of_ne_rename _ _ fun w' hw' hfile => ?_)
    simp only at hw'
    rw [hw'] at hrev
    cases hrev.file_of_rename.symm.trans hfile
  | already | failed => exact absurd hpc (Task.next_moves hstep |>.not_returned _)

/-- Keys once lost stay lost: what is left of the call is about the other file. -/
theorem Approving.keys_lost (h : Approving codec fs₀ task.pid key faulty fs task.pc)
    (hstep : task.next codec fs o = some (fs', task'))
    (hlost : ¬ (keysIn fs₀ : Finset K) ⊆ keysIn fs) : ¬ (keysIn fs₀ : Finset K) ⊆ keysIn fs' := by
  generalize hpc : task.pc = pc at h
  cases h with
  | readying | reading | already | rereading => exact absurd subset_rfl hlost
  | appending _ hu => exact absurd (keysIn_of_sameAt (hu.sameAt _)).ge hlost
  | failed _ hfiles => exact absurd (keysIn_of_sameAt (hfiles _)).ge hlost
  | forgetting hw hbody hpending hrev =>
    have hfs := hrev.sameAt_approved
    rw [← hpc] at hrev
    rwa [keysIn_of_sameAt (hrev.step hstep).1.sameAt_approved, ← keysIn_of_sameAt hfs]

/-- At every moment of `approve`, whatever fails, the keys that were in force
are in force exactly if no rename replaced them by a draft made from a second
read that failed. -/
theorem approve_keeps_iff {os : List Outcome} {s : Files Name × Task K}
    (h : Steps (aloneStep codec) always (fs₀, (Call.approve key).begin pid) os s) :
    (keysIn fs₀ : Finset K) ⊆ keysIn s.1 ↔
    Steps (aloneStep codec) (fun s o => putsBack s o = true)
      (fs₀, (Call.approve key).begin pid) os s :=
  h.good_iff (ApprovingAt codec fs₀ key True) (fun s => (keysIn fs₀ : Finset K) ⊆ keysIn s.1)
    (fun _ _ _ hstep hs => hs.step (fun _ => trivial) hstep)
    (fun _ _ _ hstep hs => hs.keys_lost hstep)
    (fun _ _ _ hstep hs => hs.keys_step hstep)
    (.begin codec fs₀ pid key True) subset_rfl

/-- A list of one key. -/
def approvedOne : Files Name :=
  (Files.empty.create (.file .approved) 0o644).pwrite 0 0
    (encode (appendKey [] (NodeId.filled 1)))

/-- Both reads work. -/
theorem approve_keeps_iff_both :
    ∃ s, Steps (aloneStep serdeJson) always
        (approvedOne, (Call.approve (NodeId.filled 3)).begin 7)
        [.ok 0, .ok 0, .ok 0, .ok 0, .ok 130, .ok 0, .fail] s ∧
      s.2.pc = .returned none ∧ (keysIn approvedOne : Finset NodeId) ⊆ keysIn s.1 := by
  have hrun : (run (fun s o => if putsBack s o then aloneStep serdeJson s o else none)
      (approvedOne, (Call.approve (NodeId.filled 3)).begin 7)
      [.ok 0, .ok 0, .ok 0, .ok 0, .ok 130, .ok 0, .fail]).map (·.2.result) = some (some none) := by
    decide +kernel
  obtain ⟨s, hs, hres⟩ := Option.map_eq_some_iff.mp hrun
  have hback := Steps.of_check hs
  have hsteps := hback.mono fun _ _ _ => trivial
  exact ⟨s, hsteps, pc_of_result hres, (approve_keeps_iff hsteps).mpr hback⟩

/-- The second read fails: the call returns `Ok(true)` and the only key that
was approved is gone. -/
theorem approve_drops_keys :
    ((run (aloneStep serdeJson) (approvedOne, (Call.approve (NodeId.filled 3)).begin 7)
      [.ok 0, .ok 0, .fail, .ok 0, .ok 65, .ok 0, .ok 0]).map
      fun s => (s.2.result, (keysIn approvedOne : Finset NodeId), (keysIn s.1 : Finset NodeId))) =
      some (some (some true), {NodeId.filled 1}, {NodeId.filled 3}) := by
  decide +kernel

end

end Egdod.State
