import Egdod.State.Calls
import Egdod.State.SerdeJson

/-! What `write_atomic` gives as long as no two calls of one process stage
the same file at a time: a staging file holds a prefix of one body, and a
file in place changes only to a whole body. The staging name is per process,
so tasks of one process can break the condition; then a file ends up with
bytes no call wrote. -/
namespace Egdod.State

open Text Posix StepSystem

variable {K : Type}

/-- The file a task has a staging file open or ready for. -/
def Task.staging (task : Task K) : Option StateFile :=
  match task.pc with
  | .write w _ _ => some w.file
  | .rename w => some w.file
  | _ => none

/-- A staging file of `f` holds what its task has written of its body. -/
def Task.StagedOk (fs : Files Name) (f : StateFile) (task : Task K) : Prop :=
  match task.pc with
  | .write w fd off => w.file = f →
      fs.dir (uniqueTmp f task.pid) = some fd ∧ (fs.inode fd).bytes = w.body.take off ∧
        off ≤ w.body.length
  | .rename w => w.file = f → fs.read (uniqueTmp f task.pid) = some w.body
  | _ => True

/-- Staging of `f` is exclusive: one task a name, each file in order. A
descriptor only ever reaches names of its own file, which is what keeps the
staging of other files from mattering here. -/
structure Exclusive (f : StateFile) (d : Dir K) : Prop where
  owned : ∀ t task w fd off, d.tasks t = some task → task.pc = .write w fd off →
    fd < d.fs.next ∧ ∀ n, d.fs.dir n = some fd → n.of = w.file
  staged : ∀ t task, d.tasks t = some task → task.StagedOk d.fs f
  alone : ∀ t task t' task', d.tasks t = some task → d.tasks t' = some task' →
    task.staging = some f → task'.staging = some f → task.pid = task'.pid → t = t'

/-- A staging file of `f` is opened only while no other call of the process
has one. -/
def CreatesAlone (f : StateFile) (d : Dir K) (a : Action K) : Prop :=
  ∀ t o task w, a = .step t o → d.tasks t = some task → task.pc = .create w → w.file = f →
    ∀ t' task', d.tasks t' = some task' → task'.staging = some f → task'.pid ≠ task.pid

theorem Exclusive.before (f : StateFile) (fs : Files Name) : Exclusive f (Dir.before fs : Dir K) :=
  ⟨by simp [Dir.before], by simp [Dir.before], by simp [Dir.before]⟩

theorem uniqueTmp_ne_file (f g : StateFile) (pid : Nat) : uniqueTmp f pid ≠ .file g := by
  simp [uniqueTmp]

theorem uniqueTmp_inj {f g : StateFile} {pid pid' : Nat} :
    uniqueTmp f pid = uniqueTmp g pid' ↔ f = g ∧ pid = pid' := by
  simp [uniqueTmp]

/-- Frame: what is staged depends on the task's own staging name only. -/
theorem Task.StagedOk.frame {fs fs' : Files Name} {f : StateFile} {task : Task K}
    (h : task.StagedOk fs f) (hsame : Files.SameAt fs fs' (uniqueTmp f task.pid)) :
    task.StagedOk fs' f := by
  unfold Task.StagedOk at h ⊢
  cases hpc : task.pc with
  | write w fd off =>
    simp only [hpc] at h ⊢
    intro hw
    obtain ⟨hdir, hbytes, hoff⟩ := h hw
    exact ⟨hsame.1.trans hdir, by rw [hsame.2 fd hdir]; exact hbytes, hoff⟩
  | rename w =>
    simp only [hpc] at h ⊢
    exact fun hw => hsame.read.trans (h hw)
  | _ => trivial

theorem stagedOk_of_staging_ne {fs : Files Name} {f : StateFile} {task : Task K}
    (h : task.staging ≠ some f) : task.StagedOk fs f := by
  unfold Task.staging at h
  unfold Task.StagedOk
  cases hpc : task.pc with
  | write w fd off => simp only [hpc] at h ⊢; exact fun hw => absurd (by rw [hw]) h
  | rename w => simp only [hpc] at h ⊢; exact fun hw => absurd (by rw [hw]) h
  | _ => trivial

theorem staging_of_write {task : Task K} {w : Write K} {fd off : Nat}
    (h : task.pc = .write w fd off) : task.staging = some w.file := by
  unfold Task.staging
  rw [h]

theorem staging_of_rename {task : Task K} {w : Write K} (h : task.pc = .rename w) :
    task.staging = some w.file := by
  unfold Task.staging
  rw [h]

theorem writing_of_staging {task : Task K} {f : StateFile} (h : task.staging = some f) :
    ∃ w, task.writing = some w ∧ w.file = f := by
  unfold Task.staging at h
  unfold Task.writing
  cases hpc : task.pc with
  | write w fd off | rename w => exact ⟨w, rfl, by simpa [hpc] using h⟩
  | _ => simp [hpc] at h

theorem not_returned_of_writing {task : Task K} {w : Write K} (h : task.writing = some w)
    (r : Option Bool) : task.pc ≠ .returned r := by
  intro hpc
  simp [Task.writing, hpc] at h

theorem staging_staged (task : Task K) (w : Write K) (fd off : Nat) :
    ({ task with pc := staged w fd off } : Task K).staging = some w.file := by
  unfold staged
  split_ifs <;> rfl

theorem staged_write {w w' : Write K} {fd fd' off off' : Nat}
    (h : staged w fd off = .write w' fd' off') : w = w' ∧ fd = fd' ∧ off = off' := by
  unfold staged at h
  split_ifs at h
  simpa using h

/-- Bytes written so far, whether or not they are all of the body. -/
theorem stagedOk_staged {fs : Files Name} {f : StateFile} {task : Task K} {w : Write K}
    {fd off : Nat}
    (h : w.file = f → fs.dir (uniqueTmp f task.pid) = some fd ∧
      (fs.inode fd).bytes = w.body.take off ∧ off ≤ w.body.length) :
    ({ task with pc := staged w fd off } : Task K).StagedOk fs f := by
  unfold staged
  split_ifs with hoff
  · intro hw
    obtain ⟨hdir, hbytes, _⟩ := h hw
    rw [Files.read_of_dir hdir, hbytes, hoff, List.take_length]
  · exact h

/-- A task that is staging `f` is on the descriptor behind its staging name. -/
theorem Exclusive.of_write {f : StateFile} {d : Dir K} {t : Nat} {task : Task K}
    (h : Exclusive f d) (ht : d.tasks t = some task) {w : Write K} {fd off : Nat}
    (hpc : task.pc = .write w fd off) (hw : w.file = f) :
    d.fs.dir (uniqueTmp f task.pid) = some fd ∧ (d.fs.inode fd).bytes = w.body.take off ∧
      off ≤ w.body.length := by
  have hs := h.staged t task ht
  simp only [Task.StagedOk, hpc] at hs
  exact hs hw

/-- Whether an action opens no staging file of `f` that another call of the
process has open, among the first `n` tasks. -/
def Dir.createsAlone (n : Nat) (f : StateFile) (d : Dir K) : Action K → Bool
  | .step t _ =>
    match d.tasks t with
    | some ⟨pid, _, .create w, _⟩ => w.file ≠ f ∨ (List.range n).all fun u =>
        (d.tasks u).all fun other => other.staging ≠ some f ∨ other.pid ≠ pid
    | _ => true
  | _ => true

theorem createsAlone_of_within {n : Nat} {f : StateFile} {d : Dir K} {a : Action K}
    (hd : d.Within n) (h : d.createsAlone n f a = true) : CreatesAlone f d a := by
  rintro t o ⟨pid, call, pc, wrote⟩ w rfl ht rfl hw u other hu hs
  have hall : ((List.range n).all fun u =>
      (d.tasks u).all fun other => other.staging ≠ some f ∨ other.pid ≠ pid) = true := by
    simpa only [Dir.createsAlone, ht, hw, ne_eq, not_true_eq_false, false_or,
      Bool.decide_eq_true] using h
  have hone := List.all_eq_true.mp hall u (List.mem_range.mpr (hd.lt_of_task hu))
  simpa [hu, hs] using hone

section
variable [DecidableEq K] [KeyText K] {codec : PendingCodec} {f : StateFile} {d : Dir K}
  {t : Nat} {task task' : Task K} {fs' : Files Name}

/-- A task that moves keeps its process. -/
theorem Task.Moves.pid (h : task.Moves codec d.fs fs' task') : task'.pid = task.pid := by
  cases h <;> rfl

/-- What a move does to the files. -/
theorem Task.Moves.files (h : task.Moves codec d.fs fs' task') :
    fs' = d.fs ∨
    (∃ w, task.pc = .create w ∧
      fs' = (d.fs.openTrunc (uniqueTmp w.file task.pid) 0o644).1) ∨
    (∃ w fd off n, task.pc = .write w fd off ∧
      fs' = d.fs.pwrite fd off ((w.body.drop off).take n)) ∨
    (∃ w, task.pc = .rename w ∧
      d.fs.rename (uniqueTmp w.file task.pid) (.file w.file) = some fs') := by
  cases h with
  | opened hpc => exact .inr (.inl ⟨_, hpc, rfl⟩)
  | wrote hpc hn => exact .inr (.inr (.inl ⟨_, _, _, _, hpc, rfl⟩))
  | landed hpc hr hf => exact .inr (.inr (.inr ⟨_, hpc, hr⟩))
  | approved hpc hr hf => exact .inr (.inr (.inr ⟨_, hpc, hr⟩))
  | _ => exact .inl rfl

/-- A move that stages has just opened the file or was staging it already. -/
theorem Task.Moves.staging (h : task.Moves codec d.fs fs' task') {g : StateFile}
    (hs : task'.staging = some g) :
    task.staging = some g ∨ ∃ w, task.pc = .create w ∧ w.file = g := by
  cases h with
  | @opened w hpc =>
    rw [staging_staged] at hs
    exact .inr ⟨w, hpc, Option.some.inj hs⟩
  | @wrote w fd off n hpc hn =>
    rw [staging_staged] at hs
    exact .inl (by simpa [Task.staging, hpc] using hs)
  | _ => simp [Task.staging, stagePending] at hs

/-- A move leaves the staging file of any other task alone. -/
theorem Exclusive.frame (h : Exclusive f d) (ht : d.tasks t = some task)
    (hm : task.Moves codec d.fs fs' task')
    (hc : ∀ w, task.pc = .create w → w.file = f →
      ∀ u other, d.tasks u = some other → other.staging = some f → other.pid ≠ task.pid)
    {u : Nat} {other : Task K} (hu : d.tasks u = some other) (hut : u ≠ t)
    (hs : other.staging = some f) : Files.SameAt d.fs fs' (uniqueTmp f other.pid) := by
  rcases hm.files with rfl | ⟨w, hpc, rfl⟩ | ⟨w, fd, off, n, hpc, rfl⟩ | ⟨w, hpc, hr⟩
  · exact .refl _ _
  · refine Files.sameAt_openTrunc (fun e => ?_) _
    obtain ⟨hf, hpid⟩ := uniqueTmp_inj.mp e
    exact hc w hpc hf.symm u other hu hs hpid
  · refine Files.sameAt_pwrite (fun hdir => ?_) _ _
    have hw : w.file = f := ((h.owned t task w fd off ht hpc).2 _ hdir).symm
    have hname := d.fs.single _ _ _ (h.of_write ht hpc hw).1 hdir
    exact hut (h.alone u other t task hu ht hs ((staging_of_write hpc).trans (by rw [hw]))
      (uniqueTmp_inj.mp hname).2.symm)
  · refine Files.sameAt_rename hr (fun e => ?_) (uniqueTmp_ne_file _ _ _)
    obtain ⟨hw, hpid⟩ := uniqueTmp_inj.mp e
    exact hut (h.alone u other t task hu ht hs ((staging_of_rename hpc).trans (by rw [hw])) hpid)

/-- A descriptor held by another task stays with names of its own file. -/
theorem Exclusive.owned_other (h : Exclusive f d) (hm : task.Moves codec d.fs fs' task')
    {u : Nat} {other : Task K} {w : Write K} {fd off : Nat} (hu : d.tasks u = some other)
    (hpc : other.pc = .write w fd off) :
    fd < fs'.next ∧ ∀ n, fs'.dir n = some fd → n.of = w.file := by
  obtain ⟨hlt, hof⟩ := h.owned u other w fd off hu hpc
  rcases hm.files with rfl | ⟨w', _, rfl⟩ | ⟨w', fd', off', n, _, rfl⟩ | ⟨w', _, hr⟩
  · exact ⟨hlt, hof⟩
  · exact ⟨hlt.trans_le (Files.next_le_openTrunc _ _ _),
      fun n hn => hof n (Files.dir_openTrunc_old hlt hn)⟩
  · exact ⟨hlt, hof⟩
  · obtain ⟨i, hi, _, hnext, hdir⟩ := Files.rename_some hr
    refine ⟨hnext ▸ hlt, fun n hn => ?_⟩
    rw [hdir] at hn
    by_cases hd : n = .file w'.file
    · have hid : i = fd := by simpa [hd] using hn
      rw [hd]
      exact hof (uniqueTmp w'.file task.pid) (hid ▸ hi)
    · rw [Function.update_of_ne hd] at hn
      by_cases hsrc : n = uniqueTmp w'.file task.pid
      · simp [hsrc] at hn
      · exact hof n (by rwa [Function.update_of_ne hsrc] at hn)

/-- The descriptor of the task that moves. -/
theorem Exclusive.owned_self (h : Exclusive f d) (ht : d.tasks t = some task)
    (hm : task.Moves codec d.fs fs' task') {w : Write K} {fd off : Nat}
    (hpc : task'.pc = .write w fd off) :
    fd < fs'.next ∧ ∀ n, fs'.dir n = some fd → n.of = w.file := by
  cases hm with
  | @opened w' hc =>
    obtain ⟨rfl, rfl, _⟩ := staged_write hpc
    have hdir := Files.dir_openTrunc d.fs (uniqueTmp w'.file task.pid) 0o644
    exact ⟨Files.bound _ _ _ hdir, fun n hn => by rw [Files.single _ _ _ _ hn hdir]; rfl⟩
  | @wrote w' fd' off' n hw hn =>
    obtain ⟨rfl, rfl, _⟩ := staged_write hpc
    exact h.owned t task w' fd' off' ht hw
  | _ => simp [stagePending] at hpc

/-- The staging file of the task that moves. -/
theorem Exclusive.staged_self (h : Exclusive f d) (ht : d.tasks t = some task)
    (hm : task.Moves codec d.fs fs' task') : task'.StagedOk fs' f := by
  cases hm with
  | @opened w hpc =>
    refine stagedOk_staged (fun hw => ⟨?_, ?_, Nat.zero_le _⟩)
    · rw [← hw]
      exact Files.dir_openTrunc _ _ _
    · rw [Files.bytes_openTrunc]
      rfl
  | @wrote w fd off n hpc hn =>
    refine stagedOk_staged (fun hw => ?_)
    obtain ⟨hdir, hbytes, hoff⟩ := h.of_write ht hpc hw
    refine ⟨hdir, ?_, hn⟩
    simp only [Files.pwrite, Files.setInode, Function.update_self, hbytes]
    exact Files.spliceAt_take hoff n
  | _ => exact stagedOk_of_staging_ne (by simp [Task.staging, stagePending])

/-- Step lemma: a step that opens no staging file twice keeps staging exclusive. -/
theorem Exclusive.step {a : Action K} {d' : Dir K} (hc : CreatesAlone f d a)
    (hstep : step codec d a = some d') (h : Exclusive f d) : Exclusive f d' := by
  rcases step_cases hstep with
    ⟨t, pid, call, rfl, hnone, rfl⟩ | ⟨t, o, task, fs', task', rfl, ht, hm, rfl⟩
  · have entry : ∀ g, ((⟨pid, call, call.entry, []⟩ : Task K).staging) ≠ some g := by
      intro g
      cases call <;> simp [Task.staging, Call.entry]
    refine ⟨fun u other w fd off hu hpc => ?_, fun u other hu => ?_, ?_⟩
    · rcases tasks_update hu with ⟨_, rfl⟩ | ⟨_, hu⟩
      · exact absurd (staging_of_write hpc) (entry w.file)
      · exact h.owned u other w fd off hu hpc
    · rcases tasks_update hu with ⟨_, rfl⟩ | ⟨_, hu⟩
      · exact stagedOk_of_staging_ne (entry f)
      · exact h.staged u other hu
    · intro u other u' other' hu hu' hs hs' hpid
      rcases tasks_update hu with ⟨_, rfl⟩ | ⟨_, hu⟩
      · exact absurd hs (entry f)
      · rcases tasks_update hu' with ⟨_, rfl⟩ | ⟨_, hu'⟩
        · exact absurd hs' (entry f)
        · exact h.alone u other u' other' hu hu' hs hs' hpid
  · have hc' : ∀ w, task.pc = .create w → w.file = f → ∀ u other, d.tasks u = some other →
        other.staging = some f → other.pid ≠ task.pid :=
      fun w hpc hw => hc t o task w rfl ht hpc hw
    -- no other task stages `f` under the moved task's name
    have apart : ∀ u other, d.tasks u = some other → u ≠ t → other.staging = some f →
        task'.staging = some f → other.pid ≠ task'.pid := by
      intro u other hu hut hs hs' hpid
      rw [hm.pid] at hpid
      rcases hm.staging hs' with hold | ⟨w, hpc, hw⟩
      · exact hut (h.alone u other t task hu ht hs hold hpid)
      · exact hc' w hpc hw u other hu hs hpid
    refine ⟨fun u other w fd off hu hpc => ?_, fun u other hu => ?_, ?_⟩
    · rcases tasks_update hu with ⟨_, rfl⟩ | ⟨_, hu⟩
      · exact h.owned_self ht hm hpc
      · exact h.owned_other hm hu hpc
    · rcases tasks_update hu with ⟨_, rfl⟩ | ⟨hut, hu⟩
      · exact h.staged_self ht hm
      · by_cases hs : other.staging = some f
        · exact (h.staged u other hu).frame (h.frame ht hm hc' hu hut hs)
        · exact stagedOk_of_staging_ne hs
    · intro u other u' other' hu hu' hs hs' hpid
      rcases tasks_update hu with ⟨rfl, rfl⟩ | ⟨hut, hold⟩
      · rcases tasks_update hu' with ⟨rfl, rfl⟩ | ⟨hut', hu'⟩
        · rfl
        · exact absurd hpid.symm (apart u' other' hu' hut' hs' hs)
      · rcases tasks_update hu' with ⟨rfl, rfl⟩ | ⟨_, hu'⟩
        · exact absurd hpid (apart u other hold hut hs hs')
        · exact h.alone u other u' other' hold hu' hs hs' hpid

/-- While staging is exclusive a move leaves the file in place as it is, or
renames one whole body over it. -/
theorem Exclusive.read_moves (h : Exclusive f d) (ht : d.tasks t = some task)
    (hm : task.Moves codec d.fs fs' task') :
    fs'.read (.file f) = d.fs.read (.file f) ∨
      ∃ w, task.pc = .rename w ∧ w.file = f ∧ fs'.read (.file f) = some w.body := by
  rcases hm.files with rfl | ⟨w, hpc, rfl⟩ | ⟨w, fd, off, n, hpc, rfl⟩ | ⟨w, hpc, hr⟩
  · exact .inl rfl
  · exact .inl (Files.sameAt_openTrunc (uniqueTmp_ne_file _ _ _).symm _).read
  · refine .inl (Files.sameAt_pwrite (fun hdir => ?_) _ _).read
    have hw : w.file = f := ((h.owned t task w fd off ht hpc).2 _ hdir).symm
    exact uniqueTmp_ne_file _ _ _ (d.fs.single _ _ _ (h.of_write ht hpc hw).1 hdir)
  · by_cases hw : w.file = f
    · have hs := h.staged t task ht
      simp only [Task.StagedOk, hpc] at hs
      refine .inr ⟨w, hpc, hw, ?_⟩
      subst hw
      rw [Files.read_rename hr]
      exact hs rfl
    · refine .inl (Files.sameAt_rename hr (uniqueTmp_ne_file _ _ _).symm ?_).read
      simpa using Ne.symm hw

/-- While staging is exclusive a file in place changes only by a rename that
succeeds, to the whole body of the task that makes it. -/
theorem Exclusive.read_step {a : Action K} {d' : Dir K} (h : Exclusive f d)
    (hstep : State.step codec d a = some d') :
    d'.fs.read (.file f) = d.fs.read (.file f) ∨
      ∃ t n task task' w, a = .step t (.ok n) ∧ d.tasks t = some task ∧
        d'.tasks t = some task' ∧ task.Moves codec d.fs d'.fs task' ∧ task.pc = .rename w ∧
        w.file = f ∧ d'.fs.read (.file f) = some w.body := by
  rcases step_cases hstep with
    ⟨t, pid, call, rfl, hnone, rfl⟩ | ⟨t, o, task, fs', task', rfl, ht, hm, rfl⟩
  · exact .inl rfl
  · rcases h.read_moves ht hm with hsame | ⟨w, hpc, hw, hread⟩
    · exact .inl hsame
    · cases o with
      | fail => exact .inl (by rw [step_fail hstep])
      | ok n => exact .inr ⟨t, n, task, task', w, rfl, ht, by simp, hm, hpc, hw, hread⟩

/-- The write in a task's hands after a move: the one it had, or one made of
what the move read. -/
theorem Task.Moves.writing (h : task.Moves codec d.fs fs' task') {w : Write K}
    (hw : task'.writing = some w) :
    task.writing = some w ∨
    (∃ key body read, task.pc = .rereadApproved key ∧
      (read = none ∧ body = [] ∨ ∃ bytes, d.fs.read (.file .approved) = some bytes ∧
        read = some bytes ∧ decode bytes = some body) ∧
      w = ⟨.approved, encode (appendKey body key), read, some key⟩) ∨
    (∃ op now list, task.pc = .readPending op ∧
      pending codec (ofEntry (d.fs.read (.file .pending))) = .ok list ∧
      op.apply now list ∈ task'.wrote ∧
      w = ⟨.pending, codec.toVecPretty (op.apply now list), d.fs.read (.file .pending),
        none⟩) := by
  cases h with
  | @appended key body read hpc hread =>
    exact .inr (.inl ⟨key, body, read, hpc, hread, (Option.some.inj hw).symm⟩)
  | @noted key now list hpc hl =>
    exact .inr (.inr ⟨.record key, now, list, hpc, hl, List.mem_cons_self,
      (Option.some.inj hw).symm⟩)
  | @dropped key list hpc hl =>
    exact .inr (.inr ⟨.forget key, 0, list, hpc, hl, List.mem_cons_self,
      (Option.some.inj hw).symm⟩)
  | opened hpc | wrote hpc =>
    left
    unfold Task.writing at hw ⊢
    unfold staged at hw
    rw [hpc]
    split_ifs at hw <;> exact hw
  | _ => simp [Task.writing] at hw

/-- What a call handed to `write_pending` stays handed. -/
theorem Task.Moves.wrote_mono (h : task.Moves codec d.fs fs' task') {list : List PendingAgent}
    (hl : list ∈ task.wrote) : list ∈ task'.wrote := by
  cases h with
  | noted | dropped => exact List.mem_cons_of_mem _ hl
  | _ => exact hl

/-- The write in a task's hands after a step: one it had before, or one made of
what the step read. -/
theorem step_writing {a : Action K} {d' : Dir K} (hstep : step codec d a = some d') {u : Nat}
    {task' : Task K} {w : Write K} (hu : d'.tasks u = some task') (hw : task'.writing = some w) :
    ∃ task, d.tasks u = some task ∧ task'.call = task.call ∧ task.wrote ⊆ task'.wrote ∧
      (task.writing = some w ∨
      (∃ key body read, task.pc = .rereadApproved key ∧
        (read = none ∧ body = [] ∨ ∃ bytes, d.fs.read (.file .approved) = some bytes ∧
          read = some bytes ∧ decode bytes = some body) ∧
        w = ⟨.approved, encode (appendKey body key), read, some key⟩) ∨
      (∃ op now list, task.pc = .readPending op ∧
        pending codec (ofEntry (d.fs.read (.file .pending))) = .ok list ∧
        op.apply now list ∈ task'.wrote ∧
        w = ⟨.pending, codec.toVecPretty (op.apply now list), d.fs.read (.file .pending),
          none⟩)) := by
  rcases step_task hstep hu with ⟨_, call, _, rfl⟩ | ⟨task, ht, hm⟩ | hold
  · cases call <;> simp [Task.writing, Call.entry] at hw
  · exact ⟨task, ht, hm.call, fun _ hl => hm.wrote_mono hl, hm.writing hw⟩
  · exact ⟨task', hold, rfl, fun _ hl => hl, .inl hw⟩

/-! ## The pending list -/

/-- `pending.json` is as it was, or one list that one call wrote. -/
structure Whole (codec : PendingCodec) (before : Option Bytes) (d : Dir K) : Prop where
  exclusive : Exclusive .pending d
  writing : ∀ t task w, d.tasks t = some task → task.writing = some w → w.file = .pending →
    ∃ list ∈ task.wrote, w.body = codec.toVecPretty list
  file : ∀ bytes, d.fs.read (.file .pending) = some bytes → before = some bytes ∨
    ∃ t task, d.tasks t = some task ∧ ∃ list ∈ task.wrote, bytes = codec.toVecPretty list

theorem Whole.step {before : Option Bytes} {a : Action K} {d' : Dir K}
    (hc : CreatesAlone .pending d a) (hstep : step codec d a = some d')
    (h : Whole codec before d) : Whole codec before d' := by
  refine ⟨h.exclusive.step hc hstep, ?_, ?_⟩
  · intro u other w hu hw hf
    obtain ⟨task, ht, _, hwrote, hwrite⟩ := step_writing hstep hu hw
    rcases hwrite with hold | ⟨_, _, _, _, _, rfl⟩ | ⟨_, _, _, _, _, hl, rfl⟩
    · obtain ⟨list, hl, hbody⟩ := h.writing u task w ht hold hf
      exact ⟨list, hwrote hl, hbody⟩
    · cases hf
    · exact ⟨_, hl, rfl⟩
  · intro bytes hb
    -- whoever wrote the bytes in place is still there, moved or not
    have keep : ∀ u other, d.tasks u = some other →
        (∃ list ∈ other.wrote, bytes = codec.toVecPretty list) →
        ∃ v x, d'.tasks v = some x ∧ ∃ list ∈ x.wrote, bytes = codec.toVecPretty list := by
      rintro u other hu ⟨list, hl, hbytes⟩
      obtain ⟨x, hx, hm | rfl⟩ := step_keeps hstep hu
      · exact ⟨u, x, hx, list, hm.wrote_mono hl, hbytes⟩
      · exact ⟨u, x, hx, list, hl, hbytes⟩
    rcases h.exclusive.read_step hstep with
      hsame | ⟨t, n, task, task', w, _, ht, _, _, hpc, hw, hread⟩
    · rcases h.file bytes (hsame ▸ hb) with hold | ⟨u, other, hu, hl⟩
      · exact .inl hold
      · exact .inr (keep u other hu hl)
    · have hbody : w.body = bytes := Option.some.inj (hread.symm.trans hb)
      obtain ⟨list, hl, hlist⟩ := h.writing t task w ht (by simp [Task.writing, hpc]) hw
      exact .inr (keep t task ht ⟨list, hl, hbody ▸ hlist⟩)

/-- Run theorem: in every run that opens the staging file of `pending.json`
only while no other call of the process is between opening and renaming it,
`pending.json` holds one list that one call wrote, and reads back. -/
theorem pending_whole {fs : Files Name} {as : List (Action K)}
    (before : ∀ bytes, fs.read (.file .pending) = some bytes →
      ∃ list, bytes = codec.toVecPretty list)
    (h : Steps (State.step codec) (CreatesAlone .pending) (Dir.before fs) as d) :
    (∀ bytes, d.fs.read (.file .pending) = some bytes → fs.read (.file .pending) = some bytes ∨
      ∃ t task, d.tasks t = some task ∧ ∃ list ∈ task.wrote, bytes = codec.toVecPretty list) ∧
    ∃ list, d.pendingNow codec = .ok list := by
  have hw : Whole codec (fs.read (.file .pending)) d :=
    h.invariant (fun _ _ _ hok hstep hi => hi.step hok hstep)
      ⟨.before _ _, by simp [Dir.before], fun bytes hb => .inl hb⟩
  refine ⟨hw.file, ?_⟩
  cases hread : d.fs.read (.file .pending) with
  | none => exact ⟨[], by simp [Dir.pendingNow, Dir.entry, ofEntry, pending, hread]⟩
  | some bytes =>
    obtain ⟨list, rfl⟩ : ∃ list, bytes = codec.toVecPretty list := by
      rcases hw.file bytes hread with hold | ⟨_, _, _, list, _, hl⟩
      · exact before bytes hold
      · exact ⟨list, hl⟩
    exact ⟨list, by simp [Dir.pendingNow, Dir.entry, ofEntry, pending, hread, codec.roundTrip]⟩

/-- A run checked over its first `n` tasks meets the condition. -/
theorem steps_createsAlone {n : Nat} {fs : Files Name} {as : List (Action K)}
    (h : run (fun d a => if a.task < n && d.createsAlone n f a then State.step codec d a else none)
      (Dir.before fs) as = some d) :
    Steps (State.step codec) (CreatesAlone f) (Dir.before fs) as d := by
  refine Steps.of_checked (I := Dir.Within n) (fun d a d' hc hstep hi => ?_) (fun d a hc hi => ?_)
    (fun _ _ => rfl) h
  · simp only [Bool.and_eq_true, decide_eq_true_eq] at hc
    exact hi.step hc.1 hstep
  · simp only [Bool.and_eq_true, decide_eq_true_eq] at hc
    exact createsAlone_of_within hi hc.2

end

/-- A handler of process `pid` that finds `key` unapproved, at second 7 and
with one write, up to its rename. -/
def knock (t pid : Nat) (key : NodeId) : List (Action NodeId) :=
  [.start t pid (.accept key), .step t (.ok 0), .step t (.ok 0), .step t (.ok 7), .step t (.ok 0),
    .step t (.ok 162)]

/-- A key that knocked at second 5 is listed. -/
def listedOne : Files Name :=
  (Files.empty.create (.file .pending) 0o644).pwrite 0 0
    (serdeJson.toVecPretty [⟨text (NodeId.filled 1), 5, 5, 1⟩])

/-- Two handlers of process 1 have both read the list before either stages its
own; the second opens the staging file once the first has renamed it. Process 2
forgets the listed key meanwhile: it has its own staging file open while the
first handler writes, and renames it while the second has one open. -/
def handlersAndForget : List (Action NodeId) :=
  [.start 0 1 (.recordPending (.filled 3)), .start 1 2 (.forgetPending (.filled 1)),
    .start 2 1 (.recordPending (.filled 6)),
    .step 0 (.ok 0), .step 0 (.ok 7), .step 2 (.ok 0), .step 2 (.ok 8), .step 1 (.ok 0),
    .step 0 (.ok 0), .step 1 (.ok 0), .step 0 (.ok 100), .step 1 (.ok 2), .step 0 (.ok 222),
    .step 0 (.ok 0), .step 2 (.ok 0), .step 1 (.ok 0), .step 2 (.ok 322), .step 2 (.ok 0)]

theorem pending_whole_handlersAndForget :
    ∃ d, Steps (step serdeJson) (CreatesAlone .pending) (Dir.before listedOne)
        handlersAndForget d ∧
      d.fs.read (.file .pending) = some (serdeJson.toVecPretty
        [⟨text (NodeId.filled 1), 5, 5, 1⟩, ⟨text (NodeId.filled 6), 8, 8, 1⟩]) ∧
      (∀ bytes, d.fs.read (.file .pending) = some bytes →
        listedOne.read (.file .pending) = some bytes ∨ ∃ t task, d.tasks t = some task ∧
          ∃ list ∈ task.wrote, bytes = serdeJson.toVecPretty list) ∧
      ∃ list, d.pendingNow serdeJson = .ok list := by
  have hrun : (run (fun d a => if a.task < 3 && d.createsAlone 3 .pending a then
      step serdeJson d a else none) (Dir.before listedOne) handlersAndForget).map
        (·.fs.read (.file .pending)) = some (some (serdeJson.toVecPretty
        [⟨text (NodeId.filled 1), 5, 5, 1⟩, ⟨text (NodeId.filled 6), 8, 8, 1⟩])) := by
    decide +kernel
  obtain ⟨d, hd, hread⟩ := Option.map_eq_some_iff.mp hrun
  have hsteps := steps_createsAlone hd
  have hbefore : listedOne.read (.file .pending) =
      some (serdeJson.toVecPretty [⟨text (NodeId.filled 1), 5, 5, 1⟩]) := by
    decide +kernel
  have hlisted : ∀ bytes, listedOne.read (.file .pending) = some bytes →
      ∃ list, bytes = serdeJson.toVecPretty list := by
    intro bytes hbytes
    exact ⟨_, Option.some.inj (hbytes.symm.trans hbefore)⟩
  exact ⟨d, hsteps, hread, pending_whole hlisted hsteps⟩

/-- Two handlers of one process: the second opens the staging file the first
has filled, and the first renames it in place empty. -/
theorem pending_spliced :
    ((run (step serdeJson) (Dir.before Files.empty)
      (knock 0 1 (.filled 1) ++ (knock 1 1 (.filled 3)).take 5 ++ [.step 0 (.ok 0)])).map
        fun d => (d.fs.read (.file .pending), d.pendingNow serdeJson)) =
      some (some [], .error .other) := by
  decide +kernel

end Egdod.State
