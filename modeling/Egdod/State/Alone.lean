import Egdod.State.Staging

/-! One call with the directory to itself. Where nobody else writes, every
point a call can have reached is described by the files it found and by what
it has staged since, whichever of its own file system calls fail. -/
namespace Egdod.State

open Text Posix StepSystem

/-! ## One call -/

section
variable {K : Type} [DecidableEq K] [KeyText K]

/-- A call about to make its first file system call. -/
def Call.begin (call : Call K) (pid : Nat) : Task K := ⟨pid, call, call.entry, []⟩

omit [DecidableEq K] [KeyText K] in
theorem begin_not_returned (call : Call K) (pid : Nat) (r : Option Bool) :
    (call.begin pid).pc ≠ .returned r := by
  cases call <;> exact nofun

/-- One file system call of the one task there is. -/
def aloneStep (codec : PendingCodec) (s : Files Name × Task K) (o : Outcome) :
    Option (Files Name × Task K) := s.2.next codec s.1 o

/-- No file system call fails. -/
def Works (_ : Files Name × Task K) (o : Outcome) : Prop := o ≠ .fail

/-- A directory in which only `t` runs. -/
def Dir.only (t : Nat) (s : Files Name × Task K) : Dir K :=
  ⟨s.1, Function.update (fun _ => none) t (some s.2)⟩

theorem steps_only {codec : PendingCodec} {s s' : Files Name × Task K} {os : List Outcome}
    (t : Nat) (h : Steps (aloneStep codec) always s os s') :
    Steps (step codec) always (Dir.only t s) (os.map (.step t)) (Dir.only t s') := by
  induction h with
  | nil => exact .nil
  | @cons s o m os s' _ hstep _ ih =>
    refine .cons trivial ?_ ih
    have hnext : s.2.next codec s.1 o = some m := hstep
    simp [State.step, Dir.only, hnext]

/-- A call alone is a run of the whole system in which no other call starts. -/
theorem steps_of_alone {codec : PendingCodec} {fs : Files Name} {call : Call K} {pid : Nat}
    {os : List Outcome} {s : Files Name × Task K} (t : Nat)
    (h : Steps (aloneStep codec) always (fs, call.begin pid) os s) :
    Steps (step codec) always (Dir.before fs) (.start t pid call :: os.map (.step t))
      (Dir.only t s) :=
  .cons trivial rfl (steps_only t h)

end

/-! ## A write under way -/

section
variable {K : Type}

/-- How far a `write_atomic` has got that found the directory as `base`. -/
inductive Underway (base : Files Name) (pid : Nat) (w : Write K) : Files Name → Pc K → Prop
  | create : Underway base pid w base (.create w)
  | write {fs fd off} : (∀ f, Files.SameAt base fs (.file f)) →
      fs.dir (uniqueTmp w.file pid) = some fd → (fs.inode fd).bytes = w.body.take off →
      off < w.body.length → Underway base pid w fs (.write w fd off)
  | rename {fs} : (∀ f, Files.SameAt base fs (.file f)) →
      fs.read (uniqueTmp w.file pid) = some w.body → Underway base pid w fs (.rename w)

/-- A `write_atomic` that is through, with the call on its way. -/
structure Landed (base : Files Name) (w : Write K) (fs : Files Name) (pc : Pc K) : Prop where
  body : fs.read (.file w.file) = some w.body
  others : ∀ f, f ≠ w.file → Files.SameAt base fs (.file f)
  returned : w.forget = none → pc = .returned (some true)
  forgets : ∀ key, w.forget = some key → pc = .readPending (.forget key)

variable {base fs fs' : Files Name} {pid : Nat} {w : Write K} {pc : Pc K}

theorem Underway.sameAt (h : Underway base pid w fs pc) (f : StateFile) :
    Files.SameAt base fs (.file f) := by
  cases h with
  | create => exact .refl _ _
  | write hfiles | rename hfiles => exact hfiles f

theorem Underway.not_returned (h : Underway base pid w fs pc) (r : Option Bool) :
    pc ≠ .returned r := by
  cases h <;> exact nofun

theorem Underway.eq_of_rename {w' : Write K} (h : Underway base pid w fs (.rename w')) :
    w' = w := by
  cases h
  rfl

theorem underway_staged {fd off : Nat} (hfiles : ∀ f, Files.SameAt base fs (.file f))
    (hdir : fs.dir (uniqueTmp w.file pid) = some fd)
    (hbytes : (fs.inode fd).bytes = w.body.take off) (hoff : off ≤ w.body.length) :
    Underway base pid w fs (staged w fd off) := by
  unfold staged
  split_ifs with hend
  · refine .rename hfiles ?_
    rw [Files.read_of_dir hdir, hbytes, hend, List.take_length]
  · exact .write hfiles hdir hbytes (by omega)

theorem underway_opened (w : Write K) (base : Files Name) (pid : Nat) :
    Underway base pid w (base.openTrunc (uniqueTmp w.file pid) 0o644).1
      (staged w (base.openTrunc (uniqueTmp w.file pid) 0o644).2 0) :=
  underway_staged (fun _ => Files.sameAt_openTrunc (uniqueTmp_ne_file _ _ _).symm _)
    (Files.dir_openTrunc _ _ _) (by rw [Files.bytes_openTrunc]; rfl) (Nat.zero_le _)

theorem underway_wrote {fd off n : Nat} (hfiles : ∀ f, Files.SameAt base fs (.file f))
    (hdir : fs.dir (uniqueTmp w.file pid) = some fd)
    (hbytes : (fs.inode fd).bytes = w.body.take off) (hn : off + n ≤ w.body.length) :
    Underway base pid w (fs.pwrite fd off ((w.body.drop off).take n)) (staged w fd (off + n)) := by
  refine underway_staged (fun f => (hfiles f).trans (Files.sameAt_pwrite ?_ _ _)) hdir ?_ hn
  · intro hf
    exact uniqueTmp_ne_file _ _ _ (fs.single _ _ fd hdir hf)
  · simp only [Files.pwrite, Files.setInode, Function.update_self, hbytes]
    exact Files.spliceAt_take (by omega) n

variable [DecidableEq K] [KeyText K] {codec : PendingCodec} {task task' : Task K} {o : Outcome}

/-- One file system call of a write: it fails and the files in place are as
they were, it gets further, or it is the rename that replaces the file. -/
theorem Underway.step (h : Underway base task.pid w fs task.pc)
    (hstep : task.next codec fs o = some (fs', task')) :
    (o = .fail ∧ (∀ f, Files.SameAt base fs' (.file f)) ∧ task'.pc = .returned none) ∨
    (o ≠ .fail ∧ task.pc ≠ .rename w ∧ Underway base task.pid w fs' task'.pc) ∨
    (o ≠ .fail ∧ task.pc = .rename w ∧ Landed base w fs' task'.pc) := by
  have hfiles := h.sameAt
  generalize hpc : task.pc = pc at h
  cases o with
  | fail =>
    left
    cases h <;> simp only [Task.next, hpc, Option.some.injEq, Prod.mk.injEq] at hstep <;>
      obtain ⟨rfl, rfl⟩ := hstep <;> exact ⟨rfl, hfiles, rfl⟩
  | ok n =>
    right
    cases h with
    | create =>
      simp only [Task.next, hpc, Option.some.injEq, Prod.mk.injEq] at hstep
      obtain ⟨rfl, rfl⟩ := hstep
      exact .inl ⟨nofun, nofun, underway_opened w _ task.pid⟩
    | write _ hdir hbytes _ =>
      simp only [Task.next, hpc, Option.ite_none_right_eq_some, Option.some.injEq,
        Prod.mk.injEq] at hstep
      obtain ⟨⟨_, hn⟩, rfl, rfl⟩ := hstep
      exact .inl ⟨nofun, nofun, underway_wrote hfiles hdir hbytes hn⟩
    | rename _ hread =>
      obtain ⟨fs₁, hr⟩ := Files.exists_rename hread (.file w.file)
      refine .inr ⟨nofun, rfl, ?_⟩
      have hbody := (Files.read_rename hr).trans hread
      have hothers : ∀ f, f ≠ w.file → Files.SameAt base fs₁ (.file f) := fun f hf =>
        (hfiles f).trans (Files.sameAt_rename hr (uniqueTmp_ne_file _ _ _).symm (by simpa using hf))
      simp only [Task.next, hpc, hr] at hstep
      split at hstep
      · rename_i hforget
        cases hstep
        exact ⟨hbody, hothers, fun _ => rfl, by simp [hforget]⟩
      · rename_i key hforget
        cases hstep
        exact ⟨hbody, hothers, by simp [hforget], by simp [hforget]⟩

/-- A write can always go on without failing. -/
theorem Underway.enabled (h : Underway base task.pid w fs task.pc) :
    (task.next codec fs (.ok 1)).isSome := by
  generalize hpc : task.pc = pc at h
  cases h with
  | create => simp [Task.next, hpc]
  | write _ _ _ hoff =>
    simp only [Task.next, hpc]
    rw [if_pos ⟨by decide, hoff⟩]
    rfl
  | rename _ hread =>
    obtain ⟨fs₁, hr⟩ := Files.exists_rename hread (.file w.file)
    simp only [Task.next, hpc, hr]
    split <;> rfl

end

/-! ## The pending list -/

section
variable {K : Type} [DecidableEq K] [KeyText K]

/-- How far `record_pending` or `forget_pending` has got that found the
directory as `base`. -/
inductive Revising (codec : PendingCodec) (base : Files Name) (pid : Nat) (op : PendingOp K) :
    Files Name → Pc K → Prop
  | readying {key} : op = .record key → Revising codec base pid op base (.ensureRecord key)
  | reading : Revising codec base pid op base (.readPending op)
  | writing (now : UInt64) {list read fs pc} :
      pending codec (ofEntry (base.read (.file .pending))) = .ok list →
      Underway base pid ⟨.pending, codec.toVecPretty (op.apply now list), read, none⟩ fs pc →
      Revising codec base pid op fs pc
  | done (now : UInt64) {list fs} :
      pending codec (ofEntry (base.read (.file .pending))) = .ok list →
      pending codec (ofEntry (fs.read (.file .pending))) = .ok (op.apply now list) →
      Files.SameAt base fs (.file .approved) → Revising codec base pid op fs (.returned (some true))
  | failed {fs} : (∀ f, Files.SameAt base fs (.file f)) →
      Revising codec base pid op fs (.returned none)

/-- No file system call of `record_pending` or `forget_pending` fails, and
`pending.json` is absent or parses. -/
def pendingWorks (codec : PendingCodec) (s : Files Name × Task K) (o : Outcome) : Bool :=
  match s.2.pc with
  | .ensureRecord _ => o ≠ .fail
  | .readPending _ => o ≠ .fail ∧ (pending codec (ofEntry (s.1.read (.file .pending)))).isOk
  | .create w | .write w _ _ | .rename w => w.file ≠ .pending ∨ o ≠ .fail
  | _ => true

variable {codec : PendingCodec} {base fs fs' : Files Name} {pid : Nat} {op : PendingOp K}
  {w : Write K} {pc : Pc K} {task task' : Task K} {o : Outcome}

theorem pending_toVecPretty (codec : PendingCodec) (list : List PendingAgent) :
    pending codec (.ok (codec.toVecPretty list)) = .ok list := by
  simp [pending, codec.roundTrip]

omit [DecidableEq K] [KeyText K] in
theorem pendingWorks_of_underway (codec : PendingCodec) (o : Outcome)
    (h : Underway base pid w fs task.pc) :
    pendingWorks codec (fs, task) o = true ↔ (w.file = .pending → o ≠ .fail) := by
  unfold pendingWorks
  generalize task.pc = pc at h
  cases h <;> simp [or_iff_not_imp_left]

/-- The read of `pending.json` and what the call makes of it. -/
theorem readPending_step (hpc : task.pc = .readPending op)
    (hstep : task.next codec fs o = some (fs', task')) :
    Revising codec fs task.pid op fs' task'.pc ∧
      (task'.pc = .returned none ↔ pendingWorks codec (fs, task) o = false) := by
  cases o with
  | fail =>
    simp only [Task.next, hpc, Option.some.injEq, Prod.mk.injEq] at hstep
    obtain ⟨rfl, rfl⟩ := hstep
    exact ⟨.failed fun _ => .refl _ _, by simp [pendingWorks, hpc]⟩
  | ok now =>
    cases hlist : pending codec (ofEntry (fs.read (.file .pending))) with
    | error e =>
      simp only [Task.next, hpc, hlist, Option.some.injEq, Prod.mk.injEq] at hstep
      obtain ⟨rfl, rfl⟩ := hstep
      refine ⟨.failed fun _ => .refl _ _, ?_⟩
      simp [pendingWorks, hpc, hlist, Except.isOk, Except.toBool]
    | ok list =>
      have hworks : pendingWorks codec (fs, task) (.ok now) = true := by
        simp [pendingWorks, hpc, hlist, Except.isOk, Except.toBool]
      rw [hworks]
      cases op with
      | record key =>
        simp only [Task.next, hpc, hlist, Option.some.injEq, Prod.mk.injEq] at hstep
        obtain ⟨rfl, rfl⟩ := hstep
        exact ⟨.writing now hlist .create, by simp [stagePending]⟩
      | forget key =>
        simp only [Task.next, hpc, hlist] at hstep
        split_ifs at hstep with hlen
        · cases hstep
          have hsame : forgotten (text key) list = list :=
            List.filter_eq_self.mpr (List.length_filter_eq_length_iff.mp hlen)
          exact ⟨.done now hlist (hlist.trans (congrArg _ hsame.symm)) (.refl _ _), by simp⟩
        · cases hstep
          exact ⟨.writing now hlist .create, by simp [stagePending]⟩

/-- Step lemma: the call stays on its way, and it fails exactly where one of
its own file system calls does or `pending.json` does not parse. -/
theorem Revising.step (h : Revising codec base task.pid op fs task.pc)
    (hstep : task.next codec fs o = some (fs', task')) :
    Revising codec base task.pid op fs' task'.pc ∧
      (task'.pc = .returned none ↔ pendingWorks codec (fs, task) o = false) := by
  generalize hpc : task.pc = pc at h
  cases h with
  | @readying key hop =>
    cases o with
    | fail =>
      simp only [Task.next, hpc, Option.some.injEq, Prod.mk.injEq] at hstep
      obtain ⟨rfl, rfl⟩ := hstep
      exact ⟨.failed fun _ => .refl _ _, by simp [pendingWorks, hpc]⟩
    | ok n =>
      simp only [Task.next, hpc, Option.some.injEq, Prod.mk.injEq] at hstep
      obtain ⟨rfl, rfl⟩ := hstep
      subst hop
      exact ⟨.reading, by simp [pendingWorks, hpc]⟩
  | reading => exact readPending_step hpc hstep
  | writing now hlist hw =>
    rw [← hpc] at hw
    have hworks := pendingWorks_of_underway codec o hw
    simp only [forall_const] at hworks
    rw [← Bool.not_eq_true, hworks]
    rcases hw.step hstep with ⟨ho, hfiles, hpc'⟩ | ⟨ho, _, hw'⟩ | ⟨ho, _, hl⟩
    · rw [hpc']
      exact ⟨.failed hfiles, by simp [ho]⟩
    · exact ⟨.writing now hlist hw', by simp [ho, hw'.not_returned]⟩
    · rw [hl.returned rfl]
      refine ⟨.done now hlist ?_ (hl.others _ nofun), by simp [ho]⟩
      rw [hl.body]
      exact pending_toVecPretty codec _
  | done | failed => exact absurd hpc (Task.next_moves hstep |>.not_returned _)

omit [DecidableEq K] in
/-- Nothing but a fault stops the call in a directory whose list parses. -/
theorem Revising.pendingWorks_of_ok {list : List PendingAgent}
    (h : Revising codec base pid op fs task.pc)
    (hlist : pending codec (ofEntry (base.read (.file .pending))) = .ok list) (ho : o ≠ .fail) :
    pendingWorks codec (fs, task) o = true := by
  generalize hpc : task.pc = pc at h
  cases h with
  | readying => simp [pendingWorks, hpc, ho]
  | reading => simp [pendingWorks, hpc, hlist, ho, Except.isOk, Except.toBool]
  | writing _ _ hw =>
    rw [← hpc] at hw
    exact (pendingWorks_of_underway codec o hw).mpr fun _ => ho
  | done | failed => simp [pendingWorks, hpc]

omit [DecidableEq K] in
/-- The list of approved keys is none of its business. -/
theorem Revising.sameAt_approved (h : Revising codec base pid op fs pc) :
    Files.SameAt base fs (.file .approved) := by
  cases h with
  | readying | reading => exact .refl _ _
  | writing _ _ hw => exact hw.sameAt _
  | done _ _ _ hsame => exact hsame
  | failed hfiles => exact hfiles _

omit [DecidableEq K] in
theorem Revising.file_of_rename (h : Revising codec base pid op fs (.rename w)) :
    w.file = .pending := by
  cases h with
  | writing _ _ hw => rw [hw.eq_of_rename]

theorem Revising.enabled (h : Revising codec base task.pid op fs task.pc)
    (hr : task.result = none) : (task.next codec fs (.ok 1)).isSome := by
  generalize hpc : task.pc = pc at h
  cases h with
  | readying => simp [Task.next, hpc]
  | reading =>
    simp only [Task.next, hpc]
    split
    · rfl
    · rfl
    · split_ifs <;> rfl
  | writing _ _ hw =>
    rw [← hpc] at hw
    exact hw.enabled
  | done | failed => simp [Task.result, hpc] at hr

end

end Egdod.State
