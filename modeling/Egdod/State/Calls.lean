import Egdod.Lib.Run
import Egdod.State.Pending

/-! Calls on one state directory, taken one file system call at a time.
Tasks of one process share its pid and therefore its staging names; nothing
locks the directory, so a run is any interleaving of any number of tasks. -/
namespace Egdod.State

open Text Posix StepSystem

/-- The files that calls here replace. -/
inductive StateFile where
  | approved
  | pending
  deriving DecidableEq, Repr

inductive Name where
  | file (f : StateFile)
  | tmp (f : StateFile) (pid : Nat)
  deriving DecidableEq, Repr

/-- `unique_tmp`: unique to the process, not to the call. -/
def uniqueTmp (f : StateFile) (pid : Nat) : Name := .tmp f pid

/-- The file a name belongs to, staged or in place. -/
def Name.of : Name → StateFile
  | .file f => f
  | .tmp f _ => f

/-- Entry points. `accept` is `Acceptor::accept` as far as it touches the
directory: the approval check and the pending branch. -/
inductive Call (K : Type) where
  | approve (key : K)
  | accept (key : K)
  | recordPending (key : K)
  | forgetPending (key : K)

/-- One `write_atomic`: the bytes, what the call had read of the file before,
and the key `approve` forgets once the write is in place. -/
structure Write (K : Type) where
  file : StateFile
  body : Bytes
  read : Option Bytes
  forget : Option K

inductive PendingOp (K : Type) where
  | record (key : K)
  | forget (key : K)

/-- Where a task stands, each at the file system call it makes next. -/
inductive Pc (K : Type) where
  | ensureApprove (key : K)
  | ensureRecord (key : K)
  | readApproved (key : K)
  | rereadApproved (key : K)
  | checkApproved (key : K)
  | readPending (op : PendingOp K)
  | create (w : Write K)
  | write (w : Write K) (fd off : Nat)
  | rename (w : Write K)
  | returned (result : Option Bool)

structure Task (K : Type) where
  pid : Nat
  call : Call K
  pc : Pc K
  /-- What this call handed to `write_pending`. -/
  wrote : List (List PendingAgent)

structure Dir (K : Type) where
  fs : Files Name
  tasks : Nat → Option (Task K)

/-- How the environment lets a file system call end. The number is the clock
reading of `now_unix`, or how many bytes one `write` took. -/
inductive Outcome where
  | ok (n : UInt64)
  | fail
  deriving DecidableEq, Repr

inductive Action (K : Type) where
  | start (t pid : Nat) (call : Call K)
  | step (t : Nat) (o : Outcome)

/-- The task an action is for. -/
def Action.task {K : Type} : Action K → Nat
  | .start t _ _ => t
  | .step t _ => t

section
variable {K : Type} [DecidableEq K] [KeyText K]

def Call.entry : Call K → Pc K
  | .approve key => .ensureApprove key
  | .accept key => .checkApproved key
  | .recordPending key => .ensureRecord key
  | .forgetPending key => .readPending (.forget key)

/-- What a name holds, as a read that is allowed to work sees it. -/
def Dir.entry (d : Dir K) (f : StateFile) : Except IoError Bytes := ofEntry (d.fs.read (.file f))

/-- `StateDir::approved` and `StateDir::pending` of the directory as it is. -/
def Dir.approvedNow (d : Dir K) : Finset K := approvedSet (d.entry .approved)

def Dir.pendingNow (codec : PendingCodec) (d : Dir K) : Except IoError (List PendingAgent) :=
  pending codec (d.entry .pending)

/-- The list an operation makes of the one it read. -/
def PendingOp.apply (op : PendingOp K) (now : UInt64) (list : List PendingAgent) :
    List PendingAgent :=
  match op with
  | .record key => recorded (text key) now list
  | .forget key => forgotten (text key) list

/-- A pending list on its way to `write_pending`. -/
def stagePending (codec : PendingCodec) (fs : Files Name) (task : Task K)
    (list : List PendingAgent) : Task K :=
  { task with
    pc := .create ⟨.pending, codec.toVecPretty list, fs.read (.file .pending), none⟩
    wrote := list :: task.wrote }

/-- The pc once `off` bytes are in the staging file: more to write, or rename. -/
def staged (w : Write K) (fd off : Nat) : Pc K :=
  if off = w.body.length then .rename w else .write w fd off

/-- The next file system call of a task and what follows it in the source. -/
def Task.next (codec : PendingCodec) (fs : Files Name) (task : Task K) (o : Outcome) :
    Option (Files Name × Task K) :=
  match task.pc, o with
  -- `ensure`: `create_dir_all` and the chmod of the root, which touch none of its files
  | .ensureApprove _, .fail => some (fs, { task with pc := .returned none })
  | .ensureApprove key, .ok _ => some (fs, { task with pc := .readApproved key })
  | .ensureRecord _, .fail => some (fs, { task with pc := .returned none })
  | .ensureRecord key, .ok _ => some (fs, { task with pc := .readPending (.record key) })
  | .readApproved _, .fail => some (fs, { task with pc := .returned none })
  | .readApproved key, .ok _ =>
    match approved (ofEntry (fs.read (.file .approved))) with
    | .error _ => some (fs, { task with pc := .returned none })
    | .ok set =>
      if key ∈ set then some (fs, { task with pc := .returned (some false) })
      else some (fs, { task with pc := .rereadApproved key })
  -- the second read defaults to an empty body whatever its failure was
  | .rereadApproved key, .fail =>
    some (fs, { task with
      pc := .create ⟨.approved, encode (appendKey [] key), none, some key⟩ })
  | .rereadApproved key, .ok _ =>
    match readToString (ofEntry (fs.read (.file .approved))) with
    | .error _ => some (fs, { task with
        pc := .create ⟨.approved, encode (appendKey [] key), none, some key⟩ })
    | .ok body => some (fs, { task with
        pc := .create ⟨.approved, encode (appendKey body key), fs.read (.file .approved),
          some key⟩ })
  -- an unreadable list is logged and approves nobody
  | .checkApproved key, .fail => some (fs, { task with pc := .ensureRecord key })
  | .checkApproved key, .ok _ =>
    if key ∈ (approvedSet (ofEntry (fs.read (.file .approved))) : Finset K) then
      some (fs, { task with pc := .returned (some true) })
    else some (fs, { task with pc := .ensureRecord key })
  | .readPending _, .fail => some (fs, { task with pc := .returned none })
  | .readPending op, .ok now =>
    match pending codec (ofEntry (fs.read (.file .pending))), op with
    | .error _, _ => some (fs, { task with pc := .returned none })
    | .ok list, .record key => some (fs, stagePending codec fs task (recorded (text key) now list))
    | .ok list, .forget key =>
      if (forgotten (text key) list).length = list.length then
        some (fs, { task with pc := .returned (some true) })
      else some (fs, stagePending codec fs task (forgotten (text key) list))
  | .create _, .fail => some (fs, { task with pc := .returned none })
  | .create w, .ok _ =>
    let (fs', fd) := fs.openTrunc (uniqueTmp w.file task.pid) 0o644
    some (fs', { task with pc := staged w fd 0 })
  | .write _ _ _, .fail => some (fs, { task with pc := .returned none })
  | .write w fd off, .ok n =>
    if 0 < n.toNat ∧ off + n.toNat ≤ w.body.length then
      some (fs.pwrite fd off ((w.body.drop off).take n.toNat),
        { task with pc := staged w fd (off + n.toNat) })
    else none
  | .rename _, .fail => some (fs, { task with pc := .returned none })
  | .rename w, .ok _ =>
    match fs.rename (uniqueTmp w.file task.pid) (.file w.file) with
    | none => some (fs, { task with pc := .returned none })
    | some fs' =>
      match w.forget with
      | none => some (fs', { task with pc := .returned (some true) })
      | some key => some (fs', { task with pc := .readPending (.forget key) })
  | .returned _, _ => none

def step (codec : PendingCodec) (d : Dir K) : Action K → Option (Dir K)
  | .start t pid call =>
    match d.tasks t with
    | some _ => none
    | none => some { d with
        tasks := Function.update d.tasks t (some ⟨pid, call, call.entry, []⟩) }
  | .step t o =>
    (d.tasks t).bind fun task => (task.next codec d.fs o).map fun (fs, task) =>
      ⟨fs, Function.update d.tasks t (some task)⟩

/-- The write a task is carrying out. -/
def Task.writing (task : Task K) : Option (Write K) :=
  match task.pc with
  | .create w => some w
  | .write w _ _ => some w
  | .rename w => some w
  | _ => none

/-- What a task returned, if it has. -/
def Task.result (task : Task K) : Option (Option Bool) :=
  match task.pc with
  | .returned r => some r
  | _ => none

/-- A directory before any call. -/
def Dir.before (fs : Files Name) : Dir K := ⟨fs, fun _ => none⟩

/-! ## What one step can do -/

theorem tasks_update {K : Type} {tasks : Nat → Option (Task K)} {t u : Nat} {task other : Task K}
    (h : Function.update tasks t (some task) u = some other) :
    (u = t ∧ task = other) ∨ (u ≠ t ∧ tasks u = some other) := by
  by_cases hu : u = t
  · exact .inl ⟨hu, by simpa [hu] using h⟩
  · exact .inr ⟨hu, by simpa [hu] using h⟩

/-- Every way a task moves, with the facts its branch was taken on. -/
inductive Task.Moves (codec : PendingCodec) (fs : Files Name) (task : Task K) :
    Files Name → Task K → Prop
  | failed : (∀ r, task.pc ≠ .returned r) →
      Moves codec fs task fs { task with pc := .returned none }
  | ensuredApprove {key} : task.pc = .ensureApprove key →
      Moves codec fs task fs { task with pc := .readApproved key }
  | ensuredRecord {key} : task.pc = .ensureRecord key →
      Moves codec fs task fs { task with pc := .readPending (.record key) }
  | already {key} : task.pc = .readApproved key →
      key ∈ (approvedSet (ofEntry (fs.read (.file .approved))) : Finset K) →
      Moves codec fs task fs { task with pc := .returned (some false) }
  | absent {key} : task.pc = .readApproved key →
      Moves codec fs task fs { task with pc := .rereadApproved key }
  | appended {key body read} : task.pc = .rereadApproved key →
      (read = none ∧ body = [] ∨
        ∃ bytes, fs.read (.file .approved) = some bytes ∧ read = some bytes ∧
          decode bytes = some body) →
      Moves codec fs task fs { task with
        pc := .create ⟨.approved, encode (appendKey body key), read, some key⟩ }
  | admitted {key} : task.pc = .checkApproved key →
      Moves codec fs task fs { task with pc := .returned (some true) }
  | knocked {key} : task.pc = .checkApproved key →
      Moves codec fs task fs { task with pc := .ensureRecord key }
  | noted {key now list} : task.pc = .readPending (.record key) →
      pending codec (ofEntry (fs.read (.file .pending))) = .ok list →
      Moves codec fs task fs (stagePending codec fs task (recorded (text key) now list))
  | unlisted {key list} : task.pc = .readPending (.forget key) →
      pending codec (ofEntry (fs.read (.file .pending))) = .ok list → ¬ Listed (text key) list →
      Moves codec fs task fs { task with pc := .returned (some true) }
  | dropped {key list} : task.pc = .readPending (.forget key) →
      pending codec (ofEntry (fs.read (.file .pending))) = .ok list →
      Moves codec fs task fs (stagePending codec fs task (forgotten (text key) list))
  | opened {w} : task.pc = .create w →
      Moves codec fs task (fs.openTrunc (uniqueTmp w.file task.pid) 0o644).1 { task with
        pc := staged w (fs.openTrunc (uniqueTmp w.file task.pid) 0o644).2 0 }
  | wrote {w fd off n} : task.pc = .write w fd off → off + n ≤ w.body.length →
      Moves codec fs task (fs.pwrite fd off ((w.body.drop off).take n))
        { task with pc := staged w fd (off + n) }
  | landed {w fs'} : task.pc = .rename w →
      fs.rename (uniqueTmp w.file task.pid) (.file w.file) = some fs' → w.forget = none →
      Moves codec fs task fs' { task with pc := .returned (some true) }
  | approved {w fs' key} : task.pc = .rename w →
      fs.rename (uniqueTmp w.file task.pid) (.file w.file) = some fs' → w.forget = some key →
      Moves codec fs task fs' { task with pc := .readPending (.forget key) }

theorem readToString_entry {fs : Files Name} {f : StateFile} {body : Str}
    (h : readToString (ofEntry (fs.read (.file f))) = .ok body) :
    ∃ bytes, fs.read (.file f) = some bytes ∧ decode bytes = some body := by
  cases hr : fs.read (.file f) with
  | none => simp [hr, ofEntry, readToString] at h
  | some bytes =>
    refine ⟨bytes, rfl, ?_⟩
    simp only [hr, ofEntry, readToString] at h
    split at h
    · rename_i hd
      cases h
      exact hd
    · cases h

theorem Task.next_moves {codec : PendingCodec} {fs fs' : Files Name} {task task' : Task K}
    {o : Outcome} (h : task.next codec fs o = some (fs', task')) :
    task.Moves codec fs fs' task' := by
  unfold Task.next at h
  split at h
  case h_1 hpc | h_3 hpc | h_5 hpc | h_11 hpc | h_13 hpc | h_15 hpc | h_17 hpc =>
    cases h; exact .failed (by simp [hpc])
  case h_2 key n hpc => cases h; exact .ensuredApprove hpc
  case h_4 key n hpc => cases h; exact .ensuredRecord hpc
  case h_6 key n hpc =>
    split at h
    · cases h; exact .failed (by simp [hpc])
    · rename_i set hset
      split_ifs at h with hmem
      · cases h; exact .already hpc (by simpa [approvedSet, hset] using hmem)
      · cases h; exact .absent hpc
  case h_7 key hpc => cases h; exact .appended hpc (.inl ⟨rfl, rfl⟩)
  case h_8 key n hpc =>
    split at h
    · cases h; exact .appended hpc (.inl ⟨rfl, rfl⟩)
    · rename_i body hbody
      obtain ⟨bytes, hr, hd⟩ := readToString_entry hbody
      cases h
      exact .appended hpc (.inr ⟨bytes, hr, hr, hd⟩)
  case h_9 key hpc => cases h; exact .knocked hpc
  case h_10 key n hpc =>
    split_ifs at h
    · cases h; exact .admitted hpc
    · cases h; exact .knocked hpc
  case h_12 op now hpc =>
    split at h
    · cases h; exact .failed (by simp [hpc])
    · rename_i list key hlist
      cases h
      exact .noted hpc hlist
    · rename_i list key hlist
      split_ifs at h with hlen
      · cases h; exact .unlisted hpc hlist (not_listed_of_length_forgotten hlen)
      · cases h; exact .dropped hpc hlist
  case h_14 w n hpc => cases h; exact .opened hpc
  case h_16 w fd off n hpc =>
    split_ifs at h with hn
    cases h
    exact .wrote hpc hn.2
  case h_18 w n hpc =>
    split at h
    · cases h; exact .failed (by simp [hpc])
    · rename_i fs₁ hr
      split at h
      · rename_i hf
        cases h; exact .landed hpc hr hf
      · rename_i key hf
        cases h; exact .approved hpc hr hf
  case h_19 => cases h

theorem Task.Moves.not_returned {codec : PendingCodec} {fs fs' : Files Name} {task task' : Task K}
    (h : task.Moves codec fs fs' task') (r : Option Bool) : task.pc ≠ .returned r := by
  cases h with
  | failed hpc => exact hpc r
  | _ hpc => simp [hpc]

/-- A rename fails and changes nothing, or succeeds and the call goes on. -/
theorem Task.Moves.of_rename {codec : PendingCodec} {fs fs' : Files Name} {task task' : Task K}
    {w : Write K} (h : task.Moves codec fs fs' task') (hpc : task.pc = .rename w) :
    (fs' = fs ∧ task'.pc = .returned none) ∨
    (fs.rename (uniqueTmp w.file task.pid) (.file w.file) = some fs' ∧
      ((w.forget = none ∧ task'.pc = .returned (some true)) ∨
        ∃ key, w.forget = some key ∧ task'.pc = .readPending (.forget key))) := by
  cases h with
  | failed => exact .inl ⟨rfl, rfl⟩
  | landed hpc' hr hf =>
    cases hpc.symm.trans hpc'
    exact .inr ⟨hr, .inl ⟨hf, rfl⟩⟩
  | approved hpc' hr hf =>
    cases hpc.symm.trans hpc'
    exact .inr ⟨hr, .inr ⟨_, hf, rfl⟩⟩
  | _ hpc' => cases hpc.symm.trans hpc'

/-- A step starts a task or moves one. -/
theorem step_cases {codec : PendingCodec} {d d' : Dir K} {a : Action K}
    (h : step codec d a = some d') :
    (∃ t pid call, a = .start t pid call ∧ d.tasks t = none ∧
      d' = { d with tasks := Function.update d.tasks t (some ⟨pid, call, call.entry, []⟩) }) ∨
    (∃ t o task fs task', a = .step t o ∧ d.tasks t = some task ∧
      task.Moves codec d.fs fs task' ∧
      d' = ⟨fs, Function.update d.tasks t (some task')⟩) := by
  cases a with
  | start t pid call =>
    left
    simp only [step] at h
    split at h
    · cases h
    · rename_i hnone
      cases h
      exact ⟨t, pid, call, rfl, hnone, rfl⟩
  | step t o =>
    right
    obtain ⟨task, htask, hrest⟩ := Option.bind_eq_some_iff.mp h
    obtain ⟨⟨fs, task'⟩, hnext, rfl⟩ := Option.map_eq_some_iff.mp hrest
    exact ⟨t, o, task, fs, task', rfl, htask, Task.next_moves hnext, rfl⟩

/-- A call that fails has changed no file. -/
theorem step_fail {codec : PendingCodec} {d d' : Dir K} {t : Nat}
    (h : step codec d (.step t .fail) = some d') : d'.fs = d.fs := by
  obtain ⟨task, htask, hrest⟩ := Option.bind_eq_some_iff.mp h
  obtain ⟨⟨fs, task'⟩, hnext, rfl⟩ := Option.map_eq_some_iff.mp hrest
  unfold Task.next at hnext
  split at hnext <;> simp_all

/-- A task after a step: started by it, moved by it, or as it was. -/
theorem step_task {codec : PendingCodec} {d d' : Dir K} {a : Action K}
    (h : step codec d a = some d') {u : Nat} {task' : Task K} (hu : d'.tasks u = some task') :
    (∃ pid call, a = .start u pid call ∧ task' = ⟨pid, call, call.entry, []⟩) ∨
    (∃ task, d.tasks u = some task ∧ task.Moves codec d.fs d'.fs task') ∨
    d.tasks u = some task' := by
  rcases step_cases h with
    ⟨t, pid, call, rfl, _, rfl⟩ | ⟨t, o, task, fs', moved, rfl, ht, hm, rfl⟩
  · rcases tasks_update hu with ⟨rfl, rfl⟩ | ⟨_, hu⟩
    · exact .inl ⟨pid, call, rfl, rfl⟩
    · exact .inr (.inr hu)
  · rcases tasks_update hu with ⟨rfl, rfl⟩ | ⟨_, hu⟩
    · exact .inr (.inl ⟨task, ht, hm⟩)
    · exact .inr (.inr hu)

/-- A task before a step is there after it, moved or not. -/
theorem step_keeps {codec : PendingCodec} {d d' : Dir K} {a : Action K}
    (h : step codec d a = some d') {u : Nat} {task : Task K} (hu : d.tasks u = some task) :
    ∃ task', d'.tasks u = some task' ∧ (task.Moves codec d.fs d'.fs task' ∨ task' = task) := by
  rcases step_cases h with
    ⟨t, pid, call, rfl, hnone, rfl⟩ | ⟨t, o, moving, fs', moved, rfl, ht, hm, rfl⟩
  · have hut : u ≠ t := fun e => by simp [e, hnone] at hu
    exact ⟨task, by simpa [hut] using hu, .inr rfl⟩
  · by_cases hut : u = t
    · subst hut
      cases ht.symm.trans hu
      exact ⟨moved, by simp, .inl hm⟩
    · exact ⟨task, by simpa [hut] using hu, .inr rfl⟩

end

/-! ## Control points -/

section
variable {K : Type}

/-- Only `approve` replaces `approved`, and it takes its key along. -/
def Call.Carries (c : Call K) (w : Write K) : Prop :=
  match w.file with
  | .approved => ∃ key, c = .approve key ∧ w.forget = some key
  | .pending => w.forget = none

/-- Where a call can stand. -/
def Call.At (c : Call K) : Pc K → Prop
  | .ensureApprove key => c = .approve key
  | .ensureRecord key => c = .accept key ∨ c = .recordPending key
  | .readApproved key => c = .approve key
  | .rereadApproved key => c = .approve key
  | .checkApproved key => c = .accept key
  | .readPending (.record key) => c = .accept key ∨ c = .recordPending key
  | .readPending (.forget key) => c = .approve key ∨ c = .forgetPending key
  | .create w => c.Carries w
  | .write w _ _ => c.Carries w
  | .rename w => c.Carries w
  | .returned _ => True

theorem Call.at_entry (c : Call K) : c.At c.entry := by
  cases c <;> simp [Call.entry, Call.At]

theorem Call.at_staged {c : Call K} {w : Write K} (h : c.Carries w) (fd off : Nat) :
    c.At (staged w fd off) := by
  unfold staged
  split_ifs <;> exact h

theorem pc_of_result {task : Task K} {r : Option Bool} (h : task.result = some r) :
    task.pc = .returned r := by
  unfold Task.result at h
  split at h
  · rename_i hpc
    cases h
    exact hpc
  · cases h

/-- Only the first `n` tasks have been started, so what all tasks do is a
matter of looking. -/
def Dir.Within (n : Nat) (d : Dir K) : Prop := ∀ u, n ≤ u → d.tasks u = none

theorem Dir.Within.lt_of_task {n u : Nat} {d : Dir K} {task : Task K} (h : d.Within n)
    (hu : d.tasks u = some task) : u < n :=
  by_contra fun hge => by simp [h u (Nat.le_of_not_lt hge)] at hu

variable [DecidableEq K] [KeyText K]

theorem Task.Moves.call {codec : PendingCodec} {fs fs' : Files Name} {task task' : Task K}
    (h : task.Moves codec fs fs' task') : task'.call = task.call := by
  cases h <;> rfl

theorem Task.Moves.at {codec : PendingCodec} {fs fs' : Files Name} {task task' : Task K}
    (h : task.Moves codec fs fs' task') (hat : task.call.At task.pc) :
    task'.call.At task'.pc := by
  cases h with
  | failed | already | admitted | unlisted | landed => trivial
  | ensuredApprove hpc | ensuredRecord hpc | absent hpc => rwa [hpc] at hat
  | appended hpc => rw [hpc] at hat; exact ⟨_, hat, rfl⟩
  | knocked hpc => rw [hpc] at hat; exact .inl hat
  | noted | dropped => rfl
  | opened hpc | wrote hpc => rw [hpc] at hat; exact Call.at_staged hat _ _
  | @approved w fs' key hpc hr hf =>
    rw [hpc] at hat
    simp only [Call.At, Call.Carries] at hat
    split at hat
    · obtain ⟨k, hcall, hk⟩ := hat
      cases hk.symm.trans hf
      exact .inl hcall
    · simp [hat] at hf

/-- Every task stands where its call can. -/
def Dir.Controlled (d : Dir K) : Prop := ∀ t task, d.tasks t = some task → task.call.At task.pc

theorem Dir.Controlled.step {codec : PendingCodec} {d d' : Dir K} {a : Action K}
    (hstep : step codec d a = some d') (h : d.Controlled) : d'.Controlled := by
  intro u other hu
  rcases step_task hstep hu with ⟨_, call, _, rfl⟩ | ⟨task, ht, hm⟩ | hold
  · exact call.at_entry
  · exact hm.at (h u task ht)
  · exact h u other hold

theorem Dir.Within.step {codec : PendingCodec} {n : Nat} {d d' : Dir K} {a : Action K}
    (ha : a.task < n) (hstep : step codec d a = some d') (h : d.Within n) : d'.Within n := by
  intro u hu
  have hne : u ≠ a.task := by omega
  rcases step_cases hstep with
    ⟨t, pid, call, rfl, _, rfl⟩ | ⟨t, o, task, fs', task', rfl, _, _, rfl⟩
  · exact (Function.update_of_ne hne _ _).trans (h u hu)
  · exact (Function.update_of_ne hne _ _).trans (h u hu)

end

end Egdod.State
