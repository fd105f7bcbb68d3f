import Egdod.State.Staging

/-! Concurrent `approve` commands. Each extends the list its second read
saw and renames the result over whatever is there by then. A rename that
finds what was read adds one key and drops none; a rename that does not
undoes every approval made in between. -/
namespace Egdod.State

open Text Posix StepSystem

variable {K : Type}

/-- A rename over `f` finds `f` as the call had read it; a read that failed
counts as having found no file. -/
def RenamesFresh (f : StateFile) (d : Dir K) (a : Action K) : Prop :=
  ∀ t n task w, a = .step t (.ok n) → d.tasks t = some task → task.pc = .rename w →
    w.file = f → d.fs.read (.file f) = w.read

/-- A process that runs `approve` does nothing else meanwhile. -/
def OwnProcess (d : Dir K) (a : Action K) : Prop :=
  ∀ t pid key, a = .start t pid (.approve key) → ∀ u task, d.tasks u = some task →
    task.pid = pid → ∃ r, task.pc = .returned r

/-- Whether an action is a rename over `f`, if any, that finds what was read. -/
def Dir.freshFor (f : StateFile) (d : Dir K) : Action K → Bool
  | .step t (.ok _) =>
    match d.tasks t with
    | some ⟨_, _, .rename w, _⟩ => w.file ≠ f ∨ d.fs.read (.file f) = w.read
    | _ => true
  | _ => true

theorem renamesFresh_of_freshFor {f : StateFile} {d : Dir K} {a : Action K}
    (h : d.freshFor f a = true) : RenamesFresh f d a := by
  rintro t n ⟨pid, call, pc, wrote⟩ w rfl ht rfl hw
  simpa [Dir.freshFor, ht, hw] using h

/-- Whether an action starts no `approve` in a process that is in use. -/
def Dir.ownProcess (n : Nat) (d : Dir K) : Action K → Bool
  | .start _ pid (.approve _) =>
    (List.range n).all fun u => (d.tasks u).all fun task => task.pid ≠ pid
  | _ => true

theorem ownProcess_of_within {n : Nat} {d : Dir K} {a : Action K} (hd : d.Within n)
    (h : d.ownProcess n a = true) : OwnProcess d a := by
  rintro t pid key rfl u task hu hpid
  have hall := List.all_eq_true.mp h u (List.mem_range.mpr (hd.lt_of_task hu))
  simp [hu, hpid] at hall

section
variable [DecidableEq K] [KeyText K]

theorem approvedSet_decode {bytes : Bytes} {body : Str} (h : decode bytes = some body) :
    (approvedSet (.ok bytes) : Finset K) = (approvedKeys body).toFinset := by
  simp [approvedSet, approved, readToString, h]

/-- An `approve` on its way carries what it read, extended by its key. -/
def Write.Extends (w : Write K) (key : K) : Prop :=
  ∃ body, w.body = encode (appendKey body key) ∧
    (w.read = none ∧ body = [] ∨ ∃ bytes, w.read = some bytes ∧ decode bytes = some body)

theorem Write.Extends.approvedSet {w : Write K} {key : K} (h : w.Extends key) :
    (approvedSet (.ok w.body) : Finset K) = insert key (approvedSet (ofEntry w.read)) := by
  obtain ⟨body, hbody, ⟨hr, rfl⟩ | ⟨bytes, hr, hd⟩⟩ := h
  · rw [hbody, approvedSet_appendKey, hr]
    rfl
  · rw [hbody, approvedSet_appendKey, hr, ofEntry, approvedSet_decode hd, approvedSet_encode]

/-- The key of an `approve` at this point is in the list, or was. -/
def Task.Past (task : Task K) : Prop :=
  match task.pc with
  | .readPending _ => True
  | .create w => w.file = .pending
  | .write w _ _ => w.file = .pending
  | .rename w => w.file = .pending
  | .returned r => r.isSome
  | _ => False

/-- An `approve` gets past its list by finding its key or renaming it in. -/
theorem Task.Moves.past {codec : PendingCodec} {fs fs' : Files Name} {task task' : Task K} {key : K}
    (h : task.Moves codec fs fs' task') (hat : task.call.At task.pc)
    (hcall : task.call = .approve key) (hp : task'.Past) :
    task.Past ∨ key ∈ (approvedSet (ofEntry (fs.read (.file .approved))) : Finset K) ∨
      ∃ w, task.pc = .rename w ∧ w.file = .approved ∧
        fs.rename (uniqueTmp w.file task.pid) (.file w.file) = some fs' := by
  cases h with
  | failed => simp [Task.Past] at hp
  | already hpc hmem =>
    rw [hpc] at hat
    cases hcall.symm.trans hat
    exact .inr (.inl hmem)
  | ensuredApprove | absent | appended => simp [Task.Past] at hp
  | ensuredRecord hpc =>
    rw [hpc] at hat
    simp [Call.At, hcall] at hat
  | admitted hpc | knocked hpc =>
    rw [hpc] at hat
    cases hcall.symm.trans hat
  | noted hpc | unlisted hpc | dropped hpc => exact .inl (by simp [Task.Past, hpc])
  | opened hpc | wrote hpc =>
    refine .inl ?_
    simp only [Task.Past, hpc]
    unfold Task.Past staged at hp
    split_ifs at hp <;> exact hp
  | @landed w fs' hpc hr hf | @approved w fs' key hpc hr hf =>
    cases hw : w.file with
    | pending => exact .inl (by simp [Task.Past, hpc, hw])
    | approved => exact .inr (.inr ⟨w, hpc, hw, hr⟩)

/-- Approvals taken so far: the list in place, and the calls behind it. -/
structure Kept (before : Finset K) (d : Dir K) : Prop where
  exclusive : Exclusive .approved d
  controlled : d.Controlled
  /-- Two `approve` calls under way are in two processes. -/
  apart : ∀ t task t' task' key key', d.tasks t = some task → d.tasks t' = some task' →
    task.call = .approve key → task'.call = .approve key' →
    (∀ r, task.pc ≠ .returned r) → (∀ r, task'.pc ≠ .returned r) → task.pid = task'.pid → t = t'
  extends_ : ∀ t task w, d.tasks t = some task → task.writing = some w → w.file = .approved →
    ∃ key, task.call = .approve key ∧ w.Extends key
  kept : before ⊆ d.approvedNow
  taken : ∀ t task key, d.tasks t = some task → task.call = .approve key → task.Past →
    key ∈ d.approvedNow

variable {codec : PendingCodec} {before : Finset K} {d d' : Dir K} {a : Action K}

/-- Staging of `approved` is exclusive because its writers are apart. -/
theorem Kept.createsAlone (h : Kept before d) (a : Action K) : CreatesAlone .approved d a := by
  intro t o task w _ ht hpc hw u other hu hs hpid
  have hcarry : ∀ v x, d.tasks v = some x → ∀ w, x.writing = some w → w.file = .approved →
      ∃ key, x.call = .approve key := by
    intro v x hv w hx hf
    obtain ⟨key, hkey, _⟩ := h.extends_ v x w hv hx hf
    exact ⟨key, hkey⟩
  obtain ⟨w', hw', hf'⟩ := writing_of_staging hs
  obtain ⟨key, hkey⟩ := hcarry t task ht w (by simp [Task.writing, hpc]) hw
  obtain ⟨key', hkey'⟩ := hcarry u other hu w' hw' hf'
  have hut : u = t := h.apart u other t task key' key hu ht hkey' hkey
    (not_returned_of_writing hw') (by simp [hpc]) hpid
  subst hut
  cases ht.symm.trans hu
  simp [Task.staging, hpc] at hs

/-- What a task at its rename puts in place. -/
theorem Kept.landed (h : Kept before d) {t : Nat} {task : Task K} {w : Write K}
    (ht : d.tasks t = some task) (hpc : task.pc = .rename w) (hw : w.file = .approved) {key : K}
    (hcall : task.call = .approve key) :
    (approvedSet (.ok w.body) : Finset K) = insert key (approvedSet (ofEntry w.read)) := by
  obtain ⟨k, hk, hext⟩ := h.extends_ t task w ht (by simp [Task.writing, hpc]) hw
  cases hcall.symm.trans hk
  exact hext.approvedSet

/-- A step that renames only over what was read leaves the approved set as it
is, or adds the key of an `approve` that goes on to forget it. -/
theorem Kept.gains (h : Kept before d) (hfresh : RenamesFresh .approved d a)
    (hstep : step codec d a = some d') :
    d'.approvedNow = d.approvedNow ∨
      ∃ t task key, d'.tasks t = some task ∧ task.call = .approve key ∧
        task.pc = .readPending (.forget key) ∧ d'.approvedNow = insert key d.approvedNow := by
  unfold Dir.approvedNow Dir.entry
  rcases h.exclusive.read_step hstep with
    hsame | ⟨t, n, task, task', w, rfl, ht, ht', hm, hpc, hw, hread⟩
  · exact .inl (by rw [hsame])
  · obtain ⟨key, hcall, _⟩ := h.extends_ t task w ht (by simp [Task.writing, hpc]) hw
    have hcarry := h.controlled t task ht
    simp only [hpc, Call.At, Call.Carries, hw, hcall] at hcarry
    obtain ⟨k, hk, hforget⟩ := hcarry
    cases hk
    rcases hm.of_rename hpc with ⟨hfs, _⟩ | ⟨_, ⟨hf, _⟩ | ⟨k', hf, hpc'⟩⟩
    · exact .inl (by rw [hfs])
    · simp [hforget] at hf
    · cases hforget.symm.trans hf
      refine .inr ⟨t, task', key, ht', hm.call.trans hcall, hpc', ?_⟩
      rw [hread, hfresh t n task w rfl ht hpc hw]
      exact h.landed ht hpc hw hcall

theorem Kept.mono (h : Kept before d) (hfresh : RenamesFresh .approved d a)
    (hstep : step codec d a = some d') : d.approvedNow ⊆ d'.approvedNow := by
  rcases h.gains hfresh hstep with heq | ⟨_, _, key, _, _, _, heq⟩
  · rw [heq]
  · rw [heq]
    exact Finset.subset_insert _ _

/-- A new `approve` has its process to itself; one that moves is where it was. -/
theorem Kept.apart_step (h : Kept before d) (hown : OwnProcess d a)
    (hstep : State.step codec d a = some d') {u v : Nat} {x y : Task K} {key key' : K}
    (hu : d'.tasks u = some x) (hv : d'.tasks v = some y) (hx : x.call = .approve key)
    (hy : y.call = .approve key') (hux : ∀ r, x.pc ≠ .returned r) (hvy : ∀ r, y.pc ≠ .returned r)
    (hpid : x.pid = y.pid) : u = v := by
  have back : ∀ v y, d'.tasks v = some y → (∀ r, y.pc ≠ .returned r) →
      (∃ pid call, a = .start v pid call ∧ y = ⟨pid, call, call.entry, []⟩) ∨
      ∃ z, d.tasks v = some z ∧ z.call = y.call ∧ z.pid = y.pid ∧ ∀ r, z.pc ≠ .returned r := by
    intro v y hv hy
    rcases step_task hstep hv with hnew | ⟨z, hz, hm⟩ | hold
    · exact .inl hnew
    · exact .inr ⟨z, hz, hm.call.symm, hm.pid.symm, hm.not_returned⟩
    · exact .inr ⟨y, hold, rfl, rfl, hy⟩
  rcases back u x hu hux with ⟨pid, call, rfl, rfl⟩ | ⟨x', hu', hcx, hpx, hrx⟩ <;>
    rcases back v y hv hvy with ⟨pid', call', hstart, hy'⟩ | ⟨y', hv', hcy, hpy, hry⟩
  · cases hstart
    rfl
  · obtain ⟨r, hr⟩ := hown u pid key (by rw [← hx]) v y' hv' (hpy.trans hpid.symm)
    exact absurd hr (hry r)
  · subst hstart hy'
    obtain ⟨r, hr⟩ := hown v pid' key' (by rw [← hy]) u x' hu' (hpx.trans hpid)
    exact absurd hr (hrx r)
  · exact h.apart u x' v y' key key' hu' hv' (hcx.trans hx) (hcy.trans hy) hrx hry
      (hpx.trans (hpid.trans hpy.symm))

/-- The key of an `approve` that gets past its list is in it. -/
theorem Kept.taken_step (h : Kept before d) (hfresh : RenamesFresh .approved d a)
    (hstep : State.step codec d a = some d') {u : Nat} {x : Task K} {key : K}
    (hu : d'.tasks u = some x) (hcall : x.call = .approve key) (hp : x.Past) :
    key ∈ d'.approvedNow := by
  have mono := h.mono hfresh hstep
  rcases step_task hstep hu with ⟨_, call, _, rfl⟩ | ⟨task, ht, hm⟩ | hold
  · cases hcall
    simp [Task.Past, Call.entry] at hp
  · rw [hm.call] at hcall
    rcases hm.past (h.controlled u task ht) hcall hp with hold | hmem | ⟨w, hpc, hw, hr⟩
    · exact mono (h.taken u task key ht hcall hold)
    · exact mono hmem
    · have hs := h.exclusive.staged u task ht
      simp only [Task.StagedOk, hpc] at hs
      rw [hw] at hr
      simp only [Dir.approvedNow, Dir.entry, Files.read_rename hr, hs hw, ofEntry,
        h.landed ht hpc hw hcall]
      exact Finset.mem_insert_self _ _
  · exact mono (h.taken u x key hold hcall hp)

theorem Kept.step (h : Kept before d) (hown : OwnProcess d a)
    (hfresh : RenamesFresh .approved d a) (hstep : State.step codec d a = some d') :
    Kept before d' := by
  refine ⟨h.exclusive.step (h.createsAlone a) hstep, h.controlled.step hstep,
    fun _ _ _ _ _ _ => h.apart_step hown hstep, fun u x w hu hx hw => ?_,
    h.kept.trans (h.mono hfresh hstep), fun _ _ _ => h.taken_step hfresh hstep⟩
  obtain ⟨task, ht, hcall, _, hwrite⟩ := step_writing hstep hu hx
  rcases hwrite with hold | ⟨key, body, read, hpc, hread, rfl⟩ | ⟨_, _, _, _, _, _, rfl⟩
  · rw [hcall]
    exact h.extends_ u task w ht hold hw
  · have hat := h.controlled u task ht
    rw [hpc] at hat
    refine ⟨key, hcall.trans hat, body, rfl, ?_⟩
    rcases hread with hr | ⟨bytes, _, hr, hd⟩
    · exact .inl hr
    · exact .inr ⟨bytes, hr, hd⟩
  · cases hw

theorem kept_before (fs : Files Name) :
    Kept (Dir.before fs : Dir K).approvedNow (Dir.before fs) :=
  ⟨.before _ _, by simp [Dir.Controlled, Dir.before], by simp [Dir.before], by simp [Dir.before],
    Finset.Subset.refl _, by simp [Dir.before]⟩

/-- Run theorem: as long as every rename over `approved` finds what its call
read, no approval is lost. A key approved before stays, and so does the key
of every `approve` that returned `Ok`. -/
theorem approvals_kept {fs : Files Name} {as : List (Action K)}
    (h : Steps (State.step codec) (fun d a => OwnProcess d a ∧ RenamesFresh .approved d a)
      (Dir.before fs) as d) :
    (Dir.before fs : Dir K).approvedNow ⊆ d.approvedNow ∧
      ∀ t task key b, d.tasks t = some task → task.call = .approve key →
        task.pc = .returned (some b) → key ∈ d.approvedNow := by
  have hk := h.invariant (fun _ _ _ hok hstep hi => hi.step hok.1 hok.2 hstep) (kept_before fs)
  refine ⟨hk.kept, fun t task key b ht hcall hpc => hk.taken t task key ht hcall ?_⟩
  simp [Task.Past, hpc]

/-- The conditions of `approvals_kept`, over the first `n` tasks. -/
def Dir.freshApprove (n : Nat) (d : Dir K) (a : Action K) : Bool :=
  a.task < n && d.ownProcess n a && d.freshFor .approved a

theorem steps_freshApprove {n : Nat} {fs : Files Name} {as : List (Action K)}
    (h : run (fun d a => if d.freshApprove n a then State.step codec d a else none)
      (Dir.before fs) as = some d) :
    Steps (State.step codec) (fun d a => OwnProcess d a ∧ RenamesFresh .approved d a)
      (Dir.before fs) as d := by
  refine Steps.of_checked (I := Dir.Within n) (fun d a d' hc hstep hi => ?_) (fun d a hc hi => ?_)
    (fun _ _ => rfl) h
  · simp only [Dir.freshApprove, Bool.and_eq_true, decide_eq_true_eq] at hc
    exact hi.step hc.1.1 hstep
  · simp only [Dir.freshApprove, Bool.and_eq_true, decide_eq_true_eq] at hc
    exact ⟨ownProcess_of_within hi hc.1.2, renamesFresh_of_freshFor hc.2⟩

end

/-- Two `approve` commands side by side, the second rereading after the first
has renamed. -/
def twoApproves : List (Action NodeId) :=
  [.start 0 1 (.approve (.filled 1)), .step 0 (.ok 0), .step 0 (.ok 0),
    .start 1 2 (.approve (.filled 3)), .step 1 (.ok 0), .step 1 (.ok 0), .step 0 (.ok 0),
    .step 0 (.ok 0), .step 0 (.ok 65), .step 0 (.ok 0),
    .step 1 (.ok 0), .step 1 (.ok 0), .step 1 (.ok 130), .step 1 (.ok 0), .step 0 (.ok 0),
    .step 1 (.ok 0)]

theorem approvals_kept_twoApproves :
    ∃ d, Steps (step serdeJson) (fun d a => OwnProcess d a ∧ RenamesFresh .approved d a)
        (Dir.before Files.empty) twoApproves d ∧
      (d.tasks 0).bind (·.result) = some (some true) ∧
      d.approvedNow = {.filled 1, .filled 3} ∧
      ∀ t task key b, d.tasks t = some task → task.call = .approve key →
        task.pc = .returned (some b) → key ∈ d.approvedNow := by
  have hrun : (run (fun d a => if d.freshApprove 2 a then step serdeJson d a else none)
      (Dir.before Files.empty) twoApproves).map
        (fun d => ((d.tasks 0).bind (·.result), d.approvedNow)) =
      some (some (some true), {NodeId.filled 1, NodeId.filled 3}) := by
    decide +kernel
  obtain ⟨d, hd, hend⟩ := Option.map_eq_some_iff.mp hrun
  have hsteps := steps_freshApprove hd
  exact ⟨d, hsteps, congrArg Prod.fst hend, congrArg Prod.snd hend, (approvals_kept hsteps).2⟩

/-- Two `approve` commands that both read before either renames: both return
`Ok(true)` and the first key is gone. -/
theorem approval_lost :
    ((run (step serdeJson) (Dir.before Files.empty)
      [.start 0 1 (.approve (NodeId.filled 1)), .step 0 (.ok 0), .step 0 (.ok 0), .step 0 (.ok 0),
        .start 1 2 (.approve (.filled 3)), .step 1 (.ok 0), .step 1 (.ok 0), .step 1 (.ok 0),
        .step 0 (.ok 0), .step 0 (.ok 65), .step 0 (.ok 0), .step 0 (.ok 0),
        .step 1 (.ok 0), .step 1 (.ok 65), .step 1 (.ok 0), .step 1 (.ok 0)]).map
      fun d => ((d.tasks 0).bind (·.result), (d.tasks 1).bind (·.result), d.approvedNow)) =
      some (some (some true), some (some true), {NodeId.filled 3}) := by
  decide +kernel

end Egdod.State
