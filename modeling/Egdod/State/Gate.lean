import Mathlib.Tactic.IntervalCases
import Egdod.State.Approve

/-! The gate: a handler checks `approved` and then records the key as
pending; `approve` appends the key and then forgets it. The two files have no
common lock. A key is left approved and pending at once when a handler's
record lands after the key was approved, or when either list is replaced by
one made from an older copy. -/
namespace Egdod.State

open Text Posix StepSystem

variable {K : Type}

/-- The key a call records as pending. -/
def Call.records : Call K → Option K
  | .accept key => some key
  | .recordPending key => some key
  | _ => none

section
variable [KeyText K]

/-- What an operation leaves in the list. -/
theorem listed_apply {op : PendingOp K} {now : UInt64} {list : List PendingAgent} {k : Str}
    (h : Listed k (op.apply now list)) :
    Listed k list ∨ ∃ key, op = .record key ∧ k = text key := by
  cases op with
  | record key =>
    rcases listed_recorded h with rfl | h
    · exact .inr ⟨key, rfl, rfl⟩
    · exact .inl h
  | forget key => exact .inl (listed_forgotten.mp h).2

end

section
variable [DecidableEq K] [KeyText K]

/-- A record of `key` lands only while `key` is not approved. -/
def RecordsUnapproved (d : Dir K) (a : Action K) : Prop :=
  ∀ t n task w key, a = .step t (.ok n) → d.tasks t = some task → task.pc = .rename w →
    w.file = .pending → task.call.records = some key → key ∉ d.approvedNow

/-- What the gate needs of a run. -/
structure GateOk (d : Dir K) (a : Action K) : Prop where
  own : OwnProcess d a
  alone : CreatesAlone .pending d a
  approved : RenamesFresh .approved d a
  pending : RenamesFresh .pending d a
  unapproved : RecordsUnapproved d a

/-- A key has an entry in `pending.json`. -/
def Dir.ListedNow (codec : PendingCodec) (d : Dir K) (key : K) : Prop :=
  ∃ list, d.pendingNow codec = .ok list ∧ Listed (text key) list

/-- An `approve` that still has its key to forget, or failed to. -/
def Task.Forgetting (task : Task K) : Prop :=
  match task.pc with
  | .readPending _ => True
  | .create w => w.file = .pending
  | .write w _ _ => w.file = .pending
  | .rename w => w.file = .pending
  | .returned r => r = none
  | _ => False

/-- A write of `pending.json` applies its call's operation to what it read. -/
def Write.Applies (codec : PendingCodec) (w : Write K) (call : Call K) : Prop :=
  ∃ op now list, call.At (.readPending op) ∧ pending codec (ofEntry w.read) = .ok list ∧
    w.body = codec.toVecPretty (op.apply now list)

/-- No key is approved and pending unless its `approve` is not done with it. -/
structure Gated (codec : PendingCodec) (d : Dir K) : Prop where
  kept : Kept ∅ d
  exclusive : Exclusive .pending d
  applies : ∀ t task w, d.tasks t = some task → task.writing = some w → w.file = .pending →
    w.Applies codec task.call
  leaves : ∀ key, key ∈ d.approvedNow → d.ListedNow codec key →
    ∃ t task, d.tasks t = some task ∧ task.call = .approve key ∧ task.Forgetting

variable {codec : PendingCodec} {d d' : Dir K} {a : Action K}

/-- An `approve` stops forgetting once its key is not, or no longer, listed. -/
theorem Task.Moves.forgetting {fs fs' : Files Name} {task task' : Task K} {key : K}
    (h : task.Moves codec fs fs' task') (hat : task.call.At task.pc)
    (hcall : task.call = .approve key) (hf : task.Forgetting) :
    task'.Forgetting ∨
    (fs' = fs ∧ ∃ list, pending codec (ofEntry (fs.read (.file .pending))) = .ok list ∧
      ¬ Listed (text key) list) ∨
    ∃ w, task.pc = .rename w ∧ w.file = .pending ∧
      fs.rename (uniqueTmp w.file task.pid) (.file w.file) = some fs' := by
  cases h with
  | failed => exact .inl rfl
  | ensuredApprove hpc | ensuredRecord hpc | already hpc | absent hpc | appended hpc
  | admitted hpc | knocked hpc =>
    simp [Task.Forgetting, hpc] at hf
  | noted | dropped => exact .inl rfl
  | @unlisted k list hpc hl hnot =>
    rw [hpc, hcall] at hat
    have hk : key = k := by simpa [Call.At] using hat
    subst hk
    exact .inr (.inl ⟨rfl, list, hl, hnot⟩)
  | opened hpc | wrote hpc =>
    refine .inl ?_
    simp only [Task.Forgetting, hpc] at hf
    unfold Task.Forgetting staged
    split_ifs <;> exact hf
  | landed hpc hr =>
    simp only [Task.Forgetting, hpc] at hf
    exact .inr (.inr ⟨_, hpc, hf, hr⟩)
  | approved => exact .inl trivial

/-- The pending list changes only when a task applies its operation to it. -/
theorem Gated.pending_step (h : Gated codec d) (hfresh : RenamesFresh .pending d a)
    (hstep : step codec d a = some d') :
    d'.fs.read (.file .pending) = d.fs.read (.file .pending) ∨
    ∃ t n task w op now list, a = .step t (.ok n) ∧ d.tasks t = some task ∧ task.pc = .rename w ∧
      w.file = .pending ∧ task.call.At (.readPending op) ∧ d.pendingNow codec = .ok list ∧
      d'.pendingNow codec = .ok (op.apply now list) := by
  rcases h.exclusive.read_step hstep with
    hsame | ⟨t, n, task, task', w, rfl, ht, _, _, hpc, hw, hread⟩
  · exact .inl hsame
  · obtain ⟨op, now, list, hat, hlist, hbody⟩ :=
      h.applies t task w ht (by simp [Task.writing, hpc]) hw
    refine .inr ⟨t, n, task, w, op, now, list, rfl, ht, hpc, hw, hat, ?_, ?_⟩
    · rw [Dir.pendingNow, Dir.entry, hfresh t n task w rfl ht hpc hw]
      exact hlist
    · simp [Dir.pendingNow, Dir.entry, hread, hbody, ofEntry, pending, codec.roundTrip]

/-- A key that is approved and listed after a step was so before it, unless
the step has just approved it. -/
theorem Gated.before_step (h : Gated codec d) (hok : GateOk d a)
    (hstep : step codec d a = some d') {key : K} (hmem : key ∈ d.approvedNow)
    (hl : d'.ListedNow codec key) : d.ListedNow codec key := by
  obtain ⟨list', hlist', hin⟩ := hl
  rcases h.pending_step hok.pending hstep with hsame |
    ⟨t, n, task, w, op, now, list, ha, ht, hpc, hw, hat, hlist, hnew⟩
  · refine ⟨list', ?_, hin⟩
    rwa [Dir.pendingNow, Dir.entry, hsame] at hlist'
  · cases hnew.symm.trans hlist'
    rcases listed_apply hin with hold | ⟨k, rfl, hk⟩
    · exact ⟨list, hlist, hold⟩
    · cases text_injective hk
      have hrec : task.call.records = some key := by
        rcases hat with hcall | hcall <;> simp [hcall, Call.records]
      exact absurd hmem (hok.unapproved t n task w key ha ht hpc hw hrec)

/-- The rename of an `approve` takes its key out of the list. -/
theorem Gated.forgets (h : Gated codec d) {t : Nat} {task : Task K} {key : K} {w : Write K}
    {fs' : Files Name} {tasks : Nat → Option (Task K)} {list : List PendingAgent}
    (ht : d.tasks t = some task) (hcall : task.call = .approve key) (hpc : task.pc = .rename w)
    (hw : w.file = .pending)
    (hr : d.fs.rename (uniqueTmp w.file task.pid) (.file w.file) = some fs')
    (hl : Dir.pendingNow codec ⟨fs', tasks⟩ = .ok list) : ¬ Listed (text key) list := by
  obtain ⟨op, now, old, hat, _, hbody⟩ := h.applies t task w ht (by simp [Task.writing, hpc]) hw
  have hstaged := h.exclusive.staged t task ht
  simp only [Task.StagedOk, hpc] at hstaged
  rw [hw] at hr
  simp only [Dir.pendingNow, Dir.entry, Files.read_rename hr, hstaged hw, hbody, ofEntry, pending,
    codec.roundTrip, Except.ok.injEq] at hl
  subst hl
  rw [hcall] at hat
  cases op with
  | record k => simp [Call.At] at hat
  | forget k =>
    have hk : key = k := by simpa [Call.At] using hat
    subst hk
    exact fun hin => (listed_forgotten.mp hin).1 rfl

theorem Gated.leaves_step (h : Gated codec d) (hok : GateOk d a)
    (hstep : step codec d a = some d') {key : K} (hmem : key ∈ d.approvedNow)
    (hl : d'.ListedNow codec key) :
    ∃ t task, d'.tasks t = some task ∧ task.call = .approve key ∧ task.Forgetting := by
  obtain ⟨u, x, hu, hcall, hf⟩ := h.leaves key hmem (h.before_step hok hstep hmem hl)
  obtain ⟨x', hx', hm | rfl⟩ := step_keeps hstep hu
  · obtain ⟨list', hlist', hin⟩ := hl
    rcases hm.forgetting (h.kept.controlled u x hu) hcall hf with
      hf' | ⟨hfs, list, hlist, hnot⟩ | ⟨w, hpc, hw, hr⟩
    · exact ⟨u, x', hx', hm.call.trans hcall, hf'⟩
    · rw [Dir.pendingNow, Dir.entry, hfs] at hlist'
      cases hlist.symm.trans hlist'
      exact absurd hin hnot
    · exact absurd hin (h.forgets hu hcall hpc hw hr hlist')
  · exact ⟨u, x', hx', hcall, hf⟩

theorem Gated.step (h : Gated codec d) (hok : GateOk d a) (hstep : step codec d a = some d') :
    Gated codec d' := by
  refine ⟨h.kept.step hok.own hok.approved hstep, h.exclusive.step hok.alone hstep, ?_, ?_⟩
  · intro u x w hu hx hw
    obtain ⟨task, ht, hcall, _, hwrite⟩ := step_writing hstep hu hx
    rcases hwrite with hold | ⟨_, _, _, _, _, rfl⟩ | ⟨op, now, list, hpc, hlist, _, rfl⟩
    · rw [hcall]
      exact h.applies u task w ht hold hw
    · cases hw
    · have hat := h.kept.controlled u task ht
      rw [hpc] at hat
      exact ⟨op, now, list, hcall ▸ hat, hlist, rfl⟩
  · intro key hmem hl
    rcases h.kept.gains hok.approved hstep with heq | ⟨t, task, k, ht, hcall, hpc, heq⟩
    · exact h.leaves_step hok hstep (heq ▸ hmem) hl
    · rcases Finset.mem_insert.mp (heq ▸ hmem) with rfl | hold
      · exact ⟨t, task, ht, hcall, by simp [Task.Forgetting, hpc]⟩
      · exact h.leaves_step hok hstep hold hl

/-- Run theorem: from an empty directory and under `GateOk`, a key is never
approved and pending in a state where every call has returned and no
`approve` returned an error. -/
theorem approved_not_pending {as : List (Action K)}
    (h : Steps (State.step codec) GateOk (Dir.before Files.empty) as d)
    (rest : ∀ t task, d.tasks t = some task → ∃ r, task.pc = .returned r ∧
      (∀ key, task.call = .approve key → r ≠ none)) (key : K) :
    ¬ (key ∈ d.approvedNow ∧ d.ListedNow codec key) := by
  rintro ⟨hmem, hl⟩
  have hg : Gated codec d :=
    h.invariant (fun _ _ _ hok hstep hi => hi.step hok hstep)
      ⟨kept_before Files.empty, .before _ _, by simp [Dir.before], fun key hmem => by
        simp [Dir.approvedNow, Dir.before, Dir.entry, Files.empty, Files.read, Files.stat, ofEntry,
          approvedSet, approved, readToString] at hmem⟩
  obtain ⟨t, task, ht, hcall, hf⟩ := hg.leaves key hmem hl
  obtain ⟨r, hpc, hr⟩ := rest t task ht
  simp only [Task.Forgetting, hpc] at hf
  exact hr key hcall hf

/-- Whether an action lands no record of an approved key. -/
def Dir.recordsUnapproved (d : Dir K) : Action K → Bool
  | .step t (.ok _) =>
    match d.tasks t with
    | some ⟨_, call, .rename w, _⟩ => w.file ≠ .pending ∨ call.records.all (· ∉ d.approvedNow)
    | _ => true
  | _ => true

theorem recordsUnapproved_of (h : d.recordsUnapproved a = true) : RecordsUnapproved d a := by
  rintro t n ⟨pid, call, pc, wrote⟩ w key rfl ht rfl hw hrec
  dsimp only at hrec
  simpa [Dir.recordsUnapproved, ht, hw, hrec] using h

/-- `GateOk` over the first `n` tasks. -/
def Dir.gateOk (n : Nat) (d : Dir K) (a : Action K) : Bool :=
  d.freshApprove n a && d.createsAlone n .pending a && d.freshFor .pending a &&
    d.recordsUnapproved a

theorem steps_gateOk {n : Nat} {as : List (Action K)}
    (h : run (fun d a => if d.gateOk n a then State.step codec d a else none)
      (Dir.before Files.empty) as = some d) :
    Steps (State.step codec) GateOk (Dir.before Files.empty) as d ∧ d.Within n := by
  have hsteps : Steps (State.step codec) (fun d a => GateOk d a ∧ a.task < n)
      (Dir.before Files.empty) as d := by
    refine Steps.of_checked (I := Dir.Within n) (fun d a d' hc hstep hi => ?_) (fun d a hc hi => ?_)
      (fun _ _ => rfl) h <;>
    simp only [Dir.gateOk, Dir.freshApprove, Bool.and_eq_true, decide_eq_true_eq] at hc
    · exact hi.step hc.1.1.1.1.1 hstep
    · exact ⟨⟨ownProcess_of_within hi hc.1.1.1.1.2, createsAlone_of_within hi hc.1.1.2,
        renamesFresh_of_freshFor hc.1.1.1.2, renamesFresh_of_freshFor hc.1.2,
        recordsUnapproved_of hc.2⟩, hc.1.1.1.1.1⟩
  exact ⟨hsteps.mono fun _ _ h => h.1,
    hsteps.invariant (fun _ _ _ hok hstep hi => hi.step hok.2 hstep) (fun _ _ => rfl)⟩

end

/-- An `approve` of process `pid` from its start to the read before it forgets. -/
def approveCall (t pid : Nat) (key : NodeId) : List (Action NodeId) :=
  [.start t pid (.approve key), .step t (.ok 0), .step t (.ok 0), .step t (.ok 0),
    .step t (.ok 0), .step t (.ok 65), .step t (.ok 0), .step t (.ok 0)]

/-- A key knocks, is recorded, and is then approved. -/
def knockThenApprove : List (Action NodeId) :=
  knock 0 1 (.filled 1) ++ [.step 0 (.ok 0)] ++ approveCall 1 2 (.filled 1) ++
    [.step 1 (.ok 0), .step 1 (.ok 2), .step 1 (.ok 0)]

theorem approved_not_pending_knockThenApprove :
    ∃ d, Steps (step serdeJson) GateOk (Dir.before Files.empty) knockThenApprove d ∧
      d.approvedNow = {.filled 1} ∧
      ¬ (.filled 1 ∈ d.approvedNow ∧ d.ListedNow serdeJson (.filled 1)) := by
  have hrun : (run (fun d a => if d.gateOk 2 a then step serdeJson d a else none)
      (Dir.before Files.empty) knockThenApprove).map
        (fun d => ((d.tasks 0).bind (·.result), (d.tasks 1).bind (·.result), d.approvedNow)) =
      some (some (some true), some (some true), {NodeId.filled 1}) := by
    decide +kernel
  obtain ⟨d, hd, hend⟩ := Option.map_eq_some_iff.mp hrun
  obtain ⟨h₀, h₁, hset⟩ : (d.tasks 0).bind (·.result) = some (some true) ∧
      (d.tasks 1).bind (·.result) = some (some true) ∧ d.approvedNow = {NodeId.filled 1} := by
    simpa using hend
  obtain ⟨hsteps, hwithin⟩ := steps_gateOk hd
  refine ⟨d, hsteps, hset, approved_not_pending hsteps (fun t task ht => ?_) _⟩
  have hres : task.result = some (some true) := by
    have hlt := hwithin.lt_of_task ht
    interval_cases t
    · simpa [ht] using h₀
    · simpa [ht] using h₁
  exact ⟨some true, pc_of_result hres, by simp⟩

/-- A handler checks before and records after a whole `approve` of the key:
every call returns without error, the key is approved and listed. -/
theorem approved_left_pending :
    ((run (step serdeJson) (Dir.before Files.empty)
      ([.start 0 1 (.accept (NodeId.filled 1)), .step 0 (.ok 0)] ++ approveCall 1 2 (.filled 1) ++
        [.step 0 (.ok 0), .step 0 (.ok 7), .step 0 (.ok 0), .step 0 (.ok 162),
          .step 0 (.ok 0)])).map
      fun d => ((d.tasks 0).bind (·.result), (d.tasks 1).bind (·.result), d.approvedNow,
        (d.pendingNow serdeJson).toOption)) =
      some (some (some true), some (some true), {NodeId.filled 1},
        some [⟨text (NodeId.filled 1), 7, 7, 1⟩]) := by
  decide +kernel

end Egdod.State
