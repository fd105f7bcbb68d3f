import Egdod.State.Alone
import Egdod.State.Approve
import Egdod.State.SerdeJson

/-! `approve` with the directory to itself. It reads `approved` twice, with
two policies about failure, replaces it, and then revises `pending.json`.
Where nothing fails it adds its key to the list and takes it off the other. -/
namespace Egdod.State

open Text Posix StepSystem

section
variable {K : Type} [DecidableEq K] [KeyText K]

/-- `StateDir::approved` of the directory as it is. -/
def approvedIn (fs : Files Name) : Except IoError (Finset K) :=
  approved (ofEntry (fs.read (.file .approved)))

/-- The keys `approved` puts in force. -/
def keysIn (fs : Files Name) : Finset K := approvedSet (ofEntry (fs.read (.file .approved)))

/-- The write `approve` makes of what its second read gave: the file as it
was found, or nothing where a fault let the read fail. -/
structure Drafts (fs₀ : Files Name) (key : K) (faulty : Prop) (w : Write K) : Prop where
  file : w.file = .approved
  forget : w.forget = some key
  extension : w.Extends key
  fresh : key ∉ keysIn (K := K) fs₀
  read : w.read = fs₀.read (.file .approved) ∨ faulty ∧ w.read = none

/-- How far `approve` has got that found the directory as `fs₀`. -/
inductive Approving (codec : PendingCodec) (fs₀ : Files Name) (pid : Nat) (key : K)
    (faulty : Prop) : Files Name → Pc K → Prop
  | readying : Approving codec fs₀ pid key faulty fs₀ (.ensureApprove key)
  | reading : Approving codec fs₀ pid key faulty fs₀ (.readApproved key)
  | already : key ∈ keysIn (K := K) fs₀ →
      Approving codec fs₀ pid key faulty fs₀ (.returned (some false))
  | rereading {set} : approvedIn fs₀ = .ok set → key ∉ set →
      Approving codec fs₀ pid key faulty fs₀ (.rereadApproved key)
  | appending {w fs pc} : Drafts fs₀ key faulty w → Underway fs₀ pid w fs pc →
      Approving codec fs₀ pid key faulty fs pc
  | forgetting {w base fs pc} : Drafts fs₀ key faulty w →
      base.read (.file .approved) = some w.body → Files.SameAt fs₀ base (.file .pending) →
      Revising codec base pid (.forget key) fs pc → Approving codec fs₀ pid key faulty fs pc
  | failed {fs} : faulty ∨ key ∉ keysIn (K := K) fs₀ →
      (∀ f, Files.SameAt fs₀ fs (.file f)) → Approving codec fs₀ pid key faulty fs (.returned none)

variable {codec : PendingCodec} {fs₀ fs fs' : Files Name} {pid : Nat} {key : K} {faulty : Prop}
  {w : Write K} {task task' : Task K} {o : Outcome}

theorem keysIn_of_approvedIn {set : Finset K} (h : approvedIn fs = .ok set) :
    keysIn fs = set := by
  unfold approvedIn at h
  simp [keysIn, approvedSet, h]

theorem keysIn_eq_empty {e : IoError} (h : (approvedIn fs : Except IoError (Finset K)) = .error e) :
    (keysIn fs : Finset K) = ∅ := by
  unfold approvedIn at h
  simp [keysIn, approvedSet, h]

/-- Where the first read worked, the second one that works finds the same. -/
theorem read_eq_none_of_approvedIn {set : Finset K} {e : IoError} (h : approvedIn fs = .ok set)
    (he : readToString (ofEntry (fs.read (.file .approved))) = .error e) :
    fs.read (.file .approved) = none := by
  unfold approvedIn approved at h
  rw [he] at h
  cases hread : fs.read (.file .approved) with
  | none => rfl
  | some bytes =>
    simp only [hread, ofEntry, readToString] at he
    split at he
    · cases he
    · cases he
      cases h

/-- The keys in force once the draft is in place. -/
theorem Drafts.keysIn_of_read (hw : Drafts fs₀ key faulty w)
    (h : fs.read (.file .approved) = some w.body) :
    (keysIn fs : Finset K) = insert key (approvedSet (ofEntry w.read)) := by
  unfold keysIn
  rw [h]
  exact hw.extension.approvedSet

theorem Approving.drafted {set : Finset K} {body : Str} {read : Option Bytes}
    (hset : approvedIn fs = .ok set) (hkey : key ∉ set)
    (hbody : read = none ∧ body = [] ∨ ∃ bytes, read = some bytes ∧ decode bytes = some body)
    (hread : read = fs.read (.file .approved) ∨ faulty ∧ read = none) :
    Approving codec fs pid key faulty fs
      (.create ⟨.approved, encode (appendKey body key), read, some key⟩) :=
  .appending ⟨rfl, rfl, ⟨body, rfl, hbody⟩, by rwa [keysIn_of_approvedIn hset], hread⟩ .create

/-- Step lemma: whatever the call does next, it is on its way. -/
theorem Approving.step (h : Approving codec fs₀ task.pid key faulty fs task.pc)
    (hfault : o = .fail → faulty) (hstep : task.next codec fs o = some (fs', task')) :
    Approving codec fs₀ task.pid key faulty fs' task'.pc := by
  generalize hpc : task.pc = pc at h
  cases h with
  | readying =>
    cases o with
    | fail =>
      simp only [Task.next, hpc, Option.some.injEq, Prod.mk.injEq] at hstep
      obtain ⟨rfl, rfl⟩ := hstep
      exact .failed (.inl (hfault rfl)) fun _ => .refl _ _
    | ok n =>
      simp only [Task.next, hpc, Option.some.injEq, Prod.mk.injEq] at hstep
      obtain ⟨rfl, rfl⟩ := hstep
      exact .reading
  | reading =>
    cases o with
    | fail =>
      simp only [Task.next, hpc, Option.some.injEq, Prod.mk.injEq] at hstep
      obtain ⟨rfl, rfl⟩ := hstep
      exact .failed (.inl (hfault rfl)) fun _ => .refl _ _
    | ok n =>
      simp only [Task.next, hpc] at hstep
      split at hstep
      · rename_i e he
        cases hstep
        exact .failed (.inr (by simp [keysIn_eq_empty he])) fun _ => .refl _ _
      · rename_i set hset
        have hkeys := keysIn_of_approvedIn (K := K) hset
        split_ifs at hstep with hmem
        · cases hstep
          exact .already (by rwa [hkeys])
        · cases hstep
          exact .rereading hset hmem
  | rereading hset hmem =>
    cases o with
    | fail =>
      simp only [Task.next, hpc, Option.some.injEq, Prod.mk.injEq] at hstep
      obtain ⟨rfl, rfl⟩ := hstep
      exact .drafted hset hmem (.inl ⟨rfl, rfl⟩) (.inr ⟨hfault rfl, rfl⟩)
    | ok n =>
      simp only [Task.next, hpc] at hstep
      split at hstep
      · rename_i e he
        cases hstep
        exact .drafted hset hmem (.inl ⟨rfl, rfl⟩) (.inl (read_eq_none_of_approvedIn hset he).symm)
      · rename_i body hbody
        obtain ⟨bytes, hr, hd⟩ := readToString_entry hbody
        cases hstep
        exact .drafted hset hmem (.inr ⟨bytes, hr, hd⟩) (.inl rfl)
  | appending hw hu =>
    rw [← hpc] at hu
    rcases hu.step hstep with ⟨ho, hfiles, hpc'⟩ | ⟨_, _, hu'⟩ | ⟨_, _, hl⟩
    · rw [hpc']
      exact .failed (.inl (hfault ho)) hfiles
    · exact .appending hw hu'
    · rw [hl.forgets key hw.forget]
      have hbody := hl.body
      rw [hw.file] at hbody
      exact .forgetting hw hbody (hl.others _ (by simp [hw.file])) .reading
  | forgetting hw hbody hpending hrev =>
    rw [← hpc] at hrev
    exact .forgetting hw hbody hpending (hrev.step hstep).1
  | already | failed => exact absurd hpc (Task.next_moves hstep |>.not_returned _)

/-- Nothing but a fault stops the call where both files can be read. -/
theorem Approving.not_failed {set : Finset K} {list : List PendingAgent}
    (h : Approving codec fs₀ task.pid key faulty fs task.pc) (hset : approvedIn fs₀ = .ok set)
    (hlist : pending codec (ofEntry (fs₀.read (.file .pending))) = .ok list) (ho : o ≠ .fail)
    (hstep : task.next codec fs o = some (fs', task')) : task'.pc ≠ .returned none := by
  generalize hpc : task.pc = pc at h
  cases h with
  | readying =>
    cases o with
    | fail => exact absurd rfl ho
    | ok n =>
      simp only [Task.next, hpc, Option.some.injEq, Prod.mk.injEq] at hstep
      simp [← hstep.2]
  | reading =>
    cases o with
    | fail => exact absurd rfl ho
    | ok n =>
      unfold approvedIn at hset
      simp only [Task.next, hpc, hset] at hstep
      split_ifs at hstep <;> cases hstep <;> simp
  | rereading =>
    cases o with
    | fail => exact absurd rfl ho
    | ok n =>
      simp only [Task.next, hpc] at hstep
      split at hstep <;> cases hstep <;> simp
  | appending hw hu =>
    rw [← hpc] at hu
    rcases hu.step hstep with ⟨hfail, _, _⟩ | ⟨_, _, hu'⟩ | ⟨_, _, hl⟩
    · exact absurd hfail ho
    · exact hu'.not_returned _
    · simp [hl.forgets key hw.forget]
  | forgetting _ _ hpending hrev =>
    rw [← hpc] at hrev
    rw [← hpending.read] at hlist
    simp [(hrev.step hstep).2, hrev.pendingWorks_of_ok hlist ho]
  | already | failed => exact absurd hpc (Task.next_moves hstep |>.not_returned _)

theorem Task.next_pid (hstep : task.next codec fs o = some (fs', task')) :
    task'.pid = task.pid := by
  cases Task.next_moves hstep <;> rfl

/-- A call that is not writing changes no file. -/
theorem Task.next_files (hpc : task.writing = none)
    (hstep : task.next codec fs o = some (fs', task')) : fs' = fs := by
  rcases Task.Moves.files (d := ⟨fs, fun _ => none⟩) (Task.next_moves hstep) with
    hfs | ⟨w, hw, _⟩ | ⟨w, fd, off, n, hw, _⟩ | ⟨w, hw, _⟩
  · exact hfs
  all_goals simp [Task.writing, hw] at hpc

/-- The states `approve` goes through. -/
def ApprovingAt (codec : PendingCodec) (fs₀ : Files Name) (key : K) (faulty : Prop)
    (s : Files Name × Task K) : Prop := Approving codec fs₀ s.2.pid key faulty s.1 s.2.pc

theorem ApprovingAt.begin (codec : PendingCodec) (fs₀ : Files Name) (pid : Nat) (key : K)
    (faulty : Prop) : ApprovingAt codec fs₀ key faulty (fs₀, (Call.approve key).begin pid) :=
  .readying

theorem ApprovingAt.step {s s' : Files Name × Task K} (h : ApprovingAt codec fs₀ key faulty s)
    (hfault : o = .fail → faulty) (hstep : aloneStep codec s o = some s') :
    ApprovingAt codec fs₀ key faulty s' := by
  unfold ApprovingAt
  rw [Task.next_pid hstep]
  exact Approving.step h hfault hstep

/-! ## How long it takes -/

/-- The file system calls a task has left at most, with `a` bytes to write to
`approved` and `p` to `pending.json`. -/
def Pc.left (a p : Nat) : Pc K → Nat
  | .ensureApprove _ => a + p + 10
  | .ensureRecord _ => p + 5
  | .readApproved _ => a + p + 9
  | .rereadApproved _ => a + p + 8
  | .checkApproved _ => p + 6
  | .readPending _ => p + 4
  | .create w => w.body.length + 3 + (if w.forget = none then 0 else p + 4)
  | .write w _ off => w.body.length - off + 2 + (if w.forget = none then 0 else p + 4)
  | .rename w => 1 + (if w.forget = none then 0 else p + 4)
  | .returned _ => 0

omit [DecidableEq K] [KeyText K] in
theorem left_staged (a p : Nat) (w : Write K) (fd off : Nat) :
    (staged w fd off).left a p ≤
      w.body.length - off + 2 + (if w.forget = none then 0 else p + 4) := by
  unfold staged
  split_ifs with hoff <;> simp only [Pc.left] <;> split_ifs <;> omega

omit [DecidableEq K] [KeyText K] in
theorem left_pos {pc : Pc K} (a p : Nat) (h : ∀ r, pc ≠ .returned r) : 0 < pc.left a p := by
  cases pc with
  | returned r => exact absurd rfl (h r)
  | _ => simp only [Pc.left]; omega

/-- Every file system call uses one up, if the bodies are as announced. -/
theorem Task.next_left {a p : Nat} (hstep : task.next codec fs o = some (fs', task'))
    (hbody : ∀ w, task'.pc = .create w → w.body.length ≤ if w.forget = none then p else a) :
    task'.pc.left a p < task.pc.left a p := by
  by_cases hwrite : ∃ w fd off, task.pc = .write w fd off
  · obtain ⟨w, fd, off, hpc⟩ := hwrite
    cases o with
    | fail =>
      simp only [Task.next, hpc, Option.some.injEq, Prod.mk.injEq] at hstep
      obtain ⟨rfl, rfl⟩ := hstep
      exact left_pos a p (by simp [hpc])
    | ok n =>
      simp only [Task.next, hpc, Option.ite_none_right_eq_some, Option.some.injEq,
        Prod.mk.injEq] at hstep
      obtain ⟨⟨hn, _⟩, rfl, rfl⟩ := hstep
      have hstaged := left_staged a p w fd (off + n.toNat)
      simp only [hpc, Pc.left] at hstaged ⊢
      omega
  · cases Task.next_moves hstep with
    | failed hpc => exact left_pos a p hpc
    | already hpc | admitted hpc | unlisted hpc | landed hpc => exact left_pos a p (by simp [hpc])
    | ensuredApprove hpc | ensuredRecord hpc | absent hpc | knocked hpc => simp [hpc, Pc.left]
    | appended hpc =>
      have hlen := hbody _ rfl
      simp only [hpc, Pc.left, reduceCtorEq, if_false] at hlen ⊢
      omega
    | noted hpc | dropped hpc =>
      have hlen := hbody _ rfl
      simp only [hpc, Pc.left, stagePending, if_true] at hlen ⊢
      omega
    | @opened w hpc =>
      have hstaged := left_staged a p w (fs.openTrunc (uniqueTmp w.file task.pid) 0o644).2 0
      simp only [hpc, Pc.left] at hstaged ⊢
      omega
    | wrote hpc => exact absurd ⟨_, _, _, hpc⟩ hwrite
    | approved hpc _ hf => simp [hpc, Pc.left, hf]

/-- The body `approve` writes to `approved` when nothing fails. -/
theorem Drafts.body_eq {old : Option Str} (hw : Drafts fs₀ key False w)
    (hold : fs₀.read (.file .approved) = old.map encode) :
    w.body = encode (appendKey (old.getD []) key) := by
  obtain ⟨body, hbody, hread⟩ := hw.extension
  have hw' : w.read = old.map encode := (hw.read.resolve_right fun h => h.1).trans hold
  rw [hbody]
  cases old with
  | none =>
    rcases hread with ⟨_, rfl⟩ | ⟨bytes, hr, _⟩
    · rfl
    · cases hr.symm.trans hw'
  | some txt =>
    rcases hread with ⟨hr, _⟩ | ⟨bytes, hr, hd⟩
    · cases hr.symm.trans hw'
    · cases hr.symm.trans hw'
      rw [decode_encode] at hd
      cases hd
      rfl

/-- A write that is about to start is one of two. -/
theorem Approving.create_body {old : Option Str} {list : List PendingAgent}
    (hold : fs₀.read (.file .approved) = old.map encode)
    (hlist : ∀ l, pending codec (ofEntry (fs₀.read (.file .pending))) = .ok l → l = list)
    (h : Approving codec fs₀ pid key False fs (.create w)) :
    w.body.length ≤ if w.forget = none then (codec.toVecPretty (forgotten (text key) list)).length
      else (encode (appendKey (old.getD []) key)).length := by
  cases h with
  | appending hw hu =>
    cases hu
    simp [hw.forget, hw.body_eq hold]
  | forgetting _ _ hpending hrev =>
    cases hrev with
    | writing now hl hu =>
      cases hu
      rw [hpending.read] at hl
      simp [PendingOp.apply, hlist _ hl]

/-- Until it returns, `approve` can go on without a failure. -/
theorem Approving.enabled (h : Approving codec fs₀ task.pid key faulty fs task.pc)
    (hr : task.result = none) : (task.next codec fs (.ok 1)).isSome := by
  generalize hpc : task.pc = pc at h
  cases h with
  | readying => simp [Task.next, hpc]
  | reading =>
    simp only [Task.next, hpc]
    split
    · rfl
    · split_ifs <;> rfl
  | rereading =>
    simp only [Task.next, hpc]
    split <;> rfl
  | appending _ hu =>
    rw [← hpc] at hu
    exact hu.enabled
  | forgetting _ _ _ hrev =>
    rw [← hpc] at hrev
    exact hrev.enabled hr
  | already | failed => simp [Task.result, hpc] at hr

/-! ## Without faults -/

theorem approved_encode (body : Str) :
    approved (.ok (encode body)) = .ok (approvedKeys body : List K).toFinset := by
  simp [approved, readToString]

theorem approvedIn_of_read {old : Option Str}
    (hold : fs.read (.file .approved) = old.map encode) :
    approvedIn fs = .ok (approvedKeys (old.getD []) : List K).toFinset := by
  unfold approvedIn
  rw [hold]
  cases old with
  | none => rfl
  | some body => exact approved_encode body

omit [DecidableEq K] in
theorem exists_appendKey (body : Str) (key : K) : ∃ added, appendKey body key = body ++ added := by
  unfold appendKey
  dsimp only
  split_ifs
  · exact ⟨_, List.append_assoc _ _ _⟩
  · exact ⟨_, rfl⟩

/-- What `approve` leaves when it returns and nothing failed. -/
theorem Approving.returned {old : Option Str} {r : Option Bool}
    (hold : fs₀.read (.file .approved) = old.map encode)
    (h : Approving codec fs₀ pid key False fs (.returned r)) :
    (r = some true →
      fs.read (.file .approved) = some (encode (appendKey (old.getD []) key)) ∧
      ∃ list, pending codec (ofEntry (fs₀.read (.file .pending))) = .ok list ∧
        pending codec (ofEntry (fs.read (.file .pending))) = .ok (forgotten (text key) list)) ∧
    (r = some false ↔ key ∈ (keysIn fs₀ : Finset K)) ∧ (r = some false → fs = fs₀) := by
  cases h with
  | already hmem => simp [hmem]
  | appending _ hu => exact absurd rfl (hu.not_returned _)
  | failed hfresh =>
    have := hfresh.resolve_left id
    simp [this]
  | forgetting hw hbody hpending hrev =>
    have hread := hrev.sameAt_approved.read.trans hbody
    rw [hw.body_eq hold] at hread
    cases hrev with
    | writing _ _ hu => exact absurd rfl (hu.not_returned _)
    | failed => simp [hw.fresh]
    | done now hl hl' _ =>
      rw [hpending.read] at hl
      simp only [hw.fresh, Option.some.injEq, Bool.true_eq_false, iff_self, false_imp_iff, and_true,
        forall_const]
      exact ⟨hread, _, hl, hl'⟩

/-- `approve` makes a bounded number of calls: one for every byte of the two files it stages,
and a fixed number besides. -/
theorem exists_approve_bound (codec : PendingCodec) (pid : Nat) (key : K) {old : Option Str}
    (hold : fs₀.read (.file .approved) = old.map encode) :
    ∃ bound, ∀ os s, Steps (aloneStep codec) Works (fs₀, (Call.approve key).begin pid) os s →
      os.length ≤ bound := by
  obtain ⟨list, hlist⟩ : ∃ list, ∀ l,
      pending codec (ofEntry (fs₀.read (.file .pending))) = .ok l → l = list := by
    cases hp : pending codec (ofEntry (fs₀.read (.file .pending))) with
    | error e => exact ⟨[], nofun⟩
    | ok l => exact ⟨l, fun l' h => (Except.ok.inj h).symm⟩
  let left (s : Files Name × Task K) : Nat := s.2.pc.left
    (encode (appendKey (old.getD []) key)).length
    (codec.toVecPretty (forgotten (text key) list)).length
  have hleft : ∀ s o t, Works s o → aloneStep codec s o = some t →
      ApprovingAt codec fs₀ key False s → left t < left s := by
    intro s o t hok hstep hs
    refine Task.next_left hstep fun w hw => ?_
    have ht := hs.step hok hstep
    unfold ApprovingAt at ht
    rw [hw] at ht
    exact ht.create_body hold hlist
  refine ⟨left (fs₀, (Call.approve key).begin pid), fun os s hsteps => ?_⟩
  have hsum := hsteps.length_add_le left (fun s o t hok hstep hs => hs.step hok hstep) hleft
    (ApprovingAt.begin codec fs₀ pid key False)
  exact le_trans (Nat.le_add_right _ _) hsum

/-- With nothing failing, `approve` returns. `Ok(true)` has added its key to
whatever text there was, keeping that text as it stood, and has dropped the
key from the pending list; `Ok(false)` means the key was there, and changes
nothing. -/
theorem approve_adds_one {old : Option Str}
    (hold : fs₀.read (.file .approved) = old.map encode) :
    (∃ bound, ∀ os s, Steps (aloneStep codec) Works (fs₀, (Call.approve key).begin pid) os s →
      os.length ≤ bound ∧
        (s.2.result = none → ∃ o, Works s o ∧ (aloneStep codec s o).isSome = true)) ∧
    ∀ os s r, Steps (aloneStep codec) Works (fs₀, (Call.approve key).begin pid) os s →
      s.2.result = some r →
      (r = some true →
        (∃ set : Finset K, approvedIn fs₀ = .ok set ∧ approvedIn s.1 = .ok (insert key set)) ∧
        (∃ added, s.1.read (.file .approved) = some (encode (old.getD []) ++ added)) ∧
        ∃ list, pending codec (ofEntry (fs₀.read (.file .pending))) = .ok list ∧
          pending codec (ofEntry (s.1.read (.file .pending))) =
            .ok (list.filter (·.pubkey ≠ text key))) ∧
      (r = some false ↔ key ∈ (keysIn fs₀ : Finset K)) ∧ (r = some false → s.1 = fs₀) := by
  have hs : ∀ {os s}, Steps (aloneStep codec) Works (fs₀, (Call.approve key).begin pid) os s →
      ApprovingAt codec fs₀ key False s := fun hsteps =>
    hsteps.invariant (fun s o t hok hstep hs => hs.step hok hstep)
      (ApprovingAt.begin codec fs₀ pid key False)
  constructor
  · obtain ⟨bound, hbound⟩ := exists_approve_bound codec pid key hold
    refine ⟨bound, fun os s hsteps => ⟨hbound os s hsteps, fun hr => ?_⟩⟩
    exact ⟨.ok 1, nofun, (hs hsteps).enabled hr⟩
  · intro os s r hsteps hr
    have hend := hs hsteps
    unfold ApprovingAt at hend
    rw [pc_of_result hr] at hend
    obtain ⟨htrue, hfalse, hsame⟩ := hend.returned hold
    refine ⟨fun ht => ?_, hfalse, hsame⟩
    obtain ⟨hread, hpending⟩ := htrue ht
    refine ⟨⟨_, approvedIn_of_read hold, ?_⟩, ?_, hpending⟩
    · have hnew : s.1.read (.file .approved) =
          (some (appendKey (old.getD []) key)).map encode := hread
      rw [approvedIn_of_read hnew, Option.getD_some, approvedKeys_appendKey]
      exact congrArg _ (Finset.ext fun k => by simp)
    · obtain ⟨added, hadded⟩ := exists_appendKey (old.getD []) key
      exact ⟨encode added, by rw [hread, hadded, encode_append]⟩

/-- A list edited by hand: a comment, CRLF, a note after a key, no newline at
the end. -/
def edited : Str :=
  "# mine\r\n".toList ++ text (NodeId.filled 1) ++ " laptop".toList

def editedFiles : Files Name :=
  (Files.empty.create (.file .approved) 0o644).pwrite 0 0 (encode edited)

theorem approve_adds_one_edited :
    ∃ s, Steps (aloneStep serdeJson) Works
        (editedFiles, (Call.approve (NodeId.filled 3)).begin 7)
        [.ok 0, .ok 0, .ok 0, .ok 0, .ok 145, .ok 0, .ok 0] s ∧
      s.2.result = some (some true) ∧
      (∃ set : Finset NodeId, approvedIn editedFiles = .ok set ∧
        approvedIn s.1 = .ok (insert (NodeId.filled 3) set)) ∧
      ∃ added, s.1.read (.file .approved) = some (encode edited ++ added) := by
  have hrun : (run (aloneStep serdeJson)
      (editedFiles, (Call.approve (NodeId.filled 3)).begin 7)
      [.ok 0, .ok 0, .ok 0, .ok 0, .ok 145, .ok 0, .ok 0]).map (·.2.result) =
      some (some (some true)) := by
    decide +kernel
  obtain ⟨s, hs, hres⟩ := Option.map_eq_some_iff.mp hrun
  have hsteps : Steps (aloneStep serdeJson) Works _ _ s :=
    .of_run (fun o ho _ => by rintro rfl; simp at ho) hs
  have hold : editedFiles.read (.file .approved) = (some edited).map encode := by decide +kernel
  obtain ⟨hset, hadded, _⟩ := ((approve_adds_one hold).2 _ s _ hsteps hres).1 rfl
  exact ⟨s, hsteps, hres, hset, hadded⟩

end

end Egdod.State
