import Egdod.State.Serial

/-! An agent that knocked. `record_pending` adds the entry and evicts in the
same call, the oldest by the clock first, so the entry just added goes if the
list is full and the clock reads less than every time in it. -/
namespace Egdod.State

open Text Posix StepSystem

/-! ## The full list -/

section
variable {list : List PendingAgent}

/-- An entry at the end of a full list: it stays if it is no older than some
other, and is itself the one evicted if it is older than all. -/
theorem evict_snoc (new : PendingAgent) (hlen : list.length = pendingLimit) :
    ((∃ q ∈ list, q.lastSeenUnix ≤ new.lastSeenUnix) → new ∈ evict (list ++ [new])) ∧
    ((∀ q ∈ list, new.lastSeenUnix < q.lastSeenUnix) → ∀ p ∈ evict (list ++ [new]), p ∈ list) := by
  let le (p q : PendingAgent) : Bool := p.lastSeenUnix ≤ q.lastSeenUnix
  have hevict : evict (list ++ [new]) = ((list ++ [new]).mergeSort le).tail := by
    have hover : (list ++ [new]).length > pendingLimit := by simp [hlen]
    have hone : (list ++ [new]).length - pendingLimit = 1 := by simp [hlen]
    rw [evict, if_pos hover, hone, List.drop_one]
  have hperm := List.mergeSort_perm (list ++ [new]) le
  have hsorted := List.pairwise_mergeSort lastSeen_trans lastSeen_total (list ++ [new])
  obtain ⟨first, rest, hsort⟩ : ∃ first rest, (list ++ [new]).mergeSort le = first :: rest :=
    List.exists_cons_of_ne_nil (by simp [← List.length_pos_iff, List.length_mergeSort])
  rw [hevict, hsort, List.tail_cons]
  constructor
  · -- the sort is stable, so the older entry still comes before the new one
    rintro ⟨q, hq, hle⟩
    have hpair : [q, new].Sublist (list ++ [new]) :=
      (List.singleton_sublist.mpr hq).append (.refl [new])
    have hkept :=
      List.pair_sublist_mergeSort lastSeen_trans lastSeen_total (decide_eq_true hle) hpair
    rw [hsort] at hkept
    cases hkept with
    | cons _ h => exact h.subset (by simp)
    | cons_cons _ h => exact h.subset (by simp)
  · intro hall p hp
    rw [hsort] at hperm hsorted
    have hfirst : first = new := by
      rcases List.mem_append.mp (hperm.subset List.mem_cons_self) with hmem | hmem
      · have hold := hall first hmem
        have hnew : new ∈ first :: rest :=
          hperm.symm.subset (List.mem_append_right list (List.mem_singleton.mpr rfl))
        rcases List.mem_cons.mp hnew with heq | hrest
        · exact heq.symm
        · have hle := of_decide_eq_true (List.rel_of_pairwise_cons hsorted hrest)
          exact absurd hold (UInt64.not_lt.mpr hle)
      · exact List.mem_singleton.mp hmem
    subst hfirst
    exact ((hperm.trans List.perm_append_comm).cons_inv).subset hp

end

/-- The key that knocked is in the book it leaves exactly if the book was not
full, had it already, or has an entry no younger than the knock. -/
theorem Book.listed_record_iff (b : Book) (key : Str) (now : UInt64) :
    Listed key (b.record key now).entries ↔
      b.entries.length < pendingLimit ∨ Listed key b.entries ∨
        ∃ q ∈ b.entries, q.lastSeenUnix ≤ now := by
  have hrecord : (b.record key now).entries = evict (noteAttempt key now b.entries) := rfl
  rw [hrecord]
  by_cases hl : Listed key b.entries
  · -- the list does not grow, so nobody is evicted
    refine iff_of_true ?_ (.inr (.inl hl))
    rw [evict_of_le (length_noteAttempt now hl ▸ b.bounded), listed_iff_mem_pubkeys,
      pubkeys_noteAttempt now hl]
    exact listed_iff_mem_pubkeys.mp hl
  · rw [noteAttempt_of_not_listed hl]
    by_cases hfull : b.entries.length = pendingLimit
    · obtain ⟨hstays, hgoes⟩ := evict_snoc ⟨key, now, now, 1⟩ hfull
      constructor
      · rintro ⟨p, hp, hkey⟩
        refine .inr (.inr ?_)
        by_contra hnone
        refine hl ⟨p, hgoes (fun q hq => ?_) p hp, hkey⟩
        by_contra hle
        exact hnone ⟨q, hq, UInt64.not_lt.mp hle⟩
      · rintro (hlt | hl' | hold)
        · omega
        · exact absurd hl' hl
        · exact ⟨_, hstays hold, rfl⟩
    · have hlt : b.entries.length < pendingLimit := Nat.lt_of_le_of_ne b.bounded hfull
      refine iff_of_true ?_ (.inl hlt)
      rw [evict_of_le (by rw [List.length_append]; exact hlt)]
      exact ⟨_, List.mem_append_right _ (List.mem_singleton.mpr rfl), rfl⟩

/-- Wherever the key is listed after its knock, it is with the time of the knock. -/
theorem Book.lastSeen_record (b : Book) {key : Str} {now : UInt64} {p : PendingAgent}
    (hp : p ∈ (b.record key now).entries) (hkey : p.pubkey = key) : p.lastSeenUnix = now := by
  rcases b.mem_noteAttempt (mem_of_mem_evict hp) with ⟨hne, -⟩ | ⟨-, hnow, -⟩ | ⟨-, hnow, -⟩
  · exact absurd hkey hne
  · exact hnow
  · exact hnow

/-! ## The call -/

section
variable {K : Type} [DecidableEq K] [KeyText K] {codec : PendingCodec} {base fs fs' : Files Name}
  {b : Book} {key : K} {pid : Nat} {n now : UInt64} {w : Write K} {task : Task K}
  {os : List Outcome} {s s' : Files Name × Task K} {o : Outcome}

/-- How far a write that ends its call has got. -/
def Replacing (base : Files Name) (w : Write K) (s : Files Name × Task K) : Prop :=
  Underway base s.2.pid w s.1 s.2.pc ∨ s.2.pc = .returned none ∨ Landed base w s.1 s.2.pc

theorem Replacing.step (hw : w.forget = none) (h : Replacing base w s)
    (hstep : aloneStep codec s o = some s') : Replacing base w s' := by
  have hmoves := Task.next_moves hstep
  rcases h with h | h | h
  · have hpid : s'.2.pid = s.2.pid := Task.next_pid hstep
    rcases h.step hstep with ⟨-, -, hpc⟩ | ⟨-, -, hon⟩ | ⟨-, -, hl⟩
    · exact .inr (.inl hpc)
    · exact .inl (by rwa [hpid])
    · exact .inr (.inr hl)
  · exact absurd h (hmoves.not_returned _)
  · exact absurd (h.returned hw) (hmoves.not_returned _)

/-- Once the directory is there `record_pending` reads the list; its clock
reading is the one the list is written back with. -/
theorem recordPending_read (htidy : Tidy codec fs b) (pid : Nat) (n now : UInt64) (key : K)
    (os : List Outcome) :
    run (aloneStep codec) (fs, (Call.recordPending key).begin pid) (.ok n :: .ok now :: os) =
      run (aloneStep codec) (fs, stagePending codec fs ((Call.recordPending key).begin pid)
        (b.record (text key) now).entries) os := by
  have hlist := htidy.list
  simp only [run, aloneStep, Task.next, Call.begin, Call.entry, hlist, Option.bind_some]
  rfl

omit [DecidableEq K] [KeyText K] in
theorem Landed.tidy {read : Option Bytes} {list : List PendingAgent} {pc : Pc K}
    (htidy : Tidy codec base b) {b' : Book} (hlist : b'.entries = list)
    (h : Landed base ⟨.pending, codec.toVecPretty list, read, none⟩ fs pc) :
    Tidy codec fs b' := by
  refine ⟨?_, ?_⟩
  · rw [h.body, hlist]
    exact pending_toVecPretty codec _
  · rw [(h.others .approved nofun).read]
    exact htidy.approved

/-- A `record_pending` that returns `Ok` has written the list it read back with
its clock reading. -/
theorem takeTurn_recorded (htidy : Tidy codec fs b)
    (h : takeTurn codec fs ⟨pid, .recordPending key, .ok n :: .ok now :: os⟩ =
      some (fs', some true)) :
    Tidy codec fs' (b.record (text key) now) := by
  obtain ⟨s, hrun, hres⟩ := Option.bind_eq_some_iff.mp h
  obtain ⟨r, hr, hs⟩ := Option.map_eq_some_iff.mp hres
  cases hs
  rw [recordPending_read htidy] at hrun
  have hsteps : Steps (aloneStep codec) always _ os s := .of_run (fun _ _ _ => trivial) hrun
  have hend := hsteps.invariant (I := Replacing fs _)
    (fun _ _ _ _ hstep hi => hi.step rfl hstep) (.inl .create)
  rcases hend with hon | hnone | hl
  · exact absurd (pc_of_result hr) (hon.not_returned _)
  · rw [pc_of_result hr] at hnone
    cases hnone
  · exact hl.tidy htidy rfl

/-- A write that nothing fails gets to its end. -/
theorem exists_landed (codec : PendingCodec) (base : Files Name) (hw : w.forget = none)
    (hpc : task.pc = .create w) :
    ∃ os s, Steps (aloneStep codec) Works (base, task) os s ∧ Landed base w s.1 s.2.pc := by
  let goes (s : Files Name × Task K) : Prop :=
    Underway base s.2.pid w s.1 s.2.pc ∨ Landed base w s.1 s.2.pc
  have progress : ∀ s, goes s → ¬ Landed base w s.1 s.2.pc → ∃ o s', Works s o ∧
      aloneStep codec s o = some s' ∧ goes s' ∧
        s'.2.pc.left 0 w.body.length < s.2.pc.left 0 w.body.length := by
    rintro s (hon | hl) hend
    · have henabled : (s.2.next codec s.1 (.ok 1)).isSome = true := hon.enabled
      obtain ⟨s', hstep⟩ := Option.isSome_iff_exists.mp henabled
      have hnext : goes s' := by
        rcases hon.step hstep with ⟨hfail, -⟩ | ⟨-, -, hon'⟩ | ⟨-, -, hl⟩
        · cases hfail
        · exact .inl (by rwa [Task.next_pid hstep])
        · exact .inr hl
      refine ⟨.ok 1, s', nofun, hstep, hnext, Task.next_left hstep fun w' hw' => ?_⟩
      rcases hnext with hon' | hl
      · rw [hw'] at hon'
        cases hon'
        simp [hw]
      · rw [hl.returned hw] at hw'
        cases hw'
    · exact absurd hl hend
  have hstart : goes (base, task) := .inl (hpc ▸ .create)
  obtain ⟨os, s, hsteps, -, hl⟩ :=
    exists_steps_to (fun s => s.2.pc.left 0 w.body.length) progress hstart
  exact ⟨os, s, hsteps, hl⟩

/-- With nothing failing `record_pending` returns `Ok`. -/
theorem exists_takeTurn (htidy : Tidy codec fs b) (pid : Nat) (now : UInt64) (key : K) :
    ∃ os fs', takeTurn codec fs ⟨pid, .recordPending key, .ok 0 :: .ok now :: os⟩ =
        some (fs', some true) ∧
      Tidy codec fs' (b.record (text key) now) := by
  have hpc : (stagePending codec fs ((Call.recordPending key).begin pid)
      (b.record (text key) now).entries).pc = .create _ := rfl
  obtain ⟨os, s, hsteps, hl⟩ := exists_landed codec fs rfl hpc
  have hturn : takeTurn codec fs ⟨pid, .recordPending key, .ok 0 :: .ok now :: os⟩ =
      some (s.1, some true) := by
    rw [takeTurn, recordPending_read htidy, hsteps.run_eq,
      Option.bind_some, Task.result, hl.returned rfl]
    rfl
  exact ⟨os, s.1, hturn, takeTurn_recorded htidy hturn⟩

/-! ## Listed or not -/

/-- A knock is listed exactly if the list was not full, had the key, or has an
entry seen no later than the clock reads; and then it is with that reading. -/
theorem knock_listed_iff {ts : List (Turn K)} {l : Ledger K}
    (h : Steps (Ledger.step codec) (fun _ t => t.Plain) ⟨Files.empty, []⟩ ts l)
    (hturn : takeTurn codec l.fs ⟨pid, .recordPending key, .ok n :: .ok now :: os⟩ =
      some (fs, some true)) :
    ∃ list list', pending codec (ofEntry (l.fs.read (.file .pending))) = .ok list ∧
      pending codec (ofEntry (fs.read (.file .pending))) = .ok list' ∧
      (Listed (text key) list' ↔
        list.length < 256 ∨ Listed (text key) list ∨ ∃ q ∈ list, q.lastSeenUnix ≤ now) ∧
      ∀ p ∈ list', p.pubkey = text key → p.lastSeenUnix = now := by
  obtain ⟨b, hbal⟩ := exists_balanced h
  exact ⟨b.entries, _, hbal.tidy.list, (takeTurn_recorded hbal.tidy hturn).list,
    b.listed_record_iff (text key) now, fun p hp hkey => b.lastSeen_record hp hkey⟩

/-! ## A full list -/

/-- Bytes that fill a key which is a point of the curve. -/
def fills : List UInt8 :=
  [0, 1, 3, 6, 9, 10, 11, 12, 16, 17, 19, 22, 23, 25, 26, 29, 32, 34, 35, 36, 37, 40, 42, 44, 46,
    47, 50, 51, 53, 54, 58, 71, 73, 76, 77, 78, 81, 83, 84, 85, 89, 91, 98, 102, 103, 104, 105,
    106, 108, 111, 113, 117, 119, 120, 121, 123, 124, 126, 128, 129, 131, 134, 137, 138, 139, 140,
    141, 142, 143, 145, 148, 149, 151, 154, 156, 157, 160, 161, 162, 166, 167, 169, 170, 173, 174,
    175, 178, 180, 183, 184, 185, 187, 188, 189, 190, 191, 193, 195, 197, 200, 204, 205, 206, 207,
    212, 213, 214, 215, 217, 218, 219, 226, 228, 229, 230, 232, 233, 237, 238, 239, 240, 241, 243,
    247, 248, 250, 251, 252]

/-- The key of the `i`th agent. The top bit of a key is the sign of its point, so every fill
makes two. -/
def agent (i : Nat) : NodeId :=
  let b := fills.getD (i / 2) 0
  ⟨List.replicate 31 b ++ [if i % 2 = 0 then b else b + 128], by simp⟩

theorem head_agent (i : Nat) : (agent i).bytes.head? = some (fills.getD (i / 2) 0) := rfl

theorem getLast_agent (i : Nat) : (agent i).bytes.getLast? =
    some (if i % 2 = 0 then fills.getD (i / 2) 0 else fills.getD (i / 2) 0 + 128) := by
  simp [agent]

theorem agent_injective {i j : Nat} (hi : i < 256) (hj : j < 256) (h : agent i = agent j) :
    i = j := by
  have hnodup : fills.Nodup := by decide +kernel
  have hlength : fills.length = 128 := by decide +kernel
  have hbyte : fills.getD (i / 2) 0 = fills.getD (j / 2) 0 := by
    rw [← Option.some.injEq, ← head_agent, ← head_agent, h]
  have hhalf : i / 2 = j / 2 := by
    rw [List.getD_eq_getElem?_getD, List.getD_eq_getElem?_getD, List.getElem?_eq_getElem (by omega),
      List.getElem?_eq_getElem (by omega)] at hbyte
    exact hnodup.getElem_inj_iff.mp hbyte
  have hlast := getLast_agent i
  rw [h, getLast_agent, hbyte, Option.some.injEq] at hlast
  split_ifs at hlast with hi' hj' hj'
  · omega
  · simp at hlast
  · simp at hlast
  · omega

/-- A key none of them has. -/
def stranger : NodeId := .filled 254

/-- What is listed after every one of `k` agents has knocked once at time 7. -/
def crowd (k : Nat) : List PendingAgent :=
  (List.range k).map fun i => ⟨text (agent i), 7, 7, 1⟩

theorem record_crowd {k : Nat} (hk : k < 256) (b : Book) (hb : b.entries = crowd k) :
    (b.record (text (agent k)) 7).entries = crowd (k + 1) := by
  have hnew : ¬ Listed (text (agent k)) (crowd k) := by
    rintro ⟨p, hp, hkey⟩
    obtain ⟨i, hi, rfl⟩ := List.mem_map.mp hp
    rw [List.mem_range] at hi
    have := agent_injective (by omega) hk (text_injective hkey)
    omega
  have hlen : (crowd k).length = k := by simp [crowd]
  change evict (noteAttempt _ _ b.entries) = _
  rw [hb, noteAttempt_of_not_listed hnew, evict_of_le (by simp [hlen, pendingLimit]; omega)]
  simp [crowd, List.range_succ]

theorem exists_crowd (codec : PendingCodec) {k : Nat} (hk : k ≤ 256) :
    ∃ (ts : List (Turn NodeId)) (l : Ledger NodeId) (b : Book),
      Steps (Ledger.step codec) (fun _ t => t.Plain) ⟨Files.empty, []⟩ ts l ∧
      ts.map (fun t => (t.call, t.outcomes.take 2)) =
        (List.range k).map (fun i => (.recordPending (agent i), [.ok 0, .ok 7])) ∧
      Tidy codec l.fs b ∧ b.entries = crowd k := by
  induction k with
  | zero => exact ⟨[], _, Book.empty, .nil, rfl, Balanced.empty.tidy, rfl⟩
  | succ k ih =>
    obtain ⟨ts, l, b, hsteps, hts, htidy, hb⟩ := ih (by omega)
    obtain ⟨os, fs, hturn, htidy'⟩ := exists_takeTurn htidy 1 7 (agent k)
    have hstep : l.step codec ⟨1, .recordPending (agent k), .ok 0 :: .ok 7 :: os⟩ =
        some ⟨fs, ⟨.recordPending (agent k), some true, listIn codec fs⟩ :: l.log⟩ := by
      rw [Ledger.step, hturn]
      rfl
    have hplain : (⟨1, .recordPending (agent k), .ok 0 :: .ok 7 :: os⟩ : Turn NodeId).Plain := by
      intro key hkey
      cases hkey
    refine ⟨_, _, _, hsteps.snoc hplain hstep, ?_, htidy', record_crowd (by omega) b hb⟩
    rw [List.map_append, hts, List.range_succ, List.map_append]
    rfl

theorem not_listed_crowd : ¬ Listed (text stranger) (crowd 256) := by
  rintro ⟨p, hp, hkey⟩
  obtain ⟨i, -, rfl⟩ := List.mem_map.mp hp
  have hhead := congrArg (List.head? ∘ NodeId.bytes) (text_injective hkey)
  have hbyte : fills.getD (i / 2) 0 = 254 := Option.some.inj hhead
  have hmem : fills.getD (i / 2) 0 ∈ fills := by
    rw [List.getD_eq_getElem?_getD]
    cases hget : fills[i / 2]? with
    | none => decide
    | some b => exact List.mem_of_getElem? hget
  rw [hbyte] at hmem
  exact absurd hmem (by decide)

/-- 256 agents knock at time 7; then the clock reads 9 and one more is listed. -/
theorem knock_listed_iff_crowd :
    ∃ (l : Ledger NodeId) (os : List Outcome) (fs : Files Name),
      listIn serdeJson l.fs = crowd 256 ∧
      takeTurn serdeJson l.fs ⟨1, .recordPending stranger, .ok 0 :: .ok 9 :: os⟩ =
        some (fs, some true) ∧ Listed (text stranger) (listIn serdeJson fs) := by
  obtain ⟨ts, l, b, hsteps, -, htidy, hb⟩ := exists_crowd serdeJson (Nat.le_refl 256)
  obtain ⟨os, fs, hturn, htidy'⟩ := exists_takeTurn htidy 1 9 stranger
  obtain ⟨list, list', hlist, hlist', hiff, -⟩ := knock_listed_iff hsteps hturn
  cases htidy.list.symm.trans hlist
  cases htidy'.list.symm.trans hlist'
  refine ⟨l, os, fs, htidy.listIn.trans hb, hturn, ?_⟩
  rw [htidy'.listIn]
  refine hiff.mpr (.inr (.inr ?_))
  rw [hb]
  exact ⟨⟨text (agent 0), 7, 7, 1⟩, List.mem_map_of_mem (by simp), by decide⟩

/-- 256 agents knock at time 7; then the clock reads 3, `record_pending` of one
more returns `Ok`, and its key is not in the list. -/
theorem knock_unlisted :
    ∃ (ts : List (Turn NodeId)) (l : Ledger NodeId) (os : List Outcome) (fs : Files Name),
      Steps (Ledger.step serdeJson) (fun _ t => t.Plain) ⟨Files.empty, []⟩ ts l ∧
      ts.map (fun t => (t.call, t.outcomes.take 2)) =
        (List.range 256).map (fun i => (.recordPending (agent i), [.ok 0, .ok 7])) ∧
      takeTurn serdeJson l.fs ⟨1, .recordPending stranger, .ok 0 :: .ok 3 :: os⟩ =
        some (fs, some true) ∧
      ¬ Listed (text stranger) (listIn serdeJson fs) := by
  obtain ⟨ts, l, b, hsteps, hts, htidy, hb⟩ := exists_crowd serdeJson (Nat.le_refl 256)
  obtain ⟨os, fs, hturn, htidy'⟩ := exists_takeTurn htidy 1 3 stranger
  refine ⟨ts, l, os, fs, hsteps, hts, hturn, ?_⟩
  rw [htidy'.listIn, b.listed_record_iff, hb]
  rintro (hlt | hl | ⟨q, hq, hle⟩)
  · simp [crowd, pendingLimit] at hlt
  · exact not_listed_crowd hl
  · obtain ⟨i, -, rfl⟩ := List.mem_map.mp hq
    exact absurd hle (by simp)

end

end Egdod.State
