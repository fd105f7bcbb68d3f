import Egdod.State.ApproveAlone
import Egdod.State.Book
import Egdod.State.SerdeJson

/-! Calls one after the other, each alone in the directory until it returns.
What a call does to the pending list is then an operation on books, and a log
of the calls says what every count in the list means. -/
namespace Egdod.State

open Text Posix StepSystem

section
variable {K : Type} [DecidableEq K] [KeyText K]

/-- A call, the process that makes it, and how its file system calls end. -/
structure Turn (K : Type) where
  pid : Nat
  call : Call K
  outcomes : List Outcome

/-- A whole call: the directory it leaves and what it returns. -/
def takeTurn (codec : PendingCodec) (fs : Files Name) (t : Turn K) :
    Option (Files Name × Option Bool) :=
  (run (aloneStep codec) (fs, t.call.begin t.pid) t.outcomes).bind fun s =>
    s.2.result.map fun r => (s.1, r)

/-- One of `record_pending`, `approve` and `forget_pending`. -/
def Turn.Plain (t : Turn K) : Prop := ∀ key, t.call ≠ .accept key

def Turn.Faultless (t : Turn K) : Prop := ∀ o ∈ t.outcomes, o ≠ .fail

/-- A call that has returned, and the list that `pending()` gave next. -/
structure Moment (K : Type) where
  call : Call K
  result : Option Bool
  after : List PendingAgent

/-- The directory and every call so far, the latest first. -/
structure Ledger (K : Type) where
  fs : Files Name
  log : List (Moment K)

/-- What `pending()` gives, nothing where it fails. -/
def listIn (codec : PendingCodec) (fs : Files Name) : List PendingAgent :=
  (pending codec (ofEntry (fs.read (.file .pending)))).toOption.getD []

def Ledger.step (codec : PendingCodec) (l : Ledger K) (t : Turn K) : Option (Ledger K) :=
  (takeTurn codec l.fs t).map fun (fs, r) => ⟨fs, ⟨t.call, r, listIn codec fs⟩ :: l.log⟩

/-- An attempt of the key that `record_pending` took down. -/
def Moment.records (m : Moment K) (k : Str) : Bool :=
  match m.call with
  | .recordPending key => text key = k ∧ m.result = some true
  | _ => false

/-- The attempts of a key taken down since the list was last without it. -/
def since (k : Str) : List (Moment K) → Nat
  | [] => 0
  | m :: log => if m.after.any (·.pubkey = k) then (m.records k).toNat + since k log else 0

/-! ## One call -/

/-- What a call makes of the pending list. -/
inductive Effect : Call K → Option Bool → Book → Book → Prop
  | recorded {key b} (now : UInt64) :
      Effect (.recordPending key) (some true) b (b.record (text key) now)
  | forgot {key b} : Effect (.forgetPending key) (some true) b (b.forget (text key))
  | approved {key b} : Effect (.approve key) (some true) b (b.forget (text key))
  | unchanged {call r b} : r ≠ some true → Effect call r b b

/-- A directory in order: `approved` is text and `pending.json` holds a book. -/
structure Tidy (codec : PendingCodec) (fs : Files Name) (b : Book) : Prop where
  list : pending codec (ofEntry (fs.read (.file .pending))) = .ok b.entries
  approved : ∃ old : Option Str, fs.read (.file .approved) = old.map encode

variable {codec : PendingCodec} {base fs fs' : Files Name} {b : Book} {t : Turn K} {key : K}
  {op : PendingOp K} {pid : Nat} {task : Task K} {os : List Outcome} {s : Files Name × Task K}
  {r : Option Bool} {sane : Prop}

theorem Tidy.of_sameAt (h : Tidy codec base b) (hfiles : ∀ f, Files.SameAt base fs (.file f)) :
    Tidy codec fs b :=
  ⟨by rw [(hfiles _).read]; exact h.list, by rw [(hfiles _).read]; exact h.approved⟩

/-- Run lemma of `record_pending` and `forget_pending`. -/
theorem revising_run (htidy : Tidy codec fs b) (hstart : Revising codec fs task.pid op fs task.pc)
    (hpc : task.pc ≠ .returned none)
    (h : Steps (aloneStep codec) (fun _ o => sane → o ≠ .fail) (fs, task) os s) :
    Revising codec fs s.2.pid op s.1 s.2.pc ∧ (sane → s.2.pc ≠ .returned none) := by
  refine h.invariant (I := fun s => Revising codec fs s.2.pid op s.1 s.2.pc ∧
    (sane → s.2.pc ≠ .returned none)) ?_ ⟨hstart, fun _ => hpc⟩
  rintro ⟨fs₁, task₁⟩ o ⟨fs₂, task₂⟩ hok hstep ⟨hrev, _⟩
  obtain ⟨hrev', hfails⟩ := hrev.step hstep
  refine ⟨by rwa [Task.next_pid hstep], fun hsane => ?_⟩
  rw [ne_eq, hfails, hrev.pendingWorks_of_ok htidy.list (hok hsane)]
  exact nofun

/-- Run lemma of `approve`. -/
theorem approving_run (htidy : Tidy codec fs b)
    (h : Steps (aloneStep codec) (fun _ o => sane → o ≠ .fail)
      (fs, (Call.approve key).begin pid) os s) :
    ApprovingAt codec fs key True s ∧ (sane → s.2.pc ≠ .returned none) := by
  obtain ⟨old, hold⟩ := htidy.approved
  refine h.invariant (I := fun s => ApprovingAt codec fs key True s ∧
    (sane → s.2.pc ≠ .returned none)) ?_ ⟨.begin codec fs pid key True, fun _ => nofun⟩
  rintro s₁ o s₂ hok hstep ⟨happ, _⟩
  exact ⟨happ.step (fun _ => trivial) hstep, fun hsane =>
    happ.not_failed (approvedIn_of_read hold) htidy.list (hok hsane) hstep⟩

omit [DecidableEq K] in
/-- What a revision leaves: the book its operation makes, or everything. -/
theorem Revising.tidy (htidy : Tidy codec base b)
    (h : Revising codec base pid op fs (.returned r)) :
    (r = some true ∧ (∃ old : Option Str, fs.read (.file .approved) = old.map encode) ∧
      ∃ now, pending codec (ofEntry (fs.read (.file .pending))) = .ok (op.apply now b.entries)) ∨
    (r = none ∧ ∀ f, Files.SameAt base fs (.file f)) := by
  cases h with
  | writing _ _ hw => exact absurd rfl (hw.not_returned _)
  | failed hfiles => exact .inr ⟨rfl, hfiles⟩
  | done now hlist hlist' hsame =>
    cases htidy.list.symm.trans hlist
    exact .inl ⟨rfl, by rw [hsame.read]; exact htidy.approved, now, hlist'⟩

/-- What `approve` leaves. -/
theorem Approving.tidy (htidy : Tidy codec fs b)
    (h : Approving codec fs pid key True fs' (.returned r)) :
    ∃ b', Tidy codec fs' b' ∧ Effect (.approve key) r b b' := by
  cases h with
  | already => exact ⟨b, htidy, .unchanged nofun⟩
  | appending _ hu => exact absurd rfl (hu.not_returned _)
  | failed _ hfiles => exact ⟨b, htidy.of_sameAt hfiles, .unchanged nofun⟩
  | @forgetting w base _ _ hw hbody hpending hrev =>
    have hbase : Tidy codec base b := by
      refine ⟨by rw [hpending.read]; exact htidy.list, ?_⟩
      obtain ⟨body, hw', _⟩ := hw.extension
      exact ⟨some (appendKey body key), by rw [hbody, hw']; rfl⟩
    rcases hrev.tidy hbase with ⟨rfl, hold, _, hlist⟩ | ⟨rfl, hfiles⟩
    · exact ⟨b.forget (text key), ⟨hlist, hold⟩, .approved⟩
    · exact ⟨b, hbase.of_sameAt hfiles, .unchanged nofun⟩

/-- A call that returns has had its effect and leaves the directory in order;
it fails only if one of its file system calls does. -/
theorem takeTurn_effect (hplain : t.Plain) (htidy : Tidy codec fs b)
    (h : takeTurn codec fs t = some (fs', r)) :
    ∃ b', Tidy codec fs' b' ∧ Effect t.call r b b' ∧ (t.Faultless → r ≠ none) := by
  obtain ⟨s, hrun, hres⟩ := Option.bind_eq_some_iff.mp h
  obtain ⟨_, hr, hs⟩ := Option.map_eq_some_iff.mp hres
  cases hs
  have hsteps : Steps (aloneStep codec) (fun _ o => t.Faultless → o ≠ .fail)
      (fs, t.call.begin t.pid) t.outcomes s :=
    .of_run (fun o ho _ hfault => hfault o ho) hrun
  have hpc := pc_of_result hr
  obtain ⟨pid, call, outcomes⟩ := t
  cases call with
  | accept key => exact absurd rfl (hplain key)
  | approve key =>
    obtain ⟨happ, hok⟩ := approving_run htidy hsteps
    unfold ApprovingAt at happ
    rw [hpc] at happ hok
    obtain ⟨b', htidy', heffect⟩ := happ.tidy htidy
    exact ⟨b', htidy', heffect, fun hsane hnone => hok hsane (by rw [hnone])⟩
  | recordPending key =>
    obtain ⟨hrev, hok⟩ := revising_run htidy (.readying rfl) (begin_not_returned _ _ _) hsteps
    rw [hpc] at hrev hok
    rcases hrev.tidy htidy with ⟨rfl, hold, now, hlist⟩ | ⟨rfl, hfiles⟩
    · exact ⟨b.record (text key) now, ⟨hlist, hold⟩, .recorded now, nofun⟩
    · exact ⟨b, htidy.of_sameAt hfiles, .unchanged nofun, fun hsane => absurd rfl (hok hsane)⟩
  | forgetPending key =>
    obtain ⟨hrev, hok⟩ := revising_run htidy .reading (begin_not_returned _ _ _) hsteps
    rw [hpc] at hrev hok
    rcases hrev.tidy htidy with ⟨rfl, hold, _, hlist⟩ | ⟨rfl, hfiles⟩
    · exact ⟨b.forget (text key), ⟨hlist, hold⟩, .forgot, nofun⟩
    · exact ⟨b, htidy.of_sameAt hfiles, .unchanged nofun, fun hsane => absurd rfl (hok hsane)⟩

/-! ## Every history -/

/-- The list the latest call left. -/
def latest : List (Moment K) → List PendingAgent
  | [] => []
  | m :: _ => m.after

omit [DecidableEq K] in
theorem since_of_not_listed {k : Str} {log : List (Moment K)} (h : ¬ Listed k (latest log)) :
    since k log = 0 := by
  cases log with
  | nil => rfl
  | cons m log =>
    refine if_neg fun hany => h ?_
    obtain ⟨p, hp, hk⟩ := List.any_eq_true.mp hany
    exact ⟨p, hp, of_decide_eq_true hk⟩

/-- What the log says about the list. The count in an entry wraps, the one in the log does not. -/
structure Balanced (codec : PendingCodec) (l : Ledger K) (b : Book) : Prop where
  tidy : Tidy codec l.fs b
  latest : latest l.log = b.entries
  counts : ∀ p ∈ b.entries, p.attempts = .ofNat (since p.pubkey l.log)
  positive : ∀ p ∈ b.entries, 1 ≤ since p.pubkey l.log

omit [DecidableEq K] in
/-- A call adds one to the count of the key it records and to no other. -/
theorem Effect.counts {call : Call K} {b' : Book} {log : List (Moment K)} {p : PendingAgent}
    (h : Effect call r b b') (hlatest : State.latest log = b.entries)
    (hcounts : ∀ p ∈ b.entries, p.attempts = .ofNat (since p.pubkey log)) (hp : p ∈ b'.entries)
    (after : List PendingAgent) :
    p.attempts =
      .ofNat (((⟨call, r, after⟩ : Moment K).records p.pubkey).toNat + since p.pubkey log) := by
  cases h with
  | recorded now =>
    rcases b.mem_noteAttempt (mem_of_mem_evict hp) with
      ⟨hne, hold⟩ | ⟨hkey, -, q, hq, hqkey, hone⟩ | ⟨hkey, -, hnew, hone⟩
    · simp [Moment.records, hne.symm, hcounts p hold]
    · rw [hone, hcounts q hq, hqkey, hkey]
      simp [Moment.records, UInt64.ofNat_add, UInt64.add_comm]
    · rw [hone, hkey, since_of_not_listed (by rwa [hlatest])]
      simp [Moment.records]
  | forgot | approved =>
    simp [Moment.records, hcounts p (List.mem_of_mem_filter hp)]
  | unchanged hr =>
    have hrecords : (⟨call, r, after⟩ : Moment K).records p.pubkey = false := by
      unfold Moment.records
      split <;> simp [hr]
    simp [hrecords, hcounts p hp]

omit [DecidableEq K] in
/-- A key is listed because an attempt of it was taken down. -/
theorem Effect.positive {call : Call K} {b' : Book} {log : List (Moment K)} {p : PendingAgent}
    (h : Effect call r b b') (hpositive : ∀ p ∈ b.entries, 1 ≤ since p.pubkey log)
    (hp : p ∈ b'.entries) (after : List PendingAgent) :
    1 ≤ ((⟨call, r, after⟩ : Moment K).records p.pubkey).toNat + since p.pubkey log := by
  have hold : p ∈ b.entries →
      1 ≤ ((⟨call, r, after⟩ : Moment K).records p.pubkey).toNat + since p.pubkey log :=
    fun hmem => Nat.le_add_left_of_le (hpositive p hmem)
  cases h with
  | recorded now =>
    rcases b.mem_noteAttempt (mem_of_mem_evict hp) with ⟨-, hmem⟩ | ⟨hkey, -⟩ | ⟨hkey, -⟩
    · exact hold hmem
    · simp [Moment.records, hkey]
    · simp [Moment.records, hkey]
  | forgot | approved => exact hold (List.mem_of_mem_filter hp)
  | unchanged => exact hold hp

omit [DecidableEq K] in
/-- How an entry goes. -/
theorem Effect.gone {call : Call K} {b' : Book} {p : PendingAgent} (h : Effect call r b b')
    (hp : p ∈ b.entries) (hgone : ¬ Listed p.pubkey b'.entries) :
    (∃ key, text key = p.pubkey ∧ (call = .approve key ∨ call = .forgetPending key)) ∨
    ((∃ key, call = .recordPending key) ∧
      ∀ q ∈ b'.entries, p.lastSeenUnix ≤ q.lastSeenUnix) := by
  have hdropped : ∀ k, ¬ Listed p.pubkey (forgotten k b.entries) → k = p.pubkey := by
    intro k hk
    by_contra hne
    exact hk (listed_forgotten.mpr ⟨fun heq => hne heq.symm, p, hp, rfl⟩)
  cases h with
  | @recorded key _ now =>
    exact .inr ⟨⟨key, rfl⟩, fun q hq => b.le_of_not_listed_record hp hgone hq⟩
  | @forgot key => exact .inl ⟨key, hdropped _ hgone, .inr rfl⟩
  | @approved key => exact .inl ⟨key, hdropped _ hgone, .inl rfl⟩
  | unchanged => exact absurd ⟨p, hp, rfl⟩ hgone

theorem Tidy.listIn (h : Tidy codec fs b) : listIn codec fs = b.entries := by
  simp [State.listIn, h.list, Except.toOption]

/-- Step lemma: the log goes on telling what is in the list. -/
theorem Balanced.step {l l' : Ledger K} (h : Balanced codec l b) (hplain : t.Plain)
    (hstep : l.step codec t = some l') : ∃ b', Balanced codec l' b' := by
  obtain ⟨⟨fs', r⟩, hturn, rfl⟩ := Option.map_eq_some_iff.mp hstep
  obtain ⟨b', htidy, heffect, _⟩ := takeTurn_effect hplain h.tidy hturn
  have hsince : ∀ p ∈ b'.entries, since p.pubkey (⟨t.call, r, State.listIn codec fs'⟩ :: l.log) =
      ((⟨t.call, r, State.listIn codec fs'⟩ : Moment K).records p.pubkey).toNat +
        since p.pubkey l.log := by
    intro p hp
    have hany : (State.listIn codec fs').any (·.pubkey = p.pubkey) = true := by
      rw [htidy.listIn]
      exact List.any_eq_true.mpr ⟨p, hp, by simp⟩
    rw [since, if_pos hany]
  refine ⟨b', htidy, htidy.listIn, fun p hp => ?_, fun p hp => ?_⟩
  · rw [hsince p hp]
    exact heffect.counts h.latest h.counts hp _
  · rw [hsince p hp]
    exact heffect.positive h.positive hp _

omit [DecidableEq K] in
theorem Balanced.empty : Balanced codec (⟨Files.empty, []⟩ : Ledger K) Book.empty :=
  ⟨⟨rfl, none, rfl⟩, rfl, nofun, nofun⟩

/-- After any history there is a book that the directory and the log agree with. -/
theorem exists_balanced {ts : List (Turn K)} {l : Ledger K}
    (h : Steps (Ledger.step codec) (fun _ t => t.Plain) ⟨Files.empty, []⟩ ts l) :
    ∃ b, Balanced codec l b :=
  h.invariant (I := fun l => ∃ b, Balanced codec l b)
    (fun _ _ _ hplain hstep ⟨_, hbal⟩ => hbal.step hplain hstep) ⟨_, .empty⟩

/-- Every turn leaves its call in the log. -/
theorem calls_of_steps {ts : List (Turn K)} {l l' : Ledger K}
    (h : Steps (Ledger.step codec) (fun _ t => t.Plain) l ts l') :
    l'.log.map (·.call) = (ts.map (·.call)).reverse ++ l.log.map (·.call) := by
  induction h with
  | nil => rfl
  | cons _ hstep _ ih =>
    obtain ⟨⟨fs', r⟩, _, rfl⟩ := Option.map_eq_some_iff.mp hstep
    simp [ih]

def Call.isRecord : Call K → Bool
  | .recordPending _ => true
  | _ => false

omit [DecidableEq K] in
/-- No more attempts are counted than there were calls. -/
theorem since_le (k : Str) (log : List (Moment K)) :
    since k log ≤ (log.map (·.call)).countP Call.isRecord := by
  induction log with
  | nil => exact Nat.le_refl _
  | cons m log ih =>
    have hrecords : (m.records k).toNat ≤ if m.call.isRecord then 1 else 0 := by
      unfold Moment.records Call.isRecord
      split
      · exact Bool.toNat_le _
      · exact Nat.le_refl _
    rw [since, List.map_cons, List.countP_cons]
    split_ifs at hrecords ⊢ <;> omega

/-- Whatever calls are made one after the other in an empty directory: the
list is bounded, has one entry per key, and counts the attempts taken down
since the key was last absent, exactly so unless `record_pending` has been
called 2⁶⁴ times; an entry goes with its key approved or forgotten, or is
evicted and no younger than any that stays. A call fails only where one of its
file system calls does. -/
theorem pending_kept {ts : List (Turn K)} {l : Ledger K}
    (h : Steps (Ledger.step codec) (fun _ t => t.Plain) ⟨Files.empty, []⟩ ts l) :
    ∃ list, pending codec (ofEntry (l.fs.read (.file .pending))) = .ok list ∧
      list.length ≤ 256 ∧ (list.map (·.pubkey)).Nodup ∧
      (∀ p ∈ list, p.attempts = .ofNat (since p.pubkey l.log) ∧
        ((ts.map (·.call)).countP Call.isRecord < 2 ^ 64 →
          1 ≤ p.attempts ∧ p.attempts.toNat = since p.pubkey l.log)) ∧
      ∀ (t : Turn K) fs r, t.Plain → takeTurn codec l.fs t = some (fs, r) →
        (t.Faultless → r ≠ none) ∧
        ∃ list', pending codec (ofEntry (fs.read (.file .pending))) = .ok list' ∧
          ∀ p ∈ list, ¬ Listed p.pubkey list' →
            (∃ key, text key = p.pubkey ∧ (t.call = .approve key ∨ t.call = .forgetPending key)) ∨
            ((∃ key, t.call = .recordPending key) ∧
              ∀ q ∈ list', p.lastSeenUnix ≤ q.lastSeenUnix) := by
  obtain ⟨b, hbal⟩ := exists_balanced h
  refine ⟨b.entries, hbal.tidy.list, b.bounded, b.distinct,
    fun p hp => ⟨hbal.counts p hp, fun hfew => ?_⟩, fun t fs r hplain hturn => ?_⟩
  · have hle := since_le p.pubkey l.log
    rw [calls_of_steps h, List.map_nil, List.append_nil, List.countP_reverse] at hle
    have hcount : p.attempts.toNat = since p.pubkey l.log := by
      rw [hbal.counts p hp, UInt64.toNat_ofNat', Nat.mod_eq_of_lt (by omega)]
    refine ⟨?_, hcount⟩
    rw [UInt64.le_iff_toNat_le, hcount]
    exact hbal.positive p hp
  · obtain ⟨b', htidy, heffect, hok⟩ := takeTurn_effect hplain hbal.tidy hturn
    exact ⟨hok, b'.entries, htidy.list, fun p hp hgone => heffect.gone hp hgone⟩

/-- Two knocks of one key, the clock going back between them. -/
def twoKnocks : List (Turn NodeId) :=
  [⟨1, .recordPending (.filled 1), [.ok 0, .ok 7, .ok 0, .ok 162, .ok 0]⟩,
    ⟨1, .recordPending (.filled 1), [.ok 0, .ok 5, .ok 0, .ok 162, .ok 0]⟩]

theorem pending_kept_twoKnocks :
    ∃ l : Ledger NodeId, Steps (Ledger.step serdeJson) (fun _ t => t.Plain)
        ⟨Files.empty, []⟩ twoKnocks l ∧
      listIn serdeJson l.fs = [⟨text (NodeId.filled 1), 7, 5, 2⟩] ∧
      ∃ list, pending serdeJson (ofEntry (l.fs.read (.file .pending))) = .ok list ∧
        ∀ p ∈ list, 1 ≤ p.attempts ∧ p.attempts.toNat = since p.pubkey l.log := by
  have hrun : (run (Ledger.step serdeJson) ⟨Files.empty, []⟩ twoKnocks).map
      (fun l => listIn serdeJson l.fs) =
      some [⟨text (NodeId.filled 1), 7, 5, 2⟩] := by
    decide +kernel
  obtain ⟨l, hl, hlist⟩ := Option.map_eq_some_iff.mp hrun
  have hsteps : Steps (Ledger.step serdeJson) (fun _ t => t.Plain)
      ⟨Files.empty, []⟩ twoKnocks l := by
    refine .of_run (fun t ht _ => ?_) hl
    simp only [twoKnocks, List.mem_cons, List.not_mem_nil, or_false] at ht
    rcases ht with rfl | rfl <;> exact nofun
  obtain ⟨list, hpending, _, _, hcounts, _⟩ := pending_kept hsteps
  exact ⟨l, hsteps, hlist, list, hpending, fun p hp => (hcounts p hp).2 (by decide)⟩

end

end Egdod.State
