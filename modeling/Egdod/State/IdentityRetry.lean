import Egdod.State.IdentityShared

/-! One process that tries again until it has a key, as `agent::run` does. An
attempt that fails after it has created its staging file leaves it there, and
the pid, hence the staging name, is the same in every later attempt. -/
namespace Egdod.Identity

open Posix StepSystem Egdod.State

def Call.returned (c : Call) : Bool :=
  match c.pc with
  | .returned _ => true
  | _ => false

/-- The attempts of one process follow each other and replace an unusable key. -/
def solo (pid : Nat) (s : State) : Action → Bool
  | .call p u => p = pid && u = .replace && s.calls.all Call.returned
  | .step _ _ => true

def Solo (pid : Nat) (s : State) (a : Action) : Prop := solo pid s a = true

/-- A step of attempt `i` that no outside reason makes fail. -/
def Clean (i : Nat) (_ : State) : Action → Prop
  | .call _ _ => False
  | .step j a => j = i ∧ a ≠ .fail

/-- The path holds a key. -/
def Disk.usable (d : Disk) : Prop := ∃ k : SecretKey, d.fs.read .key = some k.bytes

/-! ## What an earlier attempt leaves behind -/

/-- The attempts so far are all of one process, and its staging name is taken only by an attempt
that is under way or that left its file behind. -/
structure Retried (pid : Nat) (s : State) : Prop where
  sound : Sound s
  mine : ∀ c ∈ s.calls, c.pid = pid
  left : s.disk.fs.dir (.tmp pid) ≠ none → ∃ c ∈ s.calls, c.pc.blocks = true

/-- A call gives its staging name up only by renaming it away. -/
theorem Call.Moves.dir_given_up {d d' : Disk} {c c' : Call} {a : Answer}
    (h : Call.Moves d c a d' c') (hb : c.pc.blocks = true) (hb' : c'.pc.blocks = false) :
    d'.fs.dir (.tmp c.pid) = none := by
  cases h with
  | rename k fs _ hfs =>
    obtain ⟨i, _, _, _, hdir⟩ := Files.rename_some hfs
    simp [hdir]
  | failed e he =>
    have := (Pc.blocks_returned he).symm.trans hb'
    simp [hb] at this
  | write k fd off n _ _ _ =>
    dsimp only at hb'
    split at hb' <;> cases hb'
  | sync k _ => cases hb'
  | read _ hpc _ | readFail hpc | random _ hpc | parent _ hpc _ | noParent _ hpc _
  | parentFail _ hpc | mkdir _ hpc | restrict _ hpc | create _ hpc _ _ | refused _ hpc _ =>
    simp [hpc, Pc.blocks] at hb

/-- A call that neither holds nor takes a staging file leaves all of them. -/
theorem Call.Moves.fs_eq {d d' : Disk} {c c' : Call} {a : Answer} (h : Call.Moves d c a d' c')
    (hb : c.pc.blocks = false) (hb' : c'.pc.blocks = false) : d'.fs = d.fs := by
  cases h with
  | create _ _ _ _ => cases hb'
  | write _ _ _ _ hpc _ _ | rename _ _ hpc _ => simp [hpc, Pc.blocks] at hb
  | _ => rfl

theorem Retried.step {pid : Nat} {s s' : State} {a : Action} (hok : Solo pid s a)
    (hstep : Identity.step s a = some s') (hs : Retried pid s) : Retried pid s' := by
  have hm := step_cases hstep
  have hsound := hm.sound hs.sound
  cases hm with
  | call p u =>
    simp only [Solo, solo, Bool.and_eq_true, decide_eq_true_eq] at hok
    refine ⟨hsound, ?_, ?_⟩
    · intro c hc
      rcases List.mem_append.mp hc with hc | hc
      · exact hs.mine c hc
      · rw [List.mem_singleton.mp hc]
        exact hok.1.1
    · intro htaken
      obtain ⟨c, hc, hb⟩ := hs.left htaken
      exact ⟨c, List.mem_append_left _ hc, hb⟩
  | move i c a d c' hc hm =>
    have hmem := List.mem_of_getElem? hc
    have hpid := hs.mine c hmem
    have hlt : i < s.calls.length := (List.getElem?_eq_some_iff.mp hc).1
    refine ⟨hsound, ?_, ?_⟩
    · intro c₂ hc₂
      rcases List.mem_or_eq_of_mem_set hc₂ with hc₂ | rfl
      · exact hs.mine c₂ hc₂
      · exact hm.pid.trans hpid
    · intro htaken
      cases hb' : c'.pc.blocks with
      | true => exact ⟨c', List.mem_set hlt c', hb'⟩
      | false =>
        cases hb : c.pc.blocks with
        | true => exact absurd (hpid ▸ hm.dir_given_up hb hb') htaken
        | false =>
          dsimp only at htaken
          rw [hm.fs_eq hb hb'] at htaken
          obtain ⟨c₂, hc₂, hb₂⟩ := hs.left htaken
          obtain ⟨j, hj⟩ := List.mem_iff_getElem?.mp hc₂
          have hne : i ≠ j := by
            rintro rfl
            rw [hc] at hj
            cases hj
            simp [hb] at hb₂
          refine ⟨c₂, List.mem_iff_getElem?.mpr ⟨j, ?_⟩, hb₂⟩
          rwa [List.getElem?_set_ne hne]

theorem Retried.run {pid : Nat} {fs : Files Name} {parent : Bool} (hfree : fs.dir (.tmp pid) = none)
    {as : List Action} {s : State} (h : Steps Identity.step (Solo pid) (.start fs parent) as s) :
    Retried pid s := by
  refine h.invariant (fun _ _ _ hok hstep hinv => hinv.step hok hstep) ?_
  exact ⟨(Agreed.start fs parent).sound, by simp [State.start], fun h => absurd hfree h⟩

theorem Call.blocks_of_returned {c : Call} (h : c.returned = true) :
    c.pc.blocks = c.pc.leftBehind := by
  unfold Call.returned at h
  split at h
  case h_1 r hpc =>
    rw [hpc]
    rcases r with e | k
    · cases e <;> rfl
    · rfl
  case h_2 => cases h

/-- Between attempts the staging name is free unless one of them left its file behind. -/
theorem Retried.free_iff {pid : Nat} {s : State} (hs : Retried pid s)
    (hrest : ∀ c ∈ s.calls, c.returned = true) :
    s.disk.fs.dir (.tmp pid) = none ↔ ∀ c ∈ s.calls, c.pc.leftBehind = false := by
  constructor
  · intro hfree c hc
    by_contra hleft
    have hb : c.pc.blocks = true := by
      rw [Call.blocks_of_returned (hrest c hc)]
      simpa using hleft
    have htaken := (hs.sound.staged c hc).dir_ne_none hb
    rw [hs.mine c hc] at htaken
    exact htaken hfree
  · intro hnone
    by_contra htaken
    obtain ⟨c, hc, hb⟩ := hs.left htaken
    rw [Call.blocks_of_returned (hrest c hc), hnone c hc] at hb
    cases hb

/-! ## An attempt that nothing disturbs -/

/-- How far a clean attempt that began on `start` has come, and why it came that way. -/
def Attempt (start : Disk) (d : Disk) (c : Call) : Prop :=
  match c.pc with
  | .read => d = start
  | .random | .parentExists _ | .mkdir _ => ¬ start.usable ∧ d.fs = start.fs
  | .restrict _ | .create _ => ¬ start.usable ∧ d.fs = start.fs ∧ d.parent = true
  | .write _ _ _ | .sync _ | .rename _ => ¬ start.usable ∧ start.fs.dir (.tmp c.pid) = none
  | .returned (.ok k) =>
    d.fs.read .key = some k.bytes ∧ (start.usable ∨ start.fs.dir (.tmp c.pid) = none)
  | .returned (.error _) => ¬ start.usable ∧ start.fs.dir (.tmp c.pid) ≠ none

theorem readKey_of_read {d : Disk} {k : SecretKey} (h : d.fs.read .key = some k.bytes) :
    d.readKey = .ok (some k) := by
  simp [Disk.readKey, Identity.readKey, h, ofEntry, k.size]

/-- A clean read ends the attempt exactly when the path holds a key. -/
theorem Call.Moves.attempt_read {d : Disk} {c : Call} (hu : c.unusable = .replace) :
    Attempt d d (c.saw d (c.onRead d.readKey)) := by
  cases hread : d.readKey with
  | error e =>
    have hunusable : ¬ d.usable := by
      rintro ⟨k, hk⟩
      simp [readKey_of_read hk] at hread
    simp only [Attempt, Call.saw, Call.onRead, hu, if_true]
    exact ⟨hunusable, trivial⟩
  | ok found =>
    cases found with
    | none =>
      have hunusable : ¬ d.usable := by
        rintro ⟨k, hk⟩
        simp [readKey_of_read hk] at hread
      exact ⟨hunusable, rfl⟩
    | some k => exact ⟨readKey_some hread, .inl ⟨k, readKey_some hread⟩⟩

theorem Call.Moves.attempt {start d d' : Disk} {c c' : Call} {a : Answer}
    (h : Call.Moves d c a d' c') (ha : a ≠ .fail) (hs : c.Staged d) (hu : c.unusable = .replace)
    (hc : Attempt start d c) : Attempt start d' c' := by
  cases h with
  | read r hpc hr =>
    simp only [Attempt, hpc] at hc
    subst hc hr
    exact attempt_read hu
  | random k hpc | noParent k hpc _ =>
    simpa only [Attempt, hpc] using hc
  | parent k hpc hparent =>
    simp only [Attempt, hpc] at hc
    exact ⟨hc.1, hc.2, hparent⟩
  | mkdir k hpc =>
    simp only [Attempt, hpc] at hc
    exact ⟨hc.1, hc.2, rfl⟩
  | restrict k hpc =>
    simpa only [Attempt, hpc] using hc
  | create k hpc _ hnone =>
    simp only [Attempt, hpc] at hc
    exact ⟨hc.1, hc.2.1 ▸ hnone⟩
  | refused k hpc htaken =>
    simp only [Attempt, hpc] at hc
    exact ⟨hc.1, hc.2.1 ▸ htaken hc.2.2⟩
  | write k fd off n hpc _ _ =>
    simp only [Attempt, hpc] at hc
    by_cases hend : off + n = 32
    · simpa only [Attempt, hend, if_true] using hc
    · simpa only [Attempt, hend, if_false] using hc
  | sync k hpc =>
    simpa only [Attempt, hpc] using hc
  | rename k fs hpc hfs =>
    simp only [Attempt, hpc] at hc
    simp only [Call.Staged, hpc] at hs
    exact ⟨(Files.read_rename hfs).trans hs, .inr hc.2⟩
  | readFail _ | parentFail _ _ | failed _ _ => exact absurd rfl ha

/-! ## It ends -/

/-- How many steps an attempt has left at most. -/
def Pc.rank : Pc → Nat
  | .read => 40
  | .random => 39
  | .parentExists _ => 38
  | .mkdir _ => 37
  | .restrict _ => 36
  | .create _ => 35
  | .write _ _ off => 3 + (31 - off)
  | .sync _ => 2
  | .rename _ => 1
  | .returned _ => 0

theorem Pc.rank_pos {pc : Pc} {e : Failure} (h : pc.failsWith = some e) : 0 < pc.rank := by
  cases pc with
  | read | parentExists _ | returned _ => cases h
  | write k fd off => exact Nat.lt_of_lt_of_le (by decide) (Nat.le_add_right 3 _)
  | _ => simp [Pc.rank]

theorem Call.onRead_rank (c : Call) (r : Except Failure (Option SecretKey)) :
    (c.onRead r).rank < 40 := by
  unfold Call.onRead
  split
  · simp [Pc.rank]
  · simp [Pc.rank]
  · split <;> simp [Pc.rank]

theorem Call.Moves.rank {d d' : Disk} {c c' : Call} {a : Answer} (h : Call.Moves d c a d' c') :
    c'.pc.rank < c.pc.rank := by
  cases h with
  | read r hpc _ => rw [hpc]; exact c.onRead_rank r
  | readFail hpc => rw [hpc]; exact c.onRead_rank (.error .reading)
  | write k fd off n hpc hn hle =>
    rw [hpc]
    dsimp only
    split <;> simp only [Pc.rank] <;> omega
  | failed e he => exact Pc.rank_pos he
  | random _ hpc | parent _ hpc _ | noParent _ hpc _ | parentFail _ hpc | mkdir _ hpc
  | restrict _ hpc | create _ hpc _ _ | refused _ hpc _ | sync _ hpc | rename _ _ hpc _ =>
    simp [hpc, Pc.rank]

/-- An attempt that has not returned has a clean step to take. -/
theorem Call.clean_next {d : Disk} {c : Call} (hs : c.Staged d) (hret : c.returned = false) :
    ∃ a, a ≠ Answer.fail ∧ (c.next d a).isSome := by
  cases hpc : c.pc with
  | random => exact ⟨.key ⟨List.replicate 32 0, rfl⟩, by simp, by simp [Call.next, hpc]⟩
  | create k =>
    refine ⟨.ok, by simp, ?_⟩
    simp only [Call.next, hpc]
    split <;> rfl
  | write k fd off =>
    simp only [Call.Staged, hpc] at hs
    have hle : 0 < 32 - off ∧ off + (32 - off) ≤ 32 := by omega
    refine ⟨.wrote (32 - off), by simp, ?_⟩
    simp only [Call.next, hpc, if_pos hle, Option.isSome_some]
  | rename k =>
    refine ⟨.ok, by simp, ?_⟩
    simp only [Call.Staged, hpc] at hs
    obtain ⟨i, hi⟩ := Option.ne_none_iff_exists'.mp (dir_ne_none_of_read hs)
    simp only [Call.next, hpc, Option.isSome_map, Files.rename]
    split
    · rfl
    · simp_all
  | returned r => simp [Call.returned, hpc] at hret
  | read | parentExists k | mkdir k | restrict k | sync k =>
    exact ⟨.ok, by simp, by simp [Call.next, hpc]⟩

/-- A clean attempt under way: what it has done and how many steps it has taken. -/
structure Attempting (pid : Nat) (s : State) (taken : Nat) (u : State) : Prop where
  sound : Sound u
  call : ∃ c, u.calls[s.calls.length]? = some c ∧ c.pid = pid ∧ c.unusable = .replace ∧
    Attempt s.disk u.disk c ∧ taken + c.pc.rank ≤ 40

theorem Call.Moves.unusable {d d' : Disk} {c c' : Call} {a : Answer} (h : Call.Moves d c a d' c') :
    c'.unusable = c.unusable := by
  cases h <;> rfl

theorem Attempting.step {pid taken : Nat} {s u u' : State} {a : Action}
    (hok : Clean s.calls.length u a) (hstep : Identity.step u a = some u')
    (h : Attempting pid s taken u) : Attempting pid s (taken + 1) u' := by
  have hm := step_cases hstep
  refine ⟨hm.sound h.sound, ?_⟩
  cases hm with
  | call pid u => exact absurd hok id
  | move i c a d c' hc hm =>
    obtain ⟨rfl, ha⟩ := hok
    obtain ⟨c₀, hc₀, hpid, hu, hatt, htaken⟩ := h.call
    cases hc.symm.trans hc₀
    have hlt := (List.getElem?_eq_some_iff.mp hc).1
    have hstaged := h.sound.staged c (List.mem_of_getElem? hc)
    refine ⟨c', List.getElem?_set_self hlt, hm.pid.trans hpid, hm.unusable.trans hu,
      hm.attempt ha hstaged hu hatt, ?_⟩
    have := hm.rank
    omega

theorem Attempting.run {pid taken : Nat} {s u t : State} {bs : List Action}
    (h : Steps Identity.step (Clean s.calls.length) u bs t) (hu : Attempting pid s taken u) :
    Attempting pid s (taken + bs.length) t := by
  induction h generalizing taken with
  | nil => exact hu
  | cons hok hstep _ ih =>
    have := ih (hu.step hok hstep)
    rwa [Nat.add_assoc, Nat.add_comm 1] at this

theorem Attempting.begin {s : State} (hs : Sound s) (pid : Nat) :
    Attempting pid s 0 (s.begin pid .replace) := by
  refine ⟨hs.begin pid .replace, ⟨pid, .replace, .read, none, 0⟩, ?_, rfl, rfl, rfl,
    by simp [Pc.rank]⟩
  simp [State.begin]

/-- The attempt can go on cleanly until it returns. -/
theorem Attempting.progress {pid taken : Nat} {s u : State} {c : Call}
    (h : Attempting pid s taken u) (hc : u.calls[s.calls.length]? = some c)
    (hret : c.returned = false) :
    ∃ a u', Clean s.calls.length u a ∧ Identity.step u a = some u' := by
  obtain ⟨a, ha, hnext⟩ := Call.clean_next (h.sound.staged c (List.mem_of_getElem? hc)) hret
  obtain ⟨⟨d, c'⟩, hnext⟩ := Option.isSome_iff_exists.mp hnext
  exact ⟨.step s.calls.length a, ⟨d, u.calls.set s.calls.length c'⟩, ⟨rfl, ha⟩,
    by simp [Identity.step, hc, hnext]⟩

/-- What a returned attempt returned. -/
theorem Attempt.returned_iff {start d : Disk} {c : Call} (h : Attempt start d c)
    (hret : c.returned = true) :
    (∃ k, c.pc = .returned (.ok k) ∧ d.fs.read .key = some k.bytes) ↔
      start.usable ∨ start.fs.dir (.tmp c.pid) = none := by
  unfold Call.returned at hret
  split at hret
  case h_2 => cases hret
  case h_1 r hpc =>
    simp only [Attempt, hpc] at h
    cases r with
    | ok k => exact iff_of_true ⟨k, hpc, h.1⟩ h.2
    | error e =>
      refine iff_of_false ?_ (not_or.mpr h)
      rintro ⟨k, hk, _⟩
      simp [hpc] at hk

/-- After any history of one process's attempts, an attempt that nothing disturbs ends within
forty steps. It returns a key, which then stands at the path, if and only if the path held a key
already or no earlier attempt failed in its write, flush or rename. At every moment of every
history the path is as it was before or holds a complete key. -/
theorem clean_attempt_iff {pid : Nat} {fs : Files Name} {parent : Bool}
    (hfree : fs.dir (.tmp pid) = none) {as bs : List Action} {s t : State}
    (hist : Steps step (Solo pid) (.start fs parent) as s)
    (hrest : ∀ c ∈ s.calls, c.returned = true)
    (h : Steps step (Clean s.calls.length) (s.begin pid .replace) bs t) :
    (∃ c, t.calls[s.calls.length]? = some c ∧ bs.length ≤ 40 ∧
      (c.returned = false → ∃ a u, Clean s.calls.length t a ∧ step t a = some u) ∧
      (c.returned = true →
        ((∃ k, c.pc = .returned (.ok k) ∧ t.disk.fs.read .key = some k.bytes) ↔
          s.disk.usable ∨ ∀ c ∈ s.calls, c.pc.leftBehind = false))) ∧
    (∀ as' m, Steps step (Solo pid) (.start fs parent) as' m → Whole (fs.read .key) m.disk) := by
  have hretried := Retried.run hfree hist
  refine ⟨?_, fun as' m hm => Whole.run hm (Agreed.start fs parent).sound⟩
  have hatt := Attempting.run h (Attempting.begin hretried.sound pid)
  obtain ⟨c, hc, hpid, -, hattempt, htaken⟩ := hatt.call
  refine ⟨c, hc, by omega, hatt.progress hc, fun hret => ?_⟩
  rw [hattempt.returned_iff hret, hpid, hretried.free_iff hrest]

/-- The steps of a clean attempt `i` that makes the parent directory and writes in two pieces. -/
def cleanAttempt (i : Nat) (k : SecretKey) : List Action :=
  [.step i .ok, .step i (.key k), .step i .ok, .step i .ok, .step i .ok, .step i .ok,
    .step i (.wrote 20), .step i (.wrote 12), .step i .ok, .step i .ok]

/-- An attempt of which `getrandom` failed does not stand in the way of the next. -/
theorem clean_attempt_after_getrandom :
    ∃ s t, run step (.start .empty false) [.call 1 .replace, .step 0 .ok, .step 0 .fail] = some s ∧
      run step (s.begin 1 .replace) (cleanAttempt 1 (.filled 3)) = some t ∧
      ∃ c k, t.calls[1]? = some c ∧ c.pc = .returned (.ok k) ∧
        t.disk.fs.read .key = some k.bytes := by
  obtain ⟨s, hs, hlen, hleft, t, ht, hret⟩ : ∃ s,
      run (fun s a => if solo 1 s a then step s a else none) (.start .empty false)
        [.call 1 .replace, .step 0 .ok, .step 0 .fail] = some s ∧ s.calls.length = 1 ∧
      (∀ c ∈ s.calls, c.returned = true ∧ c.pc.leftBehind = false) ∧
      ∃ t, run step (s.begin 1 .replace) (cleanAttempt 1 (.filled 3)) = some t ∧
        t.calls[1]?.any Call.returned = true :=
    ⟨_, rfl, rfl, by decide, _, rfl, by decide⟩
  have hist : Steps step (Solo 1) (.start .empty false) _ s :=
    Steps.of_check hs
  have hclean : Steps step (Clean s.calls.length) (s.begin 1 .replace) _ t :=
    Steps.of_run (by simp [cleanAttempt, Clean, hlen]) ht
  obtain ⟨⟨c, hc, -, -, hiff⟩, -⟩ := clean_attempt_iff rfl hist (fun c hc => (hleft c hc).1) hclean
  rw [hlen] at hc
  have hcret : c.returned = true := by simpa [hc] using hret
  obtain ⟨k, hk, hread⟩ := (hiff hcret).mpr (.inr fun c hc => (hleft c hc).2)
  exact ⟨s, t, hist.run_eq, ht, c, k, hc, hk, hread⟩

/-- A write that failed once keeps every later attempt from creating its staging file: the
second attempt is clean, returns an error, and leaves no key. -/
theorem clean_attempt_after_write :
    ∃ s t, run step (.start .empty true) [.call 1 .replace, .step 0 .ok, .step 0 (.key (.filled 3)),
        .step 0 .ok, .step 0 .ok, .step 0 (.wrote 5), .step 0 .fail] = some s ∧
      run step (s.begin 1 .replace) [.step 1 .ok, .step 1 (.key (.filled 4)), .step 1 .ok,
        .step 1 .ok] = some t ∧
      t.calls.map Call.pc = [.returned (.error .writing), .returned (.error .creating)] ∧
      t.disk.fs.read .key = none :=
  ⟨_, _, rfl, rfl, by decide, rfl⟩

end Egdod.Identity
