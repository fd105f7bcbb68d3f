import Egdod.State.Pending

/-! The pending list as a book that stays in order: never more entries than
`PENDING_LIMIT`, one per key. `record_pending` and `forget_pending` are
operations on such books. -/
namespace Egdod.State

open Text

variable {key : Str} {now : UInt64} {list : List PendingAgent} {p q : PendingAgent}

/-! ## Eviction -/

theorem evict_of_le (h : list.length ≤ pendingLimit) : evict list = list :=
  if_neg (by omega)

theorem length_evict_le (list : List PendingAgent) : (evict list).length ≤ pendingLimit := by
  unfold evict
  split_ifs with h
  · rw [List.length_drop, List.length_mergeSort]
    omega
  · omega

theorem lastSeen_trans : ∀ p q r : PendingAgent, decide (p.lastSeenUnix ≤ q.lastSeenUnix) = true →
    decide (q.lastSeenUnix ≤ r.lastSeenUnix) = true →
    decide (p.lastSeenUnix ≤ r.lastSeenUnix) = true := by
  simp only [decide_eq_true_eq]
  intro p q r hpq hqr
  exact UInt64.le_trans hpq hqr

theorem lastSeen_total : ∀ p q : PendingAgent, (decide (p.lastSeenUnix ≤ q.lastSeenUnix) ||
    decide (q.lastSeenUnix ≤ p.lastSeenUnix)) = true := by
  simp only [Bool.or_eq_true, decide_eq_true_eq]
  intro p q
  exact UInt64.le_total _ _

/-- What is evicted, and that nobody goes for an older entry. -/
theorem exists_evicted (list : List PendingAgent) :
    ∃ out, (out ++ evict list).Perm list ∧
      ∀ p ∈ out, ∀ q ∈ evict list, p.lastSeenUnix ≤ q.lastSeenUnix := by
  unfold evict
  split_ifs
  · let le (p q : PendingAgent) : Bool := p.lastSeenUnix ≤ q.lastSeenUnix
    have hsorted : (list.mergeSort le).Pairwise fun p q => le p q = true :=
      List.pairwise_mergeSort lastSeen_trans lastSeen_total list
    have hsplit := List.take_append_drop (list.length - pendingLimit) (list.mergeSort le)
    rw [← hsplit, List.pairwise_append] at hsorted
    refine ⟨(list.mergeSort le).take (list.length - pendingLimit), ?_, fun p hp q hq => ?_⟩
    · change (_ ++ (list.mergeSort le).drop _).Perm list
      rw [hsplit]
      exact List.mergeSort_perm list le
    · exact of_decide_eq_true (hsorted.2.2 p hp q hq)
  · exact ⟨[], .refl _, nofun⟩

theorem mem_of_mem_evict (h : p ∈ evict list) : p ∈ list := by
  obtain ⟨out, hperm, _⟩ := exists_evicted list
  exact hperm.subset (List.mem_append_right out h)

theorem nodup_evict (h : (list.map (·.pubkey)).Nodup) : ((evict list).map (·.pubkey)).Nodup := by
  obtain ⟨out, hperm, _⟩ := exists_evicted list
  have hall := (hperm.map (·.pubkey)).nodup_iff.mpr h
  rw [List.map_append] at hall
  exact hall.of_append_right

theorem le_of_evicted (hp : p ∈ list) (hgone : p ∉ evict list) (hq : q ∈ evict list) :
    p.lastSeenUnix ≤ q.lastSeenUnix := by
  obtain ⟨out, hperm, hle⟩ := exists_evicted list
  have hout := List.mem_append.mp (hperm.symm.subset hp)
  exact hle p (hout.resolve_right hgone) q hq

/-! ## One attempt -/

/-- A key without an entry gets one at the end. -/
theorem noteAttempt_of_not_listed (h : ¬ Listed key list) :
    noteAttempt key now list = list ++ [⟨key, now, now, 1⟩] := by
  induction list with
  | nil => rfl
  | cons p rest ih =>
    have hp : p.pubkey ≠ key := fun hp => h ⟨p, by simp, hp⟩
    have hrest : ¬ Listed key rest := fun ⟨q, hq, hk⟩ => h ⟨q, by simp [hq], hk⟩
    simp [noteAttempt, hp, ih hrest]

/-- A key with an entry has the first one updated where it stands. -/
theorem noteAttempt_of_listed (now : UInt64) (h : Listed key list) :
    ∃ before p after, list = before ++ p :: after ∧ p.pubkey = key ∧
      noteAttempt key now list =
        before ++ { p with lastSeenUnix := now, attempts := p.attempts + 1 } :: after := by
  induction list with
  | nil => simp [Listed] at h
  | cons q rest ih =>
    by_cases hq : q.pubkey = key
    · exact ⟨[], q, rest, rfl, hq, by simp [noteAttempt, hq]⟩
    · have hrest : Listed key rest := by
        obtain ⟨p, hp, hk⟩ := h
        rcases List.mem_cons.mp hp with rfl | hp
        · exact absurd hk hq
        · exact ⟨p, hp, hk⟩
      obtain ⟨before, p, after, rfl, hp, hnote⟩ := ih hrest
      exact ⟨q :: before, p, after, rfl, hp, by simp [noteAttempt, hq, hnote]⟩

theorem pubkeys_noteAttempt (now : UInt64) (h : Listed key list) :
    (noteAttempt key now list).map (·.pubkey) = list.map (·.pubkey) := by
  obtain ⟨before, p, after, rfl, _, hnote⟩ := noteAttempt_of_listed now h
  simp [hnote]

theorem length_noteAttempt (now : UInt64) (h : Listed key list) :
    (noteAttempt key now list).length = list.length := by
  have hlength := congrArg List.length (pubkeys_noteAttempt now h)
  rwa [List.length_map, List.length_map] at hlength

theorem listed_iff_mem_pubkeys : Listed key list ↔ key ∈ list.map (·.pubkey) := by
  simp [Listed]

/-! ## Books -/

structure Book where
  entries : List PendingAgent
  bounded : entries.length ≤ pendingLimit
  distinct : (entries.map (·.pubkey)).Nodup

namespace Book

/-- The book of a directory that has no `pending.json`. -/
def empty : Book := ⟨[], Nat.zero_le _, List.nodup_nil⟩

theorem nodup_noteAttempt (b : Book) (key : Str) (now : UInt64) :
    ((noteAttempt key now b.entries).map (·.pubkey)).Nodup := by
  by_cases h : Listed key b.entries
  · rw [pubkeys_noteAttempt now h]
    exact b.distinct
  · rw [noteAttempt_of_not_listed h, List.map_append, List.nodup_append]
    refine ⟨b.distinct, by simp, ?_⟩
    rintro k hk _ hkey rfl
    rw [List.map_singleton, List.mem_singleton] at hkey
    subst hkey
    exact h (listed_iff_mem_pubkeys.mpr hk)

/-- Where an entry comes from: it was there, or it is that of the key. -/
theorem mem_noteAttempt (b : Book) (h : p ∈ noteAttempt key now b.entries) :
    (p.pubkey ≠ key ∧ p ∈ b.entries) ∨
    (p.pubkey = key ∧ p.lastSeenUnix = now ∧
      ∃ q ∈ b.entries, q.pubkey = key ∧ p.attempts = q.attempts + 1) ∨
    (p.pubkey = key ∧ p.lastSeenUnix = now ∧ ¬ Listed key b.entries ∧ p.attempts = 1) := by
  by_cases hl : Listed key b.entries
  · obtain ⟨before, q, after, hsplit, hq, hnote⟩ := noteAttempt_of_listed now hl
    have hdistinct := b.distinct
    rw [hsplit, List.map_append, List.map_cons, List.nodup_middle, List.nodup_cons] at hdistinct
    rw [hnote, List.mem_append, List.mem_cons] at h
    rw [hsplit]
    -- the other entries are not of this key, which has only one
    have other : ∀ r, r ∈ before ∨ r ∈ after → r.pubkey ≠ key := by
      rintro r hr rfl
      apply hdistinct.1
      rw [hq, ← List.map_append]
      exact List.mem_map_of_mem (List.mem_append.mpr hr)
    rcases h with hb | rfl | ha
    · exact .inl ⟨other p (.inl hb), by simp [hb]⟩
    · exact .inr (.inl ⟨hq, rfl, q, by simp, hq, rfl⟩)
    · exact .inl ⟨other p (.inr ha), by simp [ha]⟩
  · rw [noteAttempt_of_not_listed hl, List.mem_append, List.mem_singleton] at h
    rcases h with h | rfl
    · exact .inl ⟨fun hk => hl ⟨p, h, hk⟩, h⟩
    · exact .inr (.inr ⟨rfl, rfl, hl, rfl⟩)

/-- What `record_pending` makes of a book. -/
def record (b : Book) (key : Str) (now : UInt64) : Book where
  entries := recorded key now b.entries
  bounded := length_evict_le _
  distinct := nodup_evict (b.nodup_noteAttempt key now)

/-- What `forget_pending` makes of a book. -/
def forget (b : Book) (key : Str) : Book where
  entries := forgotten key b.entries
  bounded := (List.length_filter_le _ _).trans b.bounded
  distinct := b.distinct.sublist (List.filter_sublist.map _)

/-- An entry that `record_pending` drops is no younger than any it leaves. -/
theorem le_of_not_listed_record (b : Book) (hp : p ∈ b.entries)
    (hgone : ¬ Listed p.pubkey (b.record key now).entries)
    (hq : q ∈ (b.record key now).entries) : p.lastSeenUnix ≤ q.lastSeenUnix := by
  by_cases hl : Listed key b.entries
  · -- the list does not grow, so nobody is evicted
    refine absurd (listed_iff_mem_pubkeys.mpr ?_) hgone
    change p.pubkey ∈ (evict (noteAttempt key now b.entries)).map (·.pubkey)
    rw [evict_of_le (length_noteAttempt now hl ▸ b.bounded), pubkeys_noteAttempt now hl]
    exact List.mem_map_of_mem hp
  · have hnoted : p ∈ noteAttempt key now b.entries := by
      rw [noteAttempt_of_not_listed hl]
      exact List.mem_append_left _ hp
    exact le_of_evicted hnoted (fun h => hgone ⟨p, h, rfl⟩) hq

end Book

end Egdod.State
