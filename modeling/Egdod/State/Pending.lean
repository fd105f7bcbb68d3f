import Egdod.State.Approved

/-! The pending list: what `record_pending` and `forget_pending` make of it,
and the file it lives in. The bytes are serde_json's; the program relies on
reading back what it wrote. -/
namespace Egdod.State

open Text Posix

structure PendingAgent where
  pubkey : Str
  firstSeenUnix : UInt64
  lastSeenUnix : UInt64
  attempts : UInt64
  deriving DecidableEq

/-- `PENDING_LIMIT`. -/
def pendingLimit : Nat := 256

/-- What the code uses of serde_json for `pending.json`. -/
structure PendingCodec where
  toVecPretty : List PendingAgent → Bytes
  fromSlice : Bytes → Option (List PendingAgent)
  roundTrip : ∀ list, fromSlice (toVecPretty list) = some list

/-- `StateDir::pending`. -/
def pending (codec : PendingCodec) : Except IoError Bytes → Except IoError (List PendingAgent)
  | .ok bytes => match codec.fromSlice bytes with
    | some list => .ok list
    | none => .error .other
  | .error .notFound => .ok []
  | .error e => .error e

/-- Updates the first entry of a key, or appends one. The count wraps, as `+= 1` does in a
release build. -/
def noteAttempt (key : Str) (now : UInt64) : List PendingAgent → List PendingAgent
  | [] => [{ pubkey := key, firstSeenUnix := now, lastSeenUnix := now, attempts := 1 }]
  | p :: rest =>
    if p.pubkey = key then { p with lastSeenUnix := now, attempts := p.attempts + 1 } :: rest
    else p :: noteAttempt key now rest

/-- Keeps the `pendingLimit` most recent entries; the sort is stable. -/
def evict (list : List PendingAgent) : List PendingAgent :=
  if list.length > pendingLimit then
    (list.mergeSort fun p q => p.lastSeenUnix ≤ q.lastSeenUnix).drop (list.length - pendingLimit)
  else list

/-- The list `record_pending` writes back. -/
def recorded (key : Str) (now : UInt64) (list : List PendingAgent) : List PendingAgent :=
  evict (noteAttempt key now list)

/-- The list `forget_pending` writes back, if it is shorter. -/
def forgotten (key : Str) (list : List PendingAgent) : List PendingAgent :=
  list.filter (·.pubkey ≠ key)

/-- A key has an entry. -/
def Listed (key : Str) (list : List PendingAgent) : Prop := ∃ p ∈ list, p.pubkey = key

theorem listed_noteAttempt {key k : Str} {now : UInt64} {list : List PendingAgent}
    (h : Listed k (noteAttempt key now list)) : k = key ∨ Listed k list := by
  induction list with
  | nil =>
    obtain ⟨p, hp, rfl⟩ := h
    simp only [noteAttempt, List.mem_singleton] at hp
    exact .inl (by rw [hp])
  | cons q rest ih =>
    obtain ⟨p, hp, rfl⟩ := h
    simp only [noteAttempt] at hp
    split at hp
    · rename_i hq
      rcases List.mem_cons.mp hp with rfl | hp
      · exact .inl hq
      · exact .inr ⟨p, by simp [hp], rfl⟩
    · rcases List.mem_cons.mp hp with rfl | hp
      · exact .inr ⟨p, by simp, rfl⟩
      · rcases ih ⟨p, hp, rfl⟩ with hk | ⟨r, hr, hk⟩
        · exact .inl hk
        · exact .inr ⟨r, by simp [hr], hk⟩

theorem listed_evict {k : Str} {list : List PendingAgent} (h : Listed k (evict list)) :
    Listed k list := by
  obtain ⟨p, hp, hk⟩ := h
  unfold evict at hp
  split at hp
  · exact ⟨p, List.mem_mergeSort.mp (List.mem_of_mem_drop hp), hk⟩
  · exact ⟨p, hp, hk⟩

/-- Recording a key lists no other key that was not listed. -/
theorem listed_recorded {key k : Str} {now : UInt64} {list : List PendingAgent}
    (h : Listed k (recorded key now list)) : k = key ∨ Listed k list :=
  listed_noteAttempt (listed_evict h)

theorem listed_forgotten {key k : Str} {list : List PendingAgent} :
    Listed k (forgotten key list) ↔ k ≠ key ∧ Listed k list := by
  constructor
  · rintro ⟨p, hp, rfl⟩
    simp only [forgotten, List.mem_filter, decide_eq_true_eq] at hp
    exact ⟨hp.2, p, hp.1, rfl⟩
  · rintro ⟨hne, p, hp, rfl⟩
    exact ⟨p, by simp [forgotten, hp, hne], rfl⟩

/-- `forget_pending` skips the write exactly when the key had no entry. -/
theorem not_listed_of_length_forgotten {key : Str} {list : List PendingAgent}
    (h : (forgotten key list).length = list.length) : ¬ Listed key list := by
  rintro ⟨p, hp, rfl⟩
  have hall := List.length_filter_eq_length_iff.mp h p hp
  simp at hall

end Egdod.State
