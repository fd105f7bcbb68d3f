import Mathlib.Data.List.Basic

/-! A byte stream as its reader sees it: arrivals of any size, then an end
that is clean or an error. What a loop of reads gathers depends on what
arrived, not on how it was cut up. -/
namespace Stream

variable {α : Type}

structure Reader (α : Type) where
  chunks : List (List α)
  /-- Whether an error follows the last arrival, in place of a clean end. -/
  broken : Bool
  deriving DecidableEq

def Reader.content (r : Reader α) : List α := r.chunks.flatten

/-! ## One read -/

inductive Got (α : Type)
  | data (xs : List α) (rest : Reader α)
  | eof
  | failed

def readFrom (broken : Bool) (cap : Nat) : List (List α) → Got α
  | [] => if broken then .failed else .eof
  -- an arrival of nothing is none
  | [] :: chunks => readFrom broken cap chunks
  | (x :: xs) :: chunks =>
    .data ((x :: xs).take cap) ⟨(x :: xs).drop cap :: chunks, broken⟩

/-- A read into a buffer of `cap` elements. -/
def Reader.read (r : Reader α) (cap : Nat) : Got α := readFrom r.broken cap r.chunks

/-- A read brings something, unless nothing is left. -/
theorem Reader.read_cases (r : Reader α) {cap : Nat} (hcap : 0 < cap) :
    (∃ xs rest, r.read cap = .data xs rest ∧ xs ≠ [] ∧ xs.length ≤ cap ∧
      xs ++ rest.content = r.content ∧ rest.broken = r.broken) ∨
    (r.content = [] ∧ r.read cap = if r.broken then .failed else .eof) := by
  obtain ⟨chunks, broken⟩ := r
  induction chunks with
  | nil => exact .inr ⟨rfl, rfl⟩
  | cons c chunks ih =>
    cases c with
    | nil => exact ih
    | cons x xs =>
      refine .inl ⟨_, _, rfl, ?_, List.length_take_le _ _, ?_, rfl⟩
      · obtain ⟨n, rfl⟩ := Nat.exists_eq_succ_of_ne_zero (Nat.ne_of_gt hcap)
        simp
      · simp only [Reader.content, List.flatten_cons]
        rw [← List.append_assoc, List.take_append_drop]

theorem Reader.read_data {r rest : Reader α} {cap : Nat} {xs : List α}
    (h : r.read cap = .data xs rest) : xs ++ rest.content = r.content := by
  obtain ⟨chunks, broken⟩ := r
  induction chunks with
  | nil =>
    simp only [Reader.read, readFrom] at h
    split at h <;> cases h
  | cons c chunks ih =>
    cases c with
    | nil => exact ih h
    | cons x xs =>
      cases h
      simp only [Reader.content, List.flatten_cons]
      rw [← List.append_assoc, List.take_append_drop]

/-! ## Reads until the end -/

/-- What successive reads bring, up to the first that brings nothing. -/
def Reader.pieces (cap : Nat) (r : Reader α) : List (List α) :=
  match _h : r.read cap with
  | .data (x :: xs) rest => (x :: xs) :: rest.pieces cap
  | _ => []
termination_by r.content.length
decreasing_by
  rw [← Reader.read_data _h, List.length_append, List.length_cons]
  omega

theorem Reader.flatten_pieces {cap : Nat} (hcap : 0 < cap) (r : Reader α) :
    (r.pieces cap).flatten = r.content := by
  induction hn : r.content.length using Nat.strongRecOn generalizing r with
  | ind n ih =>
    rw [Reader.pieces]
    rcases r.read_cases hcap with ⟨xs, rest, hread, hne, -, hcontent, -⟩ | ⟨hnil, hread⟩
    · obtain ⟨x, xs, rfl⟩ := List.exists_cons_of_ne_nil hne
      have hlt : rest.content.length < n := by
        rw [← hn, ← hcontent, List.length_append, List.length_cons]
        omega
      split
      · rename_i hread'
        cases hread.symm.trans hread'
        rw [List.flatten_cons, ih _ hlt rest rfl, hcontent]
      · rename_i hread'
        exact absurd hread (hread' x xs rest)
    · split
      · rename_i hread'
        rw [hread] at hread'
        split at hread' <;> cases hread'
      · exact hnil.symm

/-! ## Reads until a buffer is full -/

inductive Exact (α : Type)
  | full (xs : List α) (rest : Reader α)
  | eof
  | failed

def Exact.after (xs : List α) : Exact α → Exact α
  | .full ys rest => .full (xs ++ ys) rest
  | .eof => .eof
  | .failed => .failed

def readExactFrom (broken : Bool) : Nat → List (List α) → Exact α
  | 0, chunks => .full [] ⟨chunks, broken⟩
  | _ + 1, [] => if broken then .failed else .eof
  | n + 1, c :: chunks =>
    if c.length ≤ n + 1 then (readExactFrom broken (n + 1 - c.length) chunks).after c
    else .full (c.take (n + 1)) ⟨c.drop (n + 1) :: chunks, broken⟩

/-- `read_exact`. -/
def Reader.readExact (r : Reader α) (n : Nat) : Exact α := readExactFrom r.broken n r.chunks

theorem Reader.readExact_full {r : Reader α} {n : Nat} (h : n ≤ r.content.length) :
    ∃ rest, r.readExact n = .full (r.content.take n) rest ∧
      rest.content = r.content.drop n ∧ rest.broken = r.broken := by
  obtain ⟨chunks, broken⟩ := r
  induction chunks generalizing n with
  | nil =>
    obtain rfl : n = 0 := by simpa [Reader.content] using h
    exact ⟨_, rfl, rfl, rfl⟩
  | cons c chunks ih =>
    cases n with
    | zero => exact ⟨_, rfl, rfl, rfl⟩
    | succ n =>
      simp only [Reader.readExact, readExactFrom]
      split
      · rename_i hle
        have hrest : n + 1 - c.length ≤ (Reader.content ⟨chunks, broken⟩).length := by
          simp only [Reader.content, List.flatten_cons, List.length_append] at h ⊢
          omega
        obtain ⟨rest, hread, hcontent, hbroken⟩ := ih hrest
        refine ⟨rest, ?_, ?_, hbroken⟩
        · simp only [Reader.readExact] at hread
          rw [hread]
          simp [Exact.after, Reader.content, List.take_append, List.take_of_length_le hle]
        · rw [hcontent]
          simp [Reader.content, List.drop_append, List.drop_of_length_le hle]
      · rename_i hlt
        have hle : n + 1 ≤ c.length := by omega
        refine ⟨⟨c.drop (n + 1) :: chunks, broken⟩, ?_, ?_, rfl⟩
        · simp [Reader.content, List.take_append_of_le_length hle]
        · simp [Reader.content, List.drop_append_of_le_length hle]

theorem Reader.readExact_short {r : Reader α} {n : Nat} (h : r.content.length < n) :
    r.readExact n = if r.broken then .failed else .eof := by
  obtain ⟨chunks, broken⟩ := r
  induction chunks generalizing n with
  | nil =>
    obtain ⟨m, rfl⟩ := Nat.exists_eq_succ_of_ne_zero (Nat.ne_of_gt (Nat.zero_lt_of_lt h))
    rfl
  | cons c chunks ih =>
    simp only [Reader.content, List.flatten_cons, List.length_append] at h
    obtain ⟨m, rfl⟩ := Nat.exists_eq_succ_of_ne_zero (Nat.ne_of_gt (Nat.zero_lt_of_lt h))
    have hrest : (Reader.content ⟨chunks, broken⟩).length < m + 1 - c.length := by
      simp only [Reader.content]
      omega
    have := ih hrest
    simp only [Reader.readExact, readExactFrom] at this ⊢
    rw [if_pos (by omega), this]
    split <;> rfl

theorem Reader.content_of_full {r rest : Reader α} {n : Nat} {xs : List α}
    (h : r.readExact n = .full xs rest) :
    n ≤ r.content.length ∧ rest.content = r.content.drop n := by
  by_cases hn : n ≤ r.content.length
  · obtain ⟨rest', hread, hcontent, -⟩ := Reader.readExact_full hn
    rw [h] at hread
    cases hread
    exact ⟨hn, hcontent⟩
  · rw [Reader.readExact_short (by omega)] at h
    split at h <;> cases h

end Stream
