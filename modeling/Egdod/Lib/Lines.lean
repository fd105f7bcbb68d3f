import Egdod.Lib.Stream
import Egdod.Lib.Text

/-! Lines and fields. A field is a part of a line that separators or the
line's ends enclose and that has none inside; cutting at every separator gives
the fields. A line read up to its end from a stream is the first of the lines
of what the stream brings, however it arrives. A line too long for one message
is cut into pieces. -/
namespace Lines

open Text Stream

variable {α : Type}

/-! ## Fields -/

section
variable {p : α → Bool} {f l : List α}

/-- `f` stands in `l` between separators or ends, and holds no separator. -/
def HasField (p : α → Bool) (f l : List α) : Prop :=
  (∀ c ∈ f, p c = false) ∧ ∃ before after, l = before ++ f ++ after ∧
    (before = [] ∨ ∃ init c, before = init ++ [c] ∧ p c = true) ∧
    (after = [] ∨ ∃ c tail, after = c :: tail ∧ p c = true)

/-- A list has no separator, or a first one. -/
theorem exists_first (p : α → Bool) (l : List α) :
    (∀ c ∈ l, p c = false) ∨
      ∃ xs sep rest, l = xs ++ sep :: rest ∧ (∀ c ∈ xs, p c = false) ∧ p sep = true := by
  induction l with
  | nil => exact .inl (by simp)
  | cons c l ih =>
    by_cases hc : p c = true
    · exact .inr ⟨[], c, l, rfl, by simp, hc⟩
    · have hc' : p c = false := by simpa using hc
      rcases ih with h | ⟨xs, sep, rest, rfl, hxs, hsep⟩
      · exact .inl (List.forall_mem_cons.mpr ⟨hc', h⟩)
      · exact .inr ⟨c :: xs, sep, rest, rfl, List.forall_mem_cons.mpr ⟨hc', hxs⟩, hsep⟩

/-- Two ways to cut a list at its first separator agree. -/
theorem first_eq {xs ys rest rest' : List α} (hxs : ∀ c ∈ xs, p c = false)
    (hys : ∀ c ∈ ys, p c = false) (hrest : rest = [] ∨ ∃ c tail, rest = c :: tail ∧ p c = true)
    (hrest' : rest' = [] ∨ ∃ c tail, rest' = c :: tail ∧ p c = true)
    (h : xs ++ rest = ys ++ rest') : xs = ys ∧ rest = rest' := by
  have cut : ∀ {xs rest : List α}, (∀ c ∈ xs, p c = false) →
      (rest = [] ∨ ∃ c tail, rest = c :: tail ∧ p c = true) →
      (xs ++ rest).takeWhile (fun c => !p c) = xs := by
    intro xs rest hxs hrest
    rw [List.takeWhile_append_of_pos (by simpa using hxs)]
    rcases hrest with rfl | ⟨c, tail, rfl, hc⟩
    · simp
    · simp [hc]
  have hfirst : xs = ys := by rw [← cut hxs hrest, h, cut hys hrest']
  subst hfirst
  exact ⟨rfl, List.append_cancel_left h⟩

theorem hasField_plain (hl : ∀ c ∈ l, p c = false) : HasField p f l ↔ f = l := by
  constructor
  · rintro ⟨-, before, after, rfl, hbefore, hafter⟩
    have hb : before = [] := by
      rcases hbefore with h | ⟨init, c, rfl, hc⟩
      · exact h
      · have := hl c (by simp)
        rw [hc] at this
        cases this
    have ha : after = [] := by
      rcases hafter with h | ⟨c, tail, rfl, hc⟩
      · exact h
      · have := hl c (by simp)
        rw [hc] at this
        cases this
    simp [hb, ha]
  · rintro rfl
    exact ⟨hl, [], [], by simp, .inl rfl, .inl rfl⟩

theorem hasField_append_cons {xs rest : List α} {sep : α} (hxs : ∀ c ∈ xs, p c = false)
    (hsep : p sep = true) : HasField p f (xs ++ sep :: rest) ↔ f = xs ∨ HasField p f rest := by
  constructor
  · rintro ⟨hf, before, after, hl, hbefore, hafter⟩
    rcases hbefore with rfl | ⟨init, c, rfl, hc⟩
    · exact .inl (first_eq hxs hf (.inr ⟨sep, rest, rfl, hsep⟩) hafter hl).1.symm
    · -- what comes before the field reaches beyond the first separator
      right
      obtain ⟨ys, sep', tail, hinit, hys, hsep'⟩ : ∃ ys sep' tail,
          init ++ [c] = ys ++ sep' :: tail ∧ (∀ c ∈ ys, p c = false) ∧ p sep' = true := by
        rcases exists_first p (init ++ [c]) with hnone | hfirst
        · have := hnone c (by simp)
          rw [hc] at this
          cases this
        · exact hfirst
      have hcut := first_eq hxs hys (.inr ⟨sep, rest, rfl, hsep⟩)
        (.inr ⟨sep', tail ++ (f ++ after), rfl, hsep'⟩) (by rw [hl, hinit]; simp)
      obtain ⟨rfl, hrest⟩ := hcut
      rw [List.cons.injEq] at hrest
      refine ⟨hf, tail, after, by rw [hrest.2, List.append_assoc], ?_, hafter⟩
      by_cases htail : tail = []
      · exact .inl htail
      · have hlast : (xs ++ sep' :: tail).getLast? = some c := by rw [← hinit]; simp
        have hlast' : tail.getLast? = some c := by
          rw [List.getLast?_append_of_ne_nil _ (by simp),
            List.getLast?_cons_of_ne_nil htail] at hlast
          exact hlast
        obtain ⟨init', hinit'⟩ := List.getLast?_eq_some_iff.mp hlast'
        exact .inr ⟨init', c, hinit', hc⟩
  · rintro (rfl | ⟨hf, before, after, rfl, hbefore, hafter⟩)
    · exact ⟨hxs, [], sep :: rest, by simp, .inl rfl, .inr ⟨sep, rest, rfl, hsep⟩⟩
    · refine ⟨hf, xs ++ sep :: before, after, by simp, .inr ?_, hafter⟩
      rcases hbefore with rfl | ⟨init, c, rfl, hc⟩
      · exact ⟨xs, sep, rfl, hsep⟩
      · exact ⟨xs ++ sep :: init, c, by simp, hc⟩

/-- Cutting at every separator gives the fields. -/
theorem mem_splitOnP_iff : f ∈ l.splitOnP p ↔ HasField p f l := by
  induction hn : l.length using Nat.strongRecOn generalizing l with
  | ind n ih =>
    rcases exists_first p l with hplain | ⟨xs, sep, rest, rfl, hxs, hsep⟩
    · rw [List.splitOnP_eq_singleton hplain, List.mem_singleton, hasField_plain hplain]
    · rw [List.splitOnP_append_cons _ _ hsep, List.splitOnP_eq_singleton hxs,
        List.singleton_append, List.mem_cons, hasField_append_cons hxs hsep]
      have hlen : rest.length < n := by
        rw [← hn, List.length_append, List.length_cons]
        omega
      rw [ih _ hlen rfl]

instance [DecidableEq α] : Decidable (HasField p f l) := decidable_of_iff _ mem_splitOnP_iff

end

/-! ## Words -/

section
variable {p : α → Bool} {l : List α}

/-- The fields that are not empty. -/
def words (p : α → Bool) (l : List α) : List (List α) := (l.splitOnP p).filter (· ≠ [])

theorem words_append_cons {sep : α} (hsep : p sep = true) (xs rest : List α) :
    words p (xs ++ sep :: rest) = words p xs ++ words p rest := by
  rw [words, List.splitOnP_append_cons _ _ hsep, List.filter_append, words, words]

theorem words_plain (hl : ∀ c ∈ l, p c = false) (hne : l ≠ []) : words p l = [l] := by
  rw [words, List.splitOnP_eq_singleton hl]
  simp [hne]

@[simp] theorem words_nil : words p ([] : List α) = [] := by
  rw [words, List.splitOnP_eq_singleton (by simp)]
  rfl

/-- A separator at the end makes no word. -/
theorem words_snoc {sep : α} (hsep : p sep = true) (l : List α) :
    words p (l ++ [sep]) = words p l := by
  rw [words_append_cons hsep, words_nil, List.append_nil]

theorem plain_of_mem_words {w : List α} (h : w ∈ words p l) :
    w ≠ [] ∧ ∀ c ∈ w, p c = false := by
  obtain ⟨hmem, hne⟩ := List.mem_filter.mp h
  exact ⟨by simpa using hne, (mem_splitOnP_iff.mp hmem).1⟩

/-- There is at most one word more than there are separators. -/
theorem length_words_le (p : α → Bool) (l : List α) :
    (words p l).length ≤ l.countP p + 1 := by
  induction hn : l.length using Nat.strongRecOn generalizing l with
  | ind n ih =>
    rcases exists_first p l with hplain | ⟨xs, sep, rest, rfl, hxs, hsep⟩
    · by_cases hne : l = []
      · simp [hne]
      · simp [words_plain hplain hne]
    · have hlen : rest.length < n := by
        rw [← hn, List.length_append, List.length_cons]
        omega
      have hxs' : (words p xs).length ≤ 1 := by
        by_cases hne : xs = []
        · simp [hne]
        · simp [words_plain hxs hne]
      have hrest := ih _ hlen rest rfl
      rw [words_append_cons hsep, List.length_append, List.countP_append,
        List.countP_cons_of_pos hsep]
      omega

end

/-- What is left of lines when their first characters go: the rest of one and the lines behind
it. -/
theorem exists_drop_lines (sep : α) (ls : List (List α)) (n : Nat) :
    ∃ rest : List (List α), (ls.flatMap (· ++ [sep])).drop n = rest.flatMap (· ++ [sep]) ∧
      ∀ r ∈ rest, ∃ l ∈ ls, r <:+ l := by
  induction ls generalizing n with
  | nil => exact ⟨[], by simp, by simp⟩
  | cons l ls ih =>
    by_cases h : n ≤ l.length
    · refine ⟨l.drop n :: ls, ?_, ?_⟩
      · rw [List.flatMap_cons, List.append_assoc, List.drop_append_of_le_length h,
          List.flatMap_cons, List.append_assoc]
      · intro r hr
        rcases List.mem_cons.mp hr with rfl | hr
        · exact ⟨l, by simp, List.drop_suffix n l⟩
        · exact ⟨r, by simp [hr], List.suffix_refl r⟩
    · obtain ⟨rest, hdrop, hrest⟩ := ih (n - (l ++ [sep]).length)
      refine ⟨rest, ?_, fun r hr => ?_⟩
      · rw [List.flatMap_cons, List.drop_append, hdrop,
          List.drop_eq_nil_of_le (by rw [List.length_append, List.length_singleton]; omega),
          List.nil_append]
      · obtain ⟨l', hl', hsuffix⟩ := hrest r hr
        exact ⟨l', by simp [hl'], hsuffix⟩

/-! ## Lines of a stream -/

section
variable [DecidableEq α] {sep : α}

/-- A line ends with its only separator, or has none. -/
theorem mem_splitInclusive {l line : List α} (h : line ∈ splitInclusive sep l) :
    (∃ body, line = body ++ [sep] ∧ sep ∉ body) ∨ sep ∉ line := by
  induction l generalizing line with
  | nil => simp [splitInclusive] at h
  | cons c l ih =>
    simp only [splitInclusive] at h
    split at h
    · rename_i hc
      rcases List.mem_cons.mp h with rfl | h
      · exact .inl ⟨[], by simp [hc], by simp⟩
      · exact ih h
    · rename_i hc
      split at h
      · obtain rfl := List.mem_singleton.mp h
        exact .inr (by simpa using Ne.symm hc)
      · rename_i first rest hsplit
        rw [hsplit] at ih
        rcases List.mem_cons.mp h with rfl | h
        · rcases ih List.mem_cons_self with ⟨body, rfl, hbody⟩ | hfirst
          · exact .inl ⟨c :: body, rfl, by simp [Ne.symm hc, hbody]⟩
          · exact .inr (by simp [Ne.symm hc, hfirst])
        · exact ih (List.mem_cons_of_mem _ h)

def readUntilFrom (sep : α) (broken : Bool) : List (List α) → Option (List α × List (List α))
  | [] => if broken then none else some ([], [])
  | c :: chunks =>
    if sep ∈ c then
      some (c.takeWhile (· ≠ sep) ++ [sep], (c.dropWhile (· ≠ sep)).tail :: chunks)
    else (readUntilFrom sep broken chunks).map fun (line, rest) => (c ++ line, rest)

/-- `read_until`: up to and with the separator, or up to the end. -/
def readUntil (sep : α) (r : Reader α) : Option (List α × Reader α) :=
  (readUntilFrom sep r.broken r.chunks).map fun (line, rest) => (line, ⟨rest, r.broken⟩)

theorem readUntilFrom_spec (sep : α) (chunks : List (List α)) :
    ∃ line rest, readUntilFrom sep false chunks = some (line, rest) ∧
      line ++ rest.flatten = chunks.flatten ∧
      ((∃ body, line = body ++ [sep] ∧ sep ∉ body) ∨ (sep ∉ line ∧ rest.flatten = [])) := by
  induction chunks with
  | nil => exact ⟨[], [], rfl, rfl, .inr ⟨by simp, rfl⟩⟩
  | cons c chunks ih =>
    simp only [readUntilFrom]
    split
    · rename_i hsep
      obtain ⟨body, tail, rfl, hbody⟩ := List.eq_append_cons_of_mem hsep
      rw [takeWhile_ne_append hbody, dropWhile_ne_append hbody]
      exact ⟨body ++ [sep], tail :: chunks, by simp, by simp, .inl ⟨body, rfl, hbody⟩⟩
    · rename_i hsep
      obtain ⟨line, rest, hread, hflat, hline⟩ := ih
      refine ⟨c ++ line, rest, by rw [hread]; rfl, by simp [← hflat], ?_⟩
      rcases hline with ⟨body, rfl, hbody⟩ | ⟨hline, hrest⟩
      · exact .inl ⟨c ++ body, by simp, by simp [hsep, hbody]⟩
      · exact .inr ⟨by simp [hsep, hline], hrest⟩

/-- A line read from a stream is the first line of what the stream brings. -/
theorem readUntil_spec (sep : α) {r : Reader α} (h : r.broken = false) :
    ∃ line rest, readUntil sep r = some (line, rest) ∧ rest.broken = false ∧
      ((line = [] ∧ r.content = []) ∨
        (line ≠ [] ∧ rest.content.length < r.content.length ∧
          splitInclusive sep r.content = line :: splitInclusive sep rest.content)) := by
  obtain ⟨line, rest, hread, hflat, hline⟩ := readUntilFrom_spec sep r.chunks
  refine ⟨line, ⟨rest, r.broken⟩, by simp [readUntil, h, hread], h, ?_⟩
  simp only [Reader.content]
  rw [← hflat]
  by_cases hnil : line = []
  · subst hnil
    rcases hline with ⟨body, hbody, -⟩ | ⟨-, hrest⟩
    · simp at hbody
    · exact .inl ⟨rfl, by simp [hrest]⟩
  · refine .inr ⟨hnil, ?_, ?_⟩
    · have := List.length_pos_iff.mpr hnil
      rw [List.length_append]
      omega
    · rcases hline with ⟨body, rfl, hbody⟩ | ⟨hline, hrest⟩
      · rw [splitInclusive_append (.inr (by simp)), splitInclusive_line hbody,
          List.singleton_append]
      · rw [hrest, List.append_nil, splitInclusive_piece hline hnil]
        rfl

end

/-! ## Pieces -/

section
variable {k : Nat} {xs : List α}

/-- Pieces of length `k` from the start on, the last one shorter. -/
def cut (k : Nat) (l : List α) : List (List α) :=
  (List.range ((l.length + (k - 1)) / k)).map fun i => (l.drop (k * i)).take k

theorem cut_nil (hk : 0 < k) : cut k ([] : List α) = [] := by
  have hnone : (0 + (k - 1)) / k = 0 := Nat.div_eq_of_lt (by omega)
  simp only [cut, List.length_nil, hnone]
  rfl

theorem cut_of_le (hxs : xs ≠ []) (h : xs.length ≤ k) : cut k xs = [xs] := by
  have hpos := List.length_pos_iff.mpr hxs
  have hone : (xs.length + (k - 1)) / k = 1 :=
    Nat.div_eq_of_lt_le (by omega) (by omega)
  simp [cut, hone, List.range_succ, List.take_of_length_le h]

/-- Whole pieces may be cut off first. -/
theorem cut_append (hk : 0 < k) (h : k ∣ xs.length) (ys : List α) :
    cut k (xs ++ ys) = cut k xs ++ cut k ys := by
  obtain ⟨m, hm⟩ := h
  have hcount : ∀ n, (k * m + n + (k - 1)) / k = m + (n + (k - 1)) / k := by
    intro n
    rw [Nat.add_assoc, Nat.mul_add_div hk]
  have hwhole : (k * m + (k - 1)) / k = m := by
    rw [Nat.mul_add_div hk, Nat.div_eq_of_lt (by omega), Nat.add_zero]
  simp only [cut, List.length_append, hm, hcount, hwhole, List.range_add, List.map_append,
    List.map_map]
  congr 1
  · apply List.map_congr_left
    intro i hi
    have hi' : k * (i + 1) ≤ k * m := Nat.mul_le_mul_left k (List.mem_range.mp hi)
    rw [Nat.mul_succ] at hi'
    rw [List.drop_append_of_le_length (by omega), List.take_append_of_le_length]
    rw [List.length_drop]
    omega
  · apply List.map_congr_left
    intro i _
    simp only [Function.comp_apply, Nat.mul_add, ← hm, List.drop_length_add_append]

theorem length_le_of_mem_cut {piece : List α} (h : piece ∈ cut k xs) : piece.length ≤ k := by
  obtain ⟨i, -, rfl⟩ := List.mem_map.mp h
  exact List.length_take_le _ _

theorem flatten_cut (hk : 0 < k) (xs : List α) : (cut k xs).flatten = xs := by
  induction hn : xs.length using Nat.strongRecOn generalizing xs with
  | ind n ih =>
    by_cases hnil : xs = []
    · simp [hnil, cut_nil hk]
    · by_cases hle : xs.length ≤ k
      · simp [cut_of_le hnil hle]
      · have hfirst : (xs.take k).length = k := List.length_take_of_le (by omega)
        have hne : xs.take k ≠ [] := List.length_pos_iff.mp (by omega)
        have hdvd : k ∣ (xs.take k).length := by simp [hfirst]
        have hcut := cut_append hk hdvd (xs.drop k)
        rw [cut_of_le hne hfirst.le, List.take_append_drop] at hcut
        rw [hcut, List.flatten_append, ih (xs.length - k) (by omega) (xs.drop k) (by simp)]
        simp

end

end Lines
