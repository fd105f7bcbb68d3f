import Mathlib.Data.List.DropRight
import Mathlib.Data.List.Basic

/-! The text operations of a Unicode string library, on lists of scalar
values: lines, trimming and splitting at whitespace, and UTF-8 both ways.
`splitInclusive` is generic, because byte streams are cut into lines by the
same rule. -/
namespace Text

abbrev Str := List Char

/-- The `White_Space` property of Unicode. -/
def isWhitespace (c : Char) : Bool :=
  let n := c.toNat
  (9 ≤ n && n ≤ 13) || n == 0x20 || n == 0x85 || n == 0xA0 || n == 0x1680 ||
    (0x2000 ≤ n && n ≤ 0x200A) || n == 0x2028 || n == 0x2029 || n == 0x202F ||
    n == 0x205F || n == 0x3000

def trim (s : Str) : Str := (s.dropWhile isWhitespace).rdropWhile isWhitespace

/-- Maximal runs without whitespace. -/
def splitWhitespace (s : Str) : List Str := (s.splitOnP isWhitespace).filter (· ≠ [])

/-- Pieces that end just after a separator; the last one may lack it. -/
def splitInclusive {α : Type} [DecidableEq α] (sep : α) : List α → List (List α)
  | [] => []
  | c :: cs =>
    if c = sep then [c] :: splitInclusive sep cs
    else match splitInclusive sep cs with
      | [] => [[c]]
      | l :: ls => (c :: l) :: ls

def stripSuffix {α : Type} [DecidableEq α] (c : α) (l : List α) : Option (List α) :=
  if l.getLast? = some c then some l.dropLast else none

/-- A line without its `\n` or `\r\n`; a bare final `\r` stays. -/
def stripLineEnd (line : Str) : Str :=
  match stripSuffix '\n' line with
  | none => line
  | some l => (stripSuffix '\r' l).getD l

def lines (s : Str) : List Str := (splitInclusive '\n' s).map stripLineEnd

/-- Only the letters a to z change case here. -/
def toLowercase (s : Str) : Str := s.map Char.toLower

/-- The bytes of a text. -/
def encode (s : Str) : List UInt8 := s.flatMap String.utf8EncodeChar

/-- The text of some bytes, if they are UTF-8. -/
def decode (bs : List UInt8) : Option Str :=
  bs.toByteArray.utf8Decode?.map Array.toList

@[simp] theorem decode_encode (s : Str) : decode (encode s) = some s := by
  have h : (encode s).toByteArray = s.utf8Encode := rfl
  simp [decode, h, List.utf8Decode?_utf8Encode]

theorem encode_injective {s t : Str} (h : encode s = encode t) : s = t := by
  have := decode_encode s
  rw [h, decode_encode] at this
  exact (Option.some.inj this).symm

theorem encode_append (s t : Str) : encode (s ++ t) = encode s ++ encode t :=
  List.flatMap_append

/-- A byte below 128 stands for the character of that number only. -/
theorem mem_utf8EncodeChar {b : UInt8} (hb : b.toNat < 128) (c : Char) :
    b ∈ String.utf8EncodeChar c ↔ b.toNat = c.toNat := by
  have hc : c.val.toNat = c.toNat := rfl
  unfold String.utf8EncodeChar
  simp only [hc]
  split
  · rw [List.mem_singleton, ← UInt8.toNat_inj, UInt8.toNat_ofNat']
    omega
  · have hhigh : ∀ n, 128 ≤ n % 256 → b ≠ UInt8.ofNat n := by
      rintro n hn rfl
      rw [UInt8.toNat_ofNat'] at hb
      omega
    refine iff_of_false ?_ (by omega)
    -- two, three or four bytes, each with its top bit set
    split
    · rw [List.mem_pair, not_or]
      exact ⟨hhigh _ (by omega), hhigh _ (by omega)⟩
    · split
      · simp only [List.mem_cons, List.not_mem_nil, or_false, not_or]
        exact ⟨hhigh _ (by omega), hhigh _ (by omega), hhigh _ (by omega)⟩
      · simp only [List.mem_cons, List.not_mem_nil, or_false, not_or]
        exact ⟨hhigh _ (by omega), hhigh _ (by omega), hhigh _ (by omega), hhigh _ (by omega)⟩

theorem encode_ne_nil {s : Str} (h : s ≠ []) : encode s ≠ [] :=
  fun e => h (encode_injective (e.trans rfl))

theorem toNat_toUInt8 {c : Char} (hc : c.toNat < 128) : c.toUInt8.toNat = c.toNat := by
  rw [Char.toUInt8, UInt32.toNat_toUInt8]
  exact Nat.mod_eq_of_lt (Nat.lt_trans hc (by decide))

theorem mem_encode_ascii {c : Char} (hc : c.toNat < 128) {s : Str} :
    c.toUInt8 ∈ encode s ↔ c ∈ s := by
  have hbyte := toNat_toUInt8 hc
  rw [encode, List.mem_flatMap]
  constructor
  · rintro ⟨d, hd, hmem⟩
    rw [mem_utf8EncodeChar (by omega), hbyte] at hmem
    rwa [Char.toNat_inj.mp hmem]
  · intro hmem
    exact ⟨c, hmem, (mem_utf8EncodeChar (by omega) c).mpr hbyte⟩

theorem encode_cons_ascii {c : Char} (hc : c.toNat < 128) (s : Str) :
    encode (c :: s) = c.toUInt8 :: encode s := by
  have hchar : String.utf8EncodeChar c = [c.toUInt8] := by
    have hval : c.val.toNat ≤ 127 := Nat.le_of_lt_succ hc
    simp only [String.utf8EncodeChar, hval, if_true]
    rfl
  rw [encode, List.flatMap_cons, hchar, List.singleton_append]
  rfl

theorem length_encode_ascii {s : Str} (h : ∀ c ∈ s, c.toNat < 128) :
    (encode s).length = s.length := by
  induction s with
  | nil => rfl
  | cons c s ih =>
    obtain ⟨hc, hs⟩ := List.forall_mem_cons.mp h
    rw [encode_cons_ascii hc, List.length_cons, List.length_cons, ih hs]

theorem length_le_length_encode (s : Str) : s.length ≤ (encode s).length := by
  induction s with
  | nil => simp
  | cons c s ih =>
    have hpos := Char.utf8Size_pos c
    have hcons : encode (c :: s) = String.utf8EncodeChar c ++ encode s := rfl
    rw [hcons, List.length_append, String.length_utf8EncodeChar, List.length_cons]
    omega

/-- Only visible ASCII characters. -/
def Visible (s : Str) : Prop := ∀ c ∈ s, 32 < c.toNat ∧ c.toNat < 127

instance (s : Str) : Decidable (Visible s) :=
  decidable_of_iff ((s.all fun c => 32 < c.toNat && c.toNat < 127) = true) (by simp [Visible])

theorem Visible.append {s t : Str} (hs : Visible s) (ht : Visible t) : Visible (s ++ t) :=
  List.forall_mem_append.mpr ⟨hs, ht⟩

theorem Visible.cons {c : Char} {s : Str} (hc : 32 < c.toNat ∧ c.toNat < 127) (hs : Visible s) :
    Visible (c :: s) := List.forall_mem_cons.mpr ⟨hc, hs⟩

theorem Visible.not_mem {s : Str} (h : Visible s) {c : Char} (hc : c.toNat ≤ 32) : c ∉ s :=
  fun hmem => absurd (h c hmem).1 (by omega)

theorem Visible.ascii {s : Str} (h : Visible s) : ∀ c ∈ s, c.toNat < 128 ∧ c ≠ '\x00' := by
  intro c hc
  refine ⟨Nat.lt_succ_of_lt (h c hc).2, ?_⟩
  rintro rfl
  exact h.not_mem (by decide) hc

theorem Visible.length_encode {s : Str} (h : Visible s) : (encode s).length = s.length :=
  length_encode_ascii fun c hc => Nat.lt_succ_of_lt (h c hc).2

theorem visible_toDigits (n : Nat) : Visible (Nat.toDigits 10 n) := by
  intro c hc
  have hdigit := Nat.isDigit_of_mem_toDigits (by decide) (by decide) hc
  simp only [Char.isDigit, Bool.and_eq_true, decide_eq_true_eq, UInt32.le_iff_toNat_le] at hdigit
  obtain ⟨hlow, hhigh⟩ := hdigit
  have hlow' : 48 ≤ c.toNat := hlow
  have hhigh' : c.toNat ≤ 57 := hhigh
  omega

/-! ## Cutting at a separator -/

section Split
variable {α : Type} [DecidableEq α] {sep : α}

theorem forall_ne_of_not_mem {l : List α} (h : sep ∉ l) : ∀ c ∈ l, decide (c ≠ sep) = true :=
  fun _ hc => decide_eq_true fun heq => h (heq ▸ hc)

/-- The part in front of the first separator. -/
theorem takeWhile_ne_append {l : List α} (h : sep ∉ l) (rest : List α) :
    (l ++ sep :: rest).takeWhile (· ≠ sep) = l := by
  rw [List.takeWhile_append_of_pos (forall_ne_of_not_mem h)]
  simp

theorem dropWhile_ne_append {l : List α} (h : sep ∉ l) (rest : List α) :
    (l ++ sep :: rest).dropWhile (· ≠ sep) = sep :: rest := by
  rw [List.dropWhile_append_of_pos (forall_ne_of_not_mem h)]
  simp

/-- A text is closed when nothing follows its last separator. -/
def Closed (sep : α) (l : List α) : Prop := l = [] ∨ l.getLast? = some sep

theorem splitInclusive_ne_nil {l : List α} (h : l ≠ []) : splitInclusive sep l ≠ [] := by
  cases l with
  | nil => exact absurd rfl h
  | cons c cs =>
    simp only [splitInclusive]
    split
    · simp
    · split <;> simp

/-- Appending to a closed text appends the pieces. -/
theorem splitInclusive_append {a : List α} (h : Closed sep a) (b : List α) :
    splitInclusive sep (a ++ b) = splitInclusive sep a ++ splitInclusive sep b := by
  induction a with
  | nil => rfl
  | cons c cs ih =>
    by_cases hcs : cs = []
    · subst hcs
      have hc : c = sep := by simpa [Closed] using h
      simp [splitInclusive, hc]
    · have hclosed : Closed sep cs := by
        right
        rcases h with h | h
        · cases h
        · rwa [List.getLast?_cons_of_ne_nil hcs] at h
      simp only [List.cons_append, splitInclusive]
      rw [ih hclosed]
      split
      · rfl
      · cases hs : splitInclusive sep cs with
        | nil => exact absurd hs (splitInclusive_ne_nil hcs)
        | cons l ls => rfl

theorem splitInclusive_line {l : List α} (h : sep ∉ l) :
    splitInclusive sep (l ++ [sep]) = [l ++ [sep]] := by
  induction l with
  | nil => simp [splitInclusive]
  | cons c cs ih =>
    simp only [List.mem_cons, not_or] at h
    simp [splitInclusive, Ne.symm h.1, ih h.2]

/-- Lines that are all ended by the separator are the pieces. -/
theorem splitInclusive_lines {ls : List (List α)} (h : ∀ l ∈ ls, sep ∉ l) :
    splitInclusive sep (ls.flatMap (· ++ [sep])) = ls.map (· ++ [sep]) := by
  induction ls with
  | nil => rfl
  | cons l ls ih =>
    obtain ⟨hl, hls⟩ := List.forall_mem_cons.mp h
    have hclosed : Closed sep (l ++ [sep]) := .inr (by simp)
    rw [List.flatMap_cons, splitInclusive_append hclosed, splitInclusive_line hl, ih hls,
      List.map_cons, List.singleton_append]

theorem splitInclusive_piece {l : List α} (h : sep ∉ l) (hne : l ≠ []) :
    splitInclusive sep l = [l] := by
  induction l with
  | nil => exact absurd rfl hne
  | cons c cs ih =>
    simp only [List.mem_cons, not_or] at h
    by_cases hcs : cs = []
    · simp [splitInclusive, hcs, Ne.symm h.1]
    · simp [splitInclusive, Ne.symm h.1, ih h.2 hcs]

/-- Every text is closed lines followed by at most one open line. -/
theorem exists_closed_append (sep : α) (l : List α) :
    ∃ a b, l = a ++ b ∧ Closed sep a ∧ sep ∉ b := by
  induction l using List.reverseRecOn with
  | nil => exact ⟨[], [], rfl, .inl rfl, by simp⟩
  | append_singleton l c ih =>
    obtain ⟨a, b, rfl, ha, hb⟩ := ih
    by_cases hc : c = sep
    · exact ⟨a ++ b ++ [c], [], by simp, .inr (by simp [hc]), by simp⟩
    · exact ⟨a, b ++ [c], by simp, ha, by simp [hb, Ne.symm hc]⟩

end Split

/-! ## Lines -/

theorem lines_append {a : Str} (h : Closed '\n' a) (b : Str) :
    lines (a ++ b) = lines a ++ lines b := by
  simp [lines, splitInclusive_append h]

theorem lines_line {l : Str} (h : '\n' ∉ l) :
    lines (l ++ ['\n']) = [(stripSuffix '\r' l).getD l] := by
  simp [lines, splitInclusive_line h, stripLineEnd, stripSuffix]

theorem lines_piece {l : Str} (h : '\n' ∉ l) (hne : l ≠ []) : lines l = [l] := by
  have hlast : l.getLast? ≠ some '\n' := fun e => h (List.mem_of_getLast? e)
  simp [lines, splitInclusive_piece h hne, stripLineEnd, stripSuffix, hlast]

/-! ## Trimming -/

theorem trim_append_ws {c : Char} (hc : isWhitespace c = true) (s : Str) :
    trim (s ++ [c]) = trim s := by
  unfold trim
  induction s with
  | nil => simp [hc]
  | cons d s ih =>
    by_cases hd : isWhitespace d = true
    · simpa [List.dropWhile_cons_of_pos hd] using ih
    · rw [List.cons_append, List.dropWhile_cons_of_neg (by simpa using hd),
        List.dropWhile_cons_of_neg (by simpa using hd), ← List.cons_append,
        List.rdropWhile_concat_pos _ _ _ hc]

theorem trim_eq_self {s : Str} (h : ∀ c ∈ s, isWhitespace c = false) : trim s = s := by
  unfold trim
  cases s with
  | nil => rfl
  | cons c s =>
    rw [List.dropWhile_cons_of_neg (by simp [h c (by simp)]), List.rdropWhile_eq_self_iff]
    intro hne hws
    have := h _ (List.getLast_mem hne)
    simp [this] at hws

theorem splitWhitespace_eq_self {s : Str} (h : ∀ c ∈ s, isWhitespace c = false) (hne : s ≠ []) :
    splitWhitespace s = [s] := by
  simp [splitWhitespace, List.splitOnP_eq_singleton h, hne]

end Text
