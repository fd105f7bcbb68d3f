import Egdod.Lib.Text
import Mathlib.Algebra.Group.Nat.Defs

/-! JSON: a printer that puts every item and every field on a line of its own,
and a reader of any JSON text. Numbers are kept as they are written, so that
each reader of a value decides what it takes for a number. Every value is read
back as it was printed. -/
namespace Json

open Text

/-! ## Values -/

mutual
inductive Value where
  | null
  | bool (b : Bool)
  | number (lexeme : Str)
  | string (s : Str)
  | array (items : Items)
  | object (fields : Fields)

inductive Items where
  | nil
  | cons (v : Value) (rest : Items)

inductive Fields where
  | nil
  | cons (key : Str) (v : Value) (rest : Fields)
end

/-! ## Strings -/

/-- The digits of a `\u` escape. -/
def hexDigits : List Char :=
  ['0', '1', '2', '3', '4', '5', '6', '7', '8', '9', 'a', 'b', 'c', 'd', 'e', 'f']

/-- Characters that are escaped by a letter, and the letter. -/
def letters : List (Char × Char) :=
  [('"', '"'), ('\\', '\\'), ('\n', 'n'), ('\r', 'r'), ('\t', 't'), ('\x08', 'b'), ('\x0c', 'f')]

def escape (c : Char) : Str :=
  match letters.lookup c with
  | some letter => ['\\', letter]
  | none =>
    if c.toNat < 32 then
      ['\\', 'u', '0', '0', hexDigits.getD (c.toNat / 16) '0', hexDigits.getD (c.toNat % 16) '0']
    else [c]

/-- A string behind its opening quote. -/
def quoted (s : Str) : Str := s.flatMap escape ++ ['"']

/-- The value of a hexadecimal digit, in either case. -/
def hexValue (c : Char) : Option Nat := hexDigits.idxOf? c.toLower

def hex4 : Str → Option (Nat × Str)
  | a :: b :: c :: d :: rest => do
    let a ← hexValue a
    let b ← hexValue b
    let c ← hexValue c
    let d ← hexValue d
    some (4096 * a + 256 * b + 16 * c + d, rest)
  | _ => none

/-- The second half of a pair of surrogates. -/
def trailing (lead : Nat) : Str → Option (Char × Str)
  | b :: u :: rest =>
    if b = '\\' ∧ u = 'u' then
      (hex4 rest).bind fun (n, rest) =>
        if 0xDC00 ≤ n ∧ n < 0xE000 then
          some (Char.ofNat (0x10000 + 0x400 * (lead - 0xD800) + (n - 0xDC00)), rest)
        else none
    else none
  | _ => none

/-- What a backslash stands for, with what follows it. -/
def escaped : Str → Option (Char × Str)
  | [] => none
  | c :: rest =>
    if c = 'u' then
      (hex4 rest).bind fun (n, rest) =>
        if 0xD800 ≤ n ∧ n < 0xDC00 then trailing n rest
        else if 0xDC00 ≤ n ∧ n < 0xE000 then none
        else some (Char.ofNat n, rest)
    else if c = '/' then some ('/', rest)
    else (letters.find? fun p => p.2 = c).map fun p => (p.1, rest)

/-- Reads a string up to its closing quote. `fuel` is more than its length. -/
def readString : Nat → Str → Option (Str × Str)
  | 0, _ => none
  | _, [] => none
  | fuel + 1, c :: rest =>
    if c = '"' then some ([], rest)
    else if c = '\\' then
      (escaped rest).bind fun (x, rest) =>
        (readString fuel rest).map fun (s, rest) => (x :: s, rest)
    else if c.toNat < 32 then none
    else (readString fuel rest).map fun (s, rest) => (c :: s, rest)

/-! ## Numbers -/

def isExponent (s : Str) : Bool :=
  match s with
  | [] => true
  | c :: rest =>
    let digits := if rest.head? = some '+' ∨ rest.head? = some '-' then rest.tail else rest
    (c = 'e' || c = 'E') && digits ≠ [] && digits.all Char.isDigit

def isFraction (s : Str) : Bool :=
  if s.head? = some '.' then
    s.tail.takeWhile Char.isDigit ≠ [] && isExponent (s.tail.dropWhile Char.isDigit)
  else isExponent s

/-- The grammar of numbers. -/
def isNumber (s : Str) : Bool :=
  let s := if s.head? = some '-' then s.tail else s
  let whole := s.takeWhile Char.isDigit
  whole ≠ [] && (whole = ['0'] || whole.head? ≠ some '0') && isFraction (s.dropWhile Char.isDigit)

/-- The characters of numbers. No other value, and nothing between values, has them. -/
def inNumber (c : Char) : Bool :=
  c.isDigit || c = '+' || c = '-' || c = '.' || c = 'e' || c = 'E'

/-! ## Printing -/

/-- A line of its own, `n` levels in. -/
def line (n : Nat) : Str := '\n' :: List.replicate (2 * n) ' '

mutual
/-- A value that starts `n` levels in. -/
def Value.pretty (n : Nat) : Value → Str
  | .null => "null".toList
  | .bool b => if b then "true".toList else "false".toList
  | .number lexeme => lexeme
  | .string s => '"' :: quoted s
  | .array .nil => "[]".toList
  | .array (.cons v rest) =>
    '[' :: (line (n + 1) ++ (v.pretty (n + 1) ++ rest.pretty n))
  | .object .nil => "\x7b\x7d".toList
  | .object (.cons key v rest) =>
    '\x7b' :: (line (n + 1) ++ ('"' :: (quoted key ++ (": ".toList ++
      (v.pretty (n + 1) ++ rest.pretty n)))))

/-- The items after the first, and the end. -/
def Items.pretty (n : Nat) : Items → Str
  | .nil => line n ++ [']']
  | .cons v rest => ',' :: (line (n + 1) ++ (v.pretty (n + 1) ++ rest.pretty n))

def Fields.pretty (n : Nat) : Fields → Str
  | .nil => line n ++ ['\x7d']
  | .cons key v rest =>
    ',' :: (line (n + 1) ++ ('"' :: (quoted key ++ (": ".toList ++
      (v.pretty (n + 1) ++ rest.pretty n)))))
end

/-! ## Reading -/

def isBlank (c : Char) : Bool := c = ' ' || c = '\n' || c = '\t' || c = '\r'

def skip (s : Str) : Str := s.dropWhile isBlank

/-- A word in front of a text. -/
def word (w : Str) (v : Value) (s : Str) : Option (Value × Str) :=
  if w.isPrefixOf s then some (v, s.drop w.length) else none

/-- A value that no bracket opens. -/
def atom (s : Str) : Option (Value × Str) :=
  match s with
  | [] => none
  | c :: rest =>
    if c = '"' then (readString s.length rest).map fun (t, rest) => (.string t, rest)
    else if c = 'n' then word "null".toList .null s
    else if c = 't' then word "true".toList (.bool true) s
    else if c = 'f' then word "false".toList (.bool false) s
    else if isNumber (s.takeWhile inNumber) then
      some (.number (s.takeWhile inNumber), s.dropWhile inNumber)
    else none

/-- What must come next, after blanks. -/
def expect (c : Char) (s : Str) : Option Str :=
  match skip s with
  | [] => none
  | d :: rest => if d = c then some rest else none

/-- A key and the colon behind it. -/
def key (s : Str) : Option (Str × Str) :=
  (expect '"' s).bind fun s => (readString (s.length + 1) s).bind fun (k, s) =>
    (expect ':' s).map fun s => (k, s)

mutual
/-- Reads a value. `depth` is how many more brackets may be open at once, and `fuel` is more
than there are characters. -/
def value (depth : Nat) : Nat → Str → Option (Value × Str)
  | 0, _ => none
  | fuel + 1, s =>
    match skip s with
    | [] => none
    | c :: rest =>
      if c = '[' then
        if depth = 0 then none
        else match expect ']' rest with
          | some rest => some (.array .nil, rest)
          | none => (value (depth - 1) fuel rest).bind fun (v, rest) =>
            (items (depth - 1) fuel rest).map fun (vs, rest) => (.array (.cons v vs), rest)
      else if c = '\x7b' then
        if depth = 0 then none
        else match expect '\x7d' rest with
          | some rest => some (.object .nil, rest)
          | none => (key rest).bind fun (k, rest) =>
            (value (depth - 1) fuel rest).bind fun (v, rest) =>
              (fields (depth - 1) fuel rest).map fun (fs, rest) => (.object (.cons k v fs), rest)
      else atom (c :: rest)

/-- The items after one, up to the bracket. -/
def items (depth : Nat) : Nat → Str → Option (Items × Str)
  | 0, _ => none
  | fuel + 1, s =>
    match expect ']' s with
    | some rest => some (.nil, rest)
    | none => (expect ',' s).bind fun rest =>
      (value depth fuel rest).bind fun (v, rest) =>
        (items depth fuel rest).map fun (vs, rest) => (.cons v vs, rest)

def fields (depth : Nat) : Nat → Str → Option (Fields × Str)
  | 0, _ => none
  | fuel + 1, s =>
    match expect '\x7d' s with
    | some rest => some (.nil, rest)
    | none => (expect ',' s).bind fun rest => (key rest).bind fun (k, rest) =>
      (value depth fuel rest).bind fun (v, rest) =>
        (fields depth fuel rest).map fun (fs, rest) => (.cons k v fs, rest)
end

/-- As many brackets may be open at once. -/
def maxDepth : Nat := 127

/-- Reads a text that is one value. -/
def parse (s : Str) : Option Value :=
  (value maxDepth (s.length + 1) s).bind fun (v, rest) => if skip rest = [] then some v else none

/-! ## Strings are read back -/

theorem escaped_letter {p : Char × Char} (h : p ∈ letters) (rest : Str) :
    escaped (p.2 :: rest) = some (p.1, rest) := by
  have hall : ∀ p ∈ letters, p.2 ≠ 'u' ∧ p.2 ≠ '/' ∧
      letters.find? (fun q => q.2 = p.2) = some p := by decide
  obtain ⟨hu, hslash, hfind⟩ := hall p h
  simp [escaped, hu, hslash, hfind]

theorem hexValue_digit : ∀ n < 16, hexValue (hexDigits.getD n '0') = some n := by decide

theorem readString_backslash (fuel : Nat) (s : Str) :
    readString (fuel + 1) ('\\' :: s) = (escaped s).bind fun (x, rest) =>
      (readString fuel rest).map fun (s, rest) => (x :: s, rest) := by
  rw [readString, if_neg (by decide), if_pos rfl]

/-- A `\u` escape of a control character. -/
theorem escaped_control {n : Nat} (h : n < 32) (rest : Str) :
    escaped ('u' :: '0' :: '0' :: hexDigits.getD (n / 16) '0' :: hexDigits.getD (n % 16) '0' ::
      rest) = some (Char.ofNat n, rest) := by
  have hzero : hexValue '0' = some 0 := by decide
  have hhex : hex4 ('0' :: '0' :: hexDigits.getD (n / 16) '0' :: hexDigits.getD (n % 16) '0' ::
      rest) = some (n, rest) := by
    simp only [hex4, hzero, hexValue_digit (n / 16) (by omega), hexValue_digit (n % 16) (by omega),
      Option.bind_eq_bind, Option.bind_some, Option.some.injEq, Prod.mk.injEq, and_true]
    omega
  have hlead : ¬ (0xD800 ≤ n ∧ n < 0xDC00) := by omega
  have htrail : ¬ (0xDC00 ≤ n ∧ n < 0xE000) := by omega
  simp only [escaped, if_true, hhex, Option.bind_some, hlead, htrail, if_false]

theorem readString_escape (c : Char) (fuel : Nat) (tail : Str) :
    readString (fuel + 1) (escape c ++ tail) =
      (readString fuel tail).map fun (s, rest) => (c :: s, rest) := by
  unfold escape
  cases hlookup : letters.lookup c with
  | some letter =>
    have hmem : (c, letter) ∈ letters := by
      obtain ⟨before, after, hsplit, -⟩ := List.lookup_eq_some_iff.mp hlookup
      simp [hsplit]
    rw [List.cons_append, readString_backslash, List.cons_append, escaped_letter hmem]
    rfl
  | none =>
    have hplain : c ≠ '"' ∧ c ≠ '\\' := by
      constructor <;> rintro rfl <;> simp [letters] at hlookup
    dsimp only
    split_ifs with hcontrol
    · rw [List.cons_append, readString_backslash]
      simp only [List.cons_append, List.nil_append, escaped_control hcontrol, Option.bind_some,
        Char.ofNat_toNat]
    · simp [readString, hplain, hcontrol]

theorem readString_quoted {s : Str} {fuel : Nat} (h : s.length < fuel) (tail : Str) :
    readString fuel (quoted s ++ tail) = some (s, tail) := by
  unfold quoted
  induction s generalizing fuel with
  | nil =>
    obtain ⟨fuel, rfl⟩ := Nat.exists_eq_add_of_lt h
    simp [readString]
  | cons c s ih =>
    obtain ⟨fuel, rfl⟩ : ∃ n, fuel = n + 1 := ⟨fuel - 1, by omega⟩
    rw [List.flatMap_cons, List.append_assoc, List.append_assoc, readString_escape,
      ← List.append_assoc, ih (by simpa using h)]
    rfl

theorem length_lt_length_quoted (s : Str) : s.length < (quoted s).length := by
  have hescape : ∀ c, 1 ≤ (escape c).length := by
    intro c
    unfold escape
    split
    · simp
    · split_ifs <;> simp
  unfold quoted
  induction s with
  | nil => simp
  | cons c s ih =>
    have := hescape c
    simp only [List.flatMap_cons, List.length_append, List.length_cons] at ih ⊢
    omega

/-! ## Blanks -/

theorem skip_cons {c : Char} (h : isBlank c = false) (s : Str) : skip (c :: s) = c :: s := by
  simp [skip, h]

theorem skip_line (n : Nat) (s : Str) : skip (line n ++ s) = skip s := by
  have hblank : ∀ c ∈ line n, isBlank c = true := by
    intro c hc
    rcases List.mem_cons.mp hc with rfl | hc
    · decide
    · rw [List.eq_of_mem_replicate hc]
      decide
  rw [skip, List.dropWhile_append_of_pos hblank, skip]

theorem skip_space (s : Str) : skip (' ' :: s) = skip s := by
  simp [skip, isBlank]

theorem expect_cons {c : Char} (h : isBlank c = false) (s : Str) :
    expect c (c :: s) = some s := by
  simp [expect, skip_cons h]

theorem expect_line (c : Char) (n : Nat) (s : Str) : expect c (line n ++ s) = expect c s := by
  rw [expect, skip_line, expect]

theorem expect_other {c d : Char} (hd : isBlank d = false) (h : d ≠ c) (s : Str) :
    expect c (d :: s) = none := by
  simp [expect, skip_cons hd, h]

theorem value_congr {s t : Str} (h : skip s = skip t) (depth fuel : Nat) :
    value depth fuel s = value depth fuel t := by
  cases fuel with
  | zero => simp [value]
  | succ fuel => simp only [value, h]

/-! ## Values are read back -/

mutual
/-- Numbers are written by the grammar of numbers. -/
def Value.Valid : Value → Prop
  | .number lexeme => isNumber lexeme = true ∧ ∀ c ∈ lexeme, inNumber c = true
  | .array items => items.Valid
  | .object fields => fields.Valid
  | _ => True

def Items.Valid : Items → Prop
  | .nil => True
  | .cons v rest => v.Valid ∧ rest.Valid

def Fields.Valid : Fields → Prop
  | .nil => True
  | .cons _ v rest => v.Valid ∧ rest.Valid
end

mutual
/-- How many brackets are open at once. -/
def Value.depth : Value → Nat
  | .array items => items.depth + 1
  | .object fields => fields.depth + 1
  | _ => 0

def Items.depth : Items → Nat
  | .nil => 0
  | .cons v rest => max v.depth rest.depth

def Fields.depth : Fields → Nat
  | .nil => 0
  | .cons _ v rest => max v.depth rest.depth
end

mutual
def Value.size : Value → Nat
  | .array items => items.size + 1
  | .object fields => fields.size + 1
  | _ => 1

def Items.size : Items → Nat
  | .nil => 1
  | .cons v rest => v.size + rest.size + 1

def Fields.size : Fields → Nat
  | .nil => 1
  | .cons _ v rest => v.size + rest.size + 1
end

/-- What follows a number has none of its characters. -/
def Ends (tail : Str) : Prop := ∀ c rest, tail = c :: rest → inNumber c = false

theorem ends_nil : Ends [] := by
  intro c rest h
  cases h

theorem ends_cons {c : Char} (h : inNumber c = false) (s : Str) : Ends (c :: s) := by
  intro d rest heq
  cases heq
  exact h

theorem ends_line (n : Nat) (s : Str) : Ends (line n ++ s) := ends_cons (by decide) _

theorem ends_items (n : Nat) (vs : Items) (s : Str) : Ends (vs.pretty n ++ s) := by
  cases vs with
  | nil =>
    rw [Items.pretty, List.append_assoc]
    exact ends_line n _
  | cons v rest =>
    rw [Items.pretty]
    exact ends_cons (by decide) _

theorem ends_fields (n : Nat) (fs : Fields) (s : Str) : Ends (fs.pretty n ++ s) := by
  cases fs with
  | nil =>
    rw [Fields.pretty, List.append_assoc]
    exact ends_line n _
  | cons k v rest =>
    rw [Fields.pretty]
    exact ends_cons (by decide) _

/-- The characters a printed value can start with. -/
def starts (c : Char) : Bool :=
  c = 'n' || c = 't' || c = 'f' || c = '"' || c = '[' || c = '\x7b' || inNumber c

theorem starts_plain {c : Char} (h : starts c = true) : isBlank c = false ∧ c ≠ ']' := by
  constructor
  · by_contra hblank
    simp only [isBlank, Bool.not_eq_false, Bool.or_eq_true, decide_eq_true_eq] at hblank
    rcases hblank with ((rfl | rfl) | rfl) | rfl <;> simp [starts, inNumber] at h
  · rintro rfl
    simp [starts, inNumber] at h

theorem isNumber_ne_nil {s : Str} (h : isNumber s = true) : s ≠ [] := by
  rintro rfl
  simp [isNumber] at h

theorem pretty_starts {v : Value} (h : v.Valid) (n : Nat) :
    ∃ c rest, v.pretty n = c :: rest ∧ starts c = true := by
  cases v with
  | null => exact ⟨_, _, rfl, by decide⟩
  | bool b => cases b <;> exact ⟨_, _, rfl, by decide⟩
  | number lexeme =>
    obtain ⟨c, rest, rfl⟩ := List.exists_cons_of_ne_nil (isNumber_ne_nil h.1)
    exact ⟨c, rest, rfl, by simp [starts, h.2 c (by simp)]⟩
  | string s => exact ⟨_, _, rfl, by decide⟩
  | array items => cases items <;> exact ⟨_, _, rfl, by decide⟩
  | object fields => cases fields <;> exact ⟨_, _, rfl, by decide⟩

theorem atom_number {lexeme tail : Str} (h : (Value.number lexeme).Valid) (ht : Ends tail) :
    atom (lexeme ++ tail) = some (.number lexeme, tail) := by
  obtain ⟨hnumber, hall⟩ := h
  have htake : (lexeme ++ tail).takeWhile inNumber = lexeme := by
    rw [List.takeWhile_append_of_pos hall]
    cases tail with
    | nil => simp
    | cons c rest => simp [ht c rest rfl]
  have hdrop : (lexeme ++ tail).dropWhile inNumber = tail := by
    rw [List.dropWhile_append_of_pos hall]
    cases tail with
    | nil => simp
    | cons c rest => simp [ht c rest rfl]
  obtain ⟨c, rest, rfl⟩ := List.exists_cons_of_ne_nil (isNumber_ne_nil hnumber)
  have hc := hall c (by simp)
  have hother : c ≠ '"' ∧ c ≠ 'n' ∧ c ≠ 't' ∧ c ≠ 'f' := by
    refine ⟨?_, ?_, ?_, ?_⟩ <;> rintro rfl <;> simp [inNumber] at hc
  rw [List.cons_append] at htake hdrop ⊢
  simp only [atom, hother, if_false, htake, hdrop, hnumber, if_true]

theorem key_quoted (n : Nat) (k tail : Str) :
    key (line n ++ ('"' :: (quoted k ++ (": ".toList ++ tail)))) = some (k, ' ' :: tail) := by
  have hcolon : ": ".toList ++ tail = ':' :: ' ' :: tail := rfl
  have hfuel : k.length < (quoted k ++ (':' :: ' ' :: tail)).length + 1 := by
    have := length_lt_length_quoted k
    simp only [List.length_append]
    omega
  rw [key, expect_line, expect_cons (by decide), hcolon]
  simp only [Option.bind_some, readString_quoted hfuel, expect_cons (c := ':') (by decide),
    Option.map_some]

theorem value_line (depth fuel n : Nat) (s : Str) :
    value depth fuel (line n ++ s) = value depth fuel s := value_congr (skip_line n s) depth fuel

theorem value_space (depth fuel : Nat) (s : Str) :
    value depth fuel (' ' :: s) = value depth fuel s := value_congr (skip_space s) depth fuel

/-- A value that is not bracketed is an atom. -/
theorem value_atom {c : Char} {depth fuel : Nat} {s : Str} (hblank : isBlank c = false)
    (harray : c ≠ '[') (hobject : c ≠ '\x7b') :
    value depth (fuel + 1) (c :: s) = atom (c :: s) := by
  simp only [value, skip_cons hblank, harray, hobject, if_false]

theorem atom_string (s tail : Str) : atom ('"' :: (quoted s ++ tail)) = some (.string s, tail) := by
  have hfuel : s.length < ('"' :: (quoted s ++ tail)).length := by
    have := length_lt_length_quoted s
    simp only [List.length_cons, List.length_append]
    omega
  simp only [atom, if_true, readString_quoted hfuel, Option.map_some]

-- The reader goes through the fuel of one value, item or field for each of its steps, so
-- the induction is on the value and the fuel is whatever the sizes leave.
mutual
theorem value_pretty (v : Value) (n depth fuel : Nat) (tail : Str) (hv : v.Valid)
    (hd : v.depth ≤ depth) (hf : v.size ≤ fuel) (ht : Ends tail) :
    value depth fuel (v.pretty n ++ tail) = some (v, tail) := by
  obtain ⟨fuel, rfl⟩ : ∃ m, fuel = m + 1 := by
    cases fuel with
    | zero => cases v <;> simp [Value.size] at hf
    | succ m => exact ⟨m, rfl⟩
  match v with
  | .null | .bool true | .bool false =>
    simp [Value.pretty, value, skip, isBlank, atom, word]
  | .string s => exact (value_atom (by decide) (by decide) (by decide)).trans (atom_string s tail)
  | .number lexeme =>
    obtain ⟨c, rest, rfl⟩ := List.exists_cons_of_ne_nil (isNumber_ne_nil hv.1)
    have hc := hv.2 c (by simp)
    have hblank : isBlank c = false := (starts_plain (by simp [starts, hc])).1
    have harray : c ≠ '[' := by rintro rfl; simp [inNumber] at hc
    have hobject : c ≠ '\x7b' := by rintro rfl; simp [inNumber] at hc
    exact (value_atom hblank harray hobject).trans (atom_number hv ht)
  | .array .nil =>
    have hdepth : depth ≠ 0 := by
      simp only [Value.depth] at hd
      omega
    simp [Value.pretty, value, skip_cons, isBlank, hdepth, expect]
  | .array (.cons v rest) =>
    simp only [Value.Valid, Items.Valid, Value.depth, Items.depth, Value.size,
      Items.size] at hv hd hf
    obtain ⟨c, cs, hcs, hstart⟩ := pretty_starts hv.1 (n + 1)
    have hopen : expect ']' (line (n + 1) ++ (v.pretty (n + 1) ++ (rest.pretty n ++ tail))) =
        none := by
      rw [expect_line, hcs]
      exact expect_other (starts_plain hstart).1 (starts_plain hstart).2 _
    have hfirst : value (depth - 1) fuel (v.pretty (n + 1) ++ (rest.pretty n ++ tail)) =
        some (v, rest.pretty n ++ tail) :=
      value_pretty v (n + 1) (depth - 1) fuel _ hv.1 (by omega) (by omega) (ends_items n rest tail)
    have hrest := items_pretty rest n (depth - 1) fuel tail hv.2 (by omega) (by omega)
    have hdepth : depth ≠ 0 := by omega
    simp only [Value.pretty, List.cons_append, List.append_assoc, value]
    rw [skip_cons (by decide)]
    simp only [if_true, hdepth, if_false, hopen, value_line, hfirst, hrest, Option.bind_some,
      Option.map_some]
  | .object .nil =>
    have hdepth : depth ≠ 0 := by
      simp only [Value.depth] at hd
      omega
    simp [Value.pretty, value, skip_cons, isBlank, hdepth, expect]
  | .object (.cons k v rest) =>
    simp only [Value.Valid, Fields.Valid, Value.depth, Fields.depth, Value.size,
      Fields.size] at hv hd hf
    have hopen : expect '\x7d' (line (n + 1) ++ ('"' :: (quoted k ++ (": ".toList ++
        (v.pretty (n + 1) ++ (rest.pretty n ++ tail)))))) = none := by
      rw [expect_line]
      exact expect_other (by decide) (by decide) _
    have hfirst : value (depth - 1) fuel (v.pretty (n + 1) ++ (rest.pretty n ++ tail)) =
        some (v, rest.pretty n ++ tail) :=
      value_pretty v (n + 1) (depth - 1) fuel _ hv.1 (by omega) (by omega)
        (ends_fields n rest tail)
    have hrest := fields_pretty rest n (depth - 1) fuel tail hv.2 (by omega) (by omega)
    have hdepth : depth ≠ 0 := by omega
    have harray : '\x7b' ≠ '[' := by decide
    simp only [Value.pretty, List.cons_append, List.append_assoc, value]
    rw [skip_cons (by decide)]
    simp only [harray, if_true, hdepth, if_false, hopen, key_quoted, value_space, hfirst, hrest,
      Option.bind_some, Option.map_some]

theorem items_pretty (vs : Items) (n depth fuel : Nat) (tail : Str) (hv : vs.Valid)
    (hd : vs.depth ≤ depth) (hf : vs.size ≤ fuel) :
    items depth fuel (vs.pretty n ++ tail) = some (vs, tail) := by
  obtain ⟨fuel, rfl⟩ : ∃ m, fuel = m + 1 := by
    cases fuel with
    | zero => cases vs <;> simp [Items.size] at hf
    | succ m => exact ⟨m, rfl⟩
  match vs with
  | .nil =>
    rw [Items.pretty, List.append_assoc, items, expect_line]
    simp only [List.cons_append, List.nil_append, expect_cons (c := ']') (by decide)]
  | .cons v rest =>
    simp only [Items.Valid, Items.depth, Items.size] at hv hd hf
    have hfirst : value depth fuel (v.pretty (n + 1) ++ (rest.pretty n ++ tail)) =
        some (v, rest.pretty n ++ tail) :=
      value_pretty v (n + 1) depth fuel _ hv.1 (by omega) (by omega) (ends_items n rest tail)
    have hrest := items_pretty rest n depth fuel tail hv.2 (by omega) (by omega)
    simp only [Items.pretty, List.cons_append, List.append_assoc, items]
    rw [expect_other (by decide) (by decide), expect_cons (by decide)]
    simp only [value_line, hfirst, hrest, Option.bind_some, Option.map_some]

theorem fields_pretty (fs : Fields) (n depth fuel : Nat) (tail : Str) (hv : fs.Valid)
    (hd : fs.depth ≤ depth) (hf : fs.size ≤ fuel) :
    fields depth fuel (fs.pretty n ++ tail) = some (fs, tail) := by
  obtain ⟨fuel, rfl⟩ : ∃ m, fuel = m + 1 := by
    cases fuel with
    | zero => cases fs <;> simp [Fields.size] at hf
    | succ m => exact ⟨m, rfl⟩
  match fs with
  | .nil =>
    rw [Fields.pretty, List.append_assoc, fields, expect_line]
    simp only [List.cons_append, List.nil_append, expect_cons (c := '\x7d') (by decide)]
  | .cons k v rest =>
    simp only [Fields.Valid, Fields.depth, Fields.size] at hv hd hf
    have hfirst : value depth fuel (v.pretty (n + 1) ++ (rest.pretty n ++ tail)) =
        some (v, rest.pretty n ++ tail) :=
      value_pretty v (n + 1) depth fuel _ hv.1 (by omega) (by omega) (ends_fields n rest tail)
    have hrest := fields_pretty rest n depth fuel tail hv.2 (by omega) (by omega)
    simp only [Fields.pretty, List.cons_append, List.append_assoc, fields]
    rw [expect_other (by decide) (by decide), expect_cons (by decide)]
    simp only [key_quoted, value_space, hfirst, hrest, Option.bind_some, Option.map_some]
end

mutual
/-- There is a character for each step of the reader but one. -/
theorem Value.size_le (v : Value) (n : Nat) : v.size ≤ (v.pretty n).length + 1 := by
  match v with
  | .null | .bool _ | .number _ | .string _ => simp [Value.size]
  | .array .nil => simp [Value.size, Items.size, Value.pretty]
  | .object .nil => simp [Value.size, Fields.size, Value.pretty]
  | .array (.cons v rest) =>
    have hv := v.size_le (n + 1)
    have hrest := rest.size_le n
    simp only [Value.size, Items.size, Value.pretty, line, List.length_cons, List.length_append]
    omega
  | .object (.cons k v rest) =>
    have hv := v.size_le (n + 1)
    have hrest := rest.size_le n
    simp only [Value.size, Fields.size, Value.pretty, line, List.length_cons, List.length_append]
    omega

theorem Items.size_le (vs : Items) (n : Nat) : vs.size ≤ (vs.pretty n).length := by
  match vs with
  | .nil => simp [Items.size, Items.pretty, line]
  | .cons v rest =>
    have hv := v.size_le (n + 1)
    have hrest := rest.size_le n
    simp only [Items.size, Items.pretty, line, List.length_cons, List.length_append]
    omega

theorem Fields.size_le (fs : Fields) (n : Nat) : fs.size ≤ (fs.pretty n).length := by
  match fs with
  | .nil => simp [Fields.size, Fields.pretty, line]
  | .cons k v rest =>
    have hv := v.size_le (n + 1)
    have hrest := rest.size_le n
    simp only [Fields.size, Fields.pretty, line, List.length_cons, List.length_append]
    omega
end

/-- What is printed is read back. -/
theorem parse_pretty {v : Value} (hv : v.Valid) (hd : v.depth ≤ maxDepth) :
    parse (v.pretty 0) = some v := by
  have hread := value_pretty v 0 maxDepth ((v.pretty 0).length + 1) [] hv hd (v.size_le 0) ends_nil
  rw [List.append_nil] at hread
  rw [parse, hread, Option.bind_some]
  exact if_pos rfl

end Json
