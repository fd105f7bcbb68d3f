import Egdod.Lib.Json

/-! Types that are kept as JSON. A form says how a value of the type is
printed and which JSON values are read as it, which may be more than those
printed: the fields of a record come in any order, among others, or as an
array. Whatever is printed is read back. -/
namespace Json

open Text

/-! ## Items and fields as lists -/

def Items.ofList : List Value → Items
  | [] => .nil
  | v :: vs => .cons v (ofList vs)

def Items.toList : Items → List Value
  | .nil => []
  | .cons v rest => v :: rest.toList

def Fields.ofList : List (Str × Value) → Fields
  | [] => .nil
  | (k, v) :: rest => .cons k v (ofList rest)

def Fields.toList : Fields → List (Str × Value)
  | .nil => []
  | .cons k v rest => (k, v) :: rest.toList

@[simp] theorem Items.toList_ofList (vs : List Value) : (Items.ofList vs).toList = vs := by
  induction vs with
  | nil => rfl
  | cons v vs ih => simp [Items.ofList, Items.toList, ih]

@[simp] theorem Fields.toList_ofList (fs : List (Str × Value)) :
    (Fields.ofList fs).toList = fs := by
  induction fs with
  | nil => rfl
  | cons f fs ih => simp [Fields.ofList, Fields.toList, ih]

theorem Items.valid_ofList {vs : List Value} (h : ∀ v ∈ vs, v.Valid) : (Items.ofList vs).Valid := by
  induction vs with
  | nil => trivial
  | cons v vs ih => exact ⟨h v (by simp), ih fun w hw => h w (by simp [hw])⟩

theorem Fields.valid_ofList {fs : List (Str × Value)} (h : ∀ f ∈ fs, f.2.Valid) :
    (Fields.ofList fs).Valid := by
  induction fs with
  | nil => trivial
  | cons f fs ih => exact ⟨h f (by simp), ih fun g hg => h g (by simp [hg])⟩

theorem Items.depth_ofList {vs : List Value} {d : Nat} (h : ∀ v ∈ vs, v.depth ≤ d) :
    (Items.ofList vs).depth ≤ d := by
  induction vs with
  | nil => exact Nat.zero_le d
  | cons v vs ih => exact Nat.max_le.mpr ⟨h v (by simp), ih fun w hw => h w (by simp [hw])⟩

theorem Fields.depth_ofList {fs : List (Str × Value)} {d : Nat} (h : ∀ f ∈ fs, f.2.depth ≤ d) :
    (Fields.ofList fs).depth ≤ d := by
  induction fs with
  | nil => exact Nat.zero_le d
  | cons f fs ih => exact Nat.max_le.mpr ⟨h f (by simp), ih fun g hg => h g (by simp [hg])⟩

/-! ## Whole numbers -/

def decimal (n : Nat) : Str := Nat.toDigits 10 n

/-- A number without sign, fraction and exponent. -/
def natural (lexeme : Str) : Option Nat :=
  if lexeme.all Char.isDigit then some (Nat.ofDigitChars 10 lexeme 0) else none

theorem isDigit_decimal (n : Nat) : ∀ c ∈ decimal n, c.isDigit = true := by
  intro c hc
  exact Nat.isDigit_of_mem_toDigits (b := 10) (by decide) (by decide) hc

theorem natural_decimal (n : Nat) : natural (decimal n) = some n := by
  have hall : (decimal n).all Char.isDigit = true := List.all_eq_true.mpr (isDigit_decimal n)
  rw [natural, if_pos hall, decimal, Nat.ofDigitChars_toDigits (by decide) (by decide)]

/-- No number but 0 is written with a leading 0. -/
theorem head_decimal {n : Nat} (h : n ≠ 0) : (decimal n).head? ≠ some '0' := by
  induction n using Nat.strong_induction_on with
  | _ n ih =>
    by_cases hsmall : n < 10
    · have hdigit : ∀ m < 10, m ≠ 0 → Nat.digitChar m ≠ '0' := by decide
      rw [decimal, Nat.toDigits_of_lt_base hsmall]
      simpa using hdigit n hsmall h
    · rw [decimal, Nat.toDigits_of_base_le (by decide) (by omega),
        List.head?_append_of_ne_nil _ (Nat.toDigits_ne_nil)]
      exact ih (n / 10) (by omega) (by omega)

theorem isNumber_decimal (n : Nat) : isNumber (decimal n) = true := by
  have hdigits := isDigit_decimal n
  have hnil : decimal n ≠ [] := Nat.toDigits_ne_nil
  have htake : (decimal n).takeWhile Char.isDigit = decimal n :=
    List.takeWhile_eq_self_iff.mpr hdigits
  have hdrop : (decimal n).dropWhile Char.isDigit = [] :=
    List.dropWhile_eq_nil_iff.mpr hdigits
  have hsign : (decimal n).head? ≠ some '-' := by
    intro hhead
    have := hdigits '-' (List.mem_of_mem_head? hhead)
    simp at this
  have hlead : decimal n = ['0'] ∨ (decimal n).head? ≠ some '0' := by
    by_cases h : n = 0
    · exact .inl (by subst h; rfl)
    · exact .inr (head_decimal h)
  simp [isNumber, hsign, htake, hdrop, hnil, hlead, isFraction, isExponent]

theorem valid_decimal (n : Nat) : (Value.number (decimal n)).Valid := by
  refine ⟨isNumber_decimal n, fun c hc => ?_⟩
  simp [inNumber, isDigit_decimal n c hc]

/-! ## Forms -/

structure Form (α : Type) where
  put : α → Value
  get : Value → Option α
  /-- What a missing field stands for, if it may be missing. -/
  absent : Option α := none
  depth : Nat := 0
  valid : ∀ a, (put a).Valid
  depth_le : ∀ a, (put a).depth ≤ depth
  get_put : ∀ a, get (put a) = some a

namespace Form

def print {α : Type} (f : Form α) (a : α) : Str := (f.put a).pretty 0

def read {α : Type} (f : Form α) (s : Str) : Option α := (parse s).bind f.get

theorem read_print {α : Type} (f : Form α) (h : f.depth ≤ maxDepth) (a : α) :
    f.read (f.print a) = some a := by
  rw [read, print, parse_pretty (f.valid a) ((f.depth_le a).trans h), Option.bind_some, f.get_put]

def string : Form Str where
  put s := .string s
  get
    | .string s => some s
    | _ => none
  valid _ := trivial
  depth_le _ := Nat.le_refl 0
  get_put _ := rfl

def bool : Form Bool where
  put b := .bool b
  get
    | .bool b => some b
    | _ => none
  valid _ := trivial
  depth_le _ := Nat.le_refl 0
  get_put _ := rfl

/-- Whole numbers below `n`. -/
def below (n : Nat) : Form (Fin n) where
  put a := .number (decimal a.val)
  get
    | .number lexeme => (natural lexeme).bind fun a => if h : a < n then some ⟨a, h⟩ else none
    | _ => none
  valid a := valid_decimal a.val
  depth_le _ := Nat.le_refl 0
  get_put a := by simp [natural_decimal]

/-- A type in another one's place. -/
def via {α β : Type} (f : Form β) (there : α → β) (back : β → α)
    (h : ∀ a, back (there a) = a) : Form α where
  put a := f.put (there a)
  get v := (f.get v).map back
  absent := f.absent.map back
  depth := f.depth
  valid a := f.valid (there a)
  depth_le a := f.depth_le (there a)
  get_put a := by rw [f.get_put, Option.map_some, h]

def u32 : Form UInt32 := (below UInt32.size).via UInt32.toFin UInt32.ofFin fun _ => rfl

def u64 : Form UInt64 := (below UInt64.size).via UInt64.toFin UInt64.ofFin fun _ => rfl

/-- `null`, or a value that is not printed so. -/
def option {α : Type} (f : Form α) (h : ∀ a, f.put a ≠ .null) : Form (Option α) where
  put
    | none => .null
    | some a => f.put a
  get
    | .null => some none
    | v => (f.get v).map some
  absent := some none
  depth := f.depth
  valid
    | none => trivial
    | some a => f.valid a
  depth_le
    | none => Nat.zero_le _
    | some a => f.depth_le a
  get_put
    | none => rfl
    | some a => by
      dsimp only
      split
      · rename_i hnull
        exact absurd hnull (h a)
      · rw [f.get_put, Option.map_some]

def list {α : Type} (f : Form α) : Form (List α) where
  put as := .array (.ofList (as.map f.put))
  get
    | .array vs => vs.toList.mapM f.get
    | _ => none
  depth := f.depth + 1
  valid as := Items.valid_ofList fun v hv => by
    obtain ⟨a, -, rfl⟩ := List.mem_map.mp hv
    exact f.valid a
  depth_le as := Nat.succ_le_succ (Items.depth_ofList fun v hv => by
    obtain ⟨a, -, rfl⟩ := List.mem_map.mp hv
    exact f.depth_le a)
  get_put as := by
    dsimp only
    rw [Items.toList_ofList]
    induction as with
    | nil => rfl
    | cons a as ih => simp [f.get_put, ih]

/-- The alternatives of an enumeration, by name: a string, or an object of the name and
`null`. -/
def choice {α : Type} (all : List α) (name : α → Str)
    (h : ∀ a, (all.find? fun b => name b = name a) = some a) : Form α where
  put a := .string (name a)
  get
    | .string s => all.find? fun b => name b = s
    | .object (.cons s .null .nil) => all.find? fun b => name b = s
    | _ => none
  valid _ := trivial
  depth_le _ := Nat.le_refl 0
  get_put a := h a

end Form

/-! ## Records -/

/-- The fields of a record, in order. -/
structure Record (α : Type) where
  names : List Str
  put : α → List (Str × Value)
  /-- Reads each field under its name. -/
  get : (Str → Option Value) → Option α
  /-- Reads the fields in order. -/
  list : List Value → Option α
  depth : Nat
  nodup : names.Nodup
  keys : ∀ a, (put a).map Prod.fst = names
  valid : ∀ a, ∀ e ∈ put a, e.2.Valid
  depth_le : ∀ a, ∀ e ∈ put a, e.2.depth ≤ depth
  get_put : ∀ a look, (∀ e ∈ put a, look e.1 = some e.2) → get look = some a
  list_put : ∀ a, list ((put a).map Prod.snd) = some a

namespace Record

def nil : Record Unit where
  names := []
  put _ := []
  get _ := some ()
  list
    | [] => some ()
    | _ => none
  depth := 0
  nodup := List.nodup_nil
  keys _ := rfl
  valid _ _ h := by cases h
  depth_le _ _ h := by cases h
  get_put _ _ _ := rfl
  list_put _ := rfl

def field {α β : Type} (name : Str) (f : Form α) (r : Record β) (h : name ∉ r.names) :
    Record (α × β) where
  names := name :: r.names
  put p := (name, f.put p.1) :: r.put p.2
  get look :=
    (match look name with
      | some v => f.get v
      | none => f.absent).bind fun a => (r.get look).map fun b => (a, b)
  list
    | [] => none
    | v :: vs => (f.get v).bind fun a => (r.list vs).map fun b => (a, b)
  depth := max f.depth r.depth
  nodup := List.nodup_cons.mpr ⟨h, r.nodup⟩
  keys p := by rw [List.map_cons, r.keys]
  valid p e he := by
    rcases List.mem_cons.mp he with rfl | he
    · exact f.valid p.1
    · exact r.valid p.2 e he
  depth_le p e he := by
    rcases List.mem_cons.mp he with rfl | he
    · exact (f.depth_le p.1).trans (Nat.le_max_left ..)
    · exact (r.depth_le p.2 e he).trans (Nat.le_max_right ..)
  get_put p look hlook := by
    have hrest := r.get_put p.2 look fun e he => hlook e (by simp [he])
    simp [hlook (name, f.put p.1) (by simp), f.get_put, hrest]
  list_put p := by simp [f.get_put, r.list_put]

end Record

/-- A key that is not listed twice among those of interest is found. -/
theorem lookup_of_mem {known : Str → Bool} {fs : List (Str × Value)}
    (h : ((fs.map Prod.fst).filter known).Nodup) {e : Str × Value} (he : e ∈ fs)
    (hknown : known e.1 = true) : fs.lookup e.1 = some e.2 := by
  induction fs with
  | nil => cases he
  | cons f fs ih =>
    rw [List.map_cons] at h
    rcases List.mem_cons.mp he with rfl | he
    · rw [List.lookup_cons, beq_self_eq_true]
    · have hne : e.1 ≠ f.1 := by
        intro heq
        rw [List.filter_cons_of_pos (heq ▸ hknown), List.nodup_cons] at h
        exact h.1 (List.mem_filter.mpr ⟨heq ▸ List.mem_map_of_mem he, heq ▸ hknown⟩)
      have hbeq : (e.1 == f.1) = false := by simpa using hne
      rw [List.lookup_cons, hbeq]
      exact ih (h.sublist ((List.sublist_cons_self _ _).filter _)) he

namespace Record

variable {α : Type} (r : Record α)

/-- What an object is read as: none of the record's own fields is there twice, and others do
not matter. -/
def ofFields (fs : List (Str × Value)) : Option α :=
  if ((fs.map Prod.fst).filter fun k => k ∈ r.names).Nodup then r.get fun k => fs.lookup k
  else none

theorem ofFields_perm {fs : List (Str × Value)} {a : α}
    (h : (fs.filter fun e => e.1 ∈ r.names).Perm (r.put a)) : r.ofFields fs = some a := by
  have hkeys : ((fs.map Prod.fst).filter fun k => k ∈ r.names).Perm r.names := by
    have hmap := h.map Prod.fst
    rw [r.keys] at hmap
    rw [List.filter_map]
    exact hmap
  have hnodup := hkeys.nodup_iff.mpr r.nodup
  rw [ofFields, if_pos hnodup]
  apply r.get_put
  intro e he
  obtain ⟨hmem, hname⟩ := List.mem_filter.mp (h.mem_iff.mpr he)
  exact lookup_of_mem hnodup hmem hname

theorem ofFields_put (a : α) : r.ofFields (r.put a) = some a := by
  apply r.ofFields_perm
  rw [List.filter_eq_self.mpr]
  intro e he
  have hname : e.1 ∈ r.names := r.keys a ▸ List.mem_map_of_mem he
  simpa using hname

end Record

/-- A record: its fields in any order, with others between them, or an array of them. -/
def Form.record {α : Type} (r : Record α) : Form α where
  put a := .object (.ofList (r.put a))
  get
    | .object fs => r.ofFields fs.toList
    | .array vs => r.list vs.toList
    | _ => none
  depth := r.depth + 1
  valid a := Fields.valid_ofList (r.valid a)
  depth_le a := Nat.succ_le_succ (Fields.depth_ofList (r.depth_le a))
  get_put a := by
    dsimp only
    rw [Fields.toList_ofList, r.ofFields_put]

end Json
