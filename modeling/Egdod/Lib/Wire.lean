import Mathlib.Algebra.Group.Nat.Defs
import Mathlib.Data.List.Basic

/-! Encodings that know where they end: what was put in front of anything can
be taken off again, and the rest is as it was. Lengths are words of 64 bits,
so this is asked only of what is shorter than that. -/
structure Wire (α : Type) where
  put : α → List UInt8
  get : List UInt8 → Option (α × List UInt8)
  law : ∀ a rest, (put a).length < 2 ^ 64 → get (put a ++ rest) = some (a, rest)

namespace Wire

variable {α β : Type}

/-! ## Numbers, seven bits at a time -/

/-- The digits of `n`, all but the last with the top bit set. `fuel` is at least `n`. -/
def putVarint : Nat → Nat → List UInt8
  | 0, n => [UInt8.ofNat n]
  | fuel + 1, n =>
    if n < 128 then [UInt8.ofNat n]
    else UInt8.ofNat (n % 128 + 128) :: putVarint fuel (n / 128)

theorem putVarint_ne_nil (fuel n : Nat) : putVarint fuel n ≠ [] := by
  cases fuel with
  | zero => exact List.cons_ne_nil _ _
  | succ fuel =>
    unfold putVarint
    split <;> exact List.cons_ne_nil _ _

/-- A number of at most `bits` bits. The last byte there is room for may neither go on nor have
bits beyond these. -/
def getVarint : Nat → List UInt8 → Option (Nat × List UInt8)
  | _, [] => none
  | bits, b :: bs =>
    if b.toNat < 128 then if b.toNat < 2 ^ bits then some (b.toNat, bs) else none
    else if bits ≤ 7 then none
    else (getVarint (bits - 7) bs).map fun (n, rest) => (b.toNat % 128 + 128 * n, rest)

theorem getVarint_last {bits n : Nat} (h : n < 128) (hbits : n < 2 ^ bits) (rest : List UInt8) :
    getVarint bits ([UInt8.ofNat n] ++ rest) = some (n, rest) := by
  have hn : (UInt8.ofNat n).toNat = n := by
    rw [UInt8.toNat_ofNat']
    omega
  simp [getVarint, hn, h, hbits]

theorem getVarint_put {bits fuel n : Nat} (h : n ≤ fuel) (hbits : n < 2 ^ bits)
    (rest : List UInt8) : getVarint bits (putVarint fuel n ++ rest) = some (n, rest) := by
  induction fuel generalizing bits n with
  | zero => exact getVarint_last (by omega) hbits rest
  | succ fuel ih =>
    unfold putVarint
    split
    · exact getVarint_last ‹_› hbits rest
    · rename_i hlong
      have hb : (UInt8.ofNat (n % 128 + 128)).toNat = n % 128 + 128 := by
        rw [UInt8.toNat_ofNat']
        omega
      have hroom : 7 < bits := by
        by_contra hle
        have := Nat.pow_le_pow_right (n := 2) (by decide) (Nat.le_of_not_lt hle)
        omega
      have hrest : n / 128 < 2 ^ (bits - 7) := by
        apply Nat.div_lt_of_lt_mul
        have hsplit : 2 ^ bits = 2 ^ 7 * 2 ^ (bits - 7) := by
          rw [← Nat.pow_add]
          congr 1
          omega
        omega
      simp only [List.cons_append, getVarint, hb]
      rw [if_neg (by omega), if_neg (by omega), ih (by omega) hrest]
      simp only [Option.map_some, Option.some.injEq, Prod.mk.injEq, and_true]
      omega

def u32 : Wire UInt32 where
  put n := putVarint n.toNat n.toNat
  get bs := (getVarint 32 bs).map fun (n, rest) => (.ofNat n, rest)
  law n rest _ := by simp [getVarint_put (Nat.le_refl _) n.toNat_lt]

def u64 : Wire UInt64 where
  put n := putVarint n.toNat n.toNat
  get bs := (getVarint 64 bs).map fun (n, rest) => (.ofNat n, rest)
  law n rest _ := by simp [getVarint_put (Nat.le_refl _) n.toNat_lt]

/-! ## Sequences -/

/-- Bytes behind their number. -/
def bytes : Wire (List UInt8) where
  put bs := putVarint bs.length bs.length ++ bs
  get bs := (getVarint 64 bs).bind fun (n, rest) =>
    if n ≤ rest.length then some (rest.take n, rest.drop n) else none
  law bs rest h := by
    have hlength : bs.length < 2 ^ 64 := by
      rw [List.length_append] at h
      omega
    simp [getVarint_put (Nat.le_refl _) hlength]

def getMany (w : Wire α) : Nat → List UInt8 → Option (List α × List UInt8)
  | 0, bs => some ([], bs)
  | n + 1, bs => (w.get bs).bind fun (a, bs) =>
    (getMany w n bs).map fun (as, bs) => (a :: as, bs)

theorem getMany_put (w : Wire α) (as : List α) (rest : List UInt8)
    (h : (as.flatMap w.put).length < 2 ^ 64) :
    getMany w as.length (as.flatMap w.put ++ rest) = some (as, rest) := by
  induction as with
  | nil => rfl
  | cons a as ih =>
    rw [List.flatMap_cons, List.length_append] at h
    simp [getMany, w.law a _ (by omega), ih (by omega)]

theorem length_le_flatMap {f : α → List UInt8} (hpos : ∀ a, f a ≠ []) (as : List α) :
    as.length ≤ (as.flatMap f).length := by
  induction as with
  | nil => exact Nat.le_refl _
  | cons a as ih =>
    have ha := List.length_pos_iff.mpr (hpos a)
    rw [List.flatMap_cons, List.length_append, List.length_cons]
    omega

/-- A list behind its length, of entries that take a byte at least. -/
def list (w : Wire α) (hpos : ∀ a, w.put a ≠ []) : Wire (List α) where
  put as := putVarint as.length as.length ++ as.flatMap w.put
  get bs := (getVarint 64 bs).bind fun (n, rest) => getMany w n rest
  law as rest h := by
    have hentries := length_le_flatMap hpos as
    rw [List.length_append] at h
    simp [getVarint_put (Nat.le_refl _) (show as.length < 2 ^ 64 by omega),
      getMany_put w as rest (by omega)]

/-- As many bytes as both sides know. -/
def fixed (n : Nat) : Wire { bs : List UInt8 // bs.length = n } where
  put bs := bs.val
  get bs :=
    if h : n ≤ bs.length then some (⟨bs.take n, List.length_take_of_le h⟩, bs.drop n) else none
  law bs rest _ := by
    obtain ⟨bs, rfl⟩ := bs
    simp

/-! ## Other types by way of these -/

def pair (v : Wire α) (w : Wire β) : Wire (α × β) where
  put x := v.put x.1 ++ w.put x.2
  get bs := (v.get bs).bind fun (a, rest) => (w.get rest).map fun (b, rest) => ((a, b), rest)
  law x rest h := by
    rw [List.length_append] at h
    simp [v.law x.1 _ (by omega), w.law x.2 _ (by omega)]

/-- A type that has a copy in another. -/
def via (w : Wire α) (into : β → α) (back : α → Option β) (h : ∀ b, back (into b) = some b) :
    Wire β where
  put b := w.put (into b)
  get bs := (w.get bs).bind fun (a, rest) => (back a).map fun b => (b, rest)
  law b rest hfit := by simp [w.law _ _ hfit, h]

end Wire
