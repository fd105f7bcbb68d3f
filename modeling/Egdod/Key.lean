import Egdod.Lib.Text

/-! Public keys as text. The key type itself belongs to iroh; what the
program relies on is that a key prints as 64 lower-case hexadecimal digits
and that the printed form parses back. -/
namespace Egdod

open Text

def hexDigits : List Char :=
  ['0', '1', '2', '3', '4', '5', '6', '7', '8', '9', 'a', 'b', 'c', 'd', 'e', 'f']

/-- What `Display` and `FromStr` of iroh's `PublicKey` provide. -/
class KeyText (K : Type) where
  text : K → Str
  parse : Str → Option K
  parse_text : ∀ k, parse (text k) = some k
  length_text : ∀ k, (text k).length = 64
  hex_text : ∀ k, ∀ c ∈ text k, c ∈ hexDigits

export KeyText (text)

section
variable {K : Type} [KeyText K]

theorem text_injective {k k' : K} (h : text k = text k') : k = k' := by
  have := KeyText.parse_text k
  rw [h, KeyText.parse_text] at this
  exact (Option.some.inj this).symm

theorem text_ne_nil (k : K) : text k ≠ [] := by
  intro h
  have := KeyText.length_text k
  simp [h] at this

theorem not_whitespace_of_hex {c : Char} (h : c ∈ hexDigits) : isWhitespace c = false := by
  have hall : (hexDigits.all fun c => !isWhitespace c) = true := by decide
  simpa using List.all_eq_true.mp hall c h

theorem text_not_whitespace (k : K) : ∀ c ∈ text k, isWhitespace c = false :=
  fun c hc => not_whitespace_of_hex (KeyText.hex_text k c hc)

/-- A key's text holds none of the characters the approved list gives a meaning. -/
theorem text_plain (k : K) : '\n' ∉ text k ∧ '\r' ∉ text k ∧ '#' ∉ text k := by
  have absent : ∀ c, c ∉ hexDigits → c ∉ text k := fun c hc h => hc (KeyText.hex_text k c h)
  exact ⟨absent _ (by decide), absent _ (by decide), absent _ (by decide)⟩

end

/-! ## A concrete key type -/

/-- `proto::hex`. -/
def hexDigit (n : Nat) : Char := hexDigits.getD n '0'

def hex (bytes : List UInt8) : Str :=
  bytes.flatMap fun b => [hexDigit (b.toNat / 16), hexDigit (b.toNat % 16)]

theorem hex_append (a b : List UInt8) : hex (a ++ b) = hex a ++ hex b := List.flatMap_append

/-- A node id as its 32 bytes. -/
structure NodeId where
  bytes : List UInt8
  size : bytes.length = 32
  deriving DecidableEq

def unhexDigit (c : Char) : Option Nat := hexDigits.idxOf? c

def unhex : Str → Option (List UInt8)
  | [] => some []
  | [_] => none
  | a :: b :: rest => do
    let hi ← unhexDigit a
    let lo ← unhexDigit b
    let bytes ← unhex rest
    some (UInt8.ofNat (16 * hi + lo) :: bytes)

theorem unhexDigit_hexDigit : ∀ n < 16, unhexDigit (hexDigit n) = some n := by decide

theorem hexDigit_mem : ∀ n < 16, hexDigit n ∈ hexDigits := by decide

theorem unhex_hex (bytes : List UInt8) : unhex (hex bytes) = some bytes := by
  induction bytes with
  | nil => rfl
  | cons b bytes ih =>
    have hb := b.toNat_lt
    have hval : 16 * (b.toNat / 16) + b.toNat % 16 = b.toNat := Nat.div_add_mod ..
    have step : hex (b :: bytes)
        = hexDigit (b.toNat / 16) :: hexDigit (b.toNat % 16) :: hex bytes := rfl
    rw [step, unhex, unhexDigit_hexDigit _ (by omega), unhexDigit_hexDigit _ (by omega), ih]
    simp only [Option.bind_eq_bind, Option.bind_some, hval, UInt8.ofNat_toNat]

theorem length_hex (bytes : List UInt8) : (hex bytes).length = 2 * bytes.length := by
  induction bytes with
  | nil => rfl
  | cons b bytes ih =>
    simp only [hex, List.flatMap_cons, List.length_append, List.length_cons] at ih ⊢
    simp only [ih, List.length_nil]
    omega

theorem hex_mem {bytes : List UInt8} {c : Char} (h : c ∈ hex bytes) : c ∈ hexDigits := by
  obtain ⟨b, _, hc⟩ := List.mem_flatMap.mp h
  have hb := b.toNat_lt
  simp only [List.mem_cons, List.not_mem_nil, or_false] at hc
  rcases hc with rfl | rfl
  · exact hexDigit_mem _ (by omega)
  · exact hexDigit_mem _ (by omega)

instance : KeyText NodeId where
  text k := hex k.bytes
  parse s := (unhex s).bind fun bytes =>
    if h : bytes.length = 32 then some ⟨bytes, h⟩ else none
  parse_text k := by simp [unhex_hex, k.size]
  length_text k := by simp [length_hex, k.size]
  hex_text k c h := hex_mem h

/-- The node id whose bytes are all `b`. -/
def NodeId.filled (b : UInt8) : NodeId := ⟨List.replicate 32 b, List.length_replicate⟩

end Egdod
