import Mathlib.Data.Sym.Sym2

/-! Ideal cryptography on byte strings. A byte is a literal or a position in
the output of a primitive, and the output of a primitive is told apart from
every other by what went into it; strings are plain lists, so they can be
cut and put together anywhere. What an adversary can work out is a closure
on bytes, and `Safe` is the invariant that bounds it. -/
namespace Symbolic

/-- An ephemeral secret of a party of the protocol, or of the adversary. -/
inductive Eph where
  | party (n : Nat)
  | adversary (n : Nat)
  deriving DecidableEq

inductive SByte where
  | lit (b : UInt8)
  /-- Byte `i` of a secret text. -/
  | secret (text i : Nat)
  /-- Byte `i` of the public key of a long-term key. -/
  | pub (key i : Nat)
  /-- Byte `i` of the public point of an ephemeral secret. -/
  | point (x : Eph) (i : Nat)
  /-- Byte `i` of a signature; one message has many, told apart by `r`. -/
  | sig (key : Nat) (msg : List SByte) (r i : Nat)
  /-- Byte `i` of what two ephemeral secrets share. -/
  | shared (xy : Sym2 Eph) (i : Nat)
  /-- Byte `i` of what a secret makes of bytes that are no party's point. -/
  | odd (x : Eph) (p : List SByte) (i : Nat)
  | hash (m : List SByte) (i : Nat)
  | cipher (key : List SByte) (nonce : List UInt8) (aad clear : List SByte) (i : Nat)

abbrev SBytes := List SByte

/-! ## Equality of bytes -/

mutual

def SByte.beq : SByte → SByte → Bool
  | .lit b, .lit b' => b = b'
  | .secret t i, .secret t' i' => t = t' ∧ i = i'
  | .pub k i, .pub k' i' => k = k' ∧ i = i'
  | .point x i, .point x' i' => x = x' ∧ i = i'
  | .sig k m r i, .sig k' m' r' i' => decide (k = k' ∧ r = r' ∧ i = i') && beqs m m'
  | .shared xy i, .shared xy' i' => xy = xy' ∧ i = i'
  | .odd x p i, .odd x' p' i' => decide (x = x' ∧ i = i') && beqs p p'
  | .hash m i, .hash m' i' => decide (i = i') && beqs m m'
  | .cipher k n a c i, .cipher k' n' a' c' i' =>
    decide (n = n' ∧ i = i') && beqs k k' && beqs a a' && beqs c c'
  | _, _ => false

def beqs : List SByte → List SByte → Bool
  | [], [] => true
  | a :: as, b :: bs => a.beq b && beqs as bs
  | _, _ => false

end

mutual

theorem SByte.beq_iff : ∀ a b : SByte, a.beq b = true ↔ a = b
  | .lit _, b => by cases b <;> simp [SByte.beq]
  | .secret _ _, b => by cases b <;> simp [SByte.beq]
  | .pub _ _, b => by cases b <;> simp [SByte.beq]
  | .point _ _, b => by cases b <;> simp [SByte.beq]
  | .sig _ m _ _, b => by cases b <;> simp [SByte.beq, beqs_iff m]; grind
  | .shared _ _, b => by cases b <;> simp [SByte.beq]
  | .odd _ p _, b => by cases b <;> simp [SByte.beq, beqs_iff p]; grind
  | .hash m _, b => by cases b <;> simp [SByte.beq, beqs_iff m]; grind
  | .cipher k _ a c _, b => by
    cases b <;> simp [SByte.beq, beqs_iff k, beqs_iff a, beqs_iff c]; grind

theorem beqs_iff : ∀ as bs : List SByte, beqs as bs = true ↔ as = bs
  | [], bs => by cases bs <;> simp [beqs]
  | a :: as, bs => by cases bs <;> simp [beqs, SByte.beq_iff a, beqs_iff as]

end

instance : DecidableEq SByte := fun a b => decidable_of_iff _ (SByte.beq_iff a b)

/-! ## The primitives -/

/-- The bytes `f 0` to `f (n - 1)`. -/
def block (f : Nat → SByte) (n : Nat) : SBytes := (List.range n).map f

def pubBytes (key : Nat) : SBytes := block (.pub key) 32

def pointBytes (x : Eph) : SBytes := block (.point x) 32

def sigBytes (key : Nat) (msg : SBytes) (r : Nat) : SBytes := block (.sig key msg r) 64

def sign (key : Nat) (msg : SBytes) : SBytes := sigBytes key msg 0

/-- Whether `σ` is a signature of `msg` under a public key. -/
def verify (key : Nat) (msg σ : SBytes) : Bool :=
  match σ with
  | .sig _ _ r _ :: _ => σ = sigBytes key msg r
  | _ => false

/-- The secret whose point these bytes are, if they are one. -/
def asPoint (p : SBytes) : Option Eph :=
  match p with
  | .point x _ :: _ => if p = pointBytes x then some x else none
  | _ => none

def diffieHellman (x : Eph) (p : SBytes) : SBytes :=
  match asPoint p with
  | some y => block (.shared s(x, y)) 32
  | none => block (.odd x p) 32

def sha256 (m : SBytes) : SBytes := block (.hash m) 32

/-- Authenticated encryption; the tag makes it 16 bytes longer. -/
def encrypt (key : SBytes) (nonce : List UInt8) (aad clear : SBytes) : SBytes :=
  block (.cipher key nonce aad clear) (clear.length + 16)

def decrypt (key : SBytes) (nonce : List UInt8) (aad c : SBytes) : Option SBytes :=
  match c with
  | .cipher _ _ _ clear _ :: _ => if c = encrypt key nonce aad clear then some clear else none
  | _ => none

theorem block_succ (f : Nat → SByte) (n : Nat) :
    block f (n + 1) = f 0 :: (List.range n).map fun i => f (i + 1) := by
  simp [block, List.range_succ_eq_map, List.map_map, Function.comp_def]

@[simp] theorem length_block (f : Nat → SByte) (n : Nat) : (block f n).length = n := by
  simp [block]

theorem mem_block {f : Nat → SByte} {n i : Nat} (h : i < n) : f i ∈ block f n :=
  List.mem_map.mpr ⟨i, List.mem_range.mpr h, rfl⟩

theorem of_mem_block {f : Nat → SByte} {n : Nat} {b : SByte} (h : b ∈ block f n) :
    ∃ i, b = f i := by
  obtain ⟨i, _, rfl⟩ := List.mem_map.mp h
  exact ⟨i, rfl⟩

/-- Blocks that are equal have the same first byte. -/
theorem block_head {f g : Nat → SByte} {n m : Nat} (h : block f (n + 1) = block g (m + 1)) :
    f 0 = g 0 := by
  rw [block_succ, block_succ] at h
  exact (List.cons.inj h).1

@[simp] theorem length_pubBytes (key : Nat) : (pubBytes key).length = 32 := length_block _ _

@[simp] theorem length_pointBytes (x : Eph) : (pointBytes x).length = 32 := length_block _ _

@[simp] theorem length_sign (key : Nat) (msg : SBytes) : (sign key msg).length = 64 :=
  length_block _ _

@[simp] theorem length_encrypt (key : SBytes) (nonce : List UInt8) (aad clear : SBytes) :
    (encrypt key nonce aad clear).length = clear.length + 16 := length_block _ _

theorem pubBytes_injective {key key' : Nat} (h : pubBytes key = pubBytes key') : key = key' := by
  have := block_head h
  simpa using this

theorem pointBytes_injective {x y : Eph} (h : pointBytes x = pointBytes y) : x = y := by
  have := block_head h
  simpa using this

theorem verify_sigBytes (key : Nat) (msg : SBytes) (r : Nat) :
    verify key msg (sigBytes key msg r) = true := by
  simp [verify, sigBytes, block_succ]

theorem verify_true {key : Nat} {msg σ : SBytes} (h : verify key msg σ = true) :
    ∃ r, σ = sigBytes key msg r := by
  unfold verify at h
  split at h
  · exact ⟨_, by simpa using h⟩
  · cases h

theorem asPoint_pointBytes (x : Eph) : asPoint (pointBytes x) = some x := by
  simp [asPoint, pointBytes, block_succ]

theorem diffieHellman_point (x y : Eph) :
    diffieHellman x (pointBytes y) = block (.shared s(x, y)) 32 := by
  simp [diffieHellman, asPoint_pointBytes]

/-- Both ends of an exchange share the same bytes. -/
theorem diffieHellman_comm (x y : Eph) :
    diffieHellman x (pointBytes y) = diffieHellman y (pointBytes x) := by
  rw [diffieHellman_point, diffieHellman_point, Sym2.eq_swap]

theorem decrypt_encrypt (key : SBytes) (nonce : List UInt8) (aad clear : SBytes) :
    decrypt key nonce aad (encrypt key nonce aad clear) = some clear := by
  simp [decrypt, encrypt, block_succ]

theorem decrypt_some {key : SBytes} {nonce : List UInt8} {aad c clear : SBytes}
    (h : decrypt key nonce aad c = some clear) : c = encrypt key nonce aad clear := by
  unfold decrypt at h
  split at h
  · split at h
    · rename_i hc
      cases h
      exact hc
    · cases h
  · cases h

/-! ## The adversary -/

/-- What can be worked out from the bytes seen, with the long-term keys that
are compromised. Generous where it costs nothing: one byte of a signature
gives all signatures of its message, and a point that is nobody's gives its
result away. -/
inductive Knows (compromised : Nat → Prop) (seen : SByte → Prop) : SByte → Prop
  | seen {b} : seen b → Knows compromised seen b
  | lit {b} : Knows compromised seen (.lit b)
  | pub {key i} : Knows compromised seen (.pub key i)
  | point {n i} : Knows compromised seen (.point (.adversary n) i)
  | sign {key msg r i} : compromised key → (∀ b ∈ msg, Knows compromised seen b) →
      Knows compromised seen (.sig key msg r i)
  | maul {key msg r i r' i'} : Knows compromised seen (.sig key msg r i) →
      Knows compromised seen (.sig key msg r' i')
  | shared {n y i} : Knows compromised seen (.shared s(.adversary n, y) i)
  | odd {x p i} : Knows compromised seen (.odd x p i)
  | hash {m i} : (∀ b ∈ m, Knows compromised seen b) → Knows compromised seen (.hash m i)
  | encrypt {key nonce aad clear i} : (∀ b ∈ key, Knows compromised seen b) →
      (∀ b ∈ aad, Knows compromised seen b) → (∀ b ∈ clear, Knows compromised seen b) →
      Knows compromised seen (.cipher key nonce aad clear i)
  | decrypt {key nonce aad clear i b} : Knows compromised seen (.cipher key nonce aad clear i) →
      (∀ b ∈ key, Knows compromised seen b) → b ∈ clear → Knows compromised seen b

/-- Bytes that may be on the air: nothing secret, no signature but those of
the parties (`Signed`) and of compromised keys, no ciphertext but those of the
parties (`Sealed`) and those made from bytes that may be on the air. -/
inductive Safe (compromised : Nat → Prop) (Signed : Nat → SBytes → Prop)
    (Sealed : SBytes → List UInt8 → SBytes → SBytes → Prop) : SByte → Prop
  | lit {b} : Safe compromised Signed Sealed (.lit b)
  | pub {key i} : Safe compromised Signed Sealed (.pub key i)
  | point {x i} : Safe compromised Signed Sealed (.point x i)
  | sig {key msg r i} : compromised key ∨ Signed key msg →
      Safe compromised Signed Sealed (.sig key msg r i)
  | shared {n y i} : Safe compromised Signed Sealed (.shared s(.adversary n, y) i)
  | odd {x p i} : Safe compromised Signed Sealed (.odd x p i)
  | hash {m i} : (∀ b ∈ m, Safe compromised Signed Sealed b) →
      Safe compromised Signed Sealed (.hash m i)
  | cipher {key nonce aad clear i} : (∀ b ∈ key, Safe compromised Signed Sealed b) →
      (∀ b ∈ clear, Safe compromised Signed Sealed b) →
      Safe compromised Signed Sealed (.cipher key nonce aad clear i)
  | sealed {key nonce aad clear i} : Sealed key nonce aad clear →
      Safe compromised Signed Sealed (.cipher key nonce aad clear i)

section
variable {compromised : Nat → Prop} {Signed Signed' : Nat → SBytes → Prop}
  {Sealed Sealed' : SBytes → List UInt8 → SBytes → SBytes → Prop} {seen : SByte → Prop}

/-- A closure rule: as long as what is seen is safe and no party sealed
something unsafe under a safe key, nothing unsafe can be worked out. -/
theorem Knows.safe (hseen : ∀ b, seen b → Safe compromised Signed Sealed b)
    (hseal : ∀ key nonce aad clear, Sealed key nonce aad clear →
      (∀ b ∈ key, Safe compromised Signed Sealed b) →
      ∀ b ∈ clear, Safe compromised Signed Sealed b)
    {b : SByte} (h : Knows compromised seen b) : Safe compromised Signed Sealed b := by
  induction h with
  | seen hb => exact hseen _ hb
  | lit => exact .lit
  | pub => exact .pub
  | point => exact .point
  | sign hk => exact .sig (.inl hk)
  | maul _ ih =>
    cases ih with
    | sig hs => exact .sig hs
  | shared => exact .shared
  | odd => exact .odd
  | hash _ ih => exact .hash ih
  | encrypt _ _ _ hkey _ hclear => exact .cipher hkey hclear
  | decrypt _ _ hb ih hkey =>
    cases ih with
    | cipher _ hclear => exact hclear _ hb
    | sealed hs => exact hseal _ _ _ _ hs hkey _ hb

theorem Safe.mono (hsigned : ∀ key msg, Signed key msg → Signed' key msg)
    (hsealed : ∀ key nonce aad clear, Sealed key nonce aad clear → Sealed' key nonce aad clear)
    {b : SByte} (h : Safe compromised Signed Sealed b) : Safe compromised Signed' Sealed' b := by
  induction h with
  | lit => exact .lit
  | pub => exact .pub
  | point => exact .point
  | sig hs => exact .sig (hs.imp id (hsigned _ _))
  | shared => exact .shared
  | odd => exact .odd
  | hash _ ih => exact .hash ih
  | cipher _ _ hkey hclear => exact .cipher hkey hclear
  | sealed hs => exact .sealed (hsealed _ _ _ _ hs)

theorem Safe.not_secret {text i : Nat} : ¬ Safe compromised Signed Sealed (.secret text i) := by
  intro h
  cases h

theorem Safe.signed {key r i : Nat} {msg : SBytes}
    (h : Safe compromised Signed Sealed (.sig key msg r i)) :
    compromised key ∨ Signed key msg := by
  cases h with
  | sig hs => exact hs

/-- A secret shared by two parties is not on the air. -/
theorem Safe.not_shared {x y i : Nat} :
    ¬ Safe compromised Signed Sealed (.shared s(.party x, .party y) i) := by
  intro h
  generalize hxy : s(Eph.party x, Eph.party y) = xy at h
  cases h with
  | shared => simp at hxy

/-- A hash over such a secret is not either. -/
theorem Safe.not_hash_shared {x y : Nat} {a b : SBytes} :
    ¬ ∀ c ∈ sha256 (a ++ diffieHellman (.party x) (pointBytes (.party y)) ++ b),
      Safe compromised Signed Sealed c := by
  intro h
  have hhash := h _ (mem_block (show 0 < 32 by decide))
  cases hhash with
  | hash hm =>
    refine Safe.not_shared (hm (.shared s(.party x, .party y) 0) ?_)
    rw [diffieHellman_point]
    have := mem_block (f := SByte.shared s(.party x, .party y)) (show 0 < 32 by decide)
    simp [this]

/-- A ciphertext on the air under a key that is not was made by a party. -/
theorem Safe.of_encrypt {key : SBytes} {nonce : List UInt8} {aad clear : SBytes}
    (h : ∀ b ∈ encrypt key nonce aad clear, Safe compromised Signed Sealed b)
    (hkey : ¬ ∀ b ∈ key, Safe compromised Signed Sealed b) : Sealed key nonce aad clear := by
  cases h _ (mem_block (Nat.succ_pos _)) with
  | cipher hk => exact absurd hk hkey
  | sealed hs => exact hs

/-- A signature on the air was made with a compromised key or by a party. -/
theorem Safe.of_verify {key : Nat} {msg σ : SBytes}
    (h : ∀ b ∈ σ, Safe compromised Signed Sealed b) (hv : verify key msg σ = true) :
    compromised key ∨ Signed key msg := by
  obtain ⟨r, rfl⟩ := verify_true hv
  exact (h _ (mem_block (show 0 < 64 by decide))).signed

end

end Symbolic
