import Egdod.Key
import Egdod.Lib.Files
import Egdod.Lib.Memory
import Mathlib.Algebra.Group.Nat.Defs

/-! `link.rs`: the access point that a target hosts for its controller. Its
name, its secret and both addresses are computed from the controller's node
id, by the target that hosts it and by the controller that joins it. -/
namespace Egdod.DerivedLink

open Posix Text Memory

/-- `PREFIX_LEN`. -/
def prefixLen : Nat := 16

structure Ipv4Addr where
  a : UInt8
  b : UInt8
  c : UInt8
  d : UInt8
  deriving DecidableEq

/-- An address by its number. -/
def Ipv4Addr.ofNat (n : Nat) : Ipv4Addr :=
  ⟨.ofNat (n / 2 ^ 24), .ofNat (n / 2 ^ 16), .ofNat (n / 2 ^ 8), .ofNat n⟩

/-- The netmask of a subnet: ones, then zeros for the hosts. -/
def Ipv4Addr.mask (len : Nat) : Ipv4Addr := .ofNat (2 ^ 32 - 2 ^ (32 - len))

/-- `Display` of a number. -/
def decimal (n : Nat) : Str := Nat.toDigits 10 n

/-- `Display` of an address, which is also what `inet_ntoa` prints. -/
def Ipv4Addr.display (ip : Ipv4Addr) : Str :=
  decimal ip.a.toNat ++ '.' :: (decimal ip.b.toNat ++ '.' :: (decimal ip.c.toNat ++ '.' ::
    decimal ip.d.toNat))

structure Link where
  ssid : Str
  psk : Str
  target : Ipv4Addr
  controller : Ipv4Addr
  port : UInt16
  deriving DecidableEq

/-- The `i`th byte of a digest. -/
def byte (digest : Block UInt8 32) (i : Fin 32) : UInt8 :=
  digest.cells.get (i.cast digest.length_cells.symm)

def hostOctet (b : UInt8) : UInt8 := 1 + b % 254

section
variable (sha256 : Bytes → Block UInt8 32)

def hash (label : String) (id : NodeId) : Block UInt8 32 :=
  sha256 (encode label.toList ++ id.bytes)

def derive (id : NodeId) : Link :=
  let ssid := hash sha256 "egdod-link-ssid" id
  let psk := hash sha256 "egdod-link-psk" id
  let a := hash sha256 "egdod-link-addr" id
  let x := hostOctet (byte a 0)
  let y := hostOctet (byte a 1)
  let z := hostOctet (byte a 2)
  let z := if z = y then hostOctet z else z
  { ssid := "egdod-".toList ++ hex (ssid.cells.take 4)
    psk := hex psk.cells
    target := ⟨169, 254, x, y⟩
    controller := ⟨169, 254, x, z⟩
    port := 49152 + ((byte a 3).toUInt16 * 256 + (byte a 4).toUInt16) % 16384 }

end

/-- `lines`. -/
def Link.lines (l : Link) : Str :=
  "ssid=".toList ++ l.ssid ++ "\npsk=".toList ++ l.psk ++ "\ntarget=".toList ++ l.target.display ++
    "\ncontroller=".toList ++ l.controller.display ++ "\nprefix=".toList ++ decimal prefixLen ++
    "\nport=".toList ++ decimal l.port.toNat ++ ['\n']

/-- The address that `join` gives the controller's interface. -/
def Link.cidr (l : Link) : Str := l.controller.display ++ '/' :: decimal prefixLen

/-- Where `join` says that the target dials. -/
def Link.dialled (l : Link) : Str := l.controller.display ++ ':' :: decimal l.port.toNat

/-! ## Addresses and ports -/

theorem toNat_hostOctet (b : UInt8) : (hostOctet b).toNat = 1 + b.toNat % 254 := by
  rw [hostOctet, UInt8.toNat_add, UInt8.toNat_mod]
  have hlt : b.toNat % 254 < 254 := Nat.mod_lt _ (by decide)
  exact Nat.mod_eq_of_lt (by simp; omega)

/-- The octets that are nobody's and everybody's are left out. -/
def Ipv4Addr.IsHost (ip : Ipv4Addr) : Prop :=
  ip.a = 169 ∧ ip.b = 254 ∧ (1 ≤ ip.c.toNat ∧ ip.c.toNat ≤ 254) ∧ 1 ≤ ip.d.toNat ∧ ip.d.toNat ≤ 254

theorem hostOctet_mem (b : UInt8) : 1 ≤ (hostOctet b).toNat ∧ (hostOctet b).toNat ≤ 254 := by
  rw [toNat_hostOctet]
  have hlt : b.toNat % 254 < 254 := Nat.mod_lt _ (by decide)
  exact ⟨by omega, by omega⟩

theorem hostOctet_hostOctet_ne (b : UInt8) : hostOctet (hostOctet b) ≠ hostOctet b := by
  intro h
  have hnat := congrArg UInt8.toNat h
  rw [toNat_hostOctet (hostOctet b), toNat_hostOctet] at hnat
  omega

section
variable (sha256 : Bytes → Block UInt8 32) (id : NodeId)

theorem isHost_target : (derive sha256 id).target.IsHost :=
  ⟨rfl, rfl, hostOctet_mem _, hostOctet_mem _⟩

theorem isHost_controller : (derive sha256 id).controller.IsHost := by
  refine ⟨rfl, rfl, hostOctet_mem _, ?_⟩
  unfold derive
  dsimp only
  split
  · exact hostOctet_mem _
  · exact hostOctet_mem _

theorem target_ne_controller : (derive sha256 id).target ≠ (derive sha256 id).controller := by
  intro h
  have hd := congrArg Ipv4Addr.d h
  unfold derive at hd
  dsimp only at hd
  split at hd
  · rename_i heq
    rw [← heq] at hd
    exact hostOctet_hostOctet_ne _ hd.symm
  · rename_i hne
    exact hne hd.symm

/-- The port is computed without overflow. -/
theorem toNat_port :
    (derive sha256 id).port.toNat = 49152 +
      ((byte (hash sha256 "egdod-link-addr" id) 3).toNat * 256 +
        (byte (hash sha256 "egdod-link-addr" id) 4).toNat) % 16384 := by
  unfold derive
  dsimp only
  generalize byte (hash sha256 "egdod-link-addr" id) 3 = high
  generalize byte (hash sha256 "egdod-link-addr" id) 4 = low
  have hhigh := high.toNat_lt
  have hlow := low.toNat_lt
  simp only [UInt16.toNat_add, UInt16.toNat_mod, UInt16.toNat_mul, UInt8.toNat_toUInt16,
    UInt16.toNat_ofNat, Nat.reducePow, Nat.reduceMod]
  omega

theorem port_mem :
    49152 ≤ (derive sha256 id).port.toNat ∧ (derive sha256 id).port.toNat ≤ 65535 := by
  rw [toNat_port]
  generalize (byte (hash sha256 "egdod-link-addr" id) 3).toNat * 256 +
    (byte (hash sha256 "egdod-link-addr" id) 4).toNat = n
  have hlt : n % 16384 < 16384 := Nat.mod_lt _ (by decide)
  exact ⟨by omega, by omega⟩

end

/-! ## Texts -/

theorem visible_hex (bytes : Bytes) : Visible (hex bytes) := by
  have hall : Visible hexDigits := by decide +kernel
  exact fun c hc => hall c (hex_mem hc)

theorem Ipv4Addr.visible_display (ip : Ipv4Addr) : Visible ip.display := by
  have hdot : 32 < '.'.toNat ∧ '.'.toNat < 127 := by decide
  exact (visible_toDigits _).append (((visible_toDigits _).append
    (((visible_toDigits _).append ((visible_toDigits _).cons hdot)).cons hdot)).cons hdot)

theorem Ipv4Addr.not_mem_display (ip : Ipv4Addr) {c : Char} (hc : c.isDigit = false)
    (hdot : c ≠ '.') : c ∉ ip.display := by
  have hdecimal : ∀ n, c ∉ decimal n := by
    intro n hmem
    have hdigit := Nat.isDigit_of_mem_toDigits (by decide) (by decide) hmem
    rw [hc] at hdigit
    cases hdigit
  simp [display, hdecimal, hdot]

theorem length_decimal_le {n k : Nat} (hk : 0 < k) (h : n < 10 ^ k) : (decimal n).length ≤ k :=
  (Nat.length_toDigits_le_iff (by decide) hk).mpr h

theorem Ipv4Addr.length_display_le (ip : Ipv4Addr) : ip.display.length ≤ 15 := by
  have hoctet : ∀ b : UInt8, (decimal b.toNat).length ≤ 3 := fun b =>
    length_decimal_le (by decide) (Nat.lt_trans b.toNat_lt (by decide))
  have ha := hoctet ip.a
  have hb := hoctet ip.b
  have hc := hoctet ip.c
  have hd := hoctet ip.d
  simp only [display, List.length_append, List.length_cons]
  omega

/-- What there is to know of the texts of a link: they are visible, and not too long. -/
structure Link.Plain (l : Link) : Prop where
  visible_ssid : Visible l.ssid
  length_ssid : l.ssid.length = 14
  visible_psk : Visible l.psk
  length_psk : l.psk.length = 64

theorem plain_derive (sha256 : Bytes → Block UInt8 32) (id : NodeId) :
    (derive sha256 id).Plain where
  visible_ssid := Visible.append (by decide +kernel) (visible_hex _)
  length_ssid := by
    have hlength := (hash sha256 "egdod-link-ssid" id).length_cells
    show ("egdod-".toList ++ hex ((hash sha256 "egdod-link-ssid" id).cells.take 4)).length = 14
    rw [List.length_append, length_hex, List.length_take, hlength]
    rfl
  visible_psk := visible_hex _
  length_psk := by
    show (hex (hash sha256 "egdod-link-psk" id).cells).length = 64
    rw [length_hex, Block.length_cells]

theorem length_decimal_port (l : Link) : (decimal l.port.toNat).length ≤ 5 :=
  length_decimal_le (by decide) (Nat.lt_trans l.port.toNat_lt (by decide))

end Egdod.DerivedLink
