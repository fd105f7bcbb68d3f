import Egdod.DerivedLink
import Egdod.Proto
import Mathlib.Data.Finset.Insert

/-! Where relays come from, how an endpoint is addressed, and how a probe
addresses the controller. -/
namespace Egdod.Net

open Text DerivedLink

/-- Where the relay comes from. -/
inductive RelayChoice where
  | n0
  | disabled
  | urls (urls : List Str)
  deriving DecidableEq

def RelayChoice.enabled (r : RelayChoice) : Bool := r ≠ .disabled

/-- Whether a probe had to look the controller up. -/
inductive ProbeMode where
  | discovery
  | direct
  deriving DecidableEq, Repr

/-- The mode `serve` probes in. -/
def probeMode (r : RelayChoice) : ProbeMode := if r.enabled then .discovery else .direct

/-! ## Relays -/

section
variable {U : Type}

/-- The relays an endpoint is bound with. -/
inductive RelayMode (U : Type) where
  | default
  | disabled
  | custom (urls : List U)
  deriving DecidableEq

/-- `RelayChoice::mode`. A URL that does not parse fails it. -/
def RelayChoice.mode (parseUrl : Str → Option U) : RelayChoice → Option (RelayMode U)
  | .n0 => some .default
  | .disabled => some .disabled
  | .urls given => (given.mapM parseUrl).map .custom

/-- `RelayChoice::first_url`. -/
def RelayChoice.firstUrl (parseUrl : Str → Option U) : RelayChoice → Option (Option U)
  | .urls (url :: _) => (parseUrl url).map some
  | _ => some none

/-- Where every URL parses, the first does. -/
theorem RelayChoice.firstUrl_of_mode {parseUrl : Str → Option U} {relay : RelayChoice}
    {mode : RelayMode U} (h : relay.mode parseUrl = some mode) :
    ∃ first, relay.firstUrl parseUrl = some first := by
  cases relay with
  | n0 => exact ⟨none, rfl⟩
  | disabled => exact ⟨none, rfl⟩
  | urls urls =>
    cases urls with
    | nil => exact ⟨none, rfl⟩
    | cons url urls =>
      obtain ⟨parsed, hparsed, -⟩ := Option.map_eq_some_iff.mp h
      rw [List.mapM_cons] at hparsed
      obtain ⟨first, hfirst, -⟩ := Option.bind_eq_some_iff.mp hparsed
      exact ⟨some first, by simp [RelayChoice.firstUrl, hfirst]⟩

end

/-- How an endpoint takes part in address lookup. -/
inductive Lookup where
  | none
  | resolve
  | both
  deriving DecidableEq, Repr

/-! ## Addresses -/

inductive SocketAddr where
  | v4 (ip : Ipv4Addr) (port : UInt16)
  | v6 (segments : List UInt16) (port : UInt16) (scope : UInt32)
  deriving DecidableEq

/-- One of the ways to an endpoint. -/
inductive TransportAddr (U : Type) where
  | relay (url : U)
  | ip (addr : SocketAddr)
  deriving DecidableEq

structure EndpointAddr (K U : Type) where
  id : K
  addrs : Finset (TransportAddr U)
  deriving DecidableEq

section
variable {K U : Type} [DecidableEq U]

def EndpointAddr.withIpAddr (addr : EndpointAddr K U) (a : SocketAddr) : EndpointAddr K U :=
  { addr with addrs := insert (.ip a) addr.addrs }

def EndpointAddr.withRelayUrl (addr : EndpointAddr K U) (url : U) : EndpointAddr K U :=
  { addr with addrs := insert (.relay url) addr.addrs }

/-- `endpoint_addr`. -/
def endpointAddr (id : K) (direct : List SocketAddr) (relay : Option U) : EndpointAddr K U :=
  let addr := direct.foldl .withIpAddr ⟨id, ∅⟩
  match relay with
  | some url => addr.withRelayUrl url
  | none => addr

theorem foldl_withIpAddr_id (direct : List SocketAddr) (addr : EndpointAddr K U) :
    (direct.foldl .withIpAddr addr).id = addr.id := by
  induction direct generalizing addr with
  | nil => rfl
  | cons a direct ih =>
    rw [List.foldl_cons, ih]
    rfl

theorem mem_foldl_withIpAddr {direct : List SocketAddr} {addr : EndpointAddr K U}
    {x : TransportAddr U} :
    x ∈ (direct.foldl .withIpAddr addr).addrs ↔ x ∈ addr.addrs ∨ ∃ a ∈ direct, x = .ip a := by
  induction direct generalizing addr with
  | nil => simp
  | cons a direct ih =>
    rw [List.foldl_cons, ih]
    simp only [EndpointAddr.withIpAddr, Finset.mem_insert, List.mem_cons, exists_eq_or_imp]
    constructor
    · rintro ((rfl | hold) | hnew)
      · exact .inr (.inl rfl)
      · exact .inl hold
      · exact .inr (.inr hnew)
    · rintro (hold | rfl | hnew)
      · exact .inl (.inr hold)
      · exact .inl (.inl rfl)
      · exact .inr hnew

@[simp] theorem endpointAddr_id (id : K) (direct : List SocketAddr) (relay : Option U) :
    (endpointAddr id direct relay).id = id := by
  cases relay <;> exact foldl_withIpAddr_id direct _

/-- The ways to an endpoint are those that were given. -/
theorem mem_endpointAddr {id : K} {direct : List SocketAddr} {relay : Option U}
    {x : TransportAddr U} :
    x ∈ (endpointAddr id direct relay).addrs ↔
      (∃ a ∈ direct, x = .ip a) ∨ ∃ url, relay = some url ∧ x = .relay url := by
  cases relay with
  | none => simp [endpointAddr, mem_foldl_withIpAddr]
  | some url =>
    simp [endpointAddr, EndpointAddr.withRelayUrl, mem_foldl_withIpAddr, or_comm]

end

end Egdod.Net
