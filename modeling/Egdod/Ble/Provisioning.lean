import Egdod.Ble.Adapter
import Egdod.Ble.Serve
import Egdod.Boot.Networks
import Egdod.Lib.Trace

/-! `provision`: the controller looks for its target among the devices around,
tries those that look like it until one acknowledges the credentials, and
leaves the adapter as it was. A signal may end the search wherever it waits;
what has to be undone then is in a slot next to it. From then on a signal is
caught for good; before the search, it ends the process. -/
namespace Egdod.Ble

open Text Posix StepSystem Trace

/-! ## What a controller makes of a hello -/

namespace Suite

variable {β S : Type} [DecidableEq β] (suite : Suite β S)

/-- The ephemeral of a hello, if the hello is the target's. Signatures are checked under the
target's key. -/
def verifyServerHello (bytes : List β) : Option (List β) :=
  if bytes.length ≠ 128 then none
  else if bytes.take 32 ≠ suite.agent then none
  else if suite.verify (suite.identityMessage suite.serverLabel [(bytes.drop 32).take 32])
      ((bytes.drop 64).take 64) then
    some ((bytes.drop 32).take 32)
  else none

/-- The signed head of a request. -/
def requestHead (secret : S) (serverEphemeral : List β) : List β :=
  suite.controller ++ suite.point secret ++
    suite.sign (suite.identityMessage suite.clientLabel [serverEphemeral, suite.point secret])

/-- The transcript, the session key and the request that answers a hello. -/
def answer (secret : S) (conf hello : List β) : Option (List β × List β × List β) := do
  let ephemeral ← suite.verifyServerHello hello
  let head := suite.requestHead secret ephemeral
  let transcript := hello ++ head
  let key := suite.sessionKey (suite.diffieHellman secret ephemeral) transcript
  let cipher ← suite.encrypt key (nonce 0) transcript conf
  if (head ++ cipher).length ≤ maxFrame then some (transcript, key, head ++ cipher) else none

/-- Whether a frame acknowledges the request. -/
def confirms (transcript key ack : List β) : Bool :=
  suite.decrypt key (nonce 1) transcript ack = some suite.okText

end Suite

/-- The idealised cryptography of a `provision` run. -/
def symbolicClient (run : Provision) : Suite Symbolic.SByte Nat where
  serverLabel := serverLabel
  clientLabel := clientLabel
  keyLabel := keyLabel
  okText := okText
  controller := Symbolic.pubBytes run.controller
  agent := Symbolic.pubBytes run.agent
  sign := Symbolic.sign run.controller
  verify := Symbolic.verify run.agent
  point n := Symbolic.pointBytes (.party n)
  diffieHellman n := Symbolic.diffieHellman (.party n)
  sha256 := Symbolic.sha256
  encrypt key n aad clear := some (Symbolic.encrypt key n aad clear)
  decrypt := Symbolic.decrypt

/-- A run of the exchange model answers as its suite does. -/
theorem answer_symbolicClient (run : Provision) (n : Nat) (hello : Symbolic.SBytes) :
    (symbolicClient run).answer n run.conf hello =
      (run.answer n hello).map fun (σ, request) => (σ.transcript, σ.key, request) := by
  have hverify : (symbolicClient run).verifyServerHello hello =
      (verifyServerHello hello run.controller run.agent).map ServerHello.ephemeral := by
    simp only [Suite.verifyServerHello, verifyServerHello, parseServerHello]
    by_cases hlen : hello.length = 128
    · simp only [hlen, ne_eq, not_true_eq_false, if_false, if_true, Option.bind_eq_bind,
        Option.bind_some]
      change (if hello.take 32 ≠ Symbolic.pubBytes run.agent then none
        else if Symbolic.verify run.agent (identityMessage serverLabel run.controller run.agent
            [(hello.drop 32).take 32]) ((hello.drop 64).take 64) then
          some ((hello.drop 32).take 32)
        else none) = _
      split_ifs <;> rfl
    · simp [hlen]
  simp only [Suite.answer, Provision.answer, hverify]
  cases verifyServerHello hello run.controller run.agent with
  | none => rfl
  | some hello' =>
    have hhead : (symbolicClient run).requestHead n hello'.ephemeral =
        run.head n hello'.ephemeral := rfl
    have hkey : ∀ transcript, (symbolicClient run).sessionKey
        ((symbolicClient run).diffieHellman n hello'.ephemeral) transcript =
        sessionKey (Symbolic.diffieHellman (.party n) hello'.ephemeral) transcript := fun _ => rfl
    have hcipher : ∀ key aad, (symbolicClient run).encrypt key (nonce 0) aad run.conf =
        some (crypt key 0 aad run.conf) := fun _ _ => rfl
    simp only [Option.map_some, Option.bind_eq_bind, Option.bind_some, hhead, hkey, hcipher]
    split_ifs <;> rfl

/-! ## The devices around -/

def serviceUuid : Nat := 0xe6d0d0007d7a4c6f8d8a7c4547444f44

def characteristicUuid : Nat := 0xe6d0d0017d7a4c6f8d8a7c4547444f44

/-- The name a target advertises. -/
def localName (id : Str) : Str := "egdod-".toList ++ id.take 8

/-- `find_characteristic`, over the services of a device with their characteristics. -/
def findCharacteristic (services : List (Nat × List Nat)) : Bool :=
  services.any fun (uuid, characteristics) =>
    uuid == serviceUuid && characteristics.contains characteristicUuid

namespace Provisioning

open Adapter (Call switchedOn switchedOff)

/-- Why a run gave up. -/
inductive Failure where
  | adapter (failure : Adapter.Failure)
  | listing
  | discovery
  | timedOut
  | discoveryEnded
  | device
  | bonded (address : Nat)
  | interrupted
  deriving DecidableEq

/-- An exchange with a candidate, at what it waits for next. -/
inductive Stage where
  | connecting
  | services
  | resting
  | notifyIo
  | writeIo
  | writeStart
  | flushStart
  | helloSize
  | helloBody (size : Nat)
  | writeRequest (transcript key : Bytes)
  | ackSize (transcript key : Bytes)
  | ackBody (transcript key : Bytes) (size : Nat)

/-- Where `provision` stands: at the adapter, looking around, at a candidate, letting go of it,
or done. What it does once the search is over comes last. -/
inductive Pc where
  | adapter (pc : Adapter.Pc)
  | listing
  | discovering
  | scanning
  | naming (address : Nat)
  | askingUuids (address : Nat) (name : Option (Option Str))
  | askingBond (address : Nat) (name : Option (Option Str)) (uuids : Option (Option (List Nat)))
  | exchanging (address : Nat) (known : Bool) (stage : Stage)
  | disconnecting (address : Nat) (known accepted : Bool)
  | removing (address : Nat) (known accepted : Bool)
  | lastDisconnect (address : Nat) (known : Bool) (result : Except Failure Unit)
  | lastRemove (result : Except Failure Unit)
  | powerOff (result : Except Failure Unit)
  | returned (result : Except Failure Unit)
  | killed

/-- What comes in. A property is absent (`some none`) or cannot be read (`none`); with a hello
comes what `getrandom` has, and `late` says that a deadline has passed. `terminate` is a signal,
or an error of waiting for one. -/
inductive Event (S : Type) where
  | ok
  | fail
  | timeout
  | terminate
  | adapter (e : Adapter.Event)
  | addresses (known : List Nat)
  | added (address : Nat) (usable : Bool)
  | other
  | stopped
  | name (name : Option (Option Str))
  | uuids (uuids : Option (Option (List Nat)))
  | bond (paired : Option Bool) (late : Bool)
  | services (services : List (Nat × List Nat))
  | unresolved (late : Bool)
  | data (bytes : Bytes)
  | hello (bytes : Bytes) (random : Option S)

structure State where
  log : List Call
  /-- The slot: the candidate at hand, and whether it was known before. -/
  active : Option (Nat × Bool)
  wasPowered : Bool
  known : List Nat
  pc : Pc

def begin : State := ⟨[], none, true, [], .adapter .session⟩

def State.goto (s : State) (pc : Pc) : State := { s with pc := pc }

def State.onAdapter (s : State) : Adapter.Next → State
  | .wait pc => s.goto (.adapter pc)
  | .switchOn => { s with
      wasPowered := false
      log := s.log ++ [.power true]
      pc := .adapter .powering }
  | .ready => s.goto .listing
  -- neither this nor a signal undoes what was done to the adapter
  | .failed failure => s.goto (.returned (.error (.adapter failure)))

/-- The adapter's power is restored. -/
def State.powerDown (s : State) (result : Except Failure Unit) : State :=
  if s.wasPowered then s.goto (.returned result)
  else { s with log := s.log ++ [.power false], pc := .powerOff result }

/-- The search is over: the slot is emptied, and its device forgotten. -/
def State.finish (s : State) (result : Except Failure Unit) : State :=
  match s.active with
  | some (address, known) => { s with
      active := none
      log := s.log ++ [.disconnect address]
      pc := .lastDisconnect address known result }
  | none => s.powerDown result

/-- An exchange is over; `forget` begins. -/
def State.forget (s : State) (address : Nat) (known accepted : Bool) : State :=
  { s with
    log := s.log ++ [.disconnect address]
    pc := .disconnecting address known accepted }

/-- A candidate has been forgotten: the next one, unless it accepted. -/
def State.forgotten (s : State) (accepted : Bool) : State :=
  if accepted then { s with active := none }.finish (.ok ())
  else { s with active := none, pc := .scanning }

/-- Whether a signal is waited for. -/
def Pc.interruptible : Pc → Bool
  | .listing | .discovering | .scanning | .naming _ | .askingUuids _ _ | .askingBond _ _ _
  | .exchanging _ _ _ | .disconnecting _ _ _ | .removing _ _ _ => true
  | _ => false

section
variable {S : Type} (suite : Suite UInt8 S) (expectedName : Str) (conf : Bytes)

/-- One step of an exchange: the next stage, or whether the credentials were accepted. -/
def Stage.step : Stage → Event S → Option (Stage ⊕ Bool)
  | .connecting, .ok => some (.inl .services)
  | .services, .services tree =>
    some (if findCharacteristic tree then .inl .notifyIo else .inr false)
  | .services, .unresolved late => some (if late then .inr false else .inl .resting)
  | .resting, .ok => some (.inl .services)
  | .notifyIo, .ok => some (.inl .writeIo)
  | .writeIo, .ok => some (.inl .writeStart)
  | .writeStart, .ok => some (.inl .flushStart)
  | .flushStart, .ok => some (.inl .helloSize)
  | .helloSize, .data bytes =>
    if bytes.length = 4 then
      some (if fromBe32 bytes ≤ maxFrame then .inl (.helloBody (fromBe32 bytes)) else .inr false)
    else none
  | .helloBody size, .hello bytes random =>
    if bytes.length = size then
      some (match random.bind fun secret => suite.answer secret conf bytes with
        | some (transcript, key, _) => .inl (.writeRequest transcript key)
        | none => .inr false)
    else none
  | .writeRequest transcript key, .ok => some (.inl (.ackSize transcript key))
  | .ackSize transcript key, .data bytes =>
    if bytes.length = 4 then
      some (if fromBe32 bytes ≤ maxFrame then .inl (.ackBody transcript key (fromBe32 bytes))
        else .inr false)
    else none
  | .ackBody transcript key size, .data bytes =>
    if bytes.length = size then some (.inr (suite.confirms transcript key bytes)) else none
  | .connecting, .fail | .services, .fail | .notifyIo, .fail | .writeIo, .fail
  | .writeStart, .fail | .flushStart, .fail | .helloSize, .fail | .helloBody _, .fail
  | .writeRequest _ _, .fail | .ackSize _ _, .fail | .ackBody _ _ _, .fail => some (.inr false)
  | _, .timeout => some (.inr false)
  | _, _ => none

/-- All there is to know about a device: is it the target? -/
def State.candidate (s : State) (address : Nat) (name : Option (Option Str))
    (uuids : Option (Option (List Nat))) (paired : Option Bool) (late : Bool) : State :=
  match name, uuids, paired with
  | some name, some uuids, some paired =>
    if name = some expectedName ∧ serviceUuid ∈ uuids.getD [] then
      if paired then s.finish (.error (.bonded address))
      else if late then
        { s with active := some (address, s.known.contains address) }.finish (.error .timedOut)
      else { s with
        active := some (address, s.known.contains address)
        log := s.log ++ [.connect address]
        pc := .exchanging address (s.known.contains address) .connecting }
    else s.goto .scanning
  | _, _, _ => s.goto .scanning

def step (s : State) (e : Event S) : Option State :=
  match s.pc, e with
  | .adapter _, .terminate => some (s.goto .killed)
  | pc, .terminate => if pc.interruptible then some (s.finish (.error .interrupted)) else none
  | .adapter pc, .adapter e => (pc.step e).map s.onAdapter
  -- the search
  | .listing, .addresses known => some { s with known := known, pc := .discovering }
  | .listing, .fail => some (s.finish (.error .listing))
  | .discovering, .ok => some (s.goto .scanning)
  | .discovering, .fail => some (s.finish (.error .discovery))
  | .scanning, .added address true => some (s.goto (.naming address))
  | .scanning, .added _ false => some (s.finish (.error .device))
  | .scanning, .other => some s
  | .scanning, .stopped => some (s.finish (.error .discoveryEnded))
  | .scanning, .timeout => some (s.finish (.error .timedOut))
  | .naming address, .name name => some (s.goto (.askingUuids address name))
  | .askingUuids address name, .uuids uuids => some (s.goto (.askingBond address name uuids))
  | .askingBond address name uuids, .bond paired late =>
    some (s.candidate expectedName address name uuids paired late)
  -- a candidate
  | .exchanging address known stage, e =>
    (stage.step suite conf e).map fun next =>
      match next with
      | .inl stage => s.goto (.exchanging address known stage)
      | .inr accepted => s.forget address known accepted
  | .disconnecting address known accepted, .ok | .disconnecting address known accepted, .fail =>
    some (if known then s.forgotten accepted
      else { s with log := s.log ++ [.remove address], pc := .removing address known accepted })
  | .removing _ _ accepted, .ok | .removing _ _ accepted, .fail => some (s.forgotten accepted)
  -- after the search
  | .lastDisconnect address known result, .ok | .lastDisconnect address known result, .fail =>
    some (if known then s.powerDown result
      else { s with log := s.log ++ [.remove address], pc := .lastRemove result })
  | .lastRemove result, .ok | .lastRemove result, .fail => some (s.powerDown result)
  | .powerOff result, .ok | .powerOff result, .fail => some (s.goto (.returned result))
  | _, _ => none

end

/-! ## What is left behind -/

/-- Every connection to a device was followed by a call to close it, and by one to remove the
device unless it was known before. -/
structure Settled (known : List Nat) (log : List Call) (address : Nat) : Prop where
  disconnected : Followed (· = .connect address) (· = .disconnect address) log
  removed : address ∉ known → Followed (· = .connect address) (· = .remove address) log

section
variable {known : List Nat} {log : List Call} {address other : Nat} {c : Call}

theorem Settled.of_not_mem (h : .connect address ∉ log) : Settled known log address := by
  have hnone : ∀ c ∈ log, ¬ c = .connect address := by
    intro c hc heq
    exact h (heq ▸ hc)
  exact ⟨.of_forall_not hnone, fun _ => .of_forall_not hnone⟩

theorem Settled.snoc (h : Settled known log address) (hc : c ≠ .connect address) :
    Settled known (log ++ [c]) address :=
  ⟨h.disconnected.snoc hc, fun hknown => (h.removed hknown).snoc hc⟩

/-- Nothing but the call to remove it is owed to a device that was told to disconnect. -/
theorem Settled.of_known (h : Followed (· = .connect address) (· = .disconnect address) log)
    (hknown : address ∈ known) : Settled known log address :=
  ⟨h, fun hnot => absurd hknown hnot⟩

theorem Settled.remove (h : Followed (· = .connect address) (· = .disconnect address) log) :
    Settled known (log ++ [.remove address]) address :=
  ⟨h.snoc (by simp), fun _ => .close (by simp) rfl⟩

end

/-- Nothing is owed to any device. -/
structure Clean (s : State) : Prop where
  active : s.active = none
  settled : ∀ a, Settled s.known s.log a
  spared : ∀ a ∈ s.known, .remove a ∉ s.log
  power : s.log.filter Call.isPower = switchedOn s.wasPowered

/-- Nothing is owed to any device but one. -/
structure Held (s : State) (address : Nat) (known : Bool) : Prop where
  known : known = s.known.contains address
  settled : ∀ a, a ≠ address → Settled s.known s.log a
  spared : ∀ a ∈ s.known, .remove a ∉ s.log
  power : s.log.filter Call.isPower = switchedOn s.wasPowered

/-- Nothing is owed to anyone, the adapter included. -/
structure Ended (s : State) : Prop where
  settled : ∀ a, Settled s.known s.log a
  spared : ∀ a ∈ s.known, .remove a ∉ s.log
  power : s.log.filter Call.isPower = switchedOn s.wasPowered ++ switchedOff s.wasPowered

/-- The device was told to disconnect. -/
def State.Told (s : State) (address : Nat) : Prop :=
  Followed (· = .connect address) (· = .disconnect address) s.log

/-- Invariant: what is owed, by where the run stands. Up to the end of the search, the slot
holds the one device something is owed to. -/
def Tidy (s : State) : Prop :=
  match s.pc with
  | .adapter pc => s.active = none ∧ Adapter.Owes pc s.wasPowered s.log
  | .listing => s.active = none ∧ s.log = switchedOn s.wasPowered
  | .killed => s.log = switchedOn s.wasPowered
  | .discovering | .scanning | .naming _ | .askingUuids _ _ | .askingBond _ _ _
  | .lastRemove _ => Clean s
  | .exchanging a k _ => s.active = some (a, k) ∧ Held s a k
  | .disconnecting a k _ => s.active = some (a, k) ∧ Held s a k ∧ s.Told a
  | .removing a k _ => s.active = some (a, k) ∧ Held s a k ∧ Settled s.known s.log a
  | .lastDisconnect a k _ => s.active = none ∧ Held s a k ∧ s.Told a
  | .powerOff _ => Ended s
  | .returned result => result = .error (.adapter .powering) ∧ Clean s ∨ Ended s

section
variable {S : Type} {suite : Suite UInt8 S} {expectedName : Str} {conf : Bytes} {s s' : State}
  {e : Event S} {address : Nat} {known : Bool} {result : Except Failure Unit}

theorem Clean.of_early (hactive : s.active = none) (hlog : s.log = switchedOn s.wasPowered) :
    Clean s := by
  refine ⟨hactive, fun a => .of_not_mem fun h => ?_, fun a _ h => ?_, ?_⟩
  · cases Adapter.isPower_switchedOn (hlog ▸ h)
  · cases Adapter.isPower_switchedOn (hlog ▸ h)
  · rw [hlog, Adapter.filter_switchedOn]

/-- The device at hand has been dealt with. -/
theorem Held.clean (h : Held s address known) (hactive : s.active = none)
    (hsettled : Settled s.known s.log address) : Clean s := by
  refine ⟨hactive, fun a => ?_, h.spared, h.power⟩
  by_cases ha : a = address
  · exact ha ▸ hsettled
  · exact h.settled a ha

theorem Clean.ended (h : Clean s) (hpowered : s.wasPowered = true) : Ended s :=
  ⟨h.settled, h.spared, Adapter.power_of_wasPowered h.power hpowered⟩

theorem Clean.powerDown (h : Clean s) : Tidy (s.powerDown result) := by
  unfold State.powerDown
  split
  · rename_i hpowered
    exact .inr (Clean.ended ⟨h.active, h.settled, h.spared, h.power⟩ hpowered)
  · rename_i hpowered
    refine ⟨fun a => (h.settled a).snoc (by simp), fun a ha => ?_, ?_⟩
    · simpa using h.spared a ha
    · exact Adapter.power_switchedOff h.power (Bool.eq_false_of_not_eq_true hpowered)

theorem Clean.finish (h : Clean s) : Tidy (s.finish result) := by
  rw [State.finish, h.active]
  exact h.powerDown

theorem Held.disconnect (h : Held s address known) (active : Option (Nat × Bool)) (pc : Pc) :
    Held { s with active := active, log := s.log ++ [.disconnect address], pc := pc }
      address known := by
  refine ⟨h.known, fun a ha => (h.settled a ha).snoc (by simp), fun a ha => ?_, ?_⟩
  · simpa using h.spared a ha
  · exact Adapter.power_snoc h.power rfl

theorem Held.finish (h : Held s address known) (hactive : s.active = some (address, known)) :
    Tidy (s.finish result) := by
  rw [State.finish, hactive]
  exact ⟨rfl, h.disconnect _ _, .close (by simp) rfl⟩

/-- A device that was not known is removed. -/
theorem Held.remove (h : Held s address false) (htold : s.Told address) (pc : Pc) :
    Held { s with log := s.log ++ [.remove address], pc := pc } address false ∧
      Settled s.known (s.log ++ [.remove address]) address := by
  have hnew : address ∉ s.known := by
    simpa using h.known.symm
  refine ⟨⟨h.known, fun a ha => (h.settled a ha).snoc (by simp), fun a ha hmem => ?_, ?_⟩,
    .remove htold⟩
  · rcases List.mem_append.mp hmem with hold | hlast
    · exact h.spared a ha hold
    · cases List.mem_singleton.mp hlast
      exact hnew ha
  · exact Adapter.power_snoc h.power rfl

theorem Clean.forgotten {accepted : Bool} (h : Clean { s with active := none }) :
    Tidy (s.forgotten accepted) := by
  unfold State.forgotten
  split
  · exact h.finish
  · exact ⟨rfl, h.settled, h.spared, h.power⟩

theorem Clean.goto (h : Clean s) (pc : Pc) : Clean (s.goto pc) :=
  ⟨h.active, h.settled, h.spared, h.power⟩

theorem Clean.hold (h : Clean s) (address : Nat) :
    Held { s with active := some (address, s.known.contains address) } address
      (s.known.contains address) :=
  ⟨rfl, fun a _ => h.settled a, h.spared, h.power⟩

theorem Clean.candidate (h : Clean s) {name : Option (Option Str)}
    {uuids : Option (Option (List Nat))} {paired : Option Bool} {late : Bool} :
    Tidy (s.candidate expectedName address name uuids paired late) := by
  unfold State.candidate
  split
  · split_ifs
    · exact h.finish
    · exact (h.hold address).finish rfl
    · refine ⟨rfl, rfl, fun a ha => (h.settled a).snoc ?_, fun a ha => ?_, ?_⟩
      · simpa using ha.symm
      · simpa using h.spared a ha
      · exact Adapter.power_snoc h.power rfl
    · exact h.goto .scanning
  · exact h.goto .scanning

/-- What follows a step of `adapter`. -/
theorem tidy_onAdapter {next : Adapter.Next} (hactive : s.active = none)
    (h : next.Owes s.wasPowered s.log) : Tidy (s.onAdapter next) := by
  cases next with
  | wait pc => exact ⟨hactive, h⟩
  | switchOn => exact ⟨hactive, h⟩
  | ready => exact ⟨hactive, h⟩
  | failed failure =>
    have hclean : Clean (s.goto (.returned (.error (.adapter failure)))) := .of_early hactive h.1
    by_cases hf : failure = .powering
    · exact .inl ⟨by rw [hf], hclean⟩
    · exact .inr (hclean.ended (h.2 hf))

/-- A signal, wherever the search waits. -/
theorem Tidy.interrupt (h : Tidy s) (hpc : s.pc.interruptible = true) : Tidy (s.finish result) := by
  cases hs : s.pc with
  | listing =>
    simp only [Tidy, hs] at h
    exact (Clean.of_early h.1 h.2).finish
  | discovering | scanning | naming | askingUuids | askingBond =>
    simp only [Tidy, hs] at h
    exact h.finish
  | exchanging | disconnecting | removing =>
    simp only [Tidy, hs] at h
    first
      | exact h.2.finish h.1
      | exact h.2.1.finish h.1
  | _ =>
    rw [hs] at hpc
    cases hpc

theorem Held.exchange (h : Held s address known) (hactive : s.active = some (address, known))
    {next : Stage ⊕ Bool} : Tidy (match next with
      | .inl stage => s.goto (.exchanging address known stage)
      | .inr accepted => s.forget address known accepted) := by
  cases next with
  | inl stage => exact ⟨hactive, h.known, h.settled, h.spared, h.power⟩
  | inr accepted => exact ⟨hactive, h.disconnect _ _, .close (by simp) rfl⟩

theorem Held.forgotten {accepted : Bool} (h : Held s address known)
    (hsettled : Settled s.known s.log address) : Tidy (s.forgotten accepted) :=
  Clean.forgotten (Held.clean (s := { s with active := none })
    ⟨h.known, h.settled, h.spared, h.power⟩ rfl hsettled)

/-- `forget` has told its device to disconnect. -/
theorem Held.disconnected {accepted : Bool} (h : Held s address known)
    (hactive : s.active = some (address, known)) (htold : s.Told address) :
    Tidy (if known then s.forgotten accepted else { s with
      log := s.log ++ [.remove address]
      pc := .removing address known accepted }) := by
  cases known with
  | true =>
    have hknown : address ∈ s.known := by simpa using h.known.symm
    exact h.forgotten (.of_known htold hknown)
  | false =>
    obtain ⟨hheld, hsettled⟩ := h.remove htold (.removing address false accepted)
    exact ⟨hactive, hheld, hsettled⟩

/-- The same after the search. -/
theorem Held.lastDisconnected (h : Held s address known) (hactive : s.active = none)
    (htold : s.Told address) :
    Tidy (if known then s.powerDown result
      else { s with log := s.log ++ [.remove address], pc := .lastRemove result }) := by
  cases known with
  | true =>
    have hknown : address ∈ s.known := by simpa using h.known.symm
    exact (h.clean hactive (.of_known htold hknown)).powerDown
  | false =>
    obtain ⟨hheld, hsettled⟩ := h.remove htold (.lastRemove result)
    exact hheld.clean hactive hsettled

/-- Step lemma. -/
theorem Tidy.step (hstep : step suite expectedName conf s e = some s') (h : Tidy s) : Tidy s' := by
  unfold Provisioning.step at hstep
  split at hstep
  -- a signal that nobody waits for yet
  case h_1 heq =>
    simp only [Tidy, heq] at h
    cases hstep
    exact h.2.log
  case h_2 =>
    split at hstep
    · rename_i hpc
      cases hstep
      exact h.interrupt hpc
    · cases hstep
  case h_3 heq =>
    simp only [Tidy, heq] at h
    obtain ⟨next, hnext, rfl⟩ := Option.map_eq_some_iff.mp hstep
    exact tidy_onAdapter h.1 (h.2.step hnext)
  case h_16 heq _ =>
    simp only [Tidy, heq] at h
    obtain ⟨next, -, rfl⟩ := Option.map_eq_some_iff.mp hstep
    exact h.2.exchange h.1
  case h_27 => cases hstep
  all_goals
    rename_i heq
    simp only [Tidy, heq] at h
    cases hstep
  case h_4.refl => exact Clean.of_early h.1 h.2
  case h_5.refl => exact (Clean.of_early h.1 h.2).finish
  case h_6.refl | h_8.refl | h_13.refl | h_14.refl => exact h.goto _
  case h_7.refl | h_9.refl | h_11.refl | h_12.refl => exact h.finish
  case h_10.refl =>
    simp only [Tidy, heq]
    exact h
  case h_15.refl => exact h.candidate
  case h_17.refl | h_18.refl => exact h.2.1.disconnected h.1 h.2.2
  case h_19.refl | h_20.refl => exact h.2.1.forgotten h.2.2
  case h_21.refl | h_22.refl => exact h.2.1.lastDisconnected h.1 h.2.2
  case h_23.refl | h_24.refl => exact h.powerDown
  case h_25.refl | h_26.refl => exact .inr ⟨h.settled, h.spared, h.power⟩

end

/-! ## Why a device is tried, and why a run succeeds -/

section
variable {S : Type} (suite : Suite UInt8 S) (expectedName : Str) (conf : Bytes)

/-- The device that has just given the name and the service of the target, and has no bond. -/
def Matched (es : List (Event S)) (address : Nat) : Prop :=
  ∃ uuids, serviceUuid ∈ uuids ∧ [.added address true, .name (some (some expectedName)),
    .uuids (some (some uuids)), .bond (some false) false] <:+ es

/-- A hello was answered in a session, and all that came since is `rest`. -/
def Answered (es rest : List (Event S)) (transcript key : Bytes) : Prop :=
  ∃ hello secret request, .hello hello (some secret) :: rest <:+ es ∧
    suite.answer secret conf hello = some (transcript, key, request)

/-- A hello was answered in a session, the request went out, and the frame that came next
acknowledged it. -/
def Confirmed (es : List (Event S)) : Prop :=
  ∃ pre hello secret size ack post transcript key request,
    es = pre ++ [.hello hello (some secret), .ok, .data size, .data ack] ++ post ∧
    suite.answer secret conf hello = some (transcript, key, request) ∧
    suite.confirms transcript key ack = true

def Stage.Backed (es : List (Event S)) : Stage → Prop
  | .writeRequest transcript key => Answered suite conf es [] transcript key
  | .ackSize transcript key => Answered suite conf es [.ok] transcript key
  | .ackBody transcript key _ => ∃ size, Answered suite conf es [.ok, .data size] transcript key
  | _ => True

/-- What the events so far say for where the run stands. -/
def Pc.Backed (es : List (Event S)) : Pc → Prop
  | .naming a => [.added a true] <:+ es
  | .askingUuids a name => [.added a true, .name name] <:+ es
  | .askingBond a name uuids => [.added a true, .name name, .uuids uuids] <:+ es
  | .exchanging _ _ stage => stage.Backed suite conf es
  | .disconnecting _ _ accepted | .removing _ _ accepted =>
    accepted = true → Confirmed suite conf es
  | .lastDisconnect _ _ result | .lastRemove result | .powerOff result | .returned result =>
    result = .ok () → Confirmed suite conf es
  | _ => True

/-- What the events up to a step say for the calls it makes and for where it leads. -/
structure Backs (es : List (Event S)) (s s' : State) : Prop where
  calls : ∃ calls, s'.log = s.log ++ calls ∧ ∀ a, .connect a ∈ calls → Matched expectedName es a
  pc : s'.pc.Backed suite conf es

end

/-- Calls were made, and none of them was to connect. -/
def Quiet (log log' : List Call) : Prop := ∃ calls, log' = log ++ calls ∧ ∀ a, .connect a ∉ calls

section
variable {S : Type} {suite : Suite UInt8 S} {expectedName : Str} {conf : Bytes} {s s' : State}
  {e : Event S} {es : List (Event S)} {address : Nat} {known : Bool}
  {result : Except Failure Unit}

theorem Answered.snoc {rest : List (Event S)} {transcript key : Bytes}
    (h : Answered suite conf es rest transcript key) (e : Event S) :
    Answered suite conf (es ++ [e]) (rest ++ [e]) transcript key := by
  obtain ⟨hello, secret, request, ⟨pre, rfl⟩, hanswer⟩ := h
  exact ⟨hello, secret, request, ⟨pre, by simp⟩, hanswer⟩

theorem Confirmed.snoc (h : Confirmed suite conf es) (e : Event S) :
    Confirmed suite conf (es ++ [e]) := by
  obtain ⟨pre, hello, secret, size, ack, post, transcript, key, request, rfl, hrest⟩ := h
  exact ⟨pre, hello, secret, size, ack, post ++ [e], transcript, key, request, by simp, hrest⟩

theorem Quiet.refl (log : List Call) : Quiet log log := ⟨[], by simp, by simp⟩

theorem Quiet.one {c : Call} (log : List Call) (h : ∀ a, c ≠ .connect a) :
    Quiet log (log ++ [c]) := ⟨[c], rfl, fun a ha => h a (List.mem_singleton.mp ha).symm⟩

theorem quiet_powerDown : Quiet s.log (s.powerDown result).log := by
  unfold State.powerDown
  split
  · exact .refl _
  · exact .one _ nofun

theorem quiet_finish : Quiet s.log (s.finish result).log := by
  unfold State.finish
  split
  · exact .one _ nofun
  · exact quiet_powerDown

/-- A step that connects to nobody. -/
theorem Backs.of_quiet (hlog : Quiet s.log s'.log) (hpc : s'.pc.Backed suite conf es) :
    Backs suite expectedName conf es s s' := by
  obtain ⟨calls, heq, hnone⟩ := hlog
  exact ⟨⟨calls, heq, fun a ha => absurd ha (hnone a)⟩, hpc⟩

theorem Backs.goto {pc : Pc} (hpc : pc.Backed suite conf es) :
    Backs suite expectedName conf es s (s.goto pc) := .of_quiet (.refl _) hpc

theorem backed_powerDown (h : result = .ok () → Confirmed suite conf es) :
    (s.powerDown result).pc.Backed suite conf es := by
  unfold State.powerDown
  split <;> exact h

theorem backed_finish (h : result = .ok () → Confirmed suite conf es) :
    (s.finish result).pc.Backed suite conf es := by
  unfold State.finish
  split
  · exact h
  · exact backed_powerDown h

theorem Backs.finish {failure : Failure} :
    Backs suite expectedName conf es s (s.finish (.error failure)) :=
  .of_quiet quiet_finish (backed_finish (by simp))

theorem Backs.powerDown (h : result = .ok () → Confirmed suite conf es) :
    Backs suite expectedName conf es s (s.powerDown result) :=
  .of_quiet quiet_powerDown (backed_powerDown h)

theorem Backs.onAdapter (next : Adapter.Next) :
    Backs suite expectedName conf es s (s.onAdapter next) := by
  cases next with
  | wait pc => exact .goto trivial
  | switchOn => exact .of_quiet (.one _ nofun) trivial
  | ready => exact .goto trivial
  | failed failure => exact .goto nofun

theorem Backs.forgotten {accepted : Bool} (hok : accepted = true → Confirmed suite conf es) :
    Backs suite expectedName conf es s (s.forgotten accepted) := by
  unfold State.forgotten
  split
  · rename_i haccepted
    exact .of_quiet (quiet_finish (s := { s with active := none }))
      (backed_finish fun _ => hok haccepted)
  · exact .of_quiet (.refl _) trivial

theorem Backs.candidate {name : Option (Option Str)} {uuids : Option (Option (List Nat))}
    {paired : Option Bool} {late : Bool}
    (hasked : [.added address true, .name name, .uuids uuids] <:+ es) :
    Backs suite expectedName conf (es ++ [.bond paired late]) s
      (s.candidate expectedName address name uuids paired late) := by
  unfold State.candidate
  split
  · rename_i name uuids paired
    split_ifs with hmatch hpaired hlate
    · exact .finish
    · exact .of_quiet (quiet_finish (s := { s with active := some _ })) (backed_finish (by simp))
    · refine ⟨⟨[.connect address], rfl, fun a ha => ?_⟩, trivial⟩
      -- this is the connection that the four answers are for
      cases List.mem_singleton.mp ha
      obtain ⟨rfl, huuid⟩ := hmatch
      obtain ⟨pre, rfl⟩ := hasked
      cases uuids with
      | none => cases huuid
      | some uuids =>
        refine ⟨uuids, huuid, pre, ?_⟩
        simp only [Bool.not_eq_true] at hpaired hlate
        simp [hpaired, hlate]
    · exact .goto trivial
  · exact .goto trivial

/-- An adapter that is off is switched on. -/
def waking : List (Event UInt8) :=
  [.adapter .ok, .adapter (.missing false), .adapter .ok, .adapter (.found false)]

/-- A device that gives all the right answers, up to the last. -/
def asking : List (Event UInt8) :=
  waking ++ [.adapter .ok, .addresses [7], .ok, .other, .added 7 true, .name none,
    .uuids (some none), .bond (some false) false, .added 5 true,
    .name (some (some (localName "0123456789".toList))), .uuids (some (some [serviceUuid]))]

/-- How a run ended, if it did: killed, with a failure, or with success. -/
def State.outcome (s : State) : Option (Option (Except Failure Unit)) :=
  match s.pc with
  | .returned result => some (some result)
  | .killed => some none
  | _ => none

end

end Provisioning

end Egdod.Ble
