import Egdod.Ble.Adapter
import Egdod.Ble.Serve
import Egdod.Lib.Trace
import Egdod.State.IdentityShared

/-! `serve`, the target's side of `provision`: the key is loaded or made, the
adapter is switched on if it has to be, `serve_on_adapter` runs until it returns
or a signal comes, and the peer it was busy with is removed. The key file and
what is staged next to it are other files than the output and what is staged
next to that. -/
namespace Egdod.Ble

open Text Posix StepSystem Trace

namespace Helper

open Adapter (Call switchedOn switchedOff)
open Identity (SecretKey)

inductive Failure where
  | key (failure : Identity.Failure)
  | adapter (failure : Adapter.Failure)
  | serving
  | interrupted
  deriving DecidableEq

/-- Where `serve` stands: at its key, at the adapter, in the loop with its `peer`, or past it. -/
inductive Pc where
  | loading
  | adapter (key : SecretKey) (pc : Adapter.Pc)
  | serving (key : SecretKey) (peer : Option Nat)
  | lastRemove (result : Except Failure Unit)
  | powerOff (result : Except Failure Unit)
  | returned (result : Except Failure Unit)
  | killed

/-- What comes in. `terminate` is a signal, or an error of waiting for one. -/
inductive Event (S : Type) where
  | ok
  | fail
  | key (a : Identity.Answer)
  | adapter (e : Adapter.Event)
  | terminate
  | serving (e : Serve.Event S)

structure State (S : Type) where
  disk : Identity.Disk
  /-- The call of `load_or_create_key`. -/
  call : Identity.Call
  loop : Serve S
  log : List Call
  /-- The slot: the peer at hand. -/
  active : Option Nat
  wasPowered : Bool
  pc : Pc

variable {S : Type}

def begin (disk : Identity.Disk) (fs : Files Str) (pid : Nat) : State S where
  disk := disk
  call := ⟨pid, .replace, .read, none, 0⟩
  loop := Serve.begin fs
  log := []
  active := none
  wasPowered := true
  pc := .loading

def State.goto (s : State S) (pc : Pc) : State S := { s with pc := pc }

/-- A system call of `load_or_create_key` is over. -/
def State.onKey (s : State S) (disk : Identity.Disk) (call : Identity.Call) : State S :=
  { s with
    disk := disk
    call := call
    pc := match call.pc with
      | .returned (.ok key) => .adapter key .session
      | .returned (.error failure) => .returned (.error (.key failure))
      | _ => .loading }

def State.onAdapter (s : State S) (key : SecretKey) : Adapter.Next → State S
  | .wait pc => s.goto (.adapter key pc)
  | .switchOn => { s with
      wasPowered := false
      log := s.log ++ [.power true]
      pc := .adapter key .powering }
  | .ready => s.goto (.serving key none)
  | .failed failure => s.goto (.returned (.error (.adapter failure)))

def State.powerDown (s : State S) (result : Except Failure Unit) : State S :=
  if s.wasPowered then s.goto (.returned result)
  else { s with log := s.log ++ [.power false], pc := .powerOff result }

/-- The loop is over: the slot is emptied, and its peer removed. -/
def State.finish (s : State S) (result : Except Failure Unit) : State S :=
  match s.active with
  | some peer => { s with
      active := none
      log := s.log ++ [.remove peer]
      pc := .lastRemove result }
  | none => s.powerDown result

/-- What the loop does with its peer when it comes from one place to the next: the first
channel takes a peer up, and a peer that is done with is removed, the slot being emptied once
the call is over. -/
def State.follow (s : State S) (key : SecretKey) (peer : Option Nat) (loop : Serve S) : State S :=
  match s.loop.pc, loop.pc with
  -- the slot is filled before anything is awaited on the peer
  | .next, .pairing p _ _ => { s with
      loop := loop
      log := s.log ++ [.connect p]
      active := some p
      pc := .serving key (some p) }
  | .unpair, .next | .removeDevice _, .next => { s with
      loop := loop
      active := none
      pc := .serving key none }
  | .removeDevice _, .returned true => { s with loop := loop, active := none }.finish (.ok ())
  -- a `?` or `bail!` of the loop itself, which has no peer then
  | _, .returned _ => { s with loop := loop }.finish (.error .serving)
  -- `remove_device` is called with the slot still filled
  | _, .unpair | _, .removeDevice _ => { s with
      loop := loop
      log := s.log ++ (peer.map Call.remove).toList }
  | _, _ => { s with loop := loop }

/-- The step of the loop, whose process names its staging file after itself. -/
def loopStep (suite : Suite UInt8 S) (output : Str) (pid : Nat) :
    Serve S → Serve.Event S → Option (Serve S) :=
  Serve.step suite output (Nat.toDigits 10 pid)

variable (suite : SecretKey → Suite UInt8 S) (output : Str) (pid : Nat)

def step (s : State S) (e : Event S) : Option (State S) :=
  match s.pc, e with
  -- signals are waited for only next to the loop
  | .loading, .terminate | .adapter _ _, .terminate => some (s.goto .killed)
  | .loading, .key a => (s.call.next s.disk a).map fun (disk, call) => s.onKey disk call
  | .adapter key pc, .adapter e => (pc.step e).map (s.onAdapter key)
  | .serving _ _, .terminate => some (s.finish (.error .interrupted))
  | .serving key peer, .serving e =>
    (loopStep (suite key) output pid s.loop e).map (s.follow key peer)
  | .lastRemove result, .ok | .lastRemove result, .fail => some (s.powerDown result)
  | .powerOff result, .ok | .powerOff result, .fail => some (s.goto (.returned result))
  | _, _ => none

/-! ## What the loop does with its peers -/

/-- Where the loop stands to its peer. -/
inductive Standing where
  | idle
  | engaged
  | leaving
  | returned
  deriving DecidableEq

def standing : Serve.Pc S → Standing
  | .advertise | .serveApp | .next => .idle
  | .unpair | .removeDevice _ => .leaving
  | .returned _ => .returned
  | _ => .engaged

/-- Every way the loop moves with a peer. -/
inductive Follows (s : State S) (key : SecretKey) (peer : Option Nat) (loop : Serve S) :
    State S → Prop
  | take {p} : standing s.loop.pc = .idle → standing loop.pc = .engaged →
      Follows s key peer loop { s with
        loop := loop
        log := s.log ++ [.connect p]
        active := some p
        pc := .serving key (some p) }
  | drop : standing s.loop.pc = .leaving → standing loop.pc = .idle →
      Follows s key peer loop { s with loop := loop, active := none, pc := .serving key none }
  | succeed : standing s.loop.pc = .leaving → loop.pc = .returned true →
      Follows s key peer loop ({ s with loop := loop, active := none }.finish (.ok ()))
  | stop : standing s.loop.pc = .idle →
      Follows s key peer loop ({ s with loop := loop }.finish (.error .serving))
  | leave : standing s.loop.pc = .engaged → standing loop.pc = .leaving →
      Follows s key peer loop { s with loop := loop, log := s.log ++ (peer.map Call.remove).toList }
  | stay : standing s.loop.pc ≠ .leaving → standing loop.pc = standing s.loop.pc →
      Follows s key peer loop { s with loop := loop }

theorem onRequest_pc (suite : Suite UInt8 S) (output pid : Str) (loop : Serve S) (secret : S)
    (bytes : Bytes) (trouble : Trouble) :
    (loop.onRequest suite output pid secret bytes trouble).pc = .removeDevice .refused ∨
      (loop.onRequest suite output pid secret bytes trouble).pc = .writeAck := by
  unfold Serve.onRequest
  split
  · exact .inl rfl
  · split
    · exact .inl rfl
    · split
      · exact .inl rfl
      · exact .inr rfl

theorem follows_of_step {suite : Suite UInt8 S} {output pid : Str} {s : State S} {loop : Serve S}
    {key : SecretKey} {peer : Option Nat} {e : Serve.Event S}
    (h : s.loop.step suite output pid e = some loop) :
    Follows s key peer loop (s.follow key peer loop) := by
  unfold Serve.step at h
  unfold State.follow
  split at h
  case h_41 => cases h
  all_goals rename_i hpc
  case h_16 | h_19 =>
    split_ifs at h <;> cases h <;> simp only [hpc, Serve.goto, Serve.finish]
    · exact .stay (by simp [hpc, standing]) (by simp [hpc, standing])
    · exact .leave (by simp [hpc, standing]) rfl
  case h_20 secret size bytes trouble =>
    split_ifs at h
    cases h
    simp only [hpc]
    rcases onRequest_pc suite output pid s.loop secret bytes trouble with hr | hr
    · simp only [hr]
      exact .leave (by simp [hpc, standing]) (by simp [hr, standing])
    · simp only [hr]
      exact .stay (by simp [hpc, standing]) (by simp [hr, hpc, standing])
  case h_9 | h_10 =>
    cases h
    unfold Serve.channels
    split <;> simp only [hpc, Serve.goto] <;>
      exact .stay (by simp [hpc, standing]) (by simp [hpc, standing])
  case h_39 | h_40 =>
    cases h
    split <;> simp only [hpc, Serve.goto]
    · exact .succeed (by simp [hpc, standing]) rfl
    · exact .drop (by simp [hpc, standing]) rfl
  all_goals
    cases h
    simp only [hpc, Serve.goto, Serve.finish]
    first
      | exact .stay (by simp [hpc, standing]) (by simp [hpc, standing])
      | exact .leave (by simp [hpc, standing]) rfl
      | exact .take (by simp [hpc, standing]) rfl
      | exact .drop (by simp [hpc, standing]) rfl
      | exact .succeed (by simp [hpc, standing]) rfl
      | exact .stop (by simp [hpc, standing])

/-! ## What is left behind -/

section
variable {suite : SecretKey → Suite UInt8 S} {output : Str} {pid : Nat} {s s' : State S}
  {loop : Serve S} {key : SecretKey} {peer : Option Nat}

/-- Every connection taken up was followed by a call to remove the peer. -/
def Settled (log : List Call) (p : Nat) : Prop := Followed (· = .connect p) (· = .remove p) log

/-- What is owed, by where the loop stands to its peer. -/
def Owes (log : List Call) (peer : Option Nat) : Standing → Prop
  | .idle => peer = none ∧ ∀ q, Settled log q
  | .engaged => ∃ p, peer = some p ∧ ∀ q, q ≠ p → Settled log q
  | .leaving => ∃ p, peer = some p ∧ ∀ q, Settled log q
  | .returned => False

/-- Nothing is owed to any peer. -/
structure Clean (s : State S) : Prop where
  settled : ∀ q, Settled s.log q
  power : s.log.filter Call.isPower = switchedOn s.wasPowered

/-- Nothing is owed to anyone, the adapter included. -/
structure Ended (s : State S) : Prop where
  settled : ∀ q, Settled s.log q
  power : s.log.filter Call.isPower = switchedOn s.wasPowered ++ switchedOff s.wasPowered

/-- Invariant. In the loop, the slot holds its peer. -/
def Tidy (s : State S) : Prop :=
  match s.pc with
  | .loading => s.active = none ∧ s.log = [] ∧ s.wasPowered = true ∧ standing s.loop.pc = .idle
  | .adapter _ pc => s.active = none ∧ Adapter.Owes pc s.wasPowered s.log ∧
      standing s.loop.pc = .idle
  | .serving _ peer => s.active = peer ∧ Owes s.log peer (standing s.loop.pc) ∧
      s.log.filter Call.isPower = switchedOn s.wasPowered
  | .lastRemove _ => Clean s
  | .powerOff _ => Ended s
  | .returned result => result = .error (.adapter .powering) ∧ Clean s ∨ Ended s
  | .killed => s.log = switchedOn s.wasPowered

variable {result : Except Failure Unit}

theorem Clean.of_early (hlog : s.log = switchedOn s.wasPowered) : Clean s := by
  refine ⟨fun q => .of_forall_not fun c hc heq => ?_, ?_⟩
  · cases heq
    cases Adapter.isPower_switchedOn (hlog ▸ hc)
  · rw [hlog, Adapter.filter_switchedOn]

theorem Clean.ended (h : Clean s) (hpowered : s.wasPowered = true) : Ended s :=
  ⟨h.settled, Adapter.power_of_wasPowered h.power hpowered⟩

theorem Clean.powerDown (h : Clean s) : Tidy (s.powerDown result) := by
  unfold State.powerDown
  split
  · rename_i hpowered
    exact .inr (Clean.ended ⟨h.settled, h.power⟩ hpowered)
  · rename_i hpowered
    exact ⟨fun q => (h.settled q).snoc (by simp),
      Adapter.power_switchedOff h.power (Bool.eq_false_of_not_eq_true hpowered)⟩

theorem tidy_onKey {disk : Identity.Disk} {call : Identity.Call} (hpc : s.pc = .loading)
    (h : Tidy s) : Tidy (s.onKey disk call) := by
  simp only [Tidy, hpc] at h
  obtain ⟨hactive, hlog, hpowered, hidle⟩ := h
  have hnone : s.log = switchedOn s.wasPowered := by simp [hlog, hpowered, switchedOn]
  unfold Tidy State.onKey
  cases call.pc with
  | returned outcome =>
    cases outcome with
    | ok key => exact ⟨hactive, ⟨hnone, by simp [hpowered]⟩, hidle⟩
    | error failure => exact .inr (Clean.ended (.of_early hnone) hpowered)
  | _ => exact ⟨hactive, hlog, hpowered, hidle⟩

theorem tidy_onAdapter {next : Adapter.Next} (hactive : s.active = none)
    (h : next.Owes s.wasPowered s.log) (hidle : standing s.loop.pc = .idle) :
    Tidy (s.onAdapter key next) := by
  cases next with
  | wait pc => exact ⟨hactive, h, hidle⟩
  | switchOn => exact ⟨hactive, h, hidle⟩
  | ready =>
    have hclean : Clean s := .of_early h
    exact ⟨hactive, hidle.symm ▸ ⟨rfl, hclean.settled⟩, hclean.power⟩
  | failed failure =>
    have hclean : Clean (s.goto (.returned (.error (.adapter failure)))) := .of_early h.1
    by_cases hf : failure = .powering
    · exact .inl ⟨by rw [hf], hclean⟩
    · exact .inr (hclean.ended (h.2 hf))

/-- With at most the peer in the slot left over, the end removes it. -/
theorem tidy_finish (hsettled : ∀ q, s.active ≠ some q → Settled s.log q)
    (hpower : s.log.filter Call.isPower = switchedOn s.wasPowered) : Tidy (s.finish result) := by
  unfold State.finish
  split
  · rename_i p hactive
    refine ⟨fun q => ?_, ?_⟩
    · by_cases hq : q = p
      · exact hq ▸ Followed.close (by simp) rfl
      · exact (hsettled q (by simp [hactive, Ne.symm hq])).snoc (by simp)
    · exact Adapter.power_snoc hpower rfl
  · rename_i hactive
    exact Clean.powerDown ⟨fun q => hsettled q (by simp [hactive]), hpower⟩

theorem Owes.settled {log : List Call} {standing : Standing} (h : Owes log peer standing) {q : Nat}
    (hq : peer ≠ some q) : Settled log q := by
  cases standing with
  | idle => exact h.2 q
  | engaged =>
    obtain ⟨p, rfl, hrest⟩ := h
    exact hrest q fun heq => hq (by rw [heq])
  | leaving =>
    obtain ⟨p, rfl, hall⟩ := h
    exact hall q
  | returned => exact h.elim

/-- Step lemma of the loop. -/
theorem tidy_follow (h : Follows s key peer loop s') (hpc : s.pc = .serving key peer)
    (htidy : Tidy s) : Tidy s' := by
  simp only [Tidy, hpc] at htidy
  obtain ⟨hactive, howes, hpower⟩ := htidy
  cases h with
  | @take p hidle hengaged =>
    rw [hidle] at howes
    refine ⟨rfl, ?_, ?_⟩
    · rw [hengaged]
      exact ⟨p, rfl, fun q hq => (howes.2 q).snoc (by simpa using hq.symm)⟩
    · exact Adapter.power_snoc hpower rfl
  | drop hleaving hidle =>
    rw [hleaving] at howes
    obtain ⟨p, -, hall⟩ := howes
    refine ⟨rfl, ?_, hpower⟩
    rw [hidle]
    exact ⟨rfl, hall⟩
  | succeed hleaving hreturned =>
    rw [hleaving] at howes
    obtain ⟨p, -, hall⟩ := howes
    exact tidy_finish (fun q _ => hall q) hpower
  | stop hidle =>
    rw [hidle] at howes
    exact tidy_finish (fun q _ => howes.2 q) hpower
  | leave hengaged hleaving =>
    rw [hengaged] at howes
    obtain ⟨p, rfl, hrest⟩ := howes
    simp only [Tidy, hpc]
    refine ⟨hactive, ?_, ?_⟩
    · rw [hleaving]
      refine ⟨p, rfl, fun q => ?_⟩
      -- the call itself settles the peer, whatever comes of it
      by_cases hq : q = p
      · exact hq ▸ Followed.close (by simp) rfl
      · exact (hrest q hq).snoc (by simp)
    · exact Adapter.power_snoc hpower rfl
  | stay _ hsame =>
    simp only [Tidy, hpc]
    exact ⟨hactive, hsame ▸ howes, hpower⟩

theorem Tidy.step {e : Event S} (hstep : step suite output pid s e = some s') (h : Tidy s) :
    Tidy s' := by
  unfold Helper.step at hstep
  split at hstep
  case h_3 heq =>
    obtain ⟨⟨disk, call⟩, -, rfl⟩ := Option.map_eq_some_iff.mp hstep
    exact tidy_onKey heq h
  case h_4 heq =>
    simp only [Tidy, heq] at h
    obtain ⟨next, hnext, rfl⟩ := Option.map_eq_some_iff.mp hstep
    exact tidy_onAdapter h.1 (h.2.1.step hnext) h.2.2
  case h_6 heq =>
    obtain ⟨loop, hloop, rfl⟩ := Option.map_eq_some_iff.mp hstep
    exact tidy_follow (follows_of_step hloop) heq h
  case h_11 => cases hstep
  all_goals
    rename_i heq
    simp only [Tidy, heq] at h
    cases hstep
  case h_1.refl =>
    obtain ⟨-, hlog, hpowered, -⟩ := h
    simp [Tidy, State.goto, hlog, hpowered, switchedOn]
  case h_2.refl => exact h.2.1.log
  case h_5.refl => exact tidy_finish (fun q hq => h.2.1.settled (h.1 ▸ hq)) h.2.2
  case h_7.refl | h_8.refl => exact h.powerDown
  case h_9.refl | h_10.refl => exact .inr ⟨h.settled, h.power⟩

/-! ## The key -/

/-- Invariant: next to the key, only this process's staging file may change, and the key file
holds what it held or a whole key, the one that is handed over. -/
structure Keyed (disk : Identity.Disk) (pid : Nat) (s : State S) : Prop where
  process : s.call.pid = pid
  staged : s.call.Staged s.disk
  others : ∀ p, p ≠ pid → Files.SameAt disk.fs s.disk.fs (.tmp p)
  whole : Identity.Whole (disk.fs.read .key) s.disk
  handed : ∀ k, s.call.pc = .returned (.ok k) → s.disk.fs.read .key = some k.bytes

variable {disk : Identity.Disk}

theorem Keyed.onKey {disk' : Identity.Disk} {call : Identity.Call} {a : Identity.Answer}
    (h : Keyed disk pid s) (hmoves : Identity.Call.Moves s.disk s.call a disk' call) :
    Keyed disk pid (s.onKey disk' call) := by
  refine ⟨hmoves.pid.trans h.process, hmoves.staged h.staged, fun p hp => ?_, ?_, fun k hk => ?_⟩
  · exact (h.others p hp).trans (hmoves.sameAt h.staged (h.process ▸ hp))
  -- only the rename touches the key file, and what it brings is whole
  · rcases hmoves.key h.staged with ⟨hkey, -⟩ | ⟨k, -, -, hkey, -⟩
    · exact h.whole.imp hkey.trans fun ⟨k, hk⟩ => ⟨k, hkey.trans hk⟩
    · exact .inr ⟨k, hkey⟩
  · exact hmoves.handed h.staged hk

/-- What does not touch the key. -/
theorem Keyed.frame (h : Keyed disk pid s) (hsame : s'.disk = s.disk ∧ s'.call = s.call) :
    Keyed disk pid s' := by
  obtain ⟨hdisk, hcall⟩ := hsame
  refine ⟨hcall ▸ h.process, ?_, hdisk ▸ h.others, hdisk ▸ h.whole, ?_⟩
  · rw [hcall, hdisk]
    exact h.staged
  · rw [hcall, hdisk]
    exact h.handed

theorem key_powerDown :
    (s.powerDown result).disk = s.disk ∧ (s.powerDown result).call = s.call := by
  unfold State.powerDown
  split <;> exact ⟨rfl, rfl⟩

theorem key_finish : (s.finish result).disk = s.disk ∧ (s.finish result).call = s.call := by
  unfold State.finish
  split
  · exact ⟨rfl, rfl⟩
  · exact key_powerDown

theorem key_follow :
    (s.follow key peer loop).disk = s.disk ∧ (s.follow key peer loop).call = s.call := by
  unfold State.follow
  split
  case h_4 => exact key_finish (s := { s with loop := loop, active := none })
  case h_5 => exact key_finish (s := { s with loop := loop })
  all_goals exact ⟨rfl, rfl⟩

/-! ## The loop -/

/-- The events of the loop. -/
def served (es : List (Event S)) : List (Serve.Event S) :=
  es.filterMap fun
    | .serving e => some e
    | _ => none

/-- The loop ran under the key that was handed over. -/
def Ran (suite : SecretKey → Suite UInt8 S) (output : Str) (pid : Nat) (fs : Files Str)
    (es : List (Serve.Event S)) (s : State S) (key : SecretKey) : Prop :=
  s.call.pc = .returned (.ok key) ∧
    Steps (loopStep (suite key) output pid) always (Serve.begin fs) es s.loop

/-- The loop never began, or it ran. -/
def Alone (suite : SecretKey → Suite UInt8 S) (output : Str) (pid : Nat) (fs : Files Str)
    (es : List (Serve.Event S)) (s : State S) : Prop :=
  (es = [] ∧ s.loop = Serve.begin fs) ∨ ∃ key, Ran suite output pid fs es s key

/-- Invariant: the loop runs by itself, and a success is its own. -/
def Within (suite : SecretKey → Suite UInt8 S) (output : Str) (pid : Nat) (fs : Files Str)
    (es : List (Serve.Event S)) (s : State S) : Prop :=
  match s.pc with
  | .loading => es = [] ∧ s.loop = Serve.begin fs
  | .adapter key _ | .serving key _ => Ran suite output pid fs es s key
  | .lastRemove result | .powerOff result | .returned result =>
    Alone suite output pid fs es s ∧ (result = .ok () → s.loop.pc = .returned true)
  | .killed => Alone suite output pid fs es s

variable {fs : Files Str} {es : List (Serve.Event S)}

theorem Within.alone (h : Within suite output pid fs es s) : Alone suite output pid fs es s := by
  unfold Within at h
  split at h
  case h_1 => exact .inl h
  case h_2 | h_3 => exact .inr ⟨_, h⟩
  case h_4 | h_5 | h_6 => exact h.1
  case h_7 => exact h

theorem Alone.powerDown (h : Alone suite output pid fs es s)
    (hok : result = .ok () → s.loop.pc = .returned true) :
    Within suite output pid fs es (s.powerDown result) := by
  unfold State.powerDown
  split <;> exact ⟨h, hok⟩

theorem Alone.finish (h : Alone suite output pid fs es s)
    (hok : result = .ok () → s.loop.pc = .returned true) :
    Within suite output pid fs es (s.finish result) := by
  unfold State.finish
  split
  · exact ⟨h, hok⟩
  · exact h.powerDown hok

theorem within_onKey {call : Identity.Call} (hes : es = []) (hloop : s.loop = Serve.begin fs) :
    Within suite output pid fs es (s.onKey disk call) := by
  unfold Within State.onKey
  cases hpc : call.pc with
  | returned outcome =>
    cases outcome with
    | ok key =>
      refine ⟨hpc, ?_⟩
      rw [hes, hloop]
      exact .nil
    | error failure => exact ⟨.inl ⟨hes, hloop⟩, nofun⟩
  | _ => exact ⟨hes, hloop⟩

theorem Ran.onAdapter (h : Ran suite output pid fs es s key) (next : Adapter.Next) :
    Within suite output pid fs es (s.onAdapter key next) := by
  cases next with
  | wait pc => exact h
  | switchOn => exact h
  | ready => exact h
  | failed failure => exact ⟨.inr ⟨key, h⟩, nofun⟩

theorem Ran.follow (hran : Ran suite output pid fs es { s with loop := loop } key)
    (h : Follows s key peer loop s') (hpc : s.pc = .serving key peer) :
    Within suite output pid fs es s' := by
  cases h with
  | take | drop => exact hran
  | succeed _ hreturned => exact Alone.finish (.inr ⟨key, hran⟩) fun _ => hreturned
  | stop => exact Alone.finish (.inr ⟨key, hran⟩) nofun
  | leave | stay =>
    simp only [Within, hpc]
    exact hran

theorem Within.step {e : Event S} (hstep : step suite output pid s e = some s')
    (h : Within suite output pid fs es s) :
    Within suite output pid fs (es ++ served [e]) s' := by
  unfold Helper.step at hstep
  split at hstep
  case h_6 e heq =>
    simp only [Within, heq] at h
    obtain ⟨loop, hloop, rfl⟩ := Option.map_eq_some_iff.mp hstep
    have hran : Ran suite output pid fs (es ++ [e]) { s with loop := loop } _ :=
      ⟨h.1, h.2.snoc trivial hloop⟩
    exact hran.follow (follows_of_step hloop) heq
  case h_11 => cases hstep
  all_goals
    rename_i heq
    simp only [Within, heq] at h
    -- nothing else is an event of the loop
    change Within suite output pid fs (es ++ []) _
    rw [List.append_nil]
  case h_3 =>
    obtain ⟨⟨disk, call⟩, -, rfl⟩ := Option.map_eq_some_iff.mp hstep
    exact within_onKey h.1 h.2
  case h_4 =>
    obtain ⟨next, -, rfl⟩ := Option.map_eq_some_iff.mp hstep
    exact h.onAdapter next
  all_goals cases hstep
  case h_1.refl => exact .inl h
  case h_2.refl => exact .inr ⟨_, h⟩
  case h_5.refl => exact Alone.finish (.inr ⟨_, h⟩) nofun
  case h_7.refl | h_8.refl => exact h.1.powerDown h.2
  case h_9.refl | h_10.refl => exact h

theorem Keyed.step {e : Event S} (hstep : step suite output pid s e = some s')
    (h : Keyed disk pid s) : Keyed disk pid s' := by
  unfold Helper.step at hstep
  split at hstep
  case h_3 =>
    obtain ⟨⟨disk', call⟩, hnext, rfl⟩ := Option.map_eq_some_iff.mp hstep
    exact h.onKey (Identity.next_cases hnext)
  case h_4 =>
    obtain ⟨next, -, rfl⟩ := Option.map_eq_some_iff.mp hstep
    cases next <;> exact ⟨h.process, h.staged, h.others, h.whole, h.handed⟩
  case h_6 =>
    obtain ⟨loop, -, rfl⟩ := Option.map_eq_some_iff.mp hstep
    exact h.frame key_follow
  case h_11 => cases hstep
  all_goals
    cases hstep
    first
      | exact h.frame key_finish
      | exact h.frame key_powerDown
      | exact h.frame ⟨rfl, rfl⟩

/-! ## What is installed -/

/-- A request with these credentials came after the hello of a secret, and verified under it. -/
def Accepted (suite : Suite UInt8 S) (es : List (Serve.Event S)) (conf : Bytes) : Prop :=
  ∃ pre secret size request trouble post transcript key,
    es = pre ++ [.secret secret, .ok, .data size, .request request trouble] ++ post ∧
    suite.accept secret request = some (transcript, key, conf)

/-- What the events so far say for where the loop stands. -/
def Backed (es : List (Serve.Event S)) : Serve.Pc S → Prop
  | .writeHello secret => [.secret secret] <:+ es
  | .readSize secret => [.secret secret, .ok] <:+ es
  | .readBody secret _ => ∃ size, [.secret secret, .ok, .data size] <:+ es
  | _ => True

section
variable {suite : Suite UInt8 S} {pid : Str} {loop' : Serve S} {e : Serve.Event S} {conf : Bytes}

theorem backed_step (h : Backed es loop.pc) (hstep : loop.step suite output pid e = some loop') :
    Backed (es ++ [e]) loop'.pc := by
  unfold Serve.step at hstep
  split at hstep
  all_goals rename_i hpc
  case h_9 | h_10 =>
    cases hstep
    unfold Serve.channels
    split <;> trivial
  case h_16 =>
    split_ifs at hstep <;> cases hstep <;> trivial
  case h_17 =>
    cases hstep
    exact ⟨es, rfl⟩
  case h_18 =>
    cases hstep
    rw [hpc] at h
    obtain ⟨pre, rfl⟩ := h
    exact ⟨pre, by simp⟩
  case h_19 bytes =>
    rw [hpc] at h
    obtain ⟨pre, rfl⟩ := h
    split_ifs at hstep <;> cases hstep
    · exact ⟨bytes, pre, by simp⟩
    · trivial
  case h_20 secret size bytes trouble =>
    split_ifs at hstep
    cases hstep
    rcases onRequest_pc suite output pid loop secret bytes trouble with hr | hr <;>
      rw [hr] <;> trivial
  case h_39 | h_40 =>
    cases hstep
    dsimp only [Serve.goto]
    split <;> trivial
  case h_41 => cases hstep
  all_goals
    cases hstep
    trivial

/-- What is installed was accepted just then. -/
theorem accepted_of_installing (h : Backed es loop.pc)
    (hconf : loop.installing suite output pid e = some conf) :
    Accepted suite (es ++ [e]) conf := by
  unfold Serve.installing at hconf
  split at hconf
  · rename_i secret size request trouble hpc
    rw [hpc] at h
    obtain ⟨sizeBytes, pre, rfl⟩ := h
    split_ifs at hconf
    obtain ⟨⟨transcript, key, conf'⟩, haccept, hif⟩ := Option.bind_eq_some_iff.mp hconf
    dsimp only at hif
    split_ifs at hif
    cases hif
    exact ⟨pre, secret, sizeBytes, request, trouble, [], transcript, key, by simp, haccept⟩
  · cases hconf

theorem Accepted.append (h : Accepted suite es conf) (more : List (Serve.Event S)) :
    Accepted suite (es ++ more) conf := by
  obtain ⟨pre, secret, size, request, trouble, post, transcript, key, rfl, haccept⟩ := h
  exact ⟨pre, secret, size, request, trouble, post ++ more, transcript, key, by simp, haccept⟩

/-- Run lemma, from anywhere in a run. -/
theorem accepted_of_mem_installations {more : List (Serve.Event S)} (h : Backed es loop.pc)
    (hconf : conf ∈ loop.installations suite output pid more) :
    Accepted suite (es ++ more) conf := by
  induction more generalizing loop es with
  | nil => cases hconf
  | cons e more ih =>
    rw [List.append_cons]
    rcases List.mem_append.mp hconf with hnow | hlater
    · exact (accepted_of_installing h (Option.mem_toList.mp hnow)).append more
    -- the events up to here are part of the history that the rest is judged by
    · cases hstep : loop.step suite output pid e with
      | none =>
        rw [hstep] at hlater
        cases hlater
      | some loop' =>
        rw [hstep] at hlater
        exact ih (backed_step h hstep) hlater

end

/-- The files around the output, from what the loop did to them. -/
theorem Alone.files
    (hack : ∀ k key aad, ((suite k).encrypt key (nonce 1) aad (suite k).okText).isSome)
    (h : Alone suite output pid fs es s) :
    (∀ name, name ≠ output → Files.SameAt fs s.loop.fs name) ∧
    ((s.loop.pc ≠ .returned true ∧ Files.SameAt fs s.loop.fs output) ∨
      ∃ k conf, s.call.pc = .returned (.ok k) ∧ Accepted (suite k) es conf ∧
        s.loop.fs.stat output = some ⟨conf, 0o600⟩) := by
  rcases h with ⟨-, hloop⟩ | ⟨k, hcall, hsteps⟩
  · rw [hloop]
    exact ⟨fun _ _ => .refl _ _, .inl ⟨nofun, .refl _ _⟩⟩
  · obtain ⟨hsound, hfiles⟩ := Serve.steps_opening (hack k) hsteps rfl rfl
    rcases hfiles with ⟨-, hunset, hsame⟩ | ⟨conf, hinst, -, -, hstat, hothers⟩
    · refine ⟨fun name _ => hsame name, .inl ⟨fun hok => ?_, hsame output⟩⟩
      -- the loop does not return success with its flag unset
      simp [Serve.Sound, hunset, hok, Serve.Pc.opening] at hsound
    · have hmem : conf ∈ (Serve.begin fs).installations (suite k) output (Nat.toDigits 10 pid)
          es := by
        rw [hinst]
        exact List.mem_singleton.mpr rfl
      have hstart : Backed [] (Serve.begin fs : Serve S).pc := trivial
      have haccepted : Accepted (suite k) es conf := accepted_of_mem_installations hstart hmem
      exact ⟨hothers, .inr ⟨k, conf, hcall, haccepted, hstat⟩⟩

/-- No key yet: one is drawn, staged and renamed into place. Then the adapter is switched on. -/
def waking : List (Event UInt8) :=
  [.key .ok, .key (.key ⟨List.replicate 32 3, by simp⟩), .key .ok, .key .ok, .key (.wrote 32),
    .key .ok, .key .ok, .adapter .ok, .adapter (.missing false), .adapter .ok,
    .adapter (.found false)]

/-- How a run ended, if it did: killed, with a failure, or with success. -/
def State.outcome (s : State S) : Option (Option (Except Failure Unit)) :=
  match s.pc with
  | .returned result => some (some result)
  | .killed => some none
  | _ => none

end

end Helper

end Egdod.Ble
