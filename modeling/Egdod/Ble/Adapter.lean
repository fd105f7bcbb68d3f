import Mathlib.Data.List.Basic

/-! `adapter`, with which `provision` and `serve` both begin: the adapter is
waited for, and switched on if it is off. Signals are waited for only later,
so that one that comes before `adapter` has returned ends the process. -/
namespace Egdod.Ble.Adapter

/-- Connections asked for or taken up, and calls to the Bluetooth daemon that end them or switch
the adapter. -/
inductive Call where
  | power (on : Bool)
  | connect (address : Nat)
  | disconnect (address : Nat)
  | remove (address : Nat)
  deriving DecidableEq

def Call.isPower : Call → Bool
  | .power _ => true
  | _ => false

/-- The calls that switch an adapter on, and back off again. -/
def switchedOn (wasPowered : Bool) : List Call := if wasPowered then [] else [.power true]

def switchedOff (wasPowered : Bool) : List Call := if wasPowered then [] else [.power false]

/-- No daemon, no adapter in time, or one that cannot be switched on. -/
inductive Failure where
  | session
  | missing
  | powering
  deriving DecidableEq

inductive Pc where
  | session
  | probing
  | pausing
  | powering
  deriving DecidableEq

/-- What comes in; `late` says that the deadline has passed. -/
inductive Event where
  | ok
  | fail
  | found (powered : Bool)
  | missing (late : Bool)

/-- What follows: a wait, the call that switches the adapter on, or the end. -/
inductive Next where
  | wait (pc : Pc)
  | switchOn
  | ready
  | failed (failure : Failure)

def Pc.step : Pc → Event → Option Next
  | .session, .ok => some (.wait .probing)
  | .session, .fail => some (.failed .session)
  | .probing, .found powered => some (if powered then .ready else .switchOn)
  -- an error of the probe counts only once the deadline has passed
  | .probing, .missing late => some (if late then .failed .missing else .wait .pausing)
  | .pausing, .ok => some (.wait .probing)
  | .powering, .ok => some .ready
  | .powering, .fail => some (.failed .powering)
  | _, _ => none

/-! ## What is owed to the adapter -/

/-- Invariant: the adapter was switched on exactly if that is waited for. -/
structure Owes (pc : Pc) (wasPowered : Bool) (log : List Call) : Prop where
  log : log = switchedOn wasPowered
  powered : wasPowered = true ↔ pc ≠ .powering

/-- The same for what follows a step. A failure leaves nothing to be undone, unless it is that
of the call itself. -/
def Next.Owes (wasPowered : Bool) (log : List Call) : Next → Prop
  | .wait pc => Adapter.Owes pc wasPowered log
  | .switchOn => Adapter.Owes .powering false (log ++ [.power true])
  | .ready => log = switchedOn wasPowered
  | .failed failure => log = switchedOn wasPowered ∧ (failure ≠ .powering → wasPowered = true)

theorem Owes.step {pc : Pc} {wasPowered : Bool} {log : List Call} {e : Event} {next : Next}
    (h : Owes pc wasPowered log) (hstep : pc.step e = some next) : next.Owes wasPowered log := by
  obtain ⟨hlog, hpowered⟩ := h
  unfold Pc.step at hstep
  split at hstep
  case h_1 | h_5 =>
    cases hstep
    exact ⟨hlog, by simpa using hpowered⟩
  case h_2 =>
    cases hstep
    exact ⟨hlog, fun _ => hpowered.mpr (by simp)⟩
  case h_3 powered =>
    cases hstep
    cases powered with
    | true => exact hlog
    | false =>
      -- nothing was called before: so far the adapter counts as one that was on
      have hon : wasPowered = true := hpowered.mpr (by simp)
      exact ⟨by simp [hlog, hon, switchedOn], by simp⟩
  case h_4 late =>
    cases hstep
    have hon : wasPowered = true := hpowered.mpr (by simp)
    cases late with
    | true => exact ⟨hlog, fun _ => hon⟩
    | false => exact ⟨hlog, by simp [hon]⟩
  case h_6 =>
    cases hstep
    exact hlog
  case h_7 =>
    cases hstep
    exact ⟨hlog, fun hne => absurd rfl hne⟩
  case h_8 => cases hstep

theorem isPower_switchedOn {wasPowered : Bool} {c : Call} (h : c ∈ switchedOn wasPowered) :
    c.isPower = true := by
  unfold switchedOn at h
  split at h
  · cases h
  · cases List.mem_singleton.mp h
    rfl

@[simp] theorem filter_switchedOn (wasPowered : Bool) :
    (switchedOn wasPowered).filter Call.isPower = switchedOn wasPowered :=
  List.filter_eq_self.mpr fun _ hc => isPower_switchedOn hc

section
variable {wasPowered : Bool} {log : List Call} {c : Call}

theorem power_snoc (h : log.filter Call.isPower = switchedOn wasPowered) (hc : c.isPower = false) :
    (log ++ [c]).filter Call.isPower = switchedOn wasPowered := by
  rw [List.filter_append, h, List.filter_singleton, hc, cond_false, List.append_nil]

/-- An adapter that was on needs no switching off. -/
theorem power_of_wasPowered (h : log.filter Call.isPower = switchedOn wasPowered)
    (hon : wasPowered = true) :
    log.filter Call.isPower = switchedOn wasPowered ++ switchedOff wasPowered := by
  rw [h, hon]
  rfl

theorem power_switchedOff (h : log.filter Call.isPower = switchedOn wasPowered)
    (hoff : wasPowered = false) :
    (log ++ [Call.power false]).filter Call.isPower =
      switchedOn wasPowered ++ switchedOff wasPowered := by
  rw [List.filter_append, h, hoff]
  rfl

end

end Egdod.Ble.Adapter
