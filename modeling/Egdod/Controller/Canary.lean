import Egdod.Lib.Run
import Egdod.State.SerdeJson
import Mathlib.Data.List.DropRight

/-! The reachability canary. `serve` probes its own node id from outside, keeps
what it found in `status.json`, and rebuilds its endpoint after enough failures
in a row; `status` turns the file into an exit code. Publishers of sessions
write the same file between the canary's steps, and any write of it may fail. -/
namespace Egdod.Controller.Canary

open Text Posix Net State StepSystem

/-! ## The `status` command -/

/-- `EXIT_UNDIALABLE`. -/
def exitUndialable : Int := 2

/-- The `{:?}` of a probe mode. -/
def debugMode : ProbeMode → Str
  | .discovery => "Discovery".toList
  | .direct => "Direct".toList

def dialableText (s : Status) : Str :=
  match s.dialable with
  | some true => "yes".toList
  | some false => "NO — ".toList ++ s.lastProbeError.getD "unknown".toList
  | none => "not probed yet".toList

def sessionLine (i : State.SessionInfo) : Str :=
  "agent:     ".toList ++ i.agent ++ " via ".toList ++ pathName i.path ++ " (".toList ++ i.remote ++
    ")".toList

/-- The lines `status` prints for a reader. -/
def statusLines (alive : UInt32 → Bool) (s : Status) : List Str :=
  ["node id:   ".toList ++ s.nodeId,
    "dialable:  ".toList ++ dialableText s,
    "probe:     ".toList ++ debugMode s.probeMode ++ " mode, last ok ".toList ++
      (s.lastProbeOkUnix.map fun t => Json.decimal t.toNat).getD "never".toList,
    "restarts:  ".toList ++ Json.decimal s.endpointRestarts.toNat] ++
  (if alive s.pid then [] else
    ["WARNING:   the controller that wrote this (pid ".toList ++ Json.decimal s.pid.toNat ++
      ") is gone; everything above is its last opinion, not the current one".toList]) ++
  s.sessions.map sessionLine ++
  (if s.sessions.isEmpty then ["agent:     none connected".toList] else [])

/-- `status`: the exit code and what is printed. `alive` is `writer_alive`, whether `/proc` has
the process. -/
def status (codec : StatusCodec) (alive : UInt32 → Bool) (file : Option Bytes) (json : Bool) :
    Except StatusError (Int × Str) :=
  (readStatus codec file).map fun s =>
    (if s.dialable = some true ∧ alive s.pid then 0 else exitUndialable,
      if json then codec.toStringPretty s ++ ['\n']
      else (statusLines alive s).flatMap fun l => l ++ ['\n'])

/-! ## What `serve` does about it -/

structure Config where
  nodeId : Str
  pid : UInt32
  relay : RelayChoice
  restartAfter : UInt32

/-- How a probe ends. -/
inductive Outcome where
  | reached (path : PathKind)
  | failed (error : Str)
  deriving DecidableEq

inductive Pc where
  | publishing
  | probing
  | reporting (o : Outcome)
  | sleeping
  /-- The restart is asked for. -/
  | finished
  deriving DecidableEq

/-- A run of `canary`, one for each endpoint. -/
structure Task where
  pc : Pc := .publishing
  failures : UInt32 := 0

/-- Where the loop of `serve` is. -/
inductive MainPc where
  | binding (first : Bool)
  | bound (addrs : List Str)
  | serving
  | restarting
  | returned
  deriving DecidableEq

structure Serve where
  status : Status
  file : Option Bytes
  main : MainPc := .binding true
  canary : Option Task := none

/-- The status `serve` starts with. It is not written. -/
def initial (cfg : Config) (now : UInt64) : Status where
  nodeId := cfg.nodeId
  pid := cfg.pid
  updatedUnix := now
  directAddrs := []
  dialable := none
  probeMode := probeMode cfg.relay
  lastProbeOkUnix := none
  lastProbePath := none
  lastProbeError := none
  consecutiveProbeFailures := 0
  endpointRestarts := 0
  sessions := []

def Serve.start (cfg : Config) (now : UInt64) (file : Option Bytes) : Serve where
  status := initial cfg now
  file := file

/-- When an update is made, and whether the file could be written. -/
structure Stamp where
  now : UInt64
  written : Bool
  deriving DecidableEq

/-- `StatusFile::update`. The lock is held over all of it; a write that fails is logged. -/
def Serve.update (codec : StatusCodec) (s : Serve) (t : Stamp) (f : Status → Status) : Serve :=
  let status := { f s.status with updatedUnix := t.now }
  { s with
    status := status
    file := if t.written then some (codec.toVecPretty status) else s.file }

inductive Action where
  /-- `bind` returns, `none` with an error. -/
  | bind (addrs : Option (List Str))
  | announce (addrs : List Str) (t : Stamp)
  /-- `publish_sessions` of a task of a connection. -/
  | publish (sessions : List State.SessionInfo) (t : Stamp)
  /-- `publish_sessions` of the canary. -/
  | refresh (sessions : List State.SessionInfo) (t : Stamp)
  | probe (o : Outcome)
  /-- The canary's update, with the time a success is given. -/
  | report (o : Outcome) (ok : UInt64) (t : Stamp)
  | wake
  | restart
  | restarted (t : Stamp)
  /-- `accept_local` returns, which ends `serve`. -/
  | acceptFailed
  deriving DecidableEq

def Task.probed (c : Task) : Outcome → Task
  | .reached path => ⟨.reporting (.reached path), 0⟩
  | .failed error => ⟨.reporting (.failed error), c.failures + 1⟩

/-- After a failure the canary sleeps, or asks for a restart and returns. -/
def Task.failed (cfg : Config) (c : Task) : Task :=
  { c with pc := if c.failures ≥ cfg.restartAfter then .finished else .sleeping }

def reportReached (path : PathKind) (ok : UInt64) (s : Status) : Status :=
  { s with
    dialable := some true
    lastProbeOkUnix := some ok
    lastProbePath := some path
    lastProbeError := none
    consecutiveProbeFailures := 0 }

def reportFailed (error : Str) (failures : UInt32) (s : Status) : Status :=
  { s with
    dialable := some false
    lastProbeError := some error
    consecutiveProbeFailures := failures }

def reportRestart (s : Status) : Status :=
  { s with
    endpointRestarts := s.endpointRestarts + 1
    sessions := []
    consecutiveProbeFailures := 0 }

def step (codec : StatusCodec) (cfg : Config) (s : Serve) : Action → Option Serve
  | .bind addrs =>
    match s.main, addrs with
    | .binding _, some addrs => some { s with main := .bound addrs }
    -- only the first bind fails for good
    | .binding true, none => some { s with main := .returned }
    | .binding false, none => some s
    | _, _ => none
  | .announce addrs t =>
    if s.main = .bound addrs then
      some { s.update codec t (fun st => { st with directAddrs := addrs }) with
        main := .serving, canary := some {} }
    else none
  | .publish sessions t => some (s.update codec t fun st => { st with sessions := sessions })
  | .refresh sessions t =>
    s.canary.bind fun c =>
      if c.pc = .publishing then
        some { s.update codec t (fun st => { st with sessions := sessions }) with
          canary := some { c with pc := .probing } }
      else none
  | .probe o =>
    s.canary.bind fun c =>
      if c.pc = .probing then some { s with canary := some (c.probed o) } else none
  | .report o ok t =>
    s.canary.bind fun c =>
      if c.pc = .reporting o then
        match o with
        | .reached path =>
          some { s.update codec t (reportReached path ok) with
            canary := some { c with pc := .sleeping } }
        | .failed error =>
          some { s.update codec t (reportFailed error c.failures) with
            canary := some (c.failed cfg) }
      else none
  | .wake =>
    s.canary.bind fun c =>
      if c.pc = .sleeping then some { s with canary := some { c with pc := .publishing } }
      else none
  | .restart =>
    s.canary.bind fun c =>
      if s.main = .serving ∧ c.pc = .finished then some { s with main := .restarting } else none
  | .restarted t =>
    if s.main = .restarting then
      some { s.update codec t reportRestart with main := .binding false, canary := none }
    else none
  | .acceptFailed => if s.main = .serving then some { s with main := .returned } else none

/-! ## The history of a run -/

/-- What an update of the status is about. -/
inductive Event where
  | announced (addrs : List Str)
  | published (sessions : List State.SessionInfo)
  | reached (path : PathKind) (ok : UInt64)
  | failed (error : Str)
  | restarted
  deriving DecidableEq

abbrev History := List (Event × Stamp)

def Action.event : Action → Option (Event × Stamp)
  | .announce addrs t => some (.announced addrs, t)
  | .publish sessions t | .refresh sessions t => some (.published sessions, t)
  | .report (.reached path) ok t => some (.reached path ok, t)
  | .report (.failed error) _ t => some (.failed error, t)
  | .restarted t => some (.restarted, t)
  | _ => none

/-- The updates of a run, the last of them last. -/
def history (as : List Action) : History := as.filterMap Action.event

/-- The last thing of a kind that happened. -/
def latest {β : Type} (f : Event → Option β) (h : History) : Option β :=
  (h.filterMap fun e => f e.1).getLast?

theorem latest_snoc {β : Type} (f : Event → Option β) (h : History) (e : Event) (t : Stamp) :
    latest f (h ++ [(e, t)]) = (f e).or (latest f h) := by
  cases hf : f e <;> simp [latest, hf]

def Event.addrs : Event → Option (List Str)
  | .announced addrs => some addrs
  | _ => none

/-- A restart closes every session. -/
def Event.sessions : Event → Option (List State.SessionInfo)
  | .published sessions => some sessions
  | .restarted => some []
  | _ => none

/-- Whether a probe reached the controller. -/
def Event.result : Event → Option Bool
  | .reached _ _ => some true
  | .failed _ => some false
  | _ => none

def Event.success : Event → Option (UInt64 × PathKind)
  | .reached path ok => some (ok, path)
  | _ => none

/-- The error of a probe, if it had one. -/
def Event.error : Event → Option (Option Str)
  | .reached _ _ => some none
  | .failed error => some (some error)
  | _ => none

/-- Whether a row of failures goes on or ends. -/
def Event.fails : Event → Option Bool
  | .failed _ => some true
  | .reached _ _ => some false
  | .restarted => some false
  | _ => none

/-- The failures since the last success, restart or start. -/
def failuresInARow (h : History) : Nat :=
  ((h.filterMap fun e => e.1.fails).reverse.takeWhile id).length

theorem failuresInARow_snoc (h : History) (e : Event) (t : Stamp) :
    failuresInARow (h ++ [(e, t)]) =
      match e.fails with
      | none => failuresInARow h
      | some true => failuresInARow h + 1
      | some false => 0 := by
  cases hf : e.fails with
  | none => simp [failuresInARow, hf]
  | some b => cases b <;> simp [failuresInARow, hf]

def restarts (h : History) : Nat := h.countP fun e => e.1 = .restarted

/-- What the history makes of the status. -/
def told (cfg : Config) (started : UInt64) (h : History) : Status where
  nodeId := cfg.nodeId
  pid := cfg.pid
  updatedUnix := (h.getLast?.map fun e => e.2.now).getD started
  directAddrs := (latest Event.addrs h).getD []
  dialable := latest Event.result h
  probeMode := probeMode cfg.relay
  lastProbeOkUnix := (latest Event.success h).map Prod.fst
  lastProbePath := (latest Event.success h).map Prod.snd
  lastProbeError := (latest Event.error h).join
  consecutiveProbeFailures := .ofNat (failuresInARow h)
  endpointRestarts := .ofNat (restarts h)
  sessions := (latest Event.sessions h).getD []

/-- The history up to the last update that was written. -/
def visible (h : History) : History := h.rdropWhile fun e => !e.2.written

theorem visible_snoc (h : History) (e : Event) (t : Stamp) :
    visible (h ++ [(e, t)]) = if t.written then h ++ [(e, t)] else visible h := by
  rw [visible, List.rdropWhile_concat]
  cases t.written <;> rfl

/-- The update an event makes, behind a row of failures. -/
def Event.apply (failures : Nat) : Event → Status → Status
  | .announced addrs, st => { st with directAddrs := addrs }
  | .published sessions, st => { st with sessions := sessions }
  | .reached path ok, st => reportReached path ok st
  | .failed error, st => reportFailed error (.ofNat (failures + 1)) st
  | .restarted, st => reportRestart st

section
variable {codec : StatusCodec} {cfg : Config} {started : UInt64} {file : Option Bytes}

theorem told_snoc (h : History) (e : Event) (t : Stamp) :
    told cfg started (h ++ [(e, t)]) =
      { e.apply (failuresInARow h) (told cfg started h) with updatedUnix := t.now } := by
  cases e <;>
    simp [told, Event.apply, reportReached, reportFailed, reportRestart, latest_snoc,
      failuresInARow_snoc, restarts, Event.addrs, Event.result, Event.success, Event.error,
      Event.sessions, Event.fails]

/-- The status is what the history makes of it, and the file is the last one written. -/
structure Told (codec : StatusCodec) (cfg : Config) (started : UInt64) (file : Option Bytes)
    (h : History) (s : Serve) : Prop where
  status : s.status = told cfg started h
  file : s.file =
    if visible h = [] then file else some (codec.toVecPretty (told cfg started (visible h)))

theorem Told.update {h : History} {s : Serve} (hs : Told codec cfg started file h s) (e : Event)
    (t : Stamp) :
    Told codec cfg started file (h ++ [(e, t)])
      (s.update codec t (e.apply (failuresInARow h))) := by
  have hstatus : (s.update codec t (e.apply (failuresInARow h))).status =
      told cfg started (h ++ [(e, t)]) := by
    rw [told_snoc, ← hs.status]
    rfl
  refine ⟨hstatus, ?_⟩
  rw [visible_snoc]
  by_cases hw : t.written = true
  · rw [if_pos hw, ← hstatus]
    simp [hw, Serve.update]
  · simp [hw, Serve.update, hs.file]

/-! ## The counter of the canary -/

/-- After as many failures in a row the endpoint is rebuilt: at least one. -/
def Config.tolerated (cfg : Config) : Nat := max 1 cfg.restartAfter.toNat

theorem Config.tolerated_lt (cfg : Config) : cfg.tolerated < 2 ^ 32 := by
  have := cfg.restartAfter.toNat_lt
  unfold Config.tolerated
  omega

/-- How a canary's counter stands to the failures in a row that were reported. -/
def Task.Counts (cfg : Config) (k : Nat) (c : Task) : Prop :=
  match c.pc with
  | .reporting (.failed _) => c.failures.toNat = k + 1 ∧ k < cfg.tolerated
  | .reporting (.reached _) => c.failures = 0 ∧ k < cfg.tolerated
  | .finished => k = cfg.tolerated
  | _ => c.failures.toNat = k ∧ k < cfg.tolerated

theorem Task.Counts.le {k : Nat} {c : Task} (h : c.Counts cfg k) : k ≤ cfg.tolerated := by
  unfold Task.Counts at h
  split at h <;> omega

theorem Task.counts_new : ({} : Task).Counts cfg 0 := by
  refine ⟨rfl, ?_⟩
  unfold Config.tolerated
  omega

theorem Task.Counts.probed {k : Nat} {c : Task} (h : c.Counts cfg k) (hpc : c.pc = .probing)
    (o : Outcome) : (c.probed o).Counts cfg k := by
  rw [Task.Counts, hpc] at h
  obtain ⟨hcount, hlt⟩ := h
  cases o with
  | reached path => exact ⟨rfl, hlt⟩
  | failed error =>
    -- the counter is far from its largest value, which no configuration exceeds
    have hsmall := cfg.tolerated_lt
    refine ⟨?_, hlt⟩
    simp only [Task.probed, UInt32.toNat_add, UInt32.toNat_one, hcount]
    omega

theorem Task.Counts.reported {k : Nat} {c : Task} {o : Outcome} (h : c.Counts cfg k)
    (hpc : c.pc = .reporting o) :
    match o with
    | .reached _ => ({ c with pc := .sleeping } : Task).Counts cfg 0
    | .failed _ => (c.failed cfg).Counts cfg (k + 1) := by
  rw [Task.Counts, hpc] at h
  cases o with
  | reached path =>
    refine ⟨by simp [h.1], ?_⟩
    exact Nat.lt_of_le_of_lt (Nat.zero_le k) h.2
  | failed error =>
    obtain ⟨hcount, hlt⟩ := h
    unfold Config.tolerated at hlt
    dsimp only [Task.failed]
    split_ifs with hge
    · have hle := UInt32.le_iff_toNat_le.mp hge
      show k + 1 = cfg.tolerated
      unfold Config.tolerated
      omega
    · have hgt : ¬ cfg.restartAfter.toNat ≤ c.failures.toNat :=
        fun hle => hge (UInt32.le_iff_toNat_le.mpr hle)
      refine ⟨hcount, ?_⟩
      unfold Config.tolerated
      omega

/-- Where the loop of `serve` is, whether there is a canary, and what it has counted. -/
inductive Counted (cfg : Config) (k : Nat) : MainPc → Option Task → Prop
  | binding (first : Bool) : k = 0 → Counted cfg k (.binding first) none
  | bound (addrs : List Str) : k = 0 → Counted cfg k (.bound addrs) none
  | serving (c : Task) : c.Counts cfg k → Counted cfg k .serving (some c)
  | restarting (c : Task) : c.pc = .finished → k = cfg.tolerated →
      Counted cfg k .restarting (some c)
  | unbound : k = 0 → Counted cfg k .returned none
  | ended (c : Task) : c.Counts cfg k → Counted cfg k .returned (some c)

/-- A canary that has not asked for a restart may go on. -/
theorem Counted.task {k : Nat} {main : MainPc} {c : Task} (h : Counted cfg k main (some c))
    (hpc : c.pc ≠ .finished) :
    c.Counts cfg k ∧ ∀ k' c', c'.Counts cfg k' → Counted cfg k' main (some c') := by
  cases h with
  | serving _ hc => exact ⟨hc, fun _ c' hc' => .serving c' hc'⟩
  | restarting _ hfin => exact absurd hfin hpc
  | ended _ hc => exact ⟨hc, fun _ c' hc' => .ended c' hc'⟩

theorem Counted.of_binding {k : Nat} {first : Bool} {canary : Option Task}
    (h : Counted cfg k (.binding first) canary) : k = 0 ∧ canary = none := by
  cases h with
  | binding _ hzero => exact ⟨hzero, rfl⟩

theorem Counted.of_bound {k : Nat} {addrs : List Str} {canary : Option Task}
    (h : Counted cfg k (.bound addrs) canary) : k = 0 ∧ canary = none := by
  cases h with
  | bound _ hzero => exact ⟨hzero, rfl⟩

theorem Counted.of_serving {k : Nat} {canary : Option Task}
    (h : Counted cfg k .serving canary) : ∃ c, canary = some c ∧ c.Counts cfg k := by
  cases h with
  | serving c hc => exact ⟨c, rfl, hc⟩

structure Ok (codec : StatusCodec) (cfg : Config) (started : UInt64) (file : Option Bytes)
    (h : History) (s : Serve) : Prop where
  told : Told codec cfg started file h s
  counted : Counted cfg (failuresInARow h) s.main s.canary

theorem Ok.start : Ok codec cfg started file [] (.start cfg started file) :=
  ⟨⟨rfl, rfl⟩, .binding true rfl⟩

theorem Ok.step {h : History} {s s' : Serve} {a : Action} (hs : Ok codec cfg started file h s)
    (hstep : step codec cfg s a = some s') :
    Ok codec cfg started file (h ++ (a.event).toList) s' := by
  obtain ⟨htold, hcount⟩ := hs
  cases a with
  | bind addrs =>
    simp only [Action.event, Option.toList, List.append_nil]
    simp only [Canary.step] at hstep
    split at hstep
    · rename_i hmain
      cases hstep
      obtain ⟨hzero, hnone⟩ := (hmain ▸ hcount).of_binding
      exact ⟨⟨htold.status, htold.file⟩, hnone ▸ .bound _ hzero⟩
    · rename_i hmain
      cases hstep
      obtain ⟨hzero, hnone⟩ := (hmain ▸ hcount).of_binding
      exact ⟨⟨htold.status, htold.file⟩, hnone ▸ .unbound hzero⟩
    · cases hstep
      exact ⟨htold, hcount⟩
    · cases hstep
  | announce addrs t =>
    simp only [Canary.step] at hstep
    split_ifs at hstep with hmain
    cases hstep
    have hnew := htold.update (.announced addrs) t
    have hzero := (hmain ▸ hcount).of_bound.1
    refine ⟨⟨hnew.status, hnew.file⟩, .serving _ ?_⟩
    simp only [Action.event, Option.toList, failuresInARow_snoc, Event.fails, hzero]
    exact Task.counts_new
  | publish sessions t =>
    cases hstep
    have hnew := htold.update (.published sessions) t
    refine ⟨⟨hnew.status, hnew.file⟩, ?_⟩
    simp only [Action.event, Option.toList, failuresInARow_snoc, Event.fails]
    exact hcount
  | refresh sessions t =>
    obtain ⟨c, hcanary, hstep⟩ := Option.bind_eq_some_iff.mp hstep
    split_ifs at hstep with hpc
    cases hstep
    have hnew := htold.update (.published sessions) t
    rw [hcanary] at hcount
    obtain ⟨hc, hgo⟩ := hcount.task (by simp [hpc])
    refine ⟨⟨hnew.status, hnew.file⟩, ?_⟩
    simp only [Action.event, Option.toList, failuresInARow_snoc, Event.fails]
    rw [Task.Counts, hpc] at hc
    exact hgo _ _ hc
  | probe o =>
    obtain ⟨c, hcanary, hstep⟩ := Option.bind_eq_some_iff.mp hstep
    split_ifs at hstep with hpc
    cases hstep
    rw [hcanary] at hcount
    obtain ⟨hc, hgo⟩ := hcount.task (by simp [hpc])
    simp only [Action.event, Option.toList, List.append_nil]
    exact ⟨⟨htold.status, htold.file⟩, hgo _ _ (hc.probed hpc o)⟩
  | report o ok t =>
    obtain ⟨c, hcanary, hstep⟩ := Option.bind_eq_some_iff.mp hstep
    split_ifs at hstep with hpc
    rw [hcanary] at hcount
    obtain ⟨hc, hgo⟩ := hcount.task (by simp [hpc])
    have hreported := hc.reported hpc
    cases o with
    | reached path =>
      cases hstep
      have hnew := htold.update (.reached path ok) t
      refine ⟨⟨hnew.status, hnew.file⟩, ?_⟩
      simp only [Action.event, Option.toList, failuresInARow_snoc, Event.fails]
      exact hgo _ _ hreported
    | failed error =>
      cases hstep
      have hfailures : .ofNat (failuresInARow h + 1) = c.failures := by
        rw [Task.Counts, hpc] at hc
        rw [← hc.1, UInt32.ofNat_toNat]
      have hnew : Told codec cfg started file (h ++ [(.failed error, t)])
          (s.update codec t (reportFailed error (.ofNat (failuresInARow h + 1)))) :=
        htold.update (.failed error) t
      rw [hfailures] at hnew
      refine ⟨⟨hnew.status, hnew.file⟩, ?_⟩
      simp only [Action.event, Option.toList, failuresInARow_snoc, Event.fails]
      exact hgo _ _ hreported
  | wake =>
    obtain ⟨c, hcanary, hstep⟩ := Option.bind_eq_some_iff.mp hstep
    split_ifs at hstep with hpc
    cases hstep
    rw [hcanary] at hcount
    obtain ⟨hc, hgo⟩ := hcount.task (by simp [hpc])
    simp only [Action.event, Option.toList, List.append_nil]
    rw [Task.Counts, hpc] at hc
    exact ⟨⟨htold.status, htold.file⟩, hgo _ _ hc⟩
  | restart =>
    obtain ⟨c, hcanary, hstep⟩ := Option.bind_eq_some_iff.mp hstep
    split_ifs at hstep with hpc
    cases hstep
    obtain ⟨c', hsome, hc⟩ := (hpc.1 ▸ hcount).of_serving
    cases hcanary.symm.trans hsome
    rw [Task.Counts, hpc.2] at hc
    simp only [Action.event, Option.toList, List.append_nil]
    exact ⟨⟨htold.status, htold.file⟩, hcanary ▸ .restarting c hpc.2 hc⟩
  | restarted t =>
    simp only [Canary.step] at hstep
    split_ifs at hstep with hmain
    cases hstep
    have hnew := htold.update .restarted t
    refine ⟨⟨hnew.status, hnew.file⟩, .binding false ?_⟩
    simp only [Action.event, Option.toList, failuresInARow_snoc, Event.fails]
  | acceptFailed =>
    simp only [Canary.step] at hstep
    split_ifs at hstep with hmain
    cases hstep
    obtain ⟨c, hsome, hc⟩ := (hmain ▸ hcount).of_serving
    simp only [Action.event, Option.toList, List.append_nil]
    exact ⟨⟨htold.status, htold.file⟩, hsome ▸ .ended c hc⟩

theorem history_snoc (as : List Action) (a : Action) :
    history (as ++ [a]) = history as ++ a.event.toList := by
  cases h : a.event <;> simp [history, h]

theorem ok_of_steps {as : List Action} {s : Serve}
    (h : Steps (step codec cfg) always (.start cfg started file) as s) :
    Ok codec cfg started file (history as) s := by
  apply Steps.history (P := fun as s => Ok codec cfg started file (history as) s) Ok.start _ h
  intro as m a t _ hok _ hstep
  rw [history_snoc]
  exact hok.step hstep

/-! ## What the file says -/

/-- Over every run, the status is a function of the updates made so far, the file that of those
up to the last one that could be written, and `status` exits with 0 exactly if the last probe
in the file succeeded and its writer lives. With `--json` it prints the file as it is. -/
theorem status_tells_history {as : List Action} {s : Serve}
    (h : Steps (step codec cfg) always (.start cfg started file) as s) :
    s.status = told cfg started (history as) ∧
    (visible (history as) = [] → s.file = file) ∧
    (visible (history as) ≠ [] → ∀ alive : UInt32 → Bool,
      readStatus codec s.file = .ok (told cfg started (visible (history as))) ∧
      (∀ json, ∃ text, status codec alive s.file json = .ok
        (if latest Event.result (visible (history as)) = some true ∧ alive cfg.pid then 0
          else exitUndialable, text)) ∧
      ∃ code text, status codec alive s.file true = .ok (code, text ++ ['\n']) ∧
        s.file = some (encode text)) := by
  obtain ⟨hstatus, hfile⟩ := (ok_of_steps h).told
  refine ⟨hstatus, fun hnone => by rw [hfile, if_pos hnone], fun hsome alive => ?_⟩
  rw [if_neg hsome] at hfile
  have hread : readStatus codec s.file = .ok (told cfg started (visible (history as))) := by
    rw [hfile, readStatus_toVecPretty]
  refine ⟨hread, fun json => ?_, ?_⟩
  · rw [status, hread]
    exact ⟨_, rfl⟩
  · rw [status, hread]
    exact ⟨_, _, rfl, hfile⟩

/-- A controller without relays that tolerates one failure. -/
def unrelayed : Config := ⟨"ab12".toList, 7, .disabled, 2⟩

/-- One canary round: the sessions, a probe and its report. -/
def canaryRound (o : Outcome) (now : UInt64) (written : Bool) : List Action :=
  [.refresh [] ⟨now, written⟩, .probe o, .report o now ⟨now, written⟩]

/-- A success that is written, then two failures in a row with the disk full, then a restart. -/
def diskFull : List Action :=
  [.bind (some ["10.0.0.1:4433".toList]), .announce ["10.0.0.1:4433".toList] ⟨100, true⟩] ++
    canaryRound (.reached .directLocal) 101 true ++ [.wake] ++
    canaryRound (.failed "timed out".toList) 102 false ++ [.wake] ++
    canaryRound (.failed "timed out".toList) 103 false

/-- The file still says what the last write that went through said. -/
theorem status_tells_history_diskFull :
    ∃ s, Steps (step serdeStatus unrelayed) always (.start unrelayed 99 none) diskFull s ∧
      s.status.dialable = some false ∧ s.status.consecutiveProbeFailures = 2 ∧
      ∃ text, status serdeStatus (fun _ => true) s.file false = .ok (0, text) := by
  have hrun : (StepSystem.run (step serdeStatus unrelayed) (.start unrelayed 99 none) diskFull).map
      (fun _ => ()) = some () := by decide +kernel
  obtain ⟨s, hsteps, -⟩ := exists_steps_of_view hrun
  obtain ⟨hstatus, -, hfile⟩ := status_tells_history hsteps
  obtain ⟨-, hexit, -⟩ := hfile (by decide +kernel) fun _ => true
  refine ⟨s, hsteps, ?_, ?_, ?_⟩
  · rw [hstatus]
    decide +kernel
  · rw [hstatus]
    decide +kernel
  · obtain ⟨text, htext⟩ := hexit false
    rw [if_pos (by decide +kernel)] at htext
    exact ⟨text, htext⟩

/-! ## When the endpoint is rebuilt -/

/-- The probes that failed. -/
def failures (h : History) : Nat := h.countP fun e => e.1.fails = some true

theorem failures_snoc (h : History) (e : Event) (t : Stamp) :
    failures (h ++ [(e, t)]) = failures h + if e.fails = some true then 1 else 0 := by
  simp [failures]

theorem restarts_snoc (h : History) (e : Event) (t : Stamp) :
    restarts (h ++ [(e, t)]) = restarts h + if e = .restarted then 1 else 0 := by
  simp [restarts]

theorem Action.event_restarted {a : Action} {t : Stamp} (h : a.event = some (.restarted, t)) :
    a = .restarted t := by
  cases a with
  | restarted t' =>
    cases h
    rfl
  | report o ok t' => cases o <;> cases h
  | _ => cases h

theorem Task.Counts.finished_iff {k : Nat} {c : Task} (h : c.Counts cfg k) :
    c.pc = .finished ↔ k = cfg.tolerated := by
  unfold Task.Counts at h
  split at h
  · rename_i hpc
    simp only [hpc, reduceCtorEq, false_iff]
    omega
  · rename_i hpc
    simp only [hpc, reduceCtorEq, false_iff]
    omega
  · rename_i hpc
    simp [hpc, h]
  · rename_i hpc
    constructor
    · exact fun hfinished => absurd hfinished hpc
    · omega

theorem Counted.le {k : Nat} {main : MainPc} {canary : Option Task}
    (h : Counted cfg k main canary) : k ≤ cfg.tolerated := by
  cases h with
  | binding _ hzero | bound _ hzero | unbound hzero => omega
  | serving c hc | ended c hc => exact hc.le
  | restarting c _ hk => omega

theorem Counted.of_restarting {k : Nat} {canary : Option Task}
    (h : Counted cfg k .restarting canary) : k = cfg.tolerated := by
  cases h with
  | restarting c _ hk => exact hk

/-- Every restart was paid for with a whole row of failures. -/
theorem paid_of_steps {as : List Action} {s : Serve}
    (h : Steps (step codec cfg) always (.start cfg started file) as s) :
    restarts (history as) * cfg.tolerated + failuresInARow (history as) ≤
      failures (history as) := by
  apply Steps.history (P := fun as _ => restarts (history as) * cfg.tolerated +
    failuresInARow (history as) ≤ failures (history as)) _ _ h
  · simp [history, restarts, failuresInARow]
  intro as m a t hsteps hpaid _ hstep
  rw [history_snoc]
  cases hevent : a.event with
  | none => simpa using hpaid
  | some e =>
    obtain ⟨e, stamp⟩ := e
    simp only [Option.toList, failuresInARow_snoc, failures_snoc, restarts_snoc]
    cases e with
    | announced _ | published _ => simpa [Event.fails] using hpaid
    | reached _ _ | failed _ =>
      simp [Event.fails]
      omega
    | restarted =>
      have hfull : failuresInARow (history as) = cfg.tolerated := by
        rw [Action.event_restarted hevent] at hstep
        simp only [step] at hstep
        split_ifs at hstep with hmain
        exact (hmain ▸ (ok_of_steps hsteps).counted).of_restarting
      simp only [Event.fails, if_true, Nat.add_mul]
      omega

/-- Over every run, the endpoint can be rebuilt exactly when as many probes in a row have failed
as are tolerated, no more are ever counted, and every restart took that many failures of its
own. -/
theorem restart_after_tolerated {as : List Action} {s : Serve}
    (h : Steps (step codec cfg) always (.start cfg started file) as s) :
    ((step codec cfg s .restart).isSome ↔
      s.main = .serving ∧ failuresInARow (history as) = cfg.tolerated) ∧
    failuresInARow (history as) ≤ cfg.tolerated ∧
    restarts (history as) * cfg.tolerated ≤ failures (history as) := by
  have hcounted := (ok_of_steps h).counted
  refine ⟨?_, hcounted.le, ?_⟩
  · constructor
    · intro hsome
      obtain ⟨s', hstep⟩ := Option.isSome_iff_exists.mp hsome
      obtain ⟨c, hcanary, hstep⟩ := Option.bind_eq_some_iff.mp hstep
      split_ifs at hstep with hpc
      obtain ⟨c', hsome', hc⟩ := (hpc.1 ▸ hcounted).of_serving
      cases hcanary.symm.trans hsome'
      exact ⟨hpc.1, hc.finished_iff.mp hpc.2⟩
    · rintro ⟨hmain, hrow⟩
      obtain ⟨c, hcanary, hc⟩ := (hmain ▸ hcounted).of_serving
      simp [step, hcanary, hmain, hc.finished_iff.mpr hrow]
  · have := paid_of_steps h
    omega

theorem restart_after_tolerated_diskFull :
    ∃ s, Steps (step serdeStatus unrelayed) always (.start unrelayed 99 none) diskFull s ∧
      (step serdeStatus unrelayed s .restart).isSome := by
  have hrun : (StepSystem.run (step serdeStatus unrelayed) (.start unrelayed 99 none) diskFull).map
      (fun s => s.main) = some .serving := by decide +kernel
  obtain ⟨s, hsteps, hmain⟩ := exists_steps_of_view hrun
  exact ⟨s, hsteps, (restart_after_tolerated hsteps).1.mpr ⟨hmain, by decide +kernel⟩⟩

end

end Egdod.Controller.Canary
