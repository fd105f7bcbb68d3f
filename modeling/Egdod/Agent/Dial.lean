import Egdod.Lib.Run
import Egdod.Net

/-! `agent.rs` from the loaded key on: the loop that dials the controller, and
the session each dial comes to. What the network and the controller do is an
event; the calls the agent makes are kept in order. -/
namespace Egdod.Agent

open Text Net StepSystem

/-- `SHORT_RETRY`, in seconds. -/
def shortRetry : Nat := 1

/-- `PENDING_RETRY`, in seconds. -/
def pendingRetry : Nat := 5

/-- `MAX_BACKOFF`, in seconds. -/
def maxBackoff : Nat := 30

structure Config (K : Type) where
  controller : K
  keyFile : Str
  relay : RelayChoice
  direct : List SocketAddr
  deriving DecidableEq

/-- What `session` returns. -/
inductive Outcome where
  | pending
  | ended
  | failed
  deriving DecidableEq, Repr

/-- A call of the agent. Endpoints are numbered as they are bound. -/
inductive Call (K U : Type) where
  | bind (ep : Nat) (mode : RelayMode U) (lookup : Lookup)
  | connect (ep : Nat) (addr : EndpointAddr K U)
  | handle (ep : Nat)
  | close (ep : Nat)
  | returned (o : Outcome)
  | sleep (secs : Nat)

/-- Where the agent waits. -/
inductive Pc where
  | binding
  | connecting (ep : Nat)
  | admitting (ep : Nat)
  | serving (ep : Nat)
  | closing (ep : Nat) (o : Outcome)
  | sleeping
  deriving DecidableEq, Repr

inductive Event where
  | bound
  | bindFailed
  | connected
  /-- The dial failed, or took more than `CONNECT_TIMEOUT`. -/
  | notConnected
  | admission (approved : Bool)
  | noAdmission
  | request
  | connectionEnded
  | endpointClosed
  | woke
  deriving DecidableEq, Repr

structure State (K U : Type) where
  pc : Pc
  backoff : Nat
  next : Nat
  calls : List (Call K U)

section
variable {K U : Type}

/-- The loop begins with a dial. -/
def State.start : State K U := ⟨.binding, shortRetry, 0, []⟩

/-- How long `run` sleeps after a session. -/
def State.delay (s : State K U) : Outcome → Nat
  | .pending => pendingRetry
  | .ended => shortRetry
  | .failed => s.backoff

/-- `run`'s `backoff` after a session. -/
def State.nextBackoff (s : State K U) : Outcome → Nat
  | .pending => shortRetry
  | .ended => shortRetry
  | .failed => min (s.backoff * 2) maxBackoff

/-- `run`, after a session. -/
def State.finish (s : State K U) (o : Outcome) : State K U :=
  { s with
    pc := .sleeping
    backoff := s.nextBackoff o
    calls := s.calls ++ [.returned o, .sleep (s.delay o)] }

variable [DecidableEq U] (parseUrl : Str → Option U) (cfg : Config K)

/-- The lookup that `session` asks for. -/
def Config.lookup : Lookup := if cfg.direct = [] then .resolve else .none

/-- `session`, once it has an endpoint. -/
def State.bound (s : State K U) (mode : RelayMode U) : State K U :=
  match cfg.relay.firstUrl parseUrl with
  | some first =>
    { s with
      pc := .connecting s.next, next := s.next + 1,
      calls := s.calls ++ [.bind s.next mode cfg.lookup,
        .connect s.next (endpointAddr cfg.controller cfg.direct first)] }
  -- the `?` here returns without closing the endpoint
  | none =>
    State.finish { s with
      next := s.next + 1, calls := s.calls ++ [.bind s.next mode cfg.lookup] } .failed

/-- `bind` fails if the relay's URLs do not parse, and may fail otherwise. -/
def step (s : State K U) (e : Event) : Option (State K U) :=
  match s.pc, e with
  | .binding, .bound => (cfg.relay.mode parseUrl).map (s.bound parseUrl cfg)
  | .binding, .bindFailed => some (s.finish .failed)
  | .connecting ep, .connected => some { s with pc := .admitting ep }
  | .connecting ep, .notConnected => some { s with pc := .closing ep .failed }
  | .admitting ep, .admission approved =>
    some { s with pc := if approved then .serving ep else .closing ep .pending }
  | .admitting ep, .noAdmission => some { s with pc := .closing ep .failed }
  | .serving ep, .request => some { s with calls := s.calls ++ [.handle ep] }
  | .serving ep, .connectionEnded => some { s with pc := .closing ep .ended }
  | .closing ep o, .endpointClosed =>
    some (State.finish { s with calls := s.calls ++ [.close ep] } o)
  | .sleeping, .woke => some { s with pc := .binding }
  | _, _ => none

/-- The endpoint of the session that is under way. -/
def Pc.endpoint : Pc → Option Nat
  | .binding | .sleeping => none
  | .connecting ep | .admitting ep | .serving ep | .closing ep _ => some ep

/-- What a step can do. -/
inductive State.Moves (s : State K U) : State K U → Prop where
  | bound {mode : RelayMode U} {first : Option U} (hpc : s.pc = .binding)
      (hmode : cfg.relay.mode parseUrl = some mode)
      (hfirst : cfg.relay.firstUrl parseUrl = some first) :
      s.Moves { s with
        pc := .connecting s.next, next := s.next + 1,
        calls := s.calls ++ [.bind s.next mode cfg.lookup,
          .connect s.next (endpointAddr cfg.controller cfg.direct first)] }
  | unbound (hpc : s.pc = .binding) : s.Moves (s.finish .failed)
  | moved (pc : Pc) (hpc : pc.endpoint = s.pc.endpoint) : s.Moves { s with pc := pc }
  | handled (ep : Nat) (hpc : s.pc = .serving ep) :
      s.Moves { s with calls := s.calls ++ [.handle ep] }
  | closed (ep : Nat) (o : Outcome) (hpc : s.pc = .closing ep o) :
      s.Moves (State.finish { s with calls := s.calls ++ [.close ep] } o)

/-- No step leaves an endpoint behind: where the relay's URLs parse, the first of them does. -/
theorem step_moves {s s' : State K U} {e : Event} (h : step parseUrl cfg s e = some s') :
    s.Moves parseUrl cfg s' := by
  unfold step at h
  split at h
  case h_1 hpc =>
    obtain ⟨mode, hmode, rfl⟩ := Option.map_eq_some_iff.mp h
    obtain ⟨first, hfirst⟩ := RelayChoice.firstUrl_of_mode hmode
    rw [State.bound, hfirst]
    exact .bound hpc hmode hfirst
  case h_2 hpc =>
    cases h
    exact .unbound hpc
  case h_7 ep hpc =>
    cases h
    exact .handled ep hpc
  case h_9 ep o hpc =>
    cases h
    exact .closed ep o hpc
  case h_5 approved hpc =>
    cases h
    cases approved <;> exact .moved _ (by rw [hpc]; rfl)
  case h_11 => cases h
  all_goals
    rename_i hpc
    cases h
    exact .moved _ (by rw [hpc]; rfl)

end

/-! ## What a run has done -/

section
variable {K U : Type}

def Call.boundEndpoint : Call K U → Option Nat
  | .bind ep _ _ => some ep
  | _ => none

def Call.closedEndpoint : Call K U → Option Nat
  | .close ep => some ep
  | _ => none

def Call.outcome : Call K U → Option Outcome
  | .returned o => some o
  | _ => none

def Call.slept : Call K U → Option Nat
  | .sleep secs => some secs
  | _ => none

def State.outcomes (s : State K U) : List Outcome := s.calls.filterMap Call.outcome

end

/-- How many of the last sessions failed in a row. -/
def failures (os : List Outcome) : Nat := (os.reverse.takeWhile (· = .failed)).length

/-- The wait after sessions that came to `os` and `o`: five seconds for an agent that is not yet
approved, one after a session, and after failures in a row as many seconds as a power of two,
thirty at most. -/
def waitAfter (os : List Outcome) : Outcome → Nat
  | .pending => 5
  | .ended => 1
  | .failed => min (2 ^ failures os) 30

/-- The waits of a whole run. -/
def waits : List Outcome → List Outcome → List Nat
  | _, [] => []
  | before, o :: os => waitAfter before o :: waits (before ++ [o]) os

theorem waits_snoc (before os : List Outcome) (o : Outcome) :
    waits before (os ++ [o]) = waits before os ++ [waitAfter (before ++ os) o] := by
  induction os generalizing before with
  | nil => simp [waits]
  | cons p os ih => simp [waits, ih]

theorem failures_snoc_failed (os : List Outcome) :
    failures (os ++ [.failed]) = failures os + 1 := by
  simp [failures]

theorem failures_snoc_of_ne {o : Outcome} (ho : o ≠ .failed) (os : List Outcome) :
    failures (os ++ [o]) = 0 := by
  simp [failures, ho]

theorem waitAfter_bounds (os : List Outcome) (o : Outcome) :
    1 ≤ waitAfter os o ∧ waitAfter os o ≤ 30 := by
  cases o with
  | pending => simp [waitAfter]
  | ended => simp [waitAfter]
  | failed =>
    have hpos : 0 < 2 ^ failures os := Nat.two_pow_pos _
    simp only [waitAfter]
    omega

theorem waits_bounds {before os : List Outcome} {d : Nat} (h : d ∈ waits before os) :
    1 ≤ d ∧ d ≤ 30 := by
  induction os generalizing before with
  | nil => simp [waits] at h
  | cons o os ih =>
    rcases List.mem_cons.mp h with rfl | hrest
    · exact waitAfter_bounds before o
    · exact ih hrest

/-! ## The invariant of the loop -/

section
variable {K U : Type}

/-- What the calls of a run come to. -/
structure Orderly (s : State K U) : Prop where
  endpoints : s.calls.filterMap Call.boundEndpoint =
    s.calls.filterMap Call.closedEndpoint ++ s.pc.endpoint.toList
  waited : s.calls.filterMap Call.slept = waits [] s.outcomes
  backoff : s.backoff = min (2 ^ failures s.outcomes) maxBackoff

theorem Orderly.start : Orderly (.start : State K U) := ⟨rfl, rfl, rfl⟩

/-- Doubling stays within the bound. -/
theorem backoff_double (k : Nat) :
    min (min (2 ^ k) maxBackoff * 2) maxBackoff = min (2 ^ (k + 1)) maxBackoff := by
  have hpow : 2 ^ (k + 1) = 2 ^ k * 2 := Nat.pow_succ ..
  omega

theorem delay_eq {s : State K U} {os : List Outcome}
    (h : s.backoff = min (2 ^ failures os) maxBackoff) (o : Outcome) :
    s.delay o = waitAfter os o := by
  cases o with
  | pending => rfl
  | ended => rfl
  | failed => exact h

theorem nextBackoff_eq {s : State K U} {os : List Outcome}
    (h : s.backoff = min (2 ^ failures os) maxBackoff) (o : Outcome) :
    s.nextBackoff o = min (2 ^ failures (os ++ [o])) maxBackoff := by
  cases o with
  | pending =>
    rw [failures_snoc_of_ne (by decide)]
    rfl
  | ended =>
    rw [failures_snoc_of_ne (by decide)]
    rfl
  | failed => rw [State.nextBackoff, h, backoff_double, failures_snoc_failed]

/-- The end of a session that leaves no endpoint open. -/
theorem Orderly.finish {s : State K U} (o : Outcome)
    (hendpoints : s.calls.filterMap Call.boundEndpoint = s.calls.filterMap Call.closedEndpoint)
    (hwaited : s.calls.filterMap Call.slept = waits [] s.outcomes)
    (hbackoff : s.backoff = min (2 ^ failures s.outcomes) maxBackoff) : Orderly (s.finish o) := by
  have houtcomes : (s.finish o).outcomes = s.outcomes ++ [o] := by
    simp [State.finish, State.outcomes, List.filterMap_cons, Call.outcome]
  refine ⟨?_, ?_, ?_⟩
  · simpa [State.finish, List.filterMap_cons, Call.boundEndpoint, Call.closedEndpoint, Pc.endpoint]
  · rw [houtcomes, waits_snoc, ← hwaited, List.nil_append, ← delay_eq hbackoff]
    simp [State.finish, List.filterMap_cons, Call.slept]
  · rw [houtcomes]
    exact nextBackoff_eq hbackoff o

/-- A step that moves on within a session. -/
theorem Orderly.move {s : State K U} {pc : Pc} (h : Orderly s)
    (hpc : pc.endpoint = s.pc.endpoint) : Orderly { s with pc := pc } :=
  ⟨by rw [hpc]; exact h.endpoints, h.waited, h.backoff⟩

variable [DecidableEq U] {parseUrl : Str → Option U} {cfg : Config K} {s s' : State K U}

theorem Orderly.step (h : Orderly s) (hm : s.Moves parseUrl cfg s') :
    Orderly s' := by
  have hendpoints := h.endpoints
  cases hm with
  | bound hpc hmode hfirst =>
    rw [hpc] at hendpoints
    refine ⟨?_, ?_, ?_⟩
    · simpa [List.filterMap_cons, Call.boundEndpoint, Call.closedEndpoint, Pc.endpoint]
        using hendpoints
    · simpa [List.filterMap_cons, Call.slept, Call.outcome, State.outcomes] using h.waited
    · simpa [List.filterMap_cons, Call.outcome, State.outcomes] using h.backoff
  | unbound hpc =>
    rw [hpc] at hendpoints
    exact .finish _ (by simpa [Pc.endpoint] using hendpoints) h.waited h.backoff
  | moved pc hpc => exact h.move hpc
  | handled ep hpc =>
    refine ⟨?_, ?_, ?_⟩
    · simpa [List.filterMap_cons, Call.boundEndpoint, Call.closedEndpoint] using hendpoints
    · simpa [List.filterMap_cons, Call.slept, Call.outcome, State.outcomes] using h.waited
    · simpa [List.filterMap_cons, Call.outcome, State.outcomes] using h.backoff
  | closed ep o hpc =>
    rw [hpc] at hendpoints
    refine .finish _ ?_ ?_ ?_
    · simpa [List.filterMap_cons, Call.boundEndpoint, Call.closedEndpoint, Pc.endpoint]
        using hendpoints
    · simpa [List.filterMap_cons, Call.slept, Call.outcome, State.outcomes] using h.waited
    · simpa [List.filterMap_cons, Call.outcome, State.outcomes] using h.backoff

/-- Where a call may go: to the controller, by the ways that were given, and to nobody who would
publish the agent's address. -/
def Call.Aimed (parseUrl : Str → Option U) (cfg : Config K) : Call K U → Prop
  | .bind _ mode lookup =>
    cfg.relay.mode parseUrl = some mode ∧ lookup ≠ .both ∧ (lookup = .resolve ↔ cfg.direct = [])
  | .connect _ addr =>
    addr.id = cfg.controller ∧ (∀ a, .ip a ∈ addr.addrs ↔ a ∈ cfg.direct) ∧
      ∀ url, .relay url ∈ addr.addrs ↔ cfg.relay.firstUrl parseUrl = some (some url)
  | _ => True

omit [DecidableEq U] in
theorem aimed_bind {mode : RelayMode U} (ep : Nat) (hmode : cfg.relay.mode parseUrl = some mode) :
    (Call.bind ep mode cfg.lookup : Call K U).Aimed parseUrl cfg := by
  refine ⟨hmode, ?_, ?_⟩
  · unfold Config.lookup
    split <;> simp
  · unfold Config.lookup
    split <;> simp [*]

theorem aimed_connect {first : Option U} (ep : Nat)
    (hfirst : cfg.relay.firstUrl parseUrl = some first) :
    (Call.connect ep (endpointAddr cfg.controller cfg.direct first)).Aimed parseUrl cfg := by
  refine ⟨endpointAddr_id .., fun a => ?_, fun url => ?_⟩
  · simp [mem_endpointAddr]
  · rw [hfirst]
    simp [mem_endpointAddr]

theorem forall_aimed_step (h : ∀ c ∈ s.calls, c.Aimed parseUrl cfg)
    (hm : s.Moves parseUrl cfg s') : ∀ c ∈ s'.calls, c.Aimed parseUrl cfg := by
  cases hm with
  | bound hpc hmode hfirst =>
    simp only [List.forall_mem_append, List.forall_mem_cons]
    exact ⟨h, aimed_bind _ hmode, aimed_connect _ hfirst, by simp⟩
  | unbound hpc =>
    simp only [State.finish, List.forall_mem_append, List.forall_mem_cons]
    exact ⟨h, trivial, trivial, by simp⟩
  | moved pc hpc => exact h
  | handled ep hpc =>
    simp only [List.forall_mem_append, List.forall_mem_cons]
    exact ⟨h, trivial, by simp⟩
  | closed ep o hpc =>
    simp only [State.finish, List.forall_mem_append, List.forall_mem_cons]
    exact ⟨⟨h, trivial, by simp⟩, trivial, trivial, by simp⟩

theorem forall_aimed {es : List Event} (h : Steps (step parseUrl cfg) always .start es s) :
    ∀ c ∈ s.calls, c.Aimed parseUrl cfg :=
  h.invariant (I := fun s => ∀ c ∈ s.calls, c.Aimed parseUrl cfg)
    (fun _ _ _ _ hstep hi => forall_aimed_step hi (step_moves parseUrl cfg hstep))
    (by simp [State.start])

/-! ## There is always another dial -/

/-- How far the agent is from its next dial. -/
def Pc.left : Pc → Nat
  | .binding => 0
  | .sleeping => 1
  | .closing _ _ => 2
  | _ => 3

/-- Whatever the agent is at, it can get to its next dial. -/
theorem exists_binding (parseUrl : Str → Option U) (cfg : Config K) (s : State K U) :
    ∃ es t, Steps (step parseUrl cfg) always s es t ∧ t.next = s.next ∧ t.pc = .binding := by
  refine exists_steps_to (I := fun t : State K U => t.next = s.next) (fun t => t.pc.left) ?_ rfl
  intro t hnext hpc
  match heq : t.pc with
  | .binding => exact absurd heq hpc
  | .connecting ep =>
    refine ⟨.notConnected, { t with pc := .closing ep .failed }, trivial, ?_, hnext, ?_⟩
    · simp only [step, heq]
    · simp [Pc.left]
  | .admitting ep =>
    refine ⟨.noAdmission, { t with pc := .closing ep .failed }, trivial, ?_, hnext, ?_⟩
    · simp only [step, heq]
    · simp [Pc.left]
  | .serving ep =>
    refine ⟨.connectionEnded, { t with pc := .closing ep .ended }, trivial, ?_, hnext, ?_⟩
    · simp only [step, heq]
    · simp [Pc.left]
  | .closing ep o =>
    refine ⟨.endpointClosed, State.finish { t with calls := t.calls ++ [.close ep] } o, trivial, ?_,
      hnext, ?_⟩
    · simp only [step, heq]
    · simp [State.finish, Pc.left, heq]
  | .sleeping =>
    refine ⟨.woke, { t with pc := .binding }, trivial, ?_, hnext, ?_⟩
    · simp only [step, heq]
    · simp [Pc.left]

theorem exists_dial {mode : RelayMode U} (hmode : cfg.relay.mode parseUrl = some mode)
    (s : State K U) :
    ∃ es t, Steps (step parseUrl cfg) always s es t ∧ t.pc = .connecting s.next := by
  obtain ⟨es, t, hsteps, hnext, hpc⟩ := exists_binding parseUrl cfg s
  obtain ⟨first, hfirst⟩ := RelayChoice.firstUrl_of_mode hmode
  have hbound : step parseUrl cfg t .bound = some (t.bound parseUrl cfg mode) := by
    simp [step, hpc, hmode]
  refine ⟨es ++ [.bound], t.bound parseUrl cfg mode, hsteps.snoc trivial hbound, ?_⟩
  simp [State.bound, hfirst, hnext]

/-- However the network and the controller behave: an agent has at most one endpoint, closes it
before it binds the next and has none while it sleeps; it dials nobody but the controller, by the
ways it was given, and never publishes its own address; its waits are those of its outcomes,
between one second and thirty; and it can always dial again. -/
theorem dials_orderly {es : List Event} (h : Steps (step parseUrl cfg) always .start es s) :
    s.calls.filterMap Call.boundEndpoint =
        s.calls.filterMap Call.closedEndpoint ++ s.pc.endpoint.toList ∧
      (∀ c ∈ s.calls, c.Aimed parseUrl cfg) ∧
      s.calls.filterMap Call.slept = waits [] s.outcomes ∧
      (∀ d ∈ s.calls.filterMap Call.slept, 1 ≤ d ∧ d ≤ 30) ∧
      ∀ mode, cfg.relay.mode parseUrl = some mode →
        ∃ more t, Steps (step parseUrl cfg) always s more t ∧ t.pc = .connecting s.next := by
  have horderly : Orderly s :=
    h.invariant (fun _ _ _ _ hstep hi => hi.step (step_moves parseUrl cfg hstep)) .start
  refine ⟨horderly.endpoints, forall_aimed h, horderly.waited, fun d hd => ?_, ?_⟩
  · rw [horderly.waited] at hd
    exact waits_bounds hd
  · exact fun mode hmode => exists_dial hmode s

end

/-- Two dials that fail, one that finds the agent not yet approved, and a session. -/
def fourDials : List Event :=
  [.bindFailed, .woke, .bound, .notConnected, .endpointClosed, .woke, .bound, .connected,
    .admission false, .endpointClosed, .woke, .bound, .connected, .admission true, .request,
    .connectionEnded, .endpointClosed]

/-- Takes a text for a URL by its scheme. -/
def httpsUrl (text : Str) : Option Str :=
  if text.take 8 = "https://".toList then some text else none

/-- An agent with one relay. -/
def relayed : Config Nat := ⟨7, "k".toList, .urls ["https://relay.example.invalid./".toList], []⟩

theorem dials_orderly_fourDials :
    ∃ s : State Nat Str, Steps (step httpsUrl relayed) always .start fourDials s ∧
      s.outcomes = [.failed, .failed, .pending, .ended] ∧
      s.calls.filterMap Call.closedEndpoint = [0, 1, 2] ∧
      s.calls.filterMap Call.boundEndpoint =
        s.calls.filterMap Call.closedEndpoint ++ s.pc.endpoint.toList ∧
      s.calls.filterMap Call.slept = waits [] s.outcomes ∧ waits [] s.outcomes = [1, 2, 5, 1] := by
  have hrun : (run (step httpsUrl relayed) (.start : State Nat Str) fourDials).map
      (fun s => (s.outcomes, s.calls.filterMap Call.closedEndpoint)) =
      some ([.failed, .failed, .pending, .ended], [0, 1, 2]) := by
    rfl
  obtain ⟨s, hsteps, hview⟩ := exists_steps_of_view hrun
  obtain ⟨houtcomes, hclosed⟩ := Prod.mk.inj hview
  obtain ⟨hendpoints, -, hwaited, -⟩ := dials_orderly hsteps
  exact ⟨s, hsteps, houtcomes, hclosed, hendpoints, hwaited, by rw [houtcomes]; decide⟩

end Egdod.Agent
