import Egdod.State.Approved
import Egdod.Proto

/-! One agent connection as `serve` handles it: its accept handler, the two
watchers the handler spawns, and the agent at the other end. `Link.next` is
everything that happens to a connection without touching what connections
share. -/
namespace Egdod.Controller

open Text Posix State

/-- `Acceptor::accept`, at the step it makes next. `publishing` stands for
the call of `publish_sessions`. -/
inductive HandlerPc where
  | check
  | sendPending
  | waitClosed
  | sendApproved
  | insert
  | publishing
  | spawnPaths
  | spawnCloser
  | returned
  | aborted
  deriving DecidableEq, Repr

/-- The task that waits for the connection to close. -/
inductive CloserPc where
  | absent
  | waiting
  | publishing
  | finished
  deriving DecidableEq, Repr

/-- The task that publishes path changes; it starts `path_changes` first. -/
inductive ReceiverPc where
  | absent
  | starting
  | waiting
  | publishing
  deriving DecidableEq, Repr

/-- `(was, now, remote)`. -/
abbrev PathChange := PathKind × PathKind × Str

/-- The task `path_changes` spawns, with the label it last reported. -/
inductive WatcherPc where
  | absent
  | subscribe
  | label
  | watching (last : PathKind)
  | sending (change : PathChange)
  | ended
  deriving DecidableEq, Repr

/-- The channel of `path_changes` holds this many. -/
def pathChanges : Nat := 8

structure Link (K : Type) where
  peer : K
  /-- The endpoint the connection came in on. -/
  generation : Nat
  stableId : Nat
  isOpen : Bool := true
  /-- The agent has given the connection up. -/
  gaveUp : Bool := false
  path : Option Path
  handler : HandlerPc := .check
  /-- What the handler's read of `approved` returned. -/
  checked : Option (Except IoError Bytes) := none
  /-- The handler has put the connection into the session map. -/
  inserted : Bool := false
  closer : CloserPc := .absent
  receiver : ReceiverPc := .absent
  watcher : WatcherPc := .absent
  /-- Path events the watcher has not taken yet. -/
  events : Bool := false
  queue : List PathChange := []
  /-- The admission on the wire, and as the agent read it. -/
  sent : Option Admission := none
  admission : Option Admission := none

/-- How `send_admission` ends. A send that fails may still arrive. -/
inductive SendResult where
  | sent
  | failed (arrives : Bool)
  deriving DecidableEq, Repr

inductive LinkEvent where
  | giveUp
  | close
  | path (now : Option Path)
  | spark
  | check (readable : Bool)
  | send (result : SendResult)
  | closed
  | spawnPaths
  | spawnCloser
  | startPaths
  | subscribe
  | label
  | wakePaths
  | enqueue
  | endPaths
  | readAdmission
  deriving DecidableEq

/-- Path events reach a watcher from its subscription on. -/
def WatcherPc.subscribed : WatcherPc → Bool
  | .label => true
  | .watching _ => true
  | .sending _ => true
  | _ => false

section
variable {K : Type}

/-- A connection as its handler is started on it. -/
def Link.dialled (peer : K) (generation stableId : Nat) (path : Option Path) : Link K :=
  { peer, generation, stableId, path }

/-- The kind a report of the connection would show. -/
def Link.kind (l : Link K) : PathKind := (sessionPathReport l.path).1

/-- `send_admission`. An error returns from the handler, which drops the only
handle on the connection and so closes it. -/
def Link.deliver (l : Link K) (admission : Admission) (result : SendResult) (next : HandlerPc) :
    Link K :=
  match result with
  | .sent => { l with sent := some admission, handler := next }
  | .failed arrives => { l with
      sent := if arrives then some admission else l.sent
      handler := .returned
      isOpen := false }

variable [DecidableEq K] [KeyText K]

/-- The approval check, on what the read of `approved` returned. -/
def Link.check (l : Link K) (read : Except IoError Bytes) : Link K :=
  { l with
    checked := some read
    handler := if l.peer ∈ (approvedSet read : Finset K) then .sendApproved else .sendPending }

theorem Link.check_cases (l : Link K) (read : Except IoError Bytes) :
    (l.peer ∈ (approvedSet read : Finset K) ∧
      l.check read = { l with checked := some read, handler := .sendApproved }) ∨
    (l.peer ∉ (approvedSet read : Finset K) ∧
      l.check read = { l with checked := some read, handler := .sendPending }) := by
  by_cases h : l.peer ∈ (approvedSet read : Finset K)
  · exact .inl ⟨h, by simp [Link.check, h]⟩
  · exact .inr ⟨h, by simp [Link.check, h]⟩

/-- One step of a connection's own tasks, its agent or its network. -/
def Link.next (file : Option Bytes) (l : Link K) : LinkEvent → Option (Link K)
  | .giveUp => some { l with gaveUp := true }
  | .close => some { l with isOpen := false }
  | .path now => some { l with path := now, events := l.events || l.watcher.subscribed }
  -- an event that does not change the selected path
  | .spark => some { l with events := l.events || l.watcher.subscribed }
  | .check readable =>
    if l.handler = .check then
      some (l.check (if readable then ofEntry file else .error .other))
    else none
  | .send result =>
    match l.handler with
    | .sendPending => some (l.deliver .pending result .waitClosed)
    | .sendApproved => some (l.deliver .approved result .insert)
    | _ => none
  | .closed =>
    if l.handler = .waitClosed ∧ l.isOpen = false then some { l with handler := .returned }
    else none
  | .spawnPaths =>
    if l.handler = .spawnPaths then
      some { l with receiver := .starting, handler := .spawnCloser }
    else none
  | .spawnCloser =>
    if l.handler = .spawnCloser then some { l with closer := .waiting, handler := .returned }
    else none
  | .startPaths =>
    if l.receiver = .starting then some { l with receiver := .waiting, watcher := .subscribe }
    else none
  | .subscribe => if l.watcher = .subscribe then some { l with watcher := .label } else none
  | .label => if l.watcher = .label then some { l with watcher := .watching l.kind } else none
  | .wakePaths =>
    match l.watcher, l.events with
    | .watching last, true => some { l with
        events := false
        watcher := if l.kind = last then .watching last
          else .sending (last, sessionPathReport l.path) }
    | _, _ => none
  | .enqueue =>
    match l.watcher with
    | .sending (was, now, remote) =>
      if l.queue.length < pathChanges then
        some { l with queue := l.queue ++ [(was, now, remote)], watcher := .watching now }
      else none
    | _ => none
  -- the event stream ends with the connection
  | .endPaths =>
    match l.watcher, l.isOpen with
    | .watching _, false => some { l with watcher := .ended }
    | _, _ => none
  | .readAdmission =>
    match l.admission, l.sent with
    | none, some admission => some { l with admission := some admission }
    | _, _ => none

/-- Every way `Link.next` moves, with the facts its branch was taken on. -/
inductive Link.Moves (file : Option Bytes) (l : Link K) : LinkEvent → Link K → Prop
  | giveUp : Moves file l .giveUp { l with gaveUp := true }
  | close : Moves file l .close { l with isOpen := false }
  | path now : Moves file l (.path now)
      { l with path := now, events := l.events || l.watcher.subscribed }
  | spark : Moves file l .spark { l with events := l.events || l.watcher.subscribed }
  | check readable : l.handler = .check → Moves file l (.check readable)
      (l.check (if readable then ofEntry file else .error .other))
  | sendPending result : l.handler = .sendPending → Moves file l (.send result)
      (l.deliver .pending result .waitClosed)
  | sendApproved result : l.handler = .sendApproved → Moves file l (.send result)
      (l.deliver .approved result .insert)
  | closed : l.handler = .waitClosed → l.isOpen = false → Moves file l .closed
      { l with handler := .returned }
  | spawnPaths : l.handler = .spawnPaths → Moves file l .spawnPaths
      { l with receiver := .starting, handler := .spawnCloser }
  | spawnCloser : l.handler = .spawnCloser → Moves file l .spawnCloser
      { l with closer := .waiting, handler := .returned }
  | startPaths : l.receiver = .starting → Moves file l .startPaths
      { l with receiver := .waiting, watcher := .subscribe }
  | subscribe : l.watcher = .subscribe → Moves file l .subscribe { l with watcher := .label }
  | label : l.watcher = .label → Moves file l .label { l with watcher := .watching l.kind }
  | wakePaths last : l.watcher = .watching last → l.events = true → Moves file l .wakePaths
      { l with
        events := false
        watcher := if l.kind = last then .watching last
          else .sending (last, sessionPathReport l.path) }
  | enqueue was now remote : l.watcher = .sending (was, now, remote) →
      Moves file l .enqueue
        { l with queue := l.queue ++ [(was, now, remote)], watcher := .watching now }
  | endPaths last : l.watcher = .watching last → l.isOpen = false →
      Moves file l .endPaths { l with watcher := .ended }
  | readAdmission a : l.admission = none → l.sent = some a →
      Moves file l .readAdmission { l with admission := some a }

theorem Link.next_moves {file : Option Bytes} {l l' : Link K} {e : LinkEvent}
    (h : l.next file e = some l') : l.Moves file e l' := by
  cases e <;> simp only [Link.next] at h
  case giveUp => cases h; exact .giveUp
  case close => cases h; exact .close
  case path now => cases h; exact .path now
  case spark => cases h; exact .spark
  case check readable =>
    split at h
    · cases h; exact .check readable ‹_›
    · cases h
  case send result =>
    split at h
    · cases h; exact .sendPending result ‹_›
    · cases h; exact .sendApproved result ‹_›
    · cases h
  case closed =>
    split at h
    · rename_i hc
      cases h; exact .closed hc.1 hc.2
    · cases h
  case spawnPaths =>
    split at h
    · cases h; exact .spawnPaths ‹_›
    · cases h
  case spawnCloser =>
    split at h
    · cases h; exact .spawnCloser ‹_›
    · cases h
  case startPaths =>
    split at h
    · cases h; exact .startPaths ‹_›
    · cases h
  case subscribe =>
    split at h
    · cases h; exact .subscribe ‹_›
    · cases h
  case label =>
    split at h
    · cases h; exact .label ‹_›
    · cases h
  case wakePaths =>
    split at h
    · rename_i last hw he
      cases h; exact .wakePaths last hw he
    · cases h
  case enqueue =>
    split at h
    · rename_i was now remote hw
      split at h
      · cases h; exact .enqueue was now remote hw
      · cases h
    · cases h
  case endPaths =>
    split at h
    · rename_i last hw ho
      cases h; exact .endPaths last hw ho
    · cases h
  case readAdmission =>
    split at h
    · rename_i a ha hs
      cases h; exact .readAdmission a ha hs
    · cases h

end

/-- What nothing that happens to a connection takes back. -/
structure Link.Later {K : Type} (l l' : Link K) : Prop where
  peer : l'.peer = l.peer
  generation : l'.generation = l.generation
  stableId : l'.stableId = l.stableId
  closed : l.isOpen = false → l'.isOpen = false
  gaveUp : l.gaveUp = true → l'.gaveUp = true
  inserted : l.inserted = true → l'.inserted = true
  admission : ∀ a, l.admission = some a → l'.admission = some a

theorem Link.Later.refl {K : Type} (l : Link K) : l.Later l :=
  ⟨rfl, rfl, rfl, id, id, id, fun _ => id⟩

theorem Link.Moves.later {K : Type} [DecidableEq K] [KeyText K] {file : Option Bytes}
    {l l' : Link K} {e : LinkEvent} (h : l.Moves file e l') : l.Later l' := by
  cases h with
  | sendPending result | sendApproved result =>
    cases result <;> exact ⟨rfl, rfl, rfl, by simp [Link.deliver], id, id, fun _ => id⟩
  | readAdmission a hnone => exact ⟨rfl, rfl, rfl, id, id, id, by simp [hnone]⟩
  | giveUp => exact ⟨rfl, rfl, rfl, id, fun _ => rfl, id, fun _ => id⟩
  | close => exact ⟨rfl, rfl, rfl, fun _ => rfl, id, id, fun _ => id⟩
  | _ => exact ⟨rfl, rfl, rfl, id, id, id, fun _ => id⟩

/-! ## Everything that happens to one connection

What other tasks do to it on top of `Link.next`. -/

/-- `ep.close` closes every connection of the endpoint. -/
def Link.shut {K : Type} (generation : Nat) (l : Link K) : Link K :=
  if l.generation = generation then { l with isOpen := false } else l

/-- Whose step it is that changes a connection. -/
inductive Cause where
  | event (e : LinkEvent)
  | insert
  | wakeCloser
  | recv
  | abort
  | other

/-- Every way a connection changes. -/
inductive Link.Changes {K : Type} [DecidableEq K] [KeyText K] (file : Option Bytes) (l : Link K) :
    Cause → Link K → Prop
  | same : Changes file l .other l
  | event {e l'} : l.Moves file e l' → Changes file l (.event e) l'
  | inserted : l.handler = .insert →
      Changes file l .insert { l with handler := .publishing, inserted := true }
  | removed : l.closer = .waiting → l.isOpen = false →
      Changes file l .wakeCloser { l with closer := .publishing }
  | stale : l.closer = .waiting → l.isOpen = false →
      Changes file l .wakeCloser { l with closer := .finished }
  | received {change queue} : l.queue = change :: queue → l.receiver = .waiting →
      Changes file l .recv { l with queue := queue, receiver := .publishing }
  | handlerResumed : l.handler = .publishing →
      Changes file l .other { l with handler := .spawnPaths }
  | closerResumed : l.closer = .publishing → Changes file l .other { l with closer := .finished }
  | pathsResumed : l.receiver = .publishing → Changes file l .other { l with receiver := .waiting }
  | aborted : l.handler ≠ .returned → Changes file l .abort { l with handler := .aborted }
  | shut generation : Changes file l .other (l.shut generation)

theorem Link.Changes.later {K : Type} [DecidableEq K] [KeyText K] {file : Option Bytes}
    {l l' : Link K} {cause : Cause} (h : l.Changes file cause l') : l.Later l' := by
  cases h with
  | event hm => exact hm.later
  | inserted => exact ⟨rfl, rfl, rfl, id, id, fun _ => rfl, fun _ => id⟩
  | shut generation =>
    unfold Link.shut
    split
    · exact ⟨rfl, rfl, rfl, fun _ => rfl, id, id, fun _ => id⟩
    · exact .refl l
  | _ => exact ⟨rfl, rfl, rfl, id, id, id, fun _ => id⟩

end Egdod.Controller
