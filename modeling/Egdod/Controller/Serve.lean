import Egdod.Controller.Link
import Egdod.Controller.Sessions
import Egdod.Lib.Run

/-! `serve` as a whole: connections and their tasks, the session map,
`status.json`, the endpoint restart, and the requests routed to agents. Each
action is one step of one task; a run is any interleaving. -/
namespace Egdod.Controller

open Text Posix State StepSystem

/-- An entry of the sessions list of `status.json`. -/
structure SessionInfo where
  agent : Str
  path : PathKind
  remote : Str
  sinceUnix : Nat
  deriving DecidableEq

/-- The tasks that call `publish_sessions`, and the restart code, which
clears the map and then the published list. -/
inductive Who where
  | handler (c : Nat)
  | closer (c : Nat)
  | paths (c : Nat)
  | canary (generation : Nat)
  | main
  deriving DecidableEq, Repr

/-- A call of `publish_sessions`: due to take the lock of the map, reading the
sessions under it, or holding its snapshot on its way to the lock of the
status. Snapshots are numbered. -/
inductive Publish where
  | idle
  | due
  | reading
  | holding (seq : Nat) (list : List SessionInfo)
  deriving DecidableEq

/-- The main loop: serving, then on a restart waiting for the router and the
endpoint, about to clear the map, about to clear the status, rebinding. -/
inductive Phase where
  | serving
  | stopping
  | clearing
  | cleared
  | rebinding
  deriving DecidableEq, Repr

/-- `route_local`, one for each local client. -/
inductive RoutePc (K : Type) where
  | waiting (selector : Str)
  | picked (key : K) (conn : Nat)
  | opened (key : K) (conn : Nat)
  | failed
  deriving DecidableEq

/-- A snapshot under way: whose, the sessions whose path is still to be read,
and what the others gave. -/
structure Reading (K : Type) where
  who : Who
  left : List (Sigma fun _ : K => Session)
  got : List SessionInfo

structure Serve (K : Type) where
  links : List (Link K) := []
  sessions : Sessions K := ∅
  approvedFile : Option Bytes
  phase : Phase := .serving
  generation : Nat := 0
  publish : Who → Publish := fun _ => .idle
  /-- The snapshot under way. It has the lock of the map, but paths are not
  under that lock. -/
  reading : Option (Reading K) := none
  /-- The sessions list of the `Status` behind the lock, and of the file. -/
  inner : List SessionInfo := []
  file : List SessionInfo := []
  /-- Snapshots taken so far, the last of them, and the number of the one that
  was stored last. -/
  clock : Nat := 0
  snap : List SessionInfo := []
  stored : Nat := 0
  routes : List (RoutePc K) := []
  executed : List (Nat × Request) := []

inductive Action (K : Type) where
  | dial (peer : K) (stableId : Nat) (path : Option Path)
  | link (c : Nat) (e : LinkEvent)
  | insert (c since : Nat)
  | wakeCloser (c : Nat)
  | recv (c : Nat)
  | snapshot (who : Who) (order : List (Sigma fun _ : K => Session))
  | read (who : Who)
  | store (who : Who) (written : Bool)
  | touch (written : Bool)
  | tick (generation : Nat)
  | restart
  | abort (c : Nat)
  | abortCanary (generation : Nat)
  | shut
  | clear
  | rebind
  | edit (file : Option Bytes)
  | route (selector : Str)
  | pick (r : Nat)
  | openBi (r : Nat) (opened : Bool)
  | execute (r : Nat) (request : Request)

section
variable {K : Type}

/-- The report on a session's connection, as `publish_sessions` makes it. -/
def Serve.report (s : Serve K) (conn : Nat) : Path :=
  sessionPathReport ((s.links[conn]?).bind (·.path))

variable [KeyText K]

def Serve.info (s : Serve K) (e : Sigma fun _ : K => Session) : SessionInfo :=
  ⟨text e.1, (s.report e.2.conn).1, (s.report e.2.conn).2, e.2.since⟩

/-- What a snapshot taken now would list. -/
def Serve.listing (s : Serve K) : List SessionInfo := s.sessions.entries.map s.info

end

section
variable {K : Type}

/-- A publish is called. A task makes one call at a time. -/
def Serve.call (s : Serve K) (who : Who) : Serve K :=
  { s with publish := Function.update s.publish who .due }

def Serve.setLink (s : Serve K) (c : Nat) (l : Link K) : Serve K :=
  { s with links := s.links.set c l }

theorem getElem?_setLink {s : Serve K} {c : Nat} {l : Link K} (hl : s.links[c]? = some l)
    (l' : Link K) (c' : Nat) :
    (s.setLink c l').links[c']? = if c' = c then some l' else s.links[c']? := by
  have hlt : c < s.links.length := (List.getElem?_eq_some_iff.mp hl).1
  by_cases h : c' = c
  · simp [Serve.setLink, h, hlt]
  · simp [Serve.setLink, h, Ne.symm h]

/-- The caller of a publish goes on. -/
def Who.resumeLinks (links : List (Link K)) : Who → List (Link K)
  | .handler c => links.modify c fun l =>
      if l.handler = .publishing then { l with handler := .spawnPaths } else l
  | .closer c => links.modify c fun l =>
      if l.closer = .publishing then { l with closer := .finished } else l
  | .paths c => links.modify c fun l =>
      if l.receiver = .publishing then { l with receiver := .waiting } else l
  | _ => links

def Who.resumePhase (phase : Phase) (who : Who) : Phase :=
  if who = .main ∧ phase = .cleared then .rebinding else phase

def Serve.resume (s : Serve K) (who : Who) : Serve K :=
  { s with links := who.resumeLinks s.links, phase := who.resumePhase s.phase }

theorem resumePhase_cases (phase : Phase) (who : Who) :
    who.resumePhase phase = phase ∨ (phase = .cleared ∧ who.resumePhase phase = .rebinding) := by
  unfold Who.resumePhase
  split
  · rename_i h
    exact .inr ⟨h.2, rfl⟩
  · exact .inl rfl

variable [DecidableEq K] [KeyText K]

def step (s : Serve K) : Action K → Option (Serve K)
  | .dial peer stableId path =>
    if s.phase = .serving then
      some { s with links := s.links ++ [.dialled peer s.generation stableId path] }
    else none
  | .link c e =>
    (s.links[c]?).bind fun l => (l.next s.approvedFile e).map fun l' => s.setLink c l'
  | .insert c since =>
    (s.links[c]?).bind fun l =>
      if l.handler = .insert ∧ s.publish (.handler c) = .idle ∧ s.reading.isNone then
        some (({ s with sessions := s.sessions.insert l.peer ⟨c, l.stableId, since⟩ }.setLink c
          { l with handler := .publishing, inserted := true }).call (.handler c))
      else none
  | .wakeCloser c =>
    (s.links[c]?).bind fun l =>
      if l.closer = .waiting ∧ l.isOpen = false ∧ s.publish (.closer c) = .idle ∧
          s.reading.isNone then
        -- only the session this connection made, not one that replaced it
        match s.sessions.lookup l.peer with
        | some session =>
          if session.id = l.stableId then
            some (({ s with sessions := s.sessions.erase l.peer }.setLink c
              { l with closer := .publishing }).call (.closer c))
          else some (s.setLink c { l with closer := .finished })
        | none => some (s.setLink c { l with closer := .finished })
      else none
  | .recv c =>
    (s.links[c]?).bind fun l =>
      match l.queue with
      | [] => none
      | _ :: queue =>
        if l.receiver = .waiting ∧ s.publish (.paths c) = .idle then
          some ((s.setLink c { l with queue := queue, receiver := .publishing }).call (.paths c))
        else none
  | .snapshot who order =>
    if s.publish who = .due ∧ order.Perm s.sessions.entries ∧ s.reading.isNone then
      some { s with
        reading := some ⟨who, order, []⟩
        publish := Function.update s.publish who .reading }
    else none
  | .read who =>
    match s.reading with
    | some ⟨reader, left, got⟩ =>
      if who = reader then
        match left with
        | e :: left => some { s with reading := some ⟨who, left, got ++ [s.info e]⟩ }
        | [] => some { s with
            clock := s.clock + 1
            snap := got
            reading := none
            publish := Function.update s.publish who (.holding (s.clock + 1) got) }
      else none
    | none => none
  | .store who written =>
    match s.publish who with
    | .holding seq list =>
      some ({ s with
        inner := list
        file := if written then list else s.file
        stored := seq
        publish := Function.update s.publish who .idle }.resume who)
    | _ => none
  -- any other status update writes the sessions list as it is
  | .touch written => some { s with file := if written then s.inner else s.file }
  | .tick generation =>
    if generation ≤ s.generation ∧ s.publish (.canary generation) = .idle then
      some (s.call (.canary generation))
    else none
  | .restart => if s.phase = .serving then some { s with phase := .stopping } else none
  | .abort c =>
    (s.links[c]?).bind fun l =>
      -- a task is aborted only where it waits
      if s.phase ≠ .serving ∧ l.handler ≠ .returned ∧ s.publish (.handler c) ≠ .reading then
        some { s.setLink c { l with handler := .aborted } with
          publish := Function.update s.publish (.handler c) .idle }
      else none
  | .abortCanary generation =>
    if (s.phase ≠ .serving ∨ generation < s.generation) ∧
        s.publish (.canary generation) ≠ .reading then
      some { s with publish := Function.update s.publish (.canary generation) .idle }
    else none
  | .shut =>
    if s.phase = .stopping then
      some { s with links := s.links.map (Link.shut s.generation), phase := .clearing }
    else none
  | .clear =>
    if s.phase = .clearing ∧ s.reading.isNone then
      some { s with
        sessions := ∅
        clock := s.clock + 1
        snap := []
        publish := Function.update s.publish .main (.holding (s.clock + 1) [])
        phase := .cleared }
    else none
  | .rebind =>
    if s.phase = .rebinding then some { s with phase := .serving, generation := s.generation + 1 }
    else none
  | .edit file => some { s with approvedFile := file }
  | .route selector => some { s with routes := s.routes ++ [.waiting selector] }
  | .pick r =>
    match s.routes[r]? with
    | some (.waiting selector) =>
      if s.reading.isNone then
        match pick s.sessions selector with
        | .ok (key, conn) => some { s with routes := s.routes.set r (.picked key conn) }
        | .error _ => some { s with routes := s.routes.set r .failed }
      else none
    | _ => none
  | .openBi r opened =>
    match s.routes[r]? with
    | some (.picked key conn) =>
      some { s with routes := s.routes.set r (if opened then .opened key conn else .failed) }
    | _ => none
  -- the agent takes a stream only once it serves the connection
  | .execute r request =>
    match s.routes[r]? with
    | some (.opened _ conn) =>
      (s.links[conn]?).bind fun l =>
        if l.admission = some .approved then
          some { s with executed := s.executed ++ [(conn, request)] }
        else none
    | _ => none

/-! ## What one step can do -/

/-- Every way `serve` moves, with the facts its branch was taken on. -/
inductive Serve.Moves (s : Serve K) : Action K → Serve K → Prop
  | dial peer stableId path : s.phase = .serving → Moves s (.dial peer stableId path)
      { s with links := s.links ++ [.dialled peer s.generation stableId path] }
  | link c e {l l'} : s.links[c]? = some l → l.Moves s.approvedFile e l' →
      Moves s (.link c e) (s.setLink c l')
  | insert c since {l} : s.links[c]? = some l → l.handler = .insert →
      s.publish (.handler c) = .idle → s.reading = none → Moves s (.insert c since)
        (({ s with sessions := s.sessions.insert l.peer ⟨c, l.stableId, since⟩ }.setLink c
          { l with handler := .publishing, inserted := true }).call (.handler c))
  | removed c {l session} : s.links[c]? = some l → l.closer = .waiting → l.isOpen = false →
      s.publish (.closer c) = .idle → s.sessions.lookup l.peer = some session →
      session.id = l.stableId → s.reading = none → Moves s (.wakeCloser c)
        (({ s with sessions := s.sessions.erase l.peer }.setLink c
          { l with closer := .publishing }).call (.closer c))
  | stale c {l} : s.links[c]? = some l → l.closer = .waiting → l.isOpen = false →
      (∀ session, s.sessions.lookup l.peer = some session → session.id ≠ l.stableId) →
      Moves s (.wakeCloser c) (s.setLink c { l with closer := .finished })
  | recv c {l change queue} : s.links[c]? = some l → l.queue = change :: queue →
      l.receiver = .waiting → s.publish (.paths c) = .idle → Moves s (.recv c)
        ((s.setLink c { l with queue := queue, receiver := .publishing }).call (.paths c))
  | snapshot who order : s.publish who = .due → order.Perm s.sessions.entries →
      s.reading = none → Moves s (.snapshot who order) { s with
        reading := some ⟨who, order, []⟩
        publish := Function.update s.publish who .reading }
  | read who {e left got} : s.reading = some ⟨who, e :: left, got⟩ →
      Moves s (.read who) { s with reading := some ⟨who, left, got ++ [s.info e]⟩ }
  | taken who {got} : s.reading = some ⟨who, [], got⟩ → Moves s (.read who) { s with
      clock := s.clock + 1
      snap := got
      reading := none
      publish := Function.update s.publish who (.holding (s.clock + 1) got) }
  | store who written {seq list} : s.publish who = .holding seq list →
      Moves s (.store who written) ({ s with
        inner := list
        file := if written then list else s.file
        stored := seq
        publish := Function.update s.publish who .idle }.resume who)
  | touch written : Moves s (.touch written)
      { s with file := if written then s.inner else s.file }
  | tick generation : s.publish (.canary generation) = .idle →
      Moves s (.tick generation) (s.call (.canary generation))
  | restart : s.phase = .serving → Moves s .restart { s with phase := .stopping }
  | abort c {l} : s.links[c]? = some l → s.phase ≠ .serving → l.handler ≠ .returned →
      s.publish (.handler c) ≠ .reading →
      Moves s (.abort c) { s.setLink c { l with handler := .aborted } with
        publish := Function.update s.publish (.handler c) .idle }
  | abortCanary generation : s.publish (.canary generation) ≠ .reading →
      Moves s (.abortCanary generation)
        { s with publish := Function.update s.publish (.canary generation) .idle }
  | shut : s.phase = .stopping → Moves s .shut
      { s with links := s.links.map (Link.shut s.generation), phase := .clearing }
  | clear : s.phase = .clearing → s.reading = none → Moves s .clear { s with
      sessions := ∅
      clock := s.clock + 1
      snap := []
      publish := Function.update s.publish .main (.holding (s.clock + 1) [])
      phase := .cleared }
  | rebind : s.phase = .rebinding → Moves s .rebind
      { s with phase := .serving, generation := s.generation + 1 }
  | edit file : Moves s (.edit file) { s with approvedFile := file }
  | route selector : Moves s (.route selector)
      { s with routes := s.routes ++ [.waiting selector] }
  | picked r {selector key conn} : s.routes[r]? = some (.waiting selector) →
      pick s.sessions selector = .ok (key, conn) →
      Moves s (.pick r) { s with routes := s.routes.set r (.picked key conn) }
  | missed r : Moves s (.pick r) { s with routes := s.routes.set r .failed }
  | openBi r opened {key conn} : s.routes[r]? = some (.picked key conn) →
      Moves s (.openBi r opened)
        { s with routes := s.routes.set r (if opened then .opened key conn else .failed) }
  | execute r request {key conn l} : s.routes[r]? = some (.opened key conn) →
      s.links[conn]? = some l → l.admission = some .approved →
      Moves s (.execute r request) { s with executed := s.executed ++ [(conn, request)] }

theorem step_moves {s s' : Serve K} {a : Action K} (h : step s a = some s') : s.Moves a s' := by
  cases a <;> simp only [step] at h
  case dial peer stableId path =>
    split at h
    · cases h; exact .dial peer stableId path ‹_›
    · cases h
  case link c e =>
    obtain ⟨l, hl, hrest⟩ := Option.bind_eq_some_iff.mp h
    obtain ⟨l', hnext, rfl⟩ := Option.map_eq_some_iff.mp hrest
    exact .link c e hl (Link.next_moves hnext)
  case insert c since =>
    obtain ⟨l, hl, hrest⟩ := Option.bind_eq_some_iff.mp h
    split at hrest
    · rename_i hc
      cases hrest
      exact .insert c since hl hc.1 hc.2.1 (Option.isNone_iff_eq_none.mp hc.2.2)
    · cases hrest
  case wakeCloser c =>
    obtain ⟨l, hl, hrest⟩ := Option.bind_eq_some_iff.mp h
    split at hrest
    · rename_i hc
      split at hrest
      · rename_i session hlook
        split at hrest
        · cases hrest
          exact .removed c hl hc.1 hc.2.1 hc.2.2.1 hlook ‹_› (Option.isNone_iff_eq_none.mp hc.2.2.2)
        · cases hrest; exact .stale c hl hc.1 hc.2.1 (by simp_all)
      · cases hrest; exact .stale c hl hc.1 hc.2.1 (by simp_all)
    · cases hrest
  case recv c =>
    obtain ⟨l, hl, hrest⟩ := Option.bind_eq_some_iff.mp h
    split at hrest
    · cases hrest
    · rename_i change queue hq
      split at hrest
      · rename_i hc
        cases hrest; exact .recv c hl hq hc.1 hc.2
      · cases hrest
  case snapshot who order =>
    split at h
    · rename_i hc
      cases h; exact .snapshot who order hc.1 hc.2.1 (Option.isNone_iff_eq_none.mp hc.2.2)
    · cases h
  case read who =>
    split at h
    · rename_i reader left got hr
      split at h
      · rename_i hwho
        subst hwho
        split at h
        · cases h; exact .read who hr
        · cases h; exact .taken who hr
      · cases h
    · cases h
  case store who written =>
    split at h
    · cases h; exact .store who written ‹_›
    · cases h
  case touch written => cases h; exact .touch written
  case tick generation =>
    split at h
    · rename_i hc
      cases h; exact .tick generation hc.2
    · cases h
  case restart =>
    split at h
    · cases h; exact .restart ‹_›
    · cases h
  case abort c =>
    obtain ⟨l, hl, hrest⟩ := Option.bind_eq_some_iff.mp h
    split at hrest
    · rename_i hc
      cases hrest; exact .abort c hl hc.1 hc.2.1 hc.2.2
    · cases hrest
  case abortCanary generation =>
    split at h
    · rename_i hc
      cases h; exact .abortCanary generation hc.2
    · cases h
  case shut =>
    split at h
    · cases h; exact .shut ‹_›
    · cases h
  case clear =>
    split at h
    · rename_i hc
      cases h; exact .clear hc.1 (Option.isNone_iff_eq_none.mp hc.2)
    · cases h
  case rebind =>
    split at h
    · cases h; exact .rebind ‹_›
    · cases h
  case edit file => cases h; exact .edit file
  case route selector => cases h; exact .route selector
  case pick r =>
    split at h
    · rename_i selector hr
      split at h
      · split at h
        · cases h; exact .picked r hr ‹_›
        · cases h; exact .missed r
      · cases h
    · cases h
  case openBi r opened =>
    split at h
    · cases h; exact .openBi r opened ‹_›
    · cases h
  case execute r request =>
    split at h
    · rename_i key conn hr
      obtain ⟨l, hl, hrest⟩ := Option.bind_eq_some_iff.mp h
      split at hrest
      · cases hrest; exact .execute r request hr hl ‹_›
      · cases hrest
    · cases h

/-- The action a change of connection `c` belongs to. -/
def Cause.Of (a : Action K) (c : Nat) : Cause → Prop
  | .event e => a = .link c e
  | .insert => ∃ since, a = .insert c since
  | .wakeCloser => a = .wakeCloser c
  | .recv => a = .recv c
  | .abort => a = .abort c
  | .other => True

def Link.ChangesBy (s : Serve K) (a : Action K) (c : Nat) (l l' : Link K) : Prop :=
  ∃ cause : Cause, l.Changes s.approvedFile cause l' ∧ cause.Of a c

theorem Link.ChangesBy.later {s : Serve K} {a : Action K} {c : Nat} {l l' : Link K}
    (h : l.ChangesBy s a c l') : l.Later l' :=
  h.choose_spec.1.later

/-- Replacing one connection changes that one and no other. -/
theorem setLink_changes {s t : Serve K} {a : Action K} {c c' : Nat} {l l' x : Link K}
    (hl : t.links[c]? = some l) (hc : l.ChangesBy s a c l') (hx : t.links[c']? = some x) :
    ∃ x', (t.setLink c l').links[c']? = some x' ∧ x.ChangesBy s a c' x' := by
  rw [getElem?_setLink hl]
  by_cases h : c' = c
  · subst h
    cases hl.symm.trans hx
    exact ⟨l', by simp, hc⟩
  · exact ⟨x, by simp [h, hx], .other, .same, trivial⟩

theorem modify_changes {s : Serve K} {a : Action K} {links : List (Link K)} {c c' : Nat}
    {f : Link K → Link K} {x : Link K} (hf : ∀ l, Link.Changes s.approvedFile l .other (f l))
    (hx : links[c']? = some x) :
    ∃ x', (links.modify c f)[c']? = some x' ∧ x.ChangesBy s a c' x' := by
  by_cases h : c = c'
  · exact ⟨f x, by simp [h, hx], .other, hf x, trivial⟩
  · exact ⟨x, by simp [h, hx], .other, .same, trivial⟩

/-- A connection that is there stays, changed or not. -/
theorem Serve.Moves.link_to {s s' : Serve K} {a : Action K} (h : s.Moves a s') {c : Nat}
    {l : Link K} (hl : s.links[c]? = some l) :
    ∃ l', s'.links[c]? = some l' ∧ l.ChangesBy s a c l' := by
  have unchanged : ∃ l', s.links[c]? = some l' ∧ l.ChangesBy s a c l' :=
    ⟨l, hl, .other, .same, trivial⟩
  cases h with
  | dial peer stableId path =>
    have hlt : c < s.links.length := (List.getElem?_eq_some_iff.mp hl).1
    exact ⟨l, by rw [List.getElem?_append_left hlt]; exact hl, .other, .same, trivial⟩
  | link c' e hl' hm => exact setLink_changes hl' ⟨.event e, .event hm, rfl⟩ hl
  | insert c' since hl' hpc => exact setLink_changes hl' ⟨.insert, .inserted hpc, since, rfl⟩ hl
  | removed c' hl' hpc ho => exact setLink_changes hl' ⟨.wakeCloser, .removed hpc ho, rfl⟩ hl
  | stale c' hl' hpc ho => exact setLink_changes hl' ⟨.wakeCloser, .stale hpc ho, rfl⟩ hl
  | recv c' hl' hq hpc => exact setLink_changes hl' ⟨.recv, .received hq hpc, rfl⟩ hl
  | abort c' hl' _ hpc => exact setLink_changes hl' ⟨.abort, .aborted hpc, rfl⟩ hl
  | shut => exact ⟨l.shut s.generation, by simp [hl], .other, .shut _, trivial⟩
  | store who written =>
    cases who with
    | handler c' =>
      refine modify_changes (fun x => ?_) hl
      split
      · exact .handlerResumed ‹_›
      · exact .same
    | closer c' =>
      refine modify_changes (fun x => ?_) hl
      split
      · exact .closerResumed ‹_›
      · exact .same
    | paths c' =>
      refine modify_changes (fun x => ?_) hl
      split
      · exact .pathsResumed ‹_›
      · exact .same
    | canary | main => exact unchanged
  | _ => exact unchanged

/-- Connections come from `dial` only. -/
theorem Serve.Moves.link_of {s s' : Serve K} {a : Action K} (h : s.Moves a s') {c : Nat}
    {l' : Link K} (hl' : s'.links[c]? = some l') :
    (∃ l : Link K, s.links[c]? = some l ∧ l.ChangesBy s a c l') ∨
    ∃ peer stableId path, a = .dial peer stableId path ∧ c = s.links.length ∧
      s.phase = .serving ∧ l' = .dialled peer s.generation stableId path := by
  by_cases hlt : c < s.links.length
  · obtain ⟨x', hx', hc⟩ := h.link_to (List.getElem?_eq_getElem hlt)
    cases hl'.symm.trans hx'
    exact .inl ⟨_, List.getElem?_eq_getElem hlt, hc⟩
  · have same : s'.links.length = s.links.length → False := fun he =>
      hlt (he ▸ (List.getElem?_eq_some_iff.mp hl').1)
    cases h with
    | dial peer stableId path hp =>
      have hlen : c = s.links.length := by
        have := (List.getElem?_eq_some_iff.mp hl').1
        simp only [List.length_append, List.length_singleton] at this
        omega
      subst hlen
      exact .inr ⟨peer, stableId, path, rfl, rfl, hp, by simpa using hl'.symm⟩
    | store who written =>
      exact absurd (by cases who <;> simp [Serve.resume, Who.resumeLinks]) same
    | _ => exact absurd (by simp [Serve.setLink, Serve.call]) same

end

end Egdod.Controller
