import Egdod.Copy.Intake
import Egdod.Framing
import Egdod.Lib.Peer
import Egdod.Proto

/-! The two ends of a copy: the controller's `push_file` and `pull_file` and
the agent's side of each, as programs on their end of a stream. The sender
makes two passes over its file, and nothing says that they see the same. -/
namespace Egdod.Copy

open Text Posix Stream StepSystem

/-! ## Passes over a file -/

/-- An `io::Error`, as far as it is looked at. -/
structure Io where
  notFound : Bool
  text : Str
  deriving DecidableEq

/-- An open file and what the calls on it give: its mode and whether it is regular, and its
bytes. `error` is what a read that fails reports. -/
structure Pass where
  stat : Except Io (Nat × Bool)
  body : Reader UInt8
  error : Io

/-- What opening a path gives, at one moment. -/
abbrev Opens := Str → Except Io Pass

inductive FileError where
  | opening (e : Io)
  | calling (e : Io)
  | notRegular
  deriving DecidableEq

/-- `format!("{e:#}")`. -/
def FileError.text (path : Str) : FileError → Str
  | .opening e => "opening ".toList ++ path ++ ": ".toList ++ e.text
  | .calling e => e.text
  | .notRegular => path ++ " is not a regular file".toList

/-- The `io::Error` that `downcast_ref` finds, under its context or bare. -/
def FileError.io : FileError → Option Io
  | .opening e | .calling e => some e
  | .notRegular => none

def modeOf (mode : Nat) : UInt32 := .ofNat (mode % 0o10000)

/-- `stat_and_hash`: mode, length and digest, the file read in chunks. -/
def statAndHash (sha : Bytes → Digest) :
    Except Io Pass → Except FileError (UInt32 × UInt64 × Digest)
  | .error e => .error (.opening e)
  | .ok f =>
    match f.stat with
    | .error e => .error (.calling e)
    | .ok (mode, isFile) =>
      if isFile then
        let pieces := f.body.pieces chunk
        let len : UInt64 := pieces.foldl (fun len bs => len + .ofNat bs.length) 0
        if f.body.broken then .error (.calling f.error)
        else .ok (modeOf mode, len, sha pieces.flatten)
      else .error .notRegular

/-! ## Programs -/

inductive Failure where
  | file (e : FileError)
  | connecting
  | tooLarge (len : Nat)
  | writing
  | reading (e : ReadError)
  | noRoute (error : Str)
  | rejected (error : Str)
  | unreadable (error : Str)
  | receiving (e : RecvError)
  deriving DecidableEq

abbrev Program := Peer UInt8 Failure

/-- postcard for the messages of a copy. -/
structure Codecs where
  route : Codec Route
  routeReply : Codec RouteReply
  request : Codec Request
  ack : Codec Ack
  pullStart : Codec PullStart

def write (bs : Bytes) : Program Unit := .put .writing bs

def flush : Program Unit := .put .writing []

def shutdown : Program Unit := .put .writing []

/-- `write_msg`. -/
def send {T : Type} (codec : Codec T) (x : T) : Program Unit :=
  let body := codec.encode x
  if body.length ≤ maxMsg then do
    write (le32 body.length)
    write body
    flush
  else .fail (.tooLarge body.length)

def recv {T : Type} (codec : Codec T) : Program T :=
  .take fun r => (readMsg codec r).mapError .reading

def finish : Program Unit := do
  flush
  shutdown

def writeAll : List Bytes → Program Unit
  | [] => pure ()
  | bs :: rest => do
    write bs
    writeAll rest

/-- `send_file_body`. -/
def sendFileBody : Except Io Pass → Program Unit
  | .error e => .fail (.file (.opening e))
  | .ok f => do
    writeAll (f.body.pieces chunk)
    if f.body.broken then .fail (.file (.calling f.error)) else flush

section
variable (codecs : Codecs) (sha : Bytes → Digest)

def route (agent : Str) : Program Unit := do
  .put .connecting []
  send codecs.route ⟨agent⟩
  match ← recv codecs.routeReply with
  | .ok _ _ _ => pure ()
  | .err e => .fail (.noRoute e)

/-- `push_file`. The file is opened once to hash it and once to send it. -/
def pushFile (hashed sent : Opens) (agent source remote : Str) : Program (UInt64 × Digest) :=
  match statAndHash sha (hashed source) with
  | .error e => .fail (.file e)
  | .ok (mode, len, sha256) => do
    route codecs agent
    send codecs.request (.push remote mode len sha256)
    sendFileBody (sent source)
    finish
    match ← recv codecs.ack with
    | .ok => pure (len, sha256)
    | .err e => .fail (.rejected e)

/-- `pull_file` up to the body, if there is to be one. -/
def pullHead (agent remote : Str) (max : Nat) : Program (Option Transfer) := do
  route codecs agent
  send codecs.request (.pull remote)
  finish
  match ← recv codecs.pullStart with
  | .missing => pure none
  | .err e => .fail (.unreadable e)
  | .ok mode len sha256 => pure (some ⟨len.toNat, sha256, mode.toNat, max⟩)

inductive Pulled where
  | fetched (len : Nat) (sha256 : Digest)
  | missing
  deriving DecidableEq

/-- A call of `pull_file`: over, or receiving the body. -/
inductive Pull where
  | ended (fs : Files Str) (result : Except Failure Pulled)
  | receiving (s : Intake)

def Pull.fs : Pull → Files Str
  | .ended fs _ => fs
  | .receiving s => s.fs

def Pull.result : Pull → Option (Except Failure Pulled)
  | .ended _ result => some result
  | .receiving s => s.call.result.map fun
    | .ok _ => .ok (.fetched s.call.transfer.len s.call.transfer.sha256)
    | .error e => .error (.receiving e)

def Pull.start (agent remote : Str) (max : Nat) (fs : Files Str) (socket : Socket UInt8) : Pull :=
  match pullHead codecs agent remote max socket with
  | (.error e, _) => .ended fs (.error e)
  | (.ok none, _) => .ended fs (.ok .missing)
  | (.ok (some x), socket) => .receiving (.start fs x socket.reader)

def Pull.step (dest : Str) : Pull → Intake.Action → Option Pull
  | .ended _ _, _ => none
  | .receiving s, a => (s.step sha dest a).map .receiving

/-! ## The agent -/

/-- The head of the answer to a pull. Only a file that is not there is missing. -/
def pullStart (path : Str) : Except FileError (UInt32 × UInt64 × Digest) → PullStart
  | .ok (mode, len, sha256) => .ok mode len sha256
  | .error e =>
    match e.io with
    | some io => if io.notFound then .missing else .err (e.text path)
    | none => .err (e.text path)

/-- `handle` for a pull. -/
def handlePull (hashed sent : Opens) (path : Str) : Program Unit := do
  let head := statAndHash sha (hashed path)
  send codecs.pullStart (pullStart path head)
  match head with
  | .error _ => shutdown
  | .ok _ => do
    sendFileBody (sent path)
    shutdown

/-- `handle` for a push answers with what became of the file. -/
def ackOf (text : RecvError → Str) : Except RecvError Unit → Ack
  | .ok _ => .ok
  | .error e => .err (text e)

end

/-! ## Hashing -/

theorem toNat_modeOf (mode : Nat) : (modeOf mode).toNat = mode % 0o10000 := by
  rw [modeOf, UInt32.toNat_ofNat']
  omega

theorem foldl_length (pieces : List Bytes) (len : UInt64) :
    pieces.foldl (fun len bs => len + .ofNat bs.length) len =
      len + .ofNat pieces.flatten.length := by
  induction pieces generalizing len with
  | nil => simp
  | cons bs pieces ih =>
    rw [List.foldl_cons, ih, List.flatten_cons, List.length_append, UInt64.ofNat_add,
      UInt64.add_assoc]

section
variable {codecs : Codecs} {sha : Bytes → Digest} {opened : Except Io Pass}

/-- A digest is of the whole of what a pass read, however it came in. -/
theorem statAndHash_ok {mode : UInt32} {len : UInt64} {sha256 : Digest}
    (h : statAndHash sha opened = .ok (mode, len, sha256)) :
    ∃ f m, opened = .ok f ∧ f.stat = .ok (m, true) ∧ f.body.broken = false ∧
      mode.toNat = m % 0o10000 ∧ len.toNat = f.body.content.length % 2 ^ 64 ∧
      sha256 = sha f.body.content := by
  unfold statAndHash at h
  split at h
  · cases h
  · rename_i f
    split at h
    · cases h
    · rename_i m isFile hstat
      split at h
      · rename_i hfile
        dsimp only at h
        split at h
        · cases h
        · rename_i hbroken
          rw [foldl_length, Reader.flatten_pieces (by decide), UInt64.zero_add] at h
          cases h
          exact ⟨f, m, rfl, hfile ▸ hstat, by simpa using hbroken, toNat_modeOf m,
            UInt64.toNat_ofNat', rfl⟩
      · cases h

theorem pullStart_ok {path : Str} {head : Except FileError (UInt32 × UInt64 × Digest)}
    {mode : UInt32} {len : UInt64} {sha256 : Digest}
    (h : pullStart path head = .ok mode len sha256) : head = .ok (mode, len, sha256) := by
  cases head with
  | ok x =>
    obtain ⟨m, l, d⟩ := x
    cases h
    rfl
  | error e =>
    simp only [pullStart] at h
    split at h
    · split at h <;> cases h
    · cases h

/-- Missing is said of a file only when a call on it reported just that. -/
theorem pullStart_missing {path : Str} (h : pullStart path (statAndHash sha opened) = .missing) :
    (∃ e, opened = .error e ∧ e.notFound = true) ∨
    ∃ f, opened = .ok f ∧ ((∃ e, f.stat = .error e ∧ e.notFound = true) ∨
      f.body.broken = true ∧ f.error.notFound = true) := by
  cases opened with
  | error e =>
    refine .inl ⟨e, rfl, ?_⟩
    by_contra hne
    simp [statAndHash, pullStart, FileError.io, hne] at h
  | ok f =>
    refine .inr ⟨f, rfl, ?_⟩
    simp only [statAndHash] at h
    cases hstat : f.stat with
    | error e =>
      refine .inl ⟨e, rfl, ?_⟩
      by_contra hne
      simp [hstat, pullStart, FileError.io, hne] at h
    | ok x =>
      obtain ⟨m, isFile⟩ := x
      rw [hstat] at h
      cases isFile with
      | false => cases h
      | true =>
        cases hbroken : f.body.broken with
        | false => simp [hbroken, pullStart] at h
        | true =>
          refine .inr ⟨rfl, ?_⟩
          by_contra hne
          simp [hbroken, pullStart, FileError.io, hne] at h

/-! ## What is written -/

/-- The bytes a pass over a file brings. -/
def bodyOf : Except Io Pass → Bytes
  | .ok f => f.body.content
  | .error _ => []

open Peer (Writes)

theorem writes_flush : Writes flush [] := .put _ _

theorem writes_finish : Writes finish [] := writes_flush.bind fun _ => .put _ _

theorem writes_send_bind {T α : Type} {codec : Codec T} {x : T} {f : Unit → Program α} {w : Bytes}
    (hf : ∀ u, Writes (f u) w) : Writes (send codec x >>= f) (framed codec x w) := by
  unfold framed writeMsg send
  dsimp only
  split
  · exact Writes.bind (Writes.bind (.put _ _) fun _ => Writes.bind_left (.put _ _) fun _ =>
      writes_flush) hf
  · exact (Writes.fail _ _).bind_stuck (.fail _)

theorem stuck_send {T : Type} {codec : Codec T} {x : T} (h : writeMsg codec x = none) :
    Peer.Stuck (send codec x) := by
  unfold writeMsg at h
  unfold send
  dsimp only at h ⊢
  split at h
  · cases h
  · rw [if_neg ‹_›]
    exact .fail _

theorem writes_recv {T : Type} (codec : Codec T) : Writes (recv codec) [] := .take _

theorem writes_writeAll (pieces : List Bytes) : Writes (writeAll pieces) pieces.flatten := by
  induction pieces with
  | nil => exact .pure _
  | cons bs pieces ih => exact Writes.bind (.put _ _) fun _ => ih

theorem writes_sendFileBody (opened : Except Io Pass) :
    Writes (sendFileBody opened) (bodyOf opened) := by
  cases opened with
  | error e => exact .fail _ _
  | ok f =>
    have hall := writes_writeAll (f.body.pieces chunk)
    rw [Reader.flatten_pieces (by decide)] at hall
    refine hall.bind_left fun _ => ?_
    split
    · exact .fail _ _
    · exact writes_flush

theorem writes_route_bind {α : Type} {agent : Str} {f : Unit → Program α} {w : Bytes}
    (hf : ∀ u, Writes (f u) w) :
    Writes (route codecs agent >>= f) (framed codecs.route ⟨agent⟩ w) := by
  have hroute : Writes (route codecs agent) (framed codecs.route ⟨agent⟩ []) := by
    refine Writes.bind_right (.put _ _) fun _ => writes_send_bind fun _ =>
      (writes_recv _).bind_right fun reply => ?_
    cases reply with
    | ok => exact .pure _
    | err e => exact .fail _ _
  unfold framed at hroute ⊢
  cases hbs : writeMsg codecs.route ⟨agent⟩ with
  | some bs =>
    simp only [hbs, List.append_nil] at hroute
    exact hroute.bind hf
  | none =>
    rw [hbs] at hroute
    exact hroute.bind_stuck (.bind_right fun _ => .bind_left (stuck_send hbs))

variable {hashed sent : Opens} {agent source remote path : Str}

theorem writes_pushFile {mode : UInt32} {len : UInt64} {sha256 : Digest}
    (h : statAndHash sha (hashed source) = .ok (mode, len, sha256)) :
    Writes (pushFile codecs sha hashed sent agent source remote)
      (framed codecs.route ⟨agent⟩
        (framed codecs.request (.push remote mode len sha256) (bodyOf (sent source)))) := by
  unfold pushFile
  rw [h]
  refine writes_route_bind fun _ => writes_send_bind fun _ =>
    (writes_sendFileBody _).bind_left fun _ => writes_finish.bind_right fun _ =>
    (writes_recv _).bind_right fun ack => ?_
  cases ack with
  | ok => exact .pure _
  | err e => exact .fail _ _

theorem writes_pullHead {max : Nat} :
    Writes (pullHead codecs agent remote max)
      (framed codecs.route ⟨agent⟩ (framed codecs.request (.pull remote) [])) := by
  refine writes_route_bind fun _ => writes_send_bind fun _ =>
    writes_finish.bind_right fun _ => (writes_recv _).bind_right fun start => ?_
  cases start with
  | ok | missing => exact .pure _
  | err e => exact .fail _ _

/-- The body an agent sends after the head of its answer. -/
def pullBody (sha : Bytes → Digest) (hashed sent : Opens) (path : Str) : Bytes :=
  match statAndHash sha (hashed path) with
  | .ok _ => bodyOf (sent path)
  | .error _ => []

theorem writes_handlePull :
    Writes (handlePull codecs sha hashed sent path)
      (framed codecs.pullStart (pullStart path (statAndHash sha (hashed path)))
        (pullBody sha hashed sent path)) := by
  refine writes_send_bind fun _ => ?_
  unfold pullBody
  cases statAndHash sha (hashed path) with
  | ok => exact (writes_sendFileBody _).bind_left fun _ => .put _ _
  | error e => exact .put _ _

/-! ## What was read by a program that ended well -/

section
variable {s s' : Socket UInt8}

theorem recv_ok {T : Type} {codec : Codec T} {x : T} (h : recv codec s = (.ok x, s')) :
    readMsg codec s.reader = .ok (x, s'.reader) := by
  have := Peer.take_ok h
  cases hread : readMsg codec s.reader with
  | ok y => simpa [hread, Except.mapError] using this
  | error e => simp [hread, Except.mapError] at this

theorem send_ok {T : Type} {codec : Codec T} {x : T} {u : Unit} (h : send codec x s = (.ok u, s')) :
    s'.reader = s.reader := by
  unfold send at h
  split at h
  · obtain ⟨_, s₁, h₁, h⟩ := Peer.bind_ok h
    obtain ⟨_, s₂, h₂, h⟩ := Peer.bind_ok h
    rw [Peer.put_ok h, Peer.put_ok h₂, Peer.put_ok h₁]
  · cases h

theorem finish_ok {u : Unit} (h : finish s = (.ok u, s')) : s'.reader = s.reader := by
  obtain ⟨_, s₁, h₁, h⟩ := Peer.bind_ok h
  rw [Peer.put_ok h, Peer.put_ok h₁]

theorem writeAll_ok {pieces : List Bytes} {u : Unit} (h : writeAll pieces s = (.ok u, s')) :
    s'.reader = s.reader := by
  induction pieces generalizing s with
  | nil =>
    cases h
    rfl
  | cons bs pieces ih =>
    obtain ⟨_, s₁, h₁, h⟩ := Peer.bind_ok h
    rw [ih h, Peer.put_ok h₁]

theorem sendFileBody_ok {u : Unit} (h : sendFileBody opened s = (.ok u, s')) :
    s'.reader = s.reader := by
  cases opened with
  | error e => cases h
  | ok f =>
    obtain ⟨_, s₁, h₁, h⟩ := Peer.bind_ok h
    split at h
    · cases h
    · rw [Peer.put_ok h, writeAll_ok h₁]

theorem route_ok {u : Unit} (h : route codecs agent s = (.ok u, s')) :
    ∃ id path addr, readMsg codecs.routeReply s.reader = .ok (.ok id path addr, s'.reader) := by
  obtain ⟨_, s₁, h₁, h⟩ := Peer.bind_ok h
  obtain ⟨_, s₂, h₂, h⟩ := Peer.bind_ok h
  obtain ⟨reply, s₃, h₃, h⟩ := Peer.bind_ok h
  cases reply with
  | ok id path addr =>
    cases h
    refine ⟨id, path, addr, ?_⟩
    rw [← Peer.put_ok h₁, ← send_ok h₂]
    exact recv_ok h₃
  | err e => cases h

/-- A push that ended well hashed a file and was told that it arrived. -/
theorem pushFile_ok {len : UInt64} {sha256 : Digest}
    (h : pushFile codecs sha hashed sent agent source remote s = (.ok (len, sha256), s')) :
    ∃ mode id path addr r r', statAndHash sha (hashed source) = .ok (mode, len, sha256) ∧
      readMsg codecs.routeReply s.reader = .ok (.ok id path addr, r) ∧
      readMsg codecs.ack r = .ok (.ok, r') := by
  unfold pushFile at h
  cases hhash : statAndHash sha (hashed source) with
  | error e =>
    rw [hhash] at h
    cases h
  | ok head =>
    obtain ⟨mode, len', sha'⟩ := head
    rw [hhash] at h
    obtain ⟨_, s₁, h₁, h⟩ := Peer.bind_ok h
    obtain ⟨_, s₂, h₂, h⟩ := Peer.bind_ok h
    obtain ⟨_, s₃, h₃, h⟩ := Peer.bind_ok h
    obtain ⟨_, s₄, h₄, h⟩ := Peer.bind_ok h
    obtain ⟨ack, s₅, h₅, h⟩ := Peer.bind_ok h
    cases ack with
    | ok =>
      cases h
      obtain ⟨id, path, addr, hroute⟩ := route_ok h₁
      refine ⟨mode, id, path, addr, s₁.reader, s'.reader, rfl, hroute, ?_⟩
      rw [← send_ok h₂, ← sendFileBody_ok h₃, ← finish_ok h₄]
      exact recv_ok h₅
    | err e => cases h

theorem pullHead_ok {max : Nat} {x : Option Transfer}
    (h : pullHead codecs agent remote max s = (.ok x, s')) :
    ∃ id path addr r start, readMsg codecs.routeReply s.reader = .ok (.ok id path addr, r) ∧
      readMsg codecs.pullStart r = .ok (start, s'.reader) ∧
      (start = .missing ∧ x = none ∨
        ∃ mode len sha256, start = .ok mode len sha256 ∧
          x = some ⟨len.toNat, sha256, mode.toNat, max⟩) := by
  obtain ⟨_, s₁, h₁, h⟩ := Peer.bind_ok h
  obtain ⟨_, s₂, h₂, h⟩ := Peer.bind_ok h
  obtain ⟨_, s₃, h₃, h⟩ := Peer.bind_ok h
  obtain ⟨start, s₄, h₄, h⟩ := Peer.bind_ok h
  obtain ⟨id, path, addr, hroute⟩ := route_ok h₁
  have hstart : readMsg codecs.pullStart s₁.reader = .ok (start, s₄.reader) := by
    rw [← send_ok h₂, ← finish_ok h₃]
    exact recv_ok h₄
  cases start with
  | missing =>
    cases h
    exact ⟨id, path, addr, _, _, hroute, hstart, .inl ⟨rfl, rfl⟩⟩
  | err e => cases h
  | ok mode len sha256 =>
    cases h
    exact ⟨id, path, addr, _, _, hroute, hstart, .inr ⟨mode, len, sha256, rfl, rfl⟩⟩

/-! ## Runs of a pull -/

theorem Pull.start_cases (codecs : Codecs) (agent remote : Str) (max : Nat) (fs : Files Str)
    (s : Socket UInt8) :
    (∃ e, Pull.start codecs agent remote max fs s = .ended fs (.error e)) ∨
    ∃ id path addr r start rest, readMsg codecs.routeReply s.reader = .ok (.ok id path addr, r) ∧
      readMsg codecs.pullStart r = .ok (start, rest) ∧
      (start = .missing ∧
          Pull.start codecs agent remote max fs s = .ended fs (.ok .missing) ∨
        ∃ mode len sha256, start = .ok mode len sha256 ∧
          Pull.start codecs agent remote max fs s =
            .receiving (.start fs ⟨len.toNat, sha256, mode.toNat, max⟩ rest)) := by
  unfold Pull.start
  split
  · rename_i e _ _
    exact .inl ⟨e, rfl⟩
  · rename_i s' h
    obtain ⟨id, path, addr, r, start, hroute, hstart, hx⟩ := pullHead_ok h
    refine .inr ⟨id, path, addr, r, start, s'.reader, hroute, hstart, ?_⟩
    rcases hx with ⟨rfl, -⟩ | ⟨_, _, _, _, hx⟩
    · exact .inl ⟨rfl, rfl⟩
    · cases hx
  · rename_i x s' h
    obtain ⟨id, path, addr, r, start, hroute, hstart, hx⟩ := pullHead_ok h
    refine .inr ⟨id, path, addr, r, start, s'.reader, hroute, hstart, ?_⟩
    rcases hx with ⟨-, hx⟩ | ⟨mode, len, sha256, rfl, hx⟩
    · cases hx
    · cases hx
      exact .inr ⟨mode, len, sha256, rfl, rfl⟩

theorem Pull.steps_ended {dest : Str} {fs : Files Str} {result : Except Failure Pulled} {q : Pull}
    {as : List Intake.Action} (h : Steps (Pull.step sha dest) always (.ended fs result) as q) :
    q = .ended fs result ∧ as = [] := by
  cases h with
  | nil => exact ⟨rfl, rfl⟩
  | cons _ hstep _ => cases hstep

theorem Pull.steps_receiving {dest : Str} {s : Intake} {q : Pull} {as : List Intake.Action}
    (h : Steps (Pull.step sha dest) always (.receiving s) as q) :
    ∃ t, q = .receiving t ∧ Steps (Intake.step sha dest) always s as t := by
  induction as generalizing s with
  | nil =>
    cases h
    exact ⟨s, rfl, .nil⟩
  | cons a as ih =>
    cases h with
    | cons _ hstep hrest =>
      obtain ⟨s', hs, rfl⟩ := Option.map_eq_some_iff.mp hstep
      obtain ⟨t, rfl, ht⟩ := ih hrest
      exact ⟨t, rfl, .cons trivial hs ht⟩

end

end

end Egdod.Copy
