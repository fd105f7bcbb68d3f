import Egdod.Copy.Commands
import Egdod.Lib.Channel
import Egdod.Pipe

/-! A forwarded connection from end to end. A client's TCP connection is taken
over by `forward_one`, which asks `route_local` for a stream to an agent and
the agent's `handle` for a connection to the target; from then on three
splices pass bytes along. The messages that set this up travel on the same
streams as the bytes that follow them. -/

namespace Egdod.Pipe

open Posix

/-- All that a direction has read: what it has written on, and what it holds. -/
def Direction.held (d : Direction) : Bytes := d.out ++ d.buf.drop d.pos

/-- What a poll adds to the writer. -/
def Direction.writes (d : Direction) : Event → Bytes
  | .wrote n => (d.buf.drop d.pos).take n
  | _ => []

theorem Direction.held_of_empty {d : Direction} (h : d.buf = []) : d.held = d.out := by
  simp [held, h]

theorem Direction.out_take (d : Direction) (n : Nat) :
    (d.take n).out = d.out ++ (d.buf.drop d.pos).take n := by
  unfold take
  split <;> rfl

/-- What a poll reads is held, and what it writes was. -/
theorem Direction.step_held {d d' : Direction} {e : Event} (hpos : d.pos ≤ d.buf.length)
    (h : d.step e = some d') :
    d'.held = d.held ++ e.bytes ∧ d'.out = d.out ++ d.writes e ∧ d'.pos ≤ d'.buf.length := by
  unfold Direction.step at h
  split at h
  case h_1 bs _ =>
    split_ifs at h
    cases h
    refine ⟨?_, by simp [writes], ?_⟩
    · simp [held, Event.bytes, List.drop_append_of_le_length hpos]
    · simp only [List.length_append]
      omega
  case h_4 n _ =>
    split_ifs at h with hrange hn
    · cases h
      exact ⟨by simp [held, Event.bytes], by simp [writes, hn], hpos⟩
    · cases h
      refine ⟨by simp [held, Event.bytes, take_written], out_take d n, ?_⟩
      rcases take_room hrange.2 with hlt | ⟨hbuf, hzero⟩
      · exact hlt.le
      · simp [hzero]
  case h_8 =>
    cases h
    exact ⟨by simp [held, Event.bytes], by simp [writes], hpos⟩
  case h_9 => cases h
  all_goals
    split_ifs at h <;> cases h <;> exact ⟨by simp [held, Event.bytes], by simp [writes], hpos⟩

end Egdod.Pipe

namespace Egdod.Forward

open Text Posix StepSystem Pipe Stream

/-! ## Messages, piece by piece -/

/-- A length and as many bytes as it says. -/
def Framed (bs : Bytes) : Prop := 4 ≤ bs.length ∧ bs.length = 4 + fromLe32 (bs.take 4)

/-- What `read_msg` asks its stream for: the rest of the length, then the rest of the body. -/
def wanted (got : Bytes) : Nat :=
  if got.length < 4 then 4 - got.length else 4 + fromLe32 (got.take 4) - got.length

inductive Received (T : Type) where
  | more (got : Bytes)
  | done (x : T)
  | bad

/-- Where `read_msg` is once it has read so much. -/
def arrived {T : Type} (codec : Codec T) (got : Bytes) : Received T :=
  if got.length < 4 then .more got
  else if maxMsg < fromLe32 (got.take 4) then .bad
  else if wanted got ≠ 0 then .more got
  else match codec.decode (got.drop 4) with
    | some x => .done x
    | none => .bad

/-- `read_msg` with `got` behind it, on the next bytes of its stream. -/
def receive {T : Type} (codec : Codec T) (got bs : Bytes) : Option (Received T) :=
  if bs ≠ [] ∧ bs.length ≤ wanted got then some (arrived codec (got ++ bs)) else none

section
variable {T : Type} {codec : Codec T} {x : T} {got bs more rest f g a b : Bytes}

theorem framed_writeMsg (h : writeMsg codec x = some bs) : Framed bs := by
  obtain ⟨hle, rfl⟩ := writeMsg_some h
  have hlen : (le32 (codec.encode x).length).length = 4 := rfl
  have hfrom : fromLe32 (le32 (codec.encode x).length) = (codec.encode x).length :=
    fromLe32_le32 (Nat.lt_of_le_of_lt hle (by decide))
  refine ⟨by rw [List.length_append, hlen]; omega, ?_⟩
  rw [List.take_left' hlen, hfrom, List.length_append, hlen]

theorem Framed.ne_nil (h : Framed f) : f ≠ [] := by
  rintro rfl
  simp [Framed] at h

/-- Where a message ends is settled by its first bytes. -/
theorem Framed.cancel (hf : Framed f) (hg : Framed g) (h : f ++ a <+: g ++ b) :
    f = g ∧ a <+: b := by
  have htake : f.take 4 = g.take 4 := by
    obtain ⟨c, hc⟩ := h
    have := congrArg (List.take 4) hc
    rwa [List.append_assoc, List.take_append_of_le_length hf.1,
      List.take_append_of_le_length hg.1] at this
  have hlen : f.length = g.length := by rw [hf.2, hg.2, htake]
  obtain ⟨c, hc⟩ := h
  rw [List.append_assoc] at hc
  obtain ⟨rfl, rfl⟩ := List.append_inj hc hlen
  exact ⟨rfl, List.prefix_append _ _⟩

/-- A whole message at the beginning of what was written is the one that was written. -/
theorem Framed.cancel_framed (hf : Framed f) (h : f ++ rest <+: framed codec x more) :
    codec.decode (f.drop 4) = some x ∧ rest <+: more := by
  unfold framed at h
  cases hbs : writeMsg codec x with
  | none =>
    rw [hbs] at h
    exact absurd (List.append_eq_nil_iff.mp (List.prefix_nil.mp h)).1 hf.ne_nil
  | some bs =>
    rw [hbs] at h
    obtain ⟨rfl, hrest⟩ := hf.cancel (framed_writeMsg hbs) h
    obtain ⟨hfit, rfl⟩ := writeMsg_some hbs
    have hlen : (le32 (codec.encode x).length).length = 4 := rfl
    exact ⟨by rw [List.drop_left' hlen]; exact codec.inverse x hfit, hrest⟩

theorem arrived_done (h : arrived codec got = .done x) :
    4 ≤ got.length ∧ fromLe32 (got.take 4) ≤ maxMsg ∧ wanted got = 0 ∧
      codec.decode (got.drop 4) = some x := by
  unfold arrived at h
  split_ifs at h with hshort hlarge hmore
  split at h
  · rename_i hx
    cases h
    exact ⟨Nat.not_lt.mp hshort, Nat.not_lt.mp hlarge, by simpa using hmore, hx⟩
  · cases h

/-- A message is complete with its last byte and not before. -/
theorem receive_done (h : receive codec got bs = some (.done x)) :
    Framed (got ++ bs) ∧ codec.decode ((got ++ bs).drop 4) = some x := by
  unfold receive at h
  split_ifs at h with hread
  obtain ⟨hfour, -, hzero, hdecode⟩ := arrived_done (Option.some.inj h)
  obtain ⟨hbs, hwanted⟩ := hread
  have hpos : 0 < bs.length := List.length_pos_iff.mpr hbs
  refine ⟨⟨hfour, ?_⟩, hdecode⟩
  unfold wanted at hwanted hzero
  rw [if_neg (Nat.not_lt.mpr hfour)] at hzero
  rw [List.length_append] at hfour hzero ⊢
  split_ifs at hwanted with hgot
  · omega
  · rw [List.take_append_of_le_length (Nat.not_lt.mp hgot)] at hzero ⊢
    omega

/-- A message read in pieces is the message `read_msg` reads. -/
theorem readMsg_of_receive (h : receive codec got bs = some (.done x)) (broken : Bool) :
    ∃ r', readMsg codec ⟨[got, bs], broken⟩ = .ok (x, r') ∧ r'.content = [] := by
  obtain ⟨⟨hfour, hlen⟩, hdecode⟩ := receive_done h
  have hcontent : (⟨[got, bs], broken⟩ : Reader UInt8).content = got ++ bs := by
    simp [Reader.content]
  have hsmall : fromLe32 ((got ++ bs).take 4) ≤ maxMsg := by
    unfold receive at h
    split_ifs at h
    exact (arrived_done (Option.some.inj h)).2.1
  obtain ⟨r₁, hread₁, hrest₁, -⟩ := Reader.readExact_full (r := ⟨[got, bs], broken⟩) (n := 4)
    (by rw [hcontent]; exact hfour)
  rw [hcontent] at hread₁ hrest₁
  obtain ⟨r₂, hread₂, hrest₂, -⟩ := Reader.readExact_full (r := r₁)
    (n := fromLe32 ((got ++ bs).take 4)) (by rw [hrest₁, List.length_drop]; omega)
  have hall : r₁.content.take (fromLe32 ((got ++ bs).take 4)) = (got ++ bs).drop 4 := by
    rw [hrest₁]
    exact List.take_of_length_le (by rw [List.length_drop]; omega)
  refine ⟨r₂, ?_, ?_⟩
  · rw [hall] at hread₂
    simp only [readMsg, readMsgOpt, hread₁, if_pos hsmall, hread₂, hdecode]
  · rw [hrest₂, hrest₁, List.drop_drop]
    exact List.drop_of_length_le (by omega)

end

/-! ## Two connections and a splice between them -/

/-- A connection: the stream towards the target, and the one back. -/
structure Duplex where
  up : Channel UInt8
  down : Channel UInt8

def Duplex.fresh : Duplex := ⟨.fresh, .fresh⟩

/-- A task's connections, on the client's side and on the target's. -/
structure Ends where
  near : Duplex
  far : Duplex

/-- The writers of a task that has returned are dropped. -/
def Ends.drop (c : Ends) : Ends :=
  ⟨{ c.near with down := c.near.down.close }, { c.far with up := c.far.up.close }⟩

def Ends.putNear (c : Ends) (bs : Bytes) : Ends :=
  { c with near := { c.near with down := c.near.down.put bs } }

def Ends.putFar (c : Ends) (bs : Bytes) : Ends :=
  { c with far := { c.far with up := c.far.up.put bs } }

def Ends.readNear (c : Ends) (bs : Bytes) : Option Ends :=
  (c.near.up.read bs).map fun up => { c with near := { c.near with up := up } }

def Ends.readFar (c : Ends) (bs : Bytes) : Option Ends :=
  (c.far.down.read bs).map fun down => { c with far := { c.far with down := down } }

/-- One poll of a direction, with what it does to the stream it reads and the one it writes. -/
def pump (d : Direction) (src dst : Channel UInt8) (e : Event) :
    Option (Direction × Channel UInt8 × Channel UInt8) :=
  (d.step e).bind fun d' =>
    match e with
    | .read bs => (src.read bs).map fun src' => (d', src', dst)
    | .eof => if src.atEnd then some (d', src, dst) else none
    | .wrote _ => some (d', src, dst.put (d.writes e))
    | .shut _ => some (d', src, dst.close)
    | _ => some (d', src, dst)

/-- One poll of a splice. `upSide` is the direction that leads to the target. -/
def Ends.poll (upSide : Side) (pipe : Side → Direction) (c : Ends) (side : Side) (e : Event) :
    Option ((Side → Direction) × Ends) :=
  if side = upSide then
    (pump (pipe side) c.near.up c.far.up e).map fun (d, src, dst) =>
      (Function.update pipe side d, ⟨{ c.near with up := src }, { c.far with up := dst }⟩)
  else
    (pump (pipe side) c.far.down c.near.down e).map fun (d, src, dst) =>
      (Function.update pipe side d, ⟨{ c.near with down := dst }, { c.far with down := src }⟩)

/-- What happens to a task: a call returns, part of a message goes out or comes in, a half of a
splice is polled, or the task is over before its time. -/
inductive TaskEvent where
  | connected (refusal : Option Str)
  | picked (reply : RouteReply)
  | wrote (n : Nat)
  | read (bs : Bytes)
  | poll (side : Side) (e : Event)
  | failed

/-- The rest of a message, once some of it is written. -/
def wrote (left : Bytes) (n : Nat) : Option (Bytes × Bytes) :=
  if 0 < n ∧ n ≤ left.length then some (left.take n, left.drop n) else none

/-! ## The three tasks -/

/-- `forward_one`, with `route`: what is left of the message it writes, or what it has of the
one it reads. -/
inductive Forwarder where
  | connecting
  | routing (left : Bytes)
  | awaiting (got : Bytes)
  | asking (left : Bytes)
  | acking (got : Bytes)
  | splicing (pipe : Side → Direction)
  | ended

/-- `route_local`. -/
inductive Proxy where
  | reading (got : Bytes)
  | picking
  | refusing (left : Bytes)
  | granting (left : Bytes)
  | splicing (pipe : Side → Direction)
  | ended

/-- `handle`, as far as a forward goes. -/
inductive Handler where
  | reading (got : Bytes)
  | connecting (addr : Str)
  | refusing (left : Bytes)
  | acking (left : Bytes)
  | splicing (pipe : Side → Direction)
  | ended

section
variable (codecs : Copy.Codecs) (agent remote : Str)

/-- `forward_one` once it has read something of the reply to its route. -/
def Forwarder.replied (c : Ends) : Received RouteReply → Forwarder × Ends
  | .more got => (.awaiting got, c)
  | .done (.ok _ _ _) =>
    match writeMsg codecs.request (.forward remote) with
    | some msg => (.asking msg, c)
    | none => (.ended, c.drop)
  | .done (.err _) | .bad => (.ended, c.drop)

def Forwarder.acked (c : Ends) : Received Ack → Forwarder × Ends
  | .more got => (.acking got, c)
  | .done .ok => (.splicing Pipe.start, c)
  | .done (.err _) | .bad => (.ended, c.drop)

/-- The far side of `forward_one` is its connection to the control socket. -/
def Forwarder.step (f : Forwarder) (c : Ends) (e : TaskEvent) : Option (Forwarder × Ends) :=
  match f, e with
  | .connecting, .connected none =>
    match writeMsg codecs.route ⟨agent⟩ with
    | some msg => some (.routing msg, c)
    | none => some (.ended, c.drop)
  | .connecting, .connected (some _) => some (.ended, c.drop)
  | .routing left, .wrote n => (wrote left n).map fun (out, left) =>
    (if left = [] then .awaiting [] else .routing left, c.putFar out)
  | .awaiting got, .read bs => (c.readFar bs).bind fun c =>
    (receive codecs.routeReply got bs).map (Forwarder.replied codecs remote c)
  | .asking left, .wrote n => (wrote left n).map fun (out, left) =>
    (if left = [] then .acking [] else .asking left, c.putFar out)
  | .acking got, .read bs => (c.readFar bs).bind fun c =>
    (receive codecs.ack got bs).map (Forwarder.acked c)
  | .splicing pipe, .poll side e =>
    (c.poll .aToB pipe side e).map fun (pipe, c) => (.splicing pipe, c)
  | .ended, _ => none
  | _, .failed => some (.ended, c.drop)
  | _, _ => none

def Proxy.routed (c : Ends) : Received Route → Proxy × Ends
  | .more got => (.reading got, c)
  | .done _ => (.picking, c)
  | .bad => (.ended, c.drop)

/-- The far side of `route_local` is a stream of the agent's connection. -/
def Proxy.step (p : Proxy) (c : Ends) (e : TaskEvent) : Option (Proxy × Ends) :=
  match p, e with
  | .reading got, .read bs => (c.readNear bs).bind fun c =>
    (receive codecs.route got bs).map (Proxy.routed c)
  -- an agent is picked and a stream opened, or the refusal is written
  | .picking, .picked reply =>
    match writeMsg codecs.routeReply reply, reply with
    | some msg, .ok _ _ _ => some (.granting msg, c)
    | some msg, .err _ => some (.refusing msg, c)
    | none, _ => some (.ended, c.drop)
  | .refusing left, .wrote n => (wrote left n).map fun (out, left) =>
    if left = [] then (.ended, (c.putNear out).drop) else (.refusing left, c.putNear out)
  | .granting left, .wrote n => (wrote left n).map fun (out, left) =>
    (if left = [] then .splicing Pipe.start else .granting left, c.putNear out)
  | .splicing pipe, .poll side e =>
    (c.poll .aToB pipe side e).map fun (pipe, c) => (.splicing pipe, c)
  | .ended, _ => none
  | _, .failed => some (.ended, c.drop)
  | _, _ => none

/-- Requests other than a forward open no connection. -/
def Handler.asked (c : Ends) : Received Request → Handler × Ends
  | .more got => (.reading got, c)
  | .done (.forward addr) => (.connecting addr, c)
  | .done _ | .bad => (.ended, c.drop)

/-- The near side of `handle` is the stream of its request, the far side the connection it
makes. The third component is the address it has connected to. -/
def Handler.step (h : Handler) (c : Ends) (dialled : Option Str) (e : TaskEvent) :
    Option (Handler × Ends × Option Str) :=
  match h, e with
  | .reading got, .read bs => (c.readNear bs).bind fun c =>
    (receive codecs.request got bs).map fun received =>
      ((Handler.asked c received).1, (Handler.asked c received).2, dialled)
  | .connecting _, .connected (some error) =>
    match writeMsg codecs.ack (.err error) with
    | some msg => some (.refusing msg, c, dialled)
    | none => some (.ended, c.drop, dialled)
  | .connecting addr, .connected none =>
    match writeMsg codecs.ack .ok with
    | some msg => some (.acking msg, c, some addr)
    | none => some (.ended, c.drop, some addr)
  | .refusing left, .wrote n => (wrote left n).map fun (out, left) =>
    if left = [] then (.ended, (c.putNear out).drop, dialled)
    else (.refusing left, c.putNear out, dialled)
  | .acking left, .wrote n => (wrote left n).map fun (out, left) =>
    (if left = [] then .splicing Pipe.start else .acking left, c.putNear out, dialled)
  | .splicing pipe, .poll side e =>
    (c.poll .bToA pipe side e).map fun (pipe, c) => (.splicing pipe, c, dialled)
  | .ended, _ => none
  | _, .failed => some (.ended, c.drop, dialled)
  | _, _ => none

end

/-! ## The tunnel -/

structure Tunnel where
  tcp : Duplex
  unix : Duplex
  quic : Duplex
  target : Duplex
  forwarder : Forwarder
  proxy : Proxy
  handler : Handler
  /-- The address the agent has connected to. -/
  dialled : Option Str

/-- A connection just taken from the listener. -/
def Tunnel.start : Tunnel :=
  ⟨.fresh, .fresh, .fresh, .fresh, .connecting, .reading [], .reading [], none⟩

inductive Action where
  | client (bs : Bytes)
  | clientEnd
  | target (bs : Bytes)
  | targetEnd
  | forwarder (e : TaskEvent)
  | proxy (e : TaskEvent)
  | handler (e : TaskEvent)

def step (codecs : Copy.Codecs) (agent remote : Str) (s : Tunnel) : Action → Option Tunnel
  | .client bs =>
    if s.tcp.up.closed then none else some { s with tcp := { s.tcp with up := s.tcp.up.put bs } }
  | .clientEnd => some { s with tcp := { s.tcp with up := s.tcp.up.close } }
  | .target bs =>
    if s.dialled = none ∨ s.target.down.closed then none
    else some { s with target := { s.target with down := s.target.down.put bs } }
  | .targetEnd =>
    if s.dialled = none then none
    else some { s with target := { s.target with down := s.target.down.close } }
  | .forwarder e => (s.forwarder.step codecs agent remote ⟨s.tcp, s.unix⟩ e).map fun (f, c) =>
    { s with forwarder := f, tcp := c.near, unix := c.far }
  | .proxy e => (s.proxy.step codecs ⟨s.unix, s.quic⟩ e).map fun (p, c) =>
    { s with proxy := p, unix := c.near, quic := c.far }
  | .handler e => (s.handler.step codecs ⟨s.quic, s.target⟩ s.dialled e).map fun (h, c, dialled) =>
    { s with handler := h, quic := c.near, target := c.far, dialled := dialled }

end Egdod.Forward
