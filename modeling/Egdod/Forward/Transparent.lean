import Egdod.Forward.Tunnel
import Egdod.Postcard

/-! What comes out of a tunnel is what went in. Each task is followed by what
it has read and written; the three accounts are put together where the streams
meet, and there the messages cancel: each task takes off a stream exactly the
message that the one before it put there. -/
namespace Egdod.Forward

open Text Posix StepSystem Pipe

/-! ## What a task does to its streams -/

/-- What a task has read from its connections and written to them. -/
structure View where
  nearRead : Bytes
  nearWrote : Bytes
  farRead : Bytes
  farWrote : Bytes

def Ends.view (c : Ends) : View :=
  ⟨c.near.up.taken, c.near.down.sent, c.far.down.taken, c.far.up.sent⟩

/-- What a task leaves to the parties at the other ends of its connections. -/
structure Ends.Leaves (c c' : Ends) : Prop where
  nearUp : c'.near.up.sent = c.near.up.sent
  nearDown : c'.near.down.taken = c.near.down.taken
  farUp : c'.far.up.taken = c.far.up.taken
  farDown : c'.far.down.sent = c.far.down.sent

theorem Ends.Leaves.refl (c : Ends) : c.Leaves c := ⟨rfl, rfl, rfl, rfl⟩

theorem Ends.Leaves.drop {c c' : Ends} (h : c.Leaves c') : c.Leaves c'.drop :=
  ⟨h.nearUp, h.nearDown, h.farUp, h.farDown⟩

@[simp] theorem Ends.view_drop (c : Ends) : c.drop.view = c.view := rfl

@[simp] theorem Ends.view_putNear (c : Ends) (bs : Bytes) :
    (c.putNear bs).view = { c.view with nearWrote := c.view.nearWrote ++ bs } := by
  simp [Ends.putNear, Ends.view]

@[simp] theorem Ends.view_putFar (c : Ends) (bs : Bytes) :
    (c.putFar bs).view = { c.view with farWrote := c.view.farWrote ++ bs } := by
  simp [Ends.putFar, Ends.view]

theorem Ends.leaves_putNear (c : Ends) (bs : Bytes) : c.Leaves (c.putNear bs) :=
  ⟨rfl, rfl, rfl, rfl⟩

theorem Ends.leaves_putFar (c : Ends) (bs : Bytes) : c.Leaves (c.putFar bs) :=
  ⟨rfl, rfl, rfl, rfl⟩

theorem Ends.readNear_eq_some {c c' : Ends} {bs : Bytes} (h : c.readNear bs = some c') :
    c'.view = { c.view with nearRead := c.view.nearRead ++ bs } ∧ c.Leaves c' := by
  obtain ⟨up, hread, rfl⟩ := Option.map_eq_some_iff.mp h
  exact ⟨by simp [Ends.view, Channel.taken_read hread], Channel.sent_read hread, rfl, rfl, rfl⟩

theorem Ends.readFar_eq_some {c c' : Ends} {bs : Bytes} (h : c.readFar bs = some c') :
    c'.view = { c.view with farRead := c.view.farRead ++ bs } ∧ c.Leaves c' := by
  obtain ⟨down, hread, rfl⟩ := Option.map_eq_some_iff.mp h
  exact ⟨by simp [Ends.view, Channel.taken_read hread], rfl, rfl, rfl, Channel.sent_read hread⟩

/-- A direction behind the messages that came before it on either stream. -/
structure Carries (before ahead : Bytes) (d : Direction) (taken sent : Bytes) : Prop where
  room : d.pos ≤ d.buf.length
  taken : taken = before ++ d.held
  sent : sent = ahead ++ d.out

theorem Carries.start (before ahead : Bytes) : Carries before ahead .start before ahead :=
  ⟨Nat.le_refl _, by simp [Direction.start, Direction.held], by simp [Direction.start]⟩

theorem Carries.out_isPrefix {before ahead taken sent : Bytes} {d : Direction}
    (h : Carries before ahead d taken sent) : sent <+: ahead ++ d.held := by
  rw [h.sent, Direction.held, ← List.append_assoc]
  exact List.prefix_append _ _

section
variable {d d' : Direction} {src src' dst dst' : Channel UInt8} {e : Event}

/-- A poll reads what it holds from then on, and writes what it held. -/
theorem pump_eq_some (h : pump d src dst e = some (d', src', dst')) :
    d.step e = some d' ∧ src'.taken = src.taken ++ e.bytes ∧ src'.sent = src.sent ∧
      dst'.sent = dst.sent ++ d.writes e ∧ dst'.taken = dst.taken := by
  obtain ⟨d₁, hstep, h⟩ := Option.bind_eq_some_iff.mp h
  cases e with
  | read bs =>
    obtain ⟨src₁, hread, h⟩ := Option.map_eq_some_iff.mp h
    cases h
    exact ⟨hstep, Channel.taken_read hread, Channel.sent_read hread, by simp [Direction.writes],
      rfl⟩
  | eof =>
    dsimp only at h
    split_ifs at h
    cases h
    exact ⟨hstep, by simp [Event.bytes], rfl, by simp [Direction.writes], rfl⟩
  | wrote n =>
    cases h
    exact ⟨hstep, by simp [Event.bytes], rfl, Channel.sent_put, rfl⟩
  | readError | writeError | flushed | flushError | shut =>
    cases h
    exact ⟨hstep, by simp [Event.bytes], rfl, by simp [Direction.writes], rfl⟩

theorem Carries.pump {before ahead : Bytes} (hcarry : Carries before ahead d src.taken dst.sent)
    (h : pump d src dst e = some (d', src', dst')) :
    Carries before ahead d' src'.taken dst'.sent := by
  obtain ⟨hstep, htaken, -, hsent, -⟩ := pump_eq_some h
  obtain ⟨hheld, hout, hroom⟩ := Direction.step_held hcarry.room hstep
  refine ⟨hroom, ?_, ?_⟩
  · rw [htaken, hheld, hcarry.taken, List.append_assoc]
  · rw [hsent, hout, hcarry.sent, List.append_assoc]

end

/-- Both directions of a splice behind the messages before them. -/
structure Splices (upSide downSide : Side) (nearBefore farAhead farBefore nearAhead : Bytes)
    (pipe : Side → Direction) (v : View) : Prop where
  up : Carries nearBefore farAhead (pipe upSide) v.nearRead v.farWrote
  down : Carries farBefore nearAhead (pipe downSide) v.farRead v.nearWrote

section
variable {upSide downSide side : Side} {pipe pipe' : Side → Direction} {c c' : Ends} {e : Event}
  {nearBefore farAhead farBefore nearAhead : Bytes}

theorem Splices.poll (hne : upSide ≠ downSide)
    (hs : Splices upSide downSide nearBefore farAhead farBefore nearAhead pipe c.view)
    (h : c.poll upSide pipe side e = some (pipe', c')) :
    Splices upSide downSide nearBefore farAhead farBefore nearAhead pipe' c'.view := by
  unfold Ends.poll at h
  split_ifs at h with hside
  · subst hside
    obtain ⟨⟨d, src, dst⟩, hpump, h⟩ := Option.map_eq_some_iff.mp h
    cases h
    refine ⟨?_, ?_⟩
    · rw [Function.update_self]
      exact hs.up.pump hpump
    · rw [Function.update_of_ne hne.symm]
      exact hs.down
  · have hdown : side = downSide := by
      cases side <;> cases upSide <;> cases downSide <;> simp_all
    subst hdown
    obtain ⟨⟨d, src, dst⟩, hpump, h⟩ := Option.map_eq_some_iff.mp h
    cases h
    refine ⟨?_, ?_⟩
    · rw [Function.update_of_ne hne]
      exact hs.up
    · rw [Function.update_self]
      exact hs.down.pump hpump

theorem Ends.leaves_poll (h : c.poll upSide pipe side e = some (pipe', c')) : c.Leaves c' := by
  unfold Ends.poll at h
  split_ifs at h
  · obtain ⟨⟨d, src, dst⟩, hpump, h⟩ := Option.map_eq_some_iff.mp h
    cases h
    obtain ⟨-, -, hsrc, -, hdst⟩ := pump_eq_some hpump
    exact ⟨hsrc, rfl, hdst, rfl⟩
  · obtain ⟨⟨d, src, dst⟩, hpump, h⟩ := Option.map_eq_some_iff.mp h
    cases h
    obtain ⟨-, -, hsrc, -, hdst⟩ := pump_eq_some hpump
    exact ⟨rfl, hdst, rfl, hsrc⟩

end

theorem receive_more {T : Type} {codec : Codec T} {got bs got' : Bytes}
    (h : receive codec got bs = some (.more got')) : got' = got ++ bs := by
  unfold receive at h
  split_ifs at h
  have h := Option.some.inj h
  unfold arrived at h
  split_ifs at h
  · exact (Received.more.inj h).symm
  · exact (Received.more.inj h).symm
  · split at h <;> cases h

theorem wrote_eq_some {left out left' : Bytes} {n : Nat} (h : wrote left n = some (out, left')) :
    left = out ++ left' := by
  unfold wrote at h
  split_ifs at h
  cases h
  exact (List.take_append_drop n left).symm

/-! ## The forwarder -/

section
variable (codecs : Copy.Codecs) (agent remote : Str)

/-- What a forwarder has passed on at any time, ended or not. The client's connection is not
touched before an acknowledgement has been read. -/
def Forwarder.Passes (v : View) : Prop :=
  v.farWrote <+: framed codecs.route ⟨agent⟩ (framed codecs.request (.forward remote) v.nearRead) ∧
  (v.nearRead = [] ∧ v.nearWrote = [] ∨
    ∃ f g rest, Framed f ∧ Framed g ∧ codecs.ack.decode (g.drop 4) = some .ok ∧
      v.farRead = f ++ (g ++ rest) ∧ v.nearWrote <+: rest)

/-- What a forwarder has read and written when it is where it is. -/
def Forwarder.Ok (v : View) : Forwarder → Prop
  | .connecting => v = ⟨[], [], [], []⟩
  | .routing left => ∃ sent, v = ⟨[], [], [], sent⟩ ∧
      writeMsg codecs.route ⟨agent⟩ = some (sent ++ left)
  | .awaiting got => ∃ sent, v = ⟨[], [], got, sent⟩ ∧ writeMsg codecs.route ⟨agent⟩ = some sent
  | .asking left => ∃ got r sent, v = ⟨[], [], got, r ++ sent⟩ ∧ Framed got ∧
      writeMsg codecs.route ⟨agent⟩ = some r ∧
      writeMsg codecs.request (.forward remote) = some (sent ++ left)
  | .acking got => ∃ f r q, v = ⟨[], [], f ++ got, r ++ q⟩ ∧ Framed f ∧
      writeMsg codecs.route ⟨agent⟩ = some r ∧ writeMsg codecs.request (.forward remote) = some q
  | .splicing pipe => ∃ f g r q, Framed f ∧ Framed g ∧ codecs.ack.decode (g.drop 4) = some .ok ∧
      writeMsg codecs.route ⟨agent⟩ = some r ∧
      writeMsg codecs.request (.forward remote) = some q ∧
      Splices .aToB .bToA [] (r ++ q) (f ++ g) [] pipe v
  | .ended => Forwarder.Passes codecs agent remote v

end

section
variable {codecs : Copy.Codecs} {agent remote : Str} {v : View}

theorem framed_eq {T : Type} {codec : Codec T} {x : T} {bs : Bytes} (h : writeMsg codec x = some bs)
    (more : Bytes) : framed codec x more = bs ++ more := by
  rw [framed, h]

/-- A forwarder that has written part of a message. -/
theorem Forwarder.passes_of_part {r sent got : Bytes}
    (h : writeMsg codecs.route ⟨agent⟩ = some r) (hsent : sent <+: r) :
    Forwarder.Passes codecs agent remote ⟨[], [], got, sent⟩ := by
  refine ⟨?_, .inl ⟨rfl, rfl⟩⟩
  rw [framed_eq h]
  exact hsent.trans (List.prefix_append _ _)

theorem Forwarder.passes_of_parts {r q sent got : Bytes}
    (hr : writeMsg codecs.route ⟨agent⟩ = some r)
    (hq : writeMsg codecs.request (.forward remote) = some q) (hsent : sent <+: q) :
    Forwarder.Passes codecs agent remote ⟨[], [], got, r ++ sent⟩ := by
  refine ⟨?_, .inl ⟨rfl, rfl⟩⟩
  rw [framed_eq hr, framed_eq hq]
  exact (List.prefix_append_right_inj r).mpr (hsent.trans (List.prefix_append _ _))

theorem Forwarder.Ok.passes {f : Forwarder} (h : f.Ok codecs agent remote v) :
    Forwarder.Passes codecs agent remote v := by
  cases f with
  | connecting =>
    subst h
    exact ⟨List.nil_prefix, .inl ⟨rfl, rfl⟩⟩
  | routing left =>
    obtain ⟨sent, rfl, hr⟩ := h
    exact passes_of_part hr (List.prefix_append _ _)
  | awaiting got =>
    obtain ⟨sent, rfl, hr⟩ := h
    exact passes_of_part hr (List.prefix_refl _)
  | asking left =>
    obtain ⟨got, r, sent, rfl, -, hr, hq⟩ := h
    exact passes_of_parts hr hq (List.prefix_append _ _)
  | acking got =>
    obtain ⟨f, r, q, rfl, -, hr, hq⟩ := h
    exact passes_of_parts hr hq (List.prefix_refl _)
  | splicing pipe =>
    obtain ⟨f, g, r, q, hf, hg, hack, hr, hq, hs⟩ := h
    refine ⟨?_, .inr ⟨f, g, (pipe .bToA).held, hf, hg, hack, ?_, ?_⟩⟩
    · rw [framed_eq hr, framed_eq hq, ← List.append_assoc, hs.up.taken]
      exact hs.up.out_isPrefix
    · rw [hs.down.taken, List.append_assoc]
    · exact hs.down.out_isPrefix
  | ended => exact h

/-- What a step of the forwarder does to its account, and what it leaves alone. -/
theorem Forwarder.Ok.step {f f' : Forwarder} {c c' : Ends} {e : TaskEvent}
    (h : f.Ok codecs agent remote c.view)
    (hstep : f.step codecs agent remote c e = some (f', c')) :
    f'.Ok codecs agent remote c'.view ∧ c.Leaves c' := by
  have hended : (Forwarder.ended).Ok codecs agent remote c.drop.view ∧ c.Leaves c.drop :=
    ⟨h.passes, (Ends.Leaves.refl c).drop⟩
  unfold Forwarder.step at hstep
  split at hstep
  case h_1 =>
    split at hstep
    · rename_i msg hmsg
      cases hstep
      exact ⟨⟨[], h, hmsg⟩, .refl c⟩
    · cases hstep
      exact hended
  case h_2 =>
    cases hstep
    exact hended
  case h_3 left n =>
    obtain ⟨⟨out, left'⟩, hwrote, hmap⟩ := Option.map_eq_some_iff.mp hstep
    obtain rfl := wrote_eq_some hwrote
    obtain ⟨sent, hv, hr⟩ := h
    rw [← List.append_assoc] at hr
    cases hmap
    refine ⟨?_, c.leaves_putFar out⟩
    split
    · rename_i hleft
      exact ⟨sent ++ out, by simp [hv], by simpa [hleft] using hr⟩
    · exact ⟨sent ++ out, by simp [hv], hr⟩
  case h_4 got bs =>
    obtain ⟨c₁, hread, hstep⟩ := Option.bind_eq_some_iff.mp hstep
    obtain ⟨received, hreceive, hstep⟩ := Option.map_eq_some_iff.mp hstep
    obtain ⟨hview, hleaves⟩ := Ends.readFar_eq_some hread
    obtain ⟨sent, hv, hr⟩ := h
    rw [hv] at hview
    have hpasses : Forwarder.Passes codecs agent remote c₁.view := by
      rw [hview]
      exact passes_of_part hr (List.prefix_refl _)
    unfold Forwarder.replied at hstep
    split at hstep
    · obtain rfl := receive_more hreceive
      cases hstep
      exact ⟨⟨sent, hview, hr⟩, hleaves⟩
    · split at hstep
      · rename_i msg hmsg
        cases hstep
        exact ⟨⟨got ++ bs, sent, [], by simp [hview], (receive_done hreceive).1, hr, hmsg⟩, hleaves⟩
      · cases hstep
        exact ⟨hpasses, hleaves.drop⟩
    · cases hstep
      exact ⟨hpasses, hleaves.drop⟩
    · cases hstep
      exact ⟨hpasses, hleaves.drop⟩
  case h_5 left n =>
    obtain ⟨⟨out, left'⟩, hwrote, hmap⟩ := Option.map_eq_some_iff.mp hstep
    obtain rfl := wrote_eq_some hwrote
    obtain ⟨got, r, sent, hv, hgot, hr, hq⟩ := h
    rw [← List.append_assoc] at hq
    cases hmap
    refine ⟨?_, c.leaves_putFar out⟩
    split
    · rename_i hleft
      exact ⟨got, r, sent ++ out, by simp [hv], hgot, hr, by simpa [hleft] using hq⟩
    · exact ⟨got, r, sent ++ out, by simp [hv], hgot, hr, hq⟩
  case h_6 got bs =>
    obtain ⟨c₁, hread, hstep⟩ := Option.bind_eq_some_iff.mp hstep
    obtain ⟨received, hreceive, hstep⟩ := Option.map_eq_some_iff.mp hstep
    obtain ⟨hview, hleaves⟩ := Ends.readFar_eq_some hread
    obtain ⟨f, r, q, hv, hf, hr, hq⟩ := h
    rw [hv] at hview
    have hpasses : Forwarder.Passes codecs agent remote c₁.view := by
      rw [hview]
      exact passes_of_parts hr hq (List.prefix_refl _)
    unfold Forwarder.acked at hstep
    split at hstep
    · obtain rfl := receive_more hreceive
      cases hstep
      exact ⟨⟨f, r, q, by simp [hview], hf, hr, hq⟩, hleaves⟩
    · obtain ⟨hg, hack⟩ := receive_done hreceive
      cases hstep
      refine ⟨⟨f, got ++ bs, r, q, hf, hg, hack, hr, hq, ?_⟩, hleaves⟩
      rw [hview, List.append_assoc]
      exact ⟨.start _ _, .start _ _⟩
    · cases hstep
      exact ⟨hpasses, hleaves.drop⟩
    · cases hstep
      exact ⟨hpasses, hleaves.drop⟩
  case h_7 pipe side e =>
    obtain ⟨⟨pipe', c₁⟩, hpoll, hstep⟩ := Option.map_eq_some_iff.mp hstep
    obtain ⟨f, g, r, q, hf, hg, hack, hr, hq, hs⟩ := h
    cases hstep
    exact ⟨⟨f, g, r, q, hf, hg, hack, hr, hq, hs.poll (by decide) hpoll⟩, Ends.leaves_poll hpoll⟩
  case h_8 => cases hstep
  case h_9 =>
    cases hstep
    exact hended
  case h_10 => cases hstep

end

/-! ## The proxy -/

section
variable (codecs : Copy.Codecs)

/-- What a proxy has passed on at any time: towards the agent what followed a route, towards
the command what followed its reply. -/
def Proxy.Passes (v : View) : Prop :=
  (v.farWrote = [] ∨ ∃ f rest, Framed f ∧ v.nearRead = f ++ rest ∧ v.farWrote <+: rest) ∧
  (v.nearWrote = [] ∨ ∃ reply, v.nearWrote <+: framed codecs.routeReply reply v.farRead)

def Proxy.Ok (v : View) : Proxy → Prop
  | .reading got => v = ⟨got, [], [], []⟩
  | .picking => ∃ f, v = ⟨f, [], [], []⟩ ∧ Framed f
  | .refusing left | .granting left => ∃ f reply sent, v = ⟨f, sent, [], []⟩ ∧ Framed f ∧
      writeMsg codecs.routeReply reply = some (sent ++ left)
  | .splicing pipe => ∃ f reply msg, Framed f ∧ writeMsg codecs.routeReply reply = some msg ∧
      Splices .aToB .bToA f [] [] msg pipe v
  | .ended => Proxy.Passes codecs v

end

section
variable {codecs : Copy.Codecs} {v : View}

theorem Proxy.passes_of_part {reply : RouteReply} {f sent left : Bytes}
    (h : writeMsg codecs.routeReply reply = some (sent ++ left)) :
    Proxy.Passes codecs ⟨f, sent, [], []⟩ := by
  refine ⟨.inl rfl, .inr ⟨reply, ?_⟩⟩
  rw [framed_eq h, List.append_assoc]
  exact List.prefix_append _ _

theorem Proxy.passes_of_silent (f : Bytes) : Proxy.Passes codecs ⟨f, [], [], []⟩ :=
  ⟨.inl rfl, .inl rfl⟩

theorem Proxy.Ok.passes {p : Proxy} (h : p.Ok codecs v) : Proxy.Passes codecs v := by
  cases p with
  | reading got =>
    subst h
    exact passes_of_silent _
  | picking =>
    obtain ⟨f, rfl, -⟩ := h
    exact passes_of_silent _
  | refusing left | granting left =>
    obtain ⟨f, reply, sent, rfl, -, hreply⟩ := h
    exact passes_of_part hreply
  | splicing pipe =>
    obtain ⟨f, reply, msg, hf, hreply, hs⟩ := h
    refine ⟨.inr ⟨f, (pipe .aToB).held, hf, hs.up.taken, hs.up.out_isPrefix⟩, .inr ⟨reply, ?_⟩⟩
    rw [framed_eq hreply, hs.down.taken]
    exact hs.down.out_isPrefix
  | ended => exact h

theorem Proxy.Ok.step {p p' : Proxy} {c c' : Ends} {e : TaskEvent} (h : p.Ok codecs c.view)
    (hstep : p.step codecs c e = some (p', c')) : p'.Ok codecs c'.view ∧ c.Leaves c' := by
  have hended : (Proxy.ended).Ok codecs c.drop.view ∧ c.Leaves c.drop :=
    ⟨h.passes, (Ends.Leaves.refl c).drop⟩
  unfold Proxy.step at hstep
  split at hstep
  case h_1 got bs =>
    obtain ⟨c₁, hread, hstep⟩ := Option.bind_eq_some_iff.mp hstep
    obtain ⟨received, hreceive, hstep⟩ := Option.map_eq_some_iff.mp hstep
    obtain ⟨hview, hleaves⟩ := Ends.readNear_eq_some hread
    have hv : c.view = ⟨got, [], [], []⟩ := h
    rw [hv] at hview
    unfold Proxy.routed at hstep
    split at hstep
    · obtain rfl := receive_more hreceive
      cases hstep
      exact ⟨hview, hleaves⟩
    · cases hstep
      exact ⟨⟨got ++ bs, hview, (receive_done hreceive).1⟩, hleaves⟩
    · cases hstep
      refine ⟨?_, hleaves.drop⟩
      change Proxy.Passes codecs c₁.view
      rw [hview]
      exact passes_of_silent _
  case h_2 reply =>
    obtain ⟨f, hv, hf⟩ := h
    split at hstep
    · rename_i msg _ _ _ hmsg
      cases hstep
      exact ⟨⟨f, _, [], hv, hf, hmsg⟩, .refl c⟩
    · rename_i msg _ hmsg
      cases hstep
      exact ⟨⟨f, _, [], hv, hf, hmsg⟩, .refl c⟩
    · cases hstep
      exact hended
  case h_3 left n =>
    obtain ⟨⟨out, left'⟩, hwrote, hmap⟩ := Option.map_eq_some_iff.mp hstep
    obtain rfl := wrote_eq_some hwrote
    obtain ⟨f, reply, sent, hv, hf, hreply⟩ := h
    rw [← List.append_assoc] at hreply
    have hview : (c.putNear out).view = ⟨f, sent ++ out, [], []⟩ := by simp [hv]
    dsimp only at hmap
    split_ifs at hmap
    · cases hmap
      refine ⟨?_, (c.leaves_putNear out).drop⟩
      change Proxy.Passes codecs (c.putNear out).view
      rw [hview]
      exact passes_of_part hreply
    · cases hmap
      exact ⟨⟨f, reply, sent ++ out, hview, hf, hreply⟩, c.leaves_putNear out⟩
  case h_4 left n =>
    obtain ⟨⟨out, left'⟩, hwrote, hmap⟩ := Option.map_eq_some_iff.mp hstep
    obtain rfl := wrote_eq_some hwrote
    obtain ⟨f, reply, sent, hv, hf, hreply⟩ := h
    rw [← List.append_assoc] at hreply
    have hview : (c.putNear out).view = ⟨f, sent ++ out, [], []⟩ := by simp [hv]
    cases hmap
    refine ⟨?_, c.leaves_putNear out⟩
    split
    · rename_i hleft
      refine ⟨f, reply, sent ++ out, hf, by simpa [hleft] using hreply, ?_⟩
      rw [hview]
      exact ⟨.start _ _, .start _ _⟩
    · exact ⟨f, reply, sent ++ out, hview, hf, hreply⟩
  case h_5 pipe side e =>
    obtain ⟨⟨pipe', c₁⟩, hpoll, hstep⟩ := Option.map_eq_some_iff.mp hstep
    obtain ⟨f, reply, msg, hf, hreply, hs⟩ := h
    cases hstep
    exact ⟨⟨f, reply, msg, hf, hreply, hs.poll (by decide) hpoll⟩, Ends.leaves_poll hpoll⟩
  case h_6 => cases hstep
  case h_7 =>
    cases hstep
    exact hended
  case h_8 => cases hstep

end

/-! ## The agent's handler -/

section
variable (codecs : Copy.Codecs)

/-- What a handler has passed on at any time. It says that it is connected only once it is. -/
def Handler.Passes (v : View) (dialled : Option Str) : Prop :=
  (v.farWrote = [] ∧ dialled = none ∨
    ∃ f addr rest, Framed f ∧ codecs.request.decode (f.drop 4) = some (.forward addr) ∧
      dialled = some addr ∧ v.nearRead = f ++ rest ∧ v.farWrote <+: rest) ∧
  (v.nearWrote = [] ∨
    ∃ ack, (ack = .ok → dialled ≠ none) ∧ v.nearWrote <+: framed codecs.ack ack v.farRead)

def Handler.Ok (v : View) (dialled : Option Str) : Handler → Prop
  | .reading got => v = ⟨got, [], [], []⟩ ∧ dialled = none
  | .connecting addr => ∃ f, v = ⟨f, [], [], []⟩ ∧ dialled = none ∧ Framed f ∧
      codecs.request.decode (f.drop 4) = some (.forward addr)
  | .refusing left => ∃ f error sent, v = ⟨f, sent, [], []⟩ ∧ dialled = none ∧
      writeMsg codecs.ack (.err error) = some (sent ++ left)
  | .acking left => ∃ f addr sent, v = ⟨f, sent, [], []⟩ ∧ dialled = some addr ∧ Framed f ∧
      codecs.request.decode (f.drop 4) = some (.forward addr) ∧
      writeMsg codecs.ack .ok = some (sent ++ left)
  | .splicing pipe => ∃ f addr msg, dialled = some addr ∧ Framed f ∧
      codecs.request.decode (f.drop 4) = some (.forward addr) ∧
      writeMsg codecs.ack .ok = some msg ∧ Splices .bToA .aToB f [] [] msg pipe v
  | .ended => Handler.Passes codecs v dialled

end

section
variable {codecs : Copy.Codecs} {v : View} {dialled dialled' : Option Str}

theorem Handler.passes_of_silent (f : Bytes) : Handler.Passes codecs ⟨f, [], [], []⟩ none :=
  ⟨.inl ⟨rfl, rfl⟩, .inl rfl⟩

theorem Handler.passes_of_refusal {f sent left : Bytes} {error : Str}
    (h : writeMsg codecs.ack (.err error) = some (sent ++ left)) :
    Handler.Passes codecs ⟨f, sent, [], []⟩ none := by
  refine ⟨.inl ⟨rfl, rfl⟩, .inr ⟨.err error, by simp, ?_⟩⟩
  rw [framed_eq h, List.append_assoc]
  exact List.prefix_append _ _

theorem Handler.passes_of_dialled {f : Bytes} {addr : Str} (hf : Framed f)
    (haddr : codecs.request.decode (f.drop 4) = some (.forward addr)) {sent : Bytes}
    (hsent : sent = [] ∨ ∃ left, writeMsg codecs.ack .ok = some (sent ++ left)) :
    Handler.Passes codecs ⟨f, sent, [], []⟩ (some addr) := by
  refine ⟨.inr ⟨f, addr, [], hf, haddr, rfl, (List.append_nil f).symm, List.prefix_rfl⟩, ?_⟩
  rcases hsent with rfl | ⟨left, h⟩
  · exact .inl rfl
  · refine .inr ⟨.ok, by simp, ?_⟩
    rw [framed_eq h, List.append_assoc]
    exact List.prefix_append _ _

theorem Handler.Ok.passes {h : Handler} (hok : h.Ok codecs v dialled) :
    Handler.Passes codecs v dialled := by
  cases h with
  | reading got =>
    obtain ⟨rfl, rfl⟩ := hok
    exact passes_of_silent _
  | connecting addr =>
    obtain ⟨f, rfl, rfl, -⟩ := hok
    exact passes_of_silent _
  | refusing left =>
    obtain ⟨f, error, sent, rfl, rfl, hmsg⟩ := hok
    exact passes_of_refusal hmsg
  | acking left =>
    obtain ⟨f, addr, sent, rfl, rfl, hf, haddr, hmsg⟩ := hok
    exact passes_of_dialled hf haddr (.inr ⟨left, hmsg⟩)
  | splicing pipe =>
    obtain ⟨f, addr, msg, rfl, hf, haddr, hmsg, hs⟩ := hok
    refine ⟨.inr ⟨f, addr, (pipe .bToA).held, hf, haddr, rfl, hs.up.taken, hs.up.out_isPrefix⟩,
      .inr ⟨.ok, by simp, ?_⟩⟩
    rw [framed_eq hmsg, hs.down.taken]
    exact hs.down.out_isPrefix
  | ended => exact hok

theorem Handler.Ok.step {h h' : Handler} {c c' : Ends} {e : TaskEvent}
    (hok : h.Ok codecs c.view dialled)
    (hstep : h.step codecs c dialled e = some (h', c', dialled')) :
    h'.Ok codecs c'.view dialled' ∧ c.Leaves c' := by
  have hended : (Handler.ended).Ok codecs c.drop.view dialled ∧ c.Leaves c.drop :=
    ⟨hok.passes, (Ends.Leaves.refl c).drop⟩
  unfold Handler.step at hstep
  split at hstep
  case h_1 got bs =>
    obtain ⟨c₁, hread, hstep⟩ := Option.bind_eq_some_iff.mp hstep
    obtain ⟨received, hreceive, hstep⟩ := Option.map_eq_some_iff.mp hstep
    obtain ⟨hview, hleaves⟩ := Ends.readNear_eq_some hread
    obtain ⟨hv, rfl⟩ := hok
    rw [hv] at hview
    have hpasses : Handler.Passes codecs c₁.view none := hview ▸ passes_of_silent _
    cases hstep
    unfold Handler.asked
    split
    · obtain rfl := receive_more hreceive
      exact ⟨⟨hview, rfl⟩, hleaves⟩
    · obtain ⟨hf, haddr⟩ := receive_done hreceive
      exact ⟨⟨got ++ bs, hview, rfl, hf, haddr⟩, hleaves⟩
    · exact ⟨hpasses, hleaves.drop⟩
    · exact ⟨hpasses, hleaves.drop⟩
  case h_2 error =>
    obtain ⟨f, hv, rfl, -⟩ := hok
    split at hstep
    · rename_i msg hmsg
      cases hstep
      exact ⟨⟨f, error, [], hv, rfl, hmsg⟩, .refl c⟩
    · cases hstep
      exact hended
  case h_3 addr =>
    obtain ⟨f, hv, rfl, hf, haddr⟩ := hok
    split at hstep
    · rename_i msg hmsg
      cases hstep
      exact ⟨⟨f, addr, [], hv, rfl, hf, haddr, hmsg⟩, .refl c⟩
    · cases hstep
      refine ⟨?_, (Ends.Leaves.refl c).drop⟩
      change Handler.Passes codecs c.view (some addr)
      rw [hv]
      exact passes_of_dialled hf haddr (.inl rfl)
  case h_4 left n =>
    obtain ⟨⟨out, left'⟩, hwrote, hmap⟩ := Option.map_eq_some_iff.mp hstep
    obtain rfl := wrote_eq_some hwrote
    obtain ⟨f, error, sent, hv, rfl, hmsg⟩ := hok
    rw [← List.append_assoc] at hmsg
    have hview : (c.putNear out).view = ⟨f, sent ++ out, [], []⟩ := by simp [hv]
    dsimp only at hmap
    split_ifs at hmap
    · cases hmap
      refine ⟨?_, (c.leaves_putNear out).drop⟩
      change Handler.Passes codecs (c.putNear out).view none
      rw [hview]
      exact passes_of_refusal hmsg
    · cases hmap
      exact ⟨⟨f, error, sent ++ out, hview, rfl, hmsg⟩, c.leaves_putNear out⟩
  case h_5 left n =>
    obtain ⟨⟨out, left'⟩, hwrote, hmap⟩ := Option.map_eq_some_iff.mp hstep
    obtain rfl := wrote_eq_some hwrote
    obtain ⟨f, addr, sent, hv, rfl, hf, haddr, hmsg⟩ := hok
    rw [← List.append_assoc] at hmsg
    have hview : (c.putNear out).view = ⟨f, sent ++ out, [], []⟩ := by simp [hv]
    cases hmap
    refine ⟨?_, c.leaves_putNear out⟩
    split
    · rename_i hleft
      refine ⟨f, addr, sent ++ out, rfl, hf, haddr, by simpa [hleft] using hmsg, ?_⟩
      rw [hview]
      exact ⟨.start _ _, .start _ _⟩
    · exact ⟨f, addr, sent ++ out, hview, rfl, hf, haddr, hmsg⟩
  case h_6 pipe side e =>
    obtain ⟨⟨pipe', c₁⟩, hpoll, hmap⟩ := Option.map_eq_some_iff.mp hstep
    obtain ⟨f, addr, msg, rfl, hf, haddr, hmsg, hs⟩ := hok
    cases hmap
    exact ⟨⟨f, addr, msg, rfl, hf, haddr, hmsg, hs.poll (by decide) hpoll⟩,
      Ends.leaves_poll hpoll⟩
  case h_7 => cases hstep
  case h_8 =>
    cases hstep
    exact hended
  case h_9 => cases hstep

end

/-! ## All three -/

section
variable {codecs : Copy.Codecs} {agent remote : Str} {s s' : Tunnel} {as : List Action}

/-- The accounts of the three tasks, on the streams they share. -/
structure Tunnel.Ok (codecs : Copy.Codecs) (agent remote : Str) (s : Tunnel) : Prop where
  forwarder : s.forwarder.Ok codecs agent remote (Ends.view ⟨s.tcp, s.unix⟩)
  proxy : s.proxy.Ok codecs (Ends.view ⟨s.unix, s.quic⟩)
  handler : s.handler.Ok codecs (Ends.view ⟨s.quic, s.target⟩) s.dialled

theorem Tunnel.ok_start : Tunnel.start.Ok codecs agent remote := ⟨rfl, rfl, rfl, rfl⟩

/-- A task that keeps its own account leaves the others theirs. -/
theorem Tunnel.Ok.step {a : Action} (h : s.Ok codecs agent remote)
    (hstep : step codecs agent remote s a = some s') : s'.Ok codecs agent remote := by
  obtain ⟨hf, hp, hh⟩ := h
  cases a with
  | client bs =>
    simp only [Forward.step] at hstep
    split_ifs at hstep
    cases hstep
    exact ⟨hf, hp, hh⟩
  | clientEnd =>
    cases hstep
    exact ⟨hf, hp, hh⟩
  | target bs =>
    simp only [Forward.step] at hstep
    split_ifs at hstep
    cases hstep
    exact ⟨hf, hp, hh⟩
  | targetEnd =>
    simp only [Forward.step] at hstep
    split_ifs at hstep
    cases hstep
    exact ⟨hf, hp, hh⟩
  | forwarder e =>
    obtain ⟨⟨f, c⟩, hmove, hstep⟩ := Option.map_eq_some_iff.mp hstep
    obtain ⟨hok, hleaves⟩ := hf.step hmove
    cases hstep
    refine ⟨hok, ?_, hh⟩
    have hview : Ends.view ⟨c.far, s.quic⟩ = Ends.view ⟨s.unix, s.quic⟩ := by
      simp [Ends.view, hleaves.farUp, hleaves.farDown]
    exact hview ▸ hp
  | proxy e =>
    obtain ⟨⟨p, c⟩, hmove, hstep⟩ := Option.map_eq_some_iff.mp hstep
    obtain ⟨hok, hleaves⟩ := hp.step hmove
    cases hstep
    have hnear : Ends.view ⟨s.tcp, c.near⟩ = Ends.view ⟨s.tcp, s.unix⟩ := by
      simp [Ends.view, hleaves.nearUp, hleaves.nearDown]
    have hfar : Ends.view ⟨c.far, s.target⟩ = Ends.view ⟨s.quic, s.target⟩ := by
      simp [Ends.view, hleaves.farUp, hleaves.farDown]
    exact ⟨hnear ▸ hf, hok, hfar ▸ hh⟩
  | handler e =>
    obtain ⟨⟨h, c, dialled⟩, hmove, hstep⟩ := Option.map_eq_some_iff.mp hstep
    obtain ⟨hok, hleaves⟩ := hh.step hmove
    cases hstep
    have hview : Ends.view ⟨s.unix, c.near⟩ = Ends.view ⟨s.unix, s.quic⟩ := by
      simp [Ends.view, hleaves.nearUp, hleaves.nearDown]
    exact ⟨hf, hview ▸ hp, hok⟩

theorem Tunnel.ok_of_steps {ok : Tunnel → Action → Prop}
    (h : Steps (step codecs agent remote) ok .start as s) : s.Ok codecs agent remote :=
  h.invariant (fun _ _ _ _ hstep hs => hs.step hstep) Tunnel.ok_start

/-- The message that a handler reads is the one that was asked for, and what comes after it is
the client's. -/
theorem Tunnel.Ok.request {f rest : Bytes} (h : s.Ok codecs agent remote) (hf : Framed f)
    (hread : s.quic.up.taken = f ++ rest) :
    codecs.request.decode (f.drop 4) = some (.forward remote) ∧ rest <+: s.tcp.up.taken := by
  obtain ⟨hroute, -⟩ := h.forwarder.passes
  obtain ⟨hproxy, -⟩ := h.proxy.passes
  have hquic : f ++ rest <+: s.quic.up.sent := hread ▸ s.quic.up.taken_isPrefix
  rcases hproxy with hnone | ⟨g, rest', hg, hread', hwrote'⟩
  · have hnil : f ++ rest = [] := List.prefix_nil.mp (hquic.trans (hnone ▸ List.prefix_rfl))
    exact absurd (List.append_eq_nil_iff.mp hnil).1 hf.ne_nil
  · have hunix : g ++ rest' <+: s.unix.up.sent := hread' ▸ s.unix.up.taken_isPrefix
    obtain ⟨-, hrest'⟩ := hg.cancel_framed (hunix.trans hroute)
    exact hf.cancel_framed (hquic.trans (hwrote'.trans hrest'))

/-- Where the streams meet, towards the target: the messages cancel. -/
theorem Tunnel.Ok.up (h : s.Ok codecs agent remote) :
    s.target.up.sent = [] ∧ s.dialled = none ∨
      s.dialled = some remote ∧ s.target.up.sent <+: s.tcp.up.taken := by
  obtain ⟨hhandler, -⟩ := h.handler.passes
  rcases hhandler with ⟨hnone, hdialled⟩ | ⟨f, addr, rest, hf, haddr, hdialled, hread, hwrote⟩
  · exact .inl ⟨hnone, hdialled⟩
  · obtain ⟨hdecode, hrest⟩ := h.request hf hread
    cases haddr.symm.trans hdecode
    exact .inr ⟨hdialled, hwrote.trans hrest⟩

/-- An address that is being dialled is the one asked for. -/
theorem Tunnel.Ok.connecting {addr : Str} (h : s.Ok codecs agent remote)
    (hdialling : s.handler = .connecting addr) : addr = remote := by
  have hhandler := h.handler
  rw [hdialling] at hhandler
  obtain ⟨f, hview, -, hf, haddr⟩ := hhandler
  have hread : s.quic.up.taken = f ++ [] :=
    (congrArg View.nearRead hview).trans (List.append_nil f).symm
  cases haddr.symm.trans (h.request hf hread).1
  rfl

/-- Towards the client, likewise; and the acknowledgement it rests on is the agent's own. -/
theorem Tunnel.Ok.down (h : s.Ok codecs agent remote) :
    s.tcp.up.taken = [] ∧ s.tcp.down.sent = [] ∨
      s.dialled ≠ none ∧ s.tcp.down.sent <+: s.target.down.taken := by
  obtain ⟨-, hforwarder⟩ := h.forwarder.passes
  obtain ⟨-, hproxy⟩ := h.proxy.passes
  obtain ⟨-, hhandler⟩ := h.handler.passes
  rcases hforwarder with hnone | ⟨f, g, rest, hf, hg, hack, hread, hwrote⟩
  · exact .inl hnone
  · have hunix : f ++ (g ++ rest) <+: s.unix.down.sent := hread ▸ s.unix.down.taken_isPrefix
    rcases hproxy with hnone | ⟨reply, hreply⟩
    · have hnil : f ++ (g ++ rest) = [] :=
        List.prefix_nil.mp (hunix.trans (hnone ▸ List.prefix_rfl))
      exact absurd (List.append_eq_nil_iff.mp hnil).1 hf.ne_nil
    · obtain ⟨-, hquic⟩ := hf.cancel_framed (hunix.trans hreply)
      have hquic := hquic.trans s.quic.down.taken_isPrefix
      rcases hhandler with hnone | ⟨ack, hdialled, hsent⟩
      · have hnil : g ++ rest = [] := List.prefix_nil.mp (hquic.trans (hnone ▸ List.prefix_rfl))
        exact absurd (List.append_eq_nil_iff.mp hnil).1 hg.ne_nil
      · obtain ⟨hdecode, hrest⟩ := hg.cancel_framed (hquic.trans hsent)
        cases hack.symm.trans hdecode
        exact .inr ⟨hdialled rfl, hwrote.trans hrest⟩

/-- Whatever the streams do and wherever a task stops, the target is given a beginning of what
the client wrote and the client a beginning of what the target wrote; the only address that is
ever dialled, or connected to, is the one asked for, and before that connection stands nothing is
taken from the client and nothing given to it. -/
theorem tunnel_transparent (h : Steps (step codecs agent remote) always .start as s) :
    s.target.up.sent <+: s.tcp.up.sent ∧ s.tcp.down.sent <+: s.target.down.sent ∧
      (∀ addr, s.handler = .connecting addr → addr = remote) ∧
      (s.dialled = none ∨ s.dialled = some remote) ∧
      (s.dialled = none →
        s.tcp.up.taken = [] ∧ s.tcp.down.sent = [] ∧ s.target.up.sent = []) := by
  have hok := Tunnel.ok_of_steps h
  have hconnecting := fun addr (hdialling : s.handler = .connecting addr) =>
    hok.connecting hdialling
  rcases hok.up with ⟨hnothing, hnone⟩ | ⟨hdialled, hup⟩
  · rcases hok.down with ⟨htaken, hsent⟩ | ⟨hsome, -⟩
    · exact ⟨hnothing ▸ List.nil_prefix, hsent ▸ List.nil_prefix, hconnecting, .inl hnone,
        fun _ => ⟨htaken, hsent, hnothing⟩⟩
    · exact absurd hnone hsome
  · have hdown : s.tcp.down.sent <+: s.target.down.sent := by
      rcases hok.down with ⟨-, hsent⟩ | ⟨-, hdown⟩
      · exact hsent ▸ List.nil_prefix
      · exact hdown.trans s.target.down.taken_isPrefix
    exact ⟨hup.trans s.tcp.up.taken_isPrefix, hdown, hconnecting, .inr hdialled,
      fun hnone => absurd (hdialled.symm.trans hnone) (by simp)⟩

end

/-! ## A connection to a target's sshd -/

def sshd : Str := "127.0.0.1:22".toList

def askBytes : Bytes :=
  [14, 0, 0, 0, 3, 12, 49, 50, 55, 46, 48, 46, 48, 46, 49, 58, 50, 50]

/-- The messages, each in two pieces, up to the agent's acknowledgement. -/
def opening : List Action :=
  [.client [7, 8], .forwarder (.connected none), .forwarder (.wrote 8),
    .proxy (.read [4, 0, 0, 0]), .proxy (.read [3, 97, 110, 121]),
    .proxy (.picked Postcard.granted),
    .proxy (.wrote 20), .forwarder (.read (Postcard.grantedBytes.take 4)),
    .forwarder (.read (Postcard.grantedBytes.drop 4)), .forwarder (.wrote 18),
    .proxy (.poll .aToB (.read askBytes)), .proxy (.poll .aToB (.wrote 18)),
    .handler (.read (askBytes.take 4)), .handler (.read (askBytes.drop 4)),
    .handler (.connected none), .handler (.wrote 5),
    .proxy (.poll .bToA (.read [1, 0, 0, 0, 0])), .proxy (.poll .bToA (.wrote 5)),
    .forwarder (.read [1, 0, 0, 0]), .forwarder (.read [0])]

/-- One byte of two arrives before the proxy is gone. -/
def cutShort : List Action :=
  opening ++ [.forwarder (.poll .aToB (.read [7, 8])), .forwarder (.poll .aToB (.wrote 1)),
    .proxy (.poll .aToB (.read [7])), .proxy (.poll .aToB (.wrote 1)), .proxy .failed,
    .handler (.poll .bToA (.read [7])), .handler (.poll .bToA (.wrote 1))]

theorem tunnel_transparent_cutShort :
    ∃ s, Steps (step Postcard.codecs "any".toList sshd) always .start cutShort s ∧
      s.target.up.sent = [7] ∧ s.tcp.up.sent = [7, 8] ∧ s.dialled = some sshd ∧
      s.target.up.sent <+: s.tcp.up.sent := by
  have hrun : (run (step Postcard.codecs "any".toList sshd) .start cutShort).map
      (fun s => (s.target.up.sent, s.tcp.up.sent, s.dialled)) = some ([7], [7, 8], some sshd) := by
    decide +kernel
  obtain ⟨s, hsteps, hview⟩ := exists_steps_of_view hrun
  simp only [Prod.mk.injEq] at hview
  exact ⟨s, hsteps, hview.1, hview.2.1, hview.2.2, (tunnel_transparent hsteps).1⟩

end Egdod.Forward
