import Egdod.Postcard

/-! Messages one after another on a stream, of any kinds and followed by
anything. What `write_msg` wrote, `read_msg` reads back, and not a byte
beyond it; where such a stream is cut, `read_msg_opt` stops. -/
namespace Egdod

open Posix Stream Copy

/-! ## Any number of messages -/

/-- What a reader knows of a message beforehand. -/
structure Kind where
  T : Type
  codec : Codec T

structure Packet extends Kind where
  msg : T

def Packet.size (p : Packet) : Nat := (p.codec.encode p.msg).length

/-- `write_msg`, one message after another. -/
def sendAll : List Packet → Program Unit
  | [] => pure ()
  | p :: ps => do
    send p.codec p.msg
    sendAll ps

/-- `read_msg`, one message after another. -/
def readAll : List Kind → Reader UInt8 → Except ReadError (List Packet × Reader UInt8)
  | [], r => .ok ([], r)
  | k :: ks, r =>
    match readMsg k.codec r with
    | .error e => .error e
    | .ok (x, r) =>
      match readAll ks r with
      | .error e => .error e
      | .ok (ps, r) => .ok (⟨k, x⟩ :: ps, r)

/-- `read_msg_opt` with the stream it leaves behind, however it ends. -/
def readMsgLeaving {T : Type} (codec : Codec T) (r : Reader UInt8) :
    Except ReadError (Option T) × Reader UInt8 :=
  match r.readExact 4 with
  | .eof => (.ok none, ⟨[], r.broken⟩)
  | .failed => (.error .readingLength, ⟨[], r.broken⟩)
  | .full len rest =>
    if fromLe32 len ≤ maxMsg then
      match rest.readExact (fromLe32 len) with
      | .full body rest =>
        match codec.decode body with
        | some x => (.ok (some x), rest)
        | none => (.error .decoding, rest)
      | _ => (.error .reading, ⟨[], r.broken⟩)
    else (.error (.oversized (fromLe32 len)), rest)

/-- It is `readMsgOpt`, which keeps the stream of a message only. -/
theorem readMsgOpt_eq_leaving {T : Type} (codec : Codec T) (r : Reader UInt8) :
    readMsgOpt codec r =
      match readMsgLeaving codec r with
      | (.ok (some x), rest) => .ok (some (x, rest))
      | (.ok none, _) => .ok none
      | (.error e, _) => .error e := by
  unfold readMsgOpt readMsgLeaving
  cases r.readExact 4 with
  | eof => rfl
  | failed => rfl
  | full len rest =>
    dsimp only
    split
    · cases rest.readExact (fromLe32 len) with
      | eof => rfl
      | failed => rfl
      | full body rest' =>
        dsimp only
        cases codec.decode body <;> rfl
    · rfl

theorem readMsgLeaving_oversized {T : Type} (codec : Codec T) {r : Reader UInt8}
    {len rest : Bytes} (hr : r.content = len ++ rest) (h4 : len.length = 4)
    (hlen : maxMsg < fromLe32 len) :
    ∃ r', readMsgLeaving codec r = (.error (.oversized (fromLe32 len)), r') ∧
      r'.content = rest := by
  obtain ⟨r', hread, hcontent, -⟩ := Reader.readExact_full (r := r) (n := 4)
    (by rw [hr, List.length_append]; omega)
  rw [hr, List.take_left' h4] at hread
  rw [hr, List.drop_left' h4] at hcontent
  refine ⟨r', ?_, hcontent⟩
  simp only [readMsgLeaving, hread, if_neg (Nat.not_le.mpr hlen)]

/-! ## Round trips -/

/-- Where no write fails, a message goes out as its frame. -/
theorem send_frame {p : Packet} (h : p.size ≤ maxMsg) {s : Socket UInt8} (hs : s.fates = []) :
    ∃ bs, writeMsg p.codec p.msg = some bs ∧
      send p.codec p.msg s = (.ok (), { s with sent := s.sent ++ bs }) := by
  obtain ⟨reader, fates, sent⟩ := s
  cases hs
  have hsize : (p.codec.encode p.msg).length ≤ maxMsg := h
  refine ⟨_, if_pos hsize, ?_⟩
  simp only [send, if_pos hsize, write, flush, Peer.put, Bind.bind, Peer.bind, List.append_nil,
    List.append_assoc]

/-- What a list of messages puts on a stream, and how it is read off again. -/
theorem sendAll_readAll {ps : List Packet} (h : ∀ p ∈ ps, p.size ≤ maxMsg) :
    ∃ bytes, (∀ s : Socket UInt8, s.fates = [] →
        sendAll ps s = (.ok (), { s with sent := s.sent ++ bytes })) ∧
      ∀ t r, r.content = bytes ++ t →
        ∃ r', readAll (ps.map Packet.toKind) r = .ok (ps, r') ∧ r'.content = t := by
  induction ps with
  | nil =>
    refine ⟨[], fun s _ => by simp only [List.append_nil]; rfl, fun t r hr => ⟨r, rfl, hr⟩⟩
  | cons p ps ih =>
    obtain ⟨hp, hps⟩ := List.forall_mem_cons.mp h
    obtain ⟨bytes, hsend, hread⟩ := ih hps
    obtain ⟨bs, hbs⟩ : ∃ bs, writeMsg p.codec p.msg = some bs := ⟨_, if_pos hp⟩
    refine ⟨bs ++ bytes, fun s hs => ?_, fun t r hr => ?_⟩
    · obtain ⟨bs', hbs', hfirst⟩ := send_frame hp hs
      cases hbs.symm.trans hbs'
      have hrest := hsend { s with sent := s.sent ++ bs } hs
      simp only [sendAll, Bind.bind, Peer.bind, hfirst, hrest, List.append_assoc]
    · rw [List.append_assoc] at hr
      obtain ⟨r₁, hread₁, hcontent, -⟩ := readMsgOpt_whole hbs hr
      obtain ⟨r', hrest, ht⟩ := hread t r₁ hcontent
      refine ⟨r', ?_, ht⟩
      simp only [List.map_cons, readAll, readMsg, hread₁, hrest]

/-- Messages of at most `maxMsg` bytes are read back as they were written and leave what follows
them; a larger one is refused before anything is written, and a larger length before anything
behind it is read. -/
theorem messages_exact :
    (∀ ps : List Packet, (∀ p ∈ ps, p.size ≤ maxMsg) →
      ∃ bytes, (∀ s : Socket UInt8, s.fates = [] →
          sendAll ps s = (.ok (), { s with sent := s.sent ++ bytes })) ∧
        ∀ t r, r.content = bytes ++ t →
          ∃ r', readAll (ps.map Packet.toKind) r = .ok (ps, r') ∧ r'.content = t) ∧
    (∀ p : Packet, maxMsg < p.size → ∀ s : Socket UInt8,
      send p.codec p.msg s = (.error (.tooLarge p.size), s)) ∧
    ∀ (k : Kind) (r : Reader UInt8) (len rest : Bytes), r.content = len ++ rest →
      len.length = 4 → maxMsg < fromLe32 len →
      readMsg k.codec r = .error (.oversized (fromLe32 len)) ∧
        (readMsgLeaving k.codec r).2.content = rest := by
  refine ⟨fun ps h => sendAll_readAll h, fun p hp s => ?_, fun k r len rest hr h4 hlen => ?_⟩
  · rw [send]
    exact if_neg (Nat.not_le.mpr hp) ▸ rfl
  · obtain ⟨r', hread, hcontent⟩ := readMsgLeaving_oversized k.codec hr h4 hlen
    exact ⟨by rw [readMsg, readMsgOpt_eq_leaving, hread], by rw [hread, hcontent]⟩

/-- Two messages of different kinds, cut up, and a byte after them. -/
theorem messages_exact_two :
    let ps : List Packet := [⟨⟨_, Postcard.codecs.ack⟩, .ok⟩, ⟨⟨_, Postcard.codecs.route⟩, ⟨['a']⟩⟩]
    ∃ r', readAll (ps.map Packet.toKind)
      ⟨[[1, 0], [0, 0, 0, 2], [], [0, 0, 0, 1, 97, 7]], false⟩ = .ok (ps, r') ∧
        r'.content = [7] := by
  intro ps
  have hsmall : ∀ p ∈ ps, p.size ≤ maxMsg := by
    intro p hp
    rcases List.mem_pair.mp hp with rfl | rfl
    · decide
    · decide
  obtain ⟨bytes, hsend, hread⟩ := messages_exact.1 ps hsmall
  -- what they put on an empty stream is what the reader below gets
  have hbytes : (sendAll ps ⟨⟨[], false⟩, [], []⟩).2.sent = bytes := by
    rw [hsend _ rfl]
    rfl
  refine hread [7] _ ?_
  rw [← hbytes]
  decide +kernel

/-! ## Streams that are cut -/

section
variable {T : Type} {codec : Codec T} {r : Reader UInt8} {x : T} {xs done : List T}
  {part bytes : Bytes}

/-- Calls of `read_msg_opt` until one brings no message: the messages, and how the last call
ended. -/
def readUntilEnd (codec : Codec T) (r : Reader UInt8) : List T × Except ReadError Unit :=
  match _h : readMsgOpt codec r with
  | .error e => ([], .error e)
  | .ok none => ([], .ok ())
  | .ok (some (x, rest)) =>
    let (xs, ending) := readUntilEnd codec rest
    (x :: xs, ending)
termination_by r.content.length
decreasing_by exact readMsgOpt_shorter _h

theorem readUntilEnd_error {e : ReadError} (h : readMsgOpt codec r = .error e) :
    readUntilEnd codec r = ([], .error e) := by
  rw [readUntilEnd]
  split <;> simp_all

theorem readUntilEnd_none (h : readMsgOpt codec r = .ok none) :
    readUntilEnd codec r = ([], .ok ()) := by
  rw [readUntilEnd]
  split <;> simp_all

theorem readUntilEnd_some {rest : Reader UInt8} (h : readMsgOpt codec r = .ok (some (x, rest))) :
    readUntilEnd codec r = (x :: (readUntilEnd codec rest).1, (readUntilEnd codec rest).2) := by
  rw [readUntilEnd]
  split
  · simp_all
  · simp_all
  · rename_i h'
    cases h.symm.trans h'
    rfl

/-- A stream that got through the frames of `done` and a piece of the one after them. -/
structure Cut (codec : Codec T) (xs : List T) (content : Bytes) (done : List T) (part : Bytes) :
    Prop where
  whole : ∃ bytes, writeMsgs codec done = some bytes ∧ content = bytes ++ part
  next : (xs = done ∧ part = []) ∨ ∃ y ys frame, xs = done ++ y :: ys ∧
    writeMsg codec y = some frame ∧ part <+: frame ∧ part ≠ frame

/-- Every beginning of a stream of frames is cut at one place. -/
theorem exists_cut (h : writeMsgs codec xs = some bytes) {content : Bytes}
    (hc : content <+: bytes) : ∃ done part, Cut codec xs content done part := by
  induction xs generalizing content bytes with
  | nil =>
    cases h
    obtain rfl := List.prefix_nil.mp hc
    exact ⟨[], [], ⟨[], rfl, rfl⟩, .inl ⟨rfl, rfl⟩⟩
  | cons x xs ih =>
    obtain ⟨first, rest, hfirst, hrest, rfl⟩ := writeMsgs_cons h
    by_cases hwhole : first.length ≤ content.length
    · obtain ⟨more, rfl⟩ :=
        List.prefix_of_prefix_length_le (List.prefix_append first rest) hc hwhole
      obtain ⟨done, part, ⟨bytes, hbytes, rfl⟩, hnext⟩ :=
        ih hrest ((List.prefix_append_right_inj first).mp hc)
      refine ⟨x :: done, part, ⟨first ++ bytes, ?_, by rw [List.append_assoc]⟩, ?_⟩
      · simp [writeMsgs, hfirst, hbytes]
      · rcases hnext with ⟨rfl, rfl⟩ | ⟨y, ys, frame, rfl, hframe⟩
        · exact .inl ⟨rfl, rfl⟩
        · exact .inr ⟨y, ys, frame, rfl, hframe⟩
    · refine ⟨[], content, ⟨[], rfl, rfl⟩, .inr ⟨x, xs, first, rfl, hfirst, ?_, ?_⟩⟩
      · exact List.prefix_of_prefix_length_le hc (List.prefix_append first rest) (by omega)
      · rintro rfl
        exact hwhole (Nat.le_refl _)

/-- What is left of a frame ends the reading, as an error if its length is there. -/
theorem readUntilEnd_part (hclean : r.broken = false) (hr : r.content = part)
    (hnext : part = [] ∨ ∃ frame, writeMsg codec x = some frame ∧ part <+: frame ∧ part ≠ frame) :
    readUntilEnd codec r = ([], if part.length < 4 then .ok () else .error .reading) := by
  subst hr
  by_cases h4 : r.content.length < 4
  · rw [if_pos h4]
    apply readUntilEnd_none
    rw [readMsgOpt_short codec h4, hclean]
    rfl
  · rw [if_neg h4]
    apply readUntilEnd_error
    rcases hnext with hnil | ⟨frame, hframe, hpart, hne⟩
    · simp [hnil] at h4
    · exact readMsgOpt_partial hframe hpart hne (Nat.le_of_not_lt h4)

/-- Run lemma: the whole frames are read one by one, then what is left of the next. -/
theorem readUntilEnd_cut (hclean : r.broken = false) (h : Cut codec xs r.content done part) :
    readUntilEnd codec r = (done, if part.length < 4 then .ok () else .error .reading) := by
  obtain ⟨⟨bytes, hbytes, hr⟩, hnext⟩ := h
  have hpiece : part = [] ∨
      ∃ y frame, writeMsg codec y = some frame ∧ part <+: frame ∧ part ≠ frame :=
    hnext.imp And.right fun ⟨y, _, frame, _, hframe⟩ => ⟨y, frame, hframe⟩
  clear hnext
  induction done generalizing r bytes with
  | nil =>
    cases hbytes
    rcases hpiece with rfl | ⟨y, hy⟩
    · rw [readUntilEnd_none (readMsgOpt_end hr hclean)]
      rfl
    · exact readUntilEnd_part hclean hr (.inr hy)
  | cons x done ih =>
    obtain ⟨first, rest, hfirst, hrest, rfl⟩ := writeMsgs_cons hbytes
    rw [List.append_assoc] at hr
    obtain ⟨r', hread, hcontent, hbroken⟩ := readMsgOpt_whole hfirst hr
    rw [readUntilEnd_some hread, ih (hbroken.trans hclean) rest hrest hcontent]

/-- Of a stream of frames that ends anywhere, the whole ones are read. The end then counts as
clean just where a frame ends, unless one to three bytes of a length stand there. -/
theorem clean_end_iff (h : writeMsgs codec xs = some bytes) (hr : r.content <+: bytes)
    (hclean : r.broken = false) :
    (∃ done part, Cut codec xs r.content done part) ∧
    ∀ done part, Cut codec xs r.content done part →
      (readUntilEnd codec r).1 = done ∧
      (((readUntilEnd codec r).2 = .ok () ↔ part = []) ↔
        ¬ (0 < part.length ∧ part.length < 4)) := by
  refine ⟨exists_cut h hr, fun done part hcut => ?_⟩
  rw [readUntilEnd_cut hclean hcut]
  refine ⟨rfl, ?_⟩
  by_cases h4 : part.length < 4
  · simp [h4, List.length_pos_iff]
  · have hne : part ≠ [] := by
      rintro rfl
      exact h4 (by decide)
    simp [h4, hne]

end

/-- An acknowledgement cut after the first byte of its length ends as if nothing had been sent. -/
theorem cut_length_ends_clean :
    writeMsgs Postcard.codecs.ack [.ok] = some [1, 0, 0, 0, 0] ∧
    Cut Postcard.codecs.ack [.ok] [1] [] [1] ∧
    readUntilEnd Postcard.codecs.ack ⟨[[1]], false⟩ = ([], .ok ()) := by
  have hwrite : writeMsg Postcard.codecs.ack .ok = some [1, 0, 0, 0, 0] := by decide +kernel
  have hcut : Cut Postcard.codecs.ack [.ok] [1] [] [1] :=
    ⟨⟨[], rfl, rfl⟩, .inr ⟨.ok, [], _, rfl, hwrite, by decide, by decide⟩⟩
  refine ⟨by decide +kernel, hcut, ?_⟩
  rw [readUntilEnd_cut rfl hcut]
  rfl

/-- Cut in its body, it is an error. -/
theorem clean_end_iff_body :
    (readUntilEnd Postcard.codecs.ack ⟨[[1, 0, 0], [0]], false⟩).1 = [] ∧
    (readUntilEnd Postcard.codecs.ack ⟨[[1, 0, 0], [0]], false⟩).2 ≠ .ok () := by
  have hwrite : writeMsgs Postcard.codecs.ack [.ok] = some [1, 0, 0, 0, 0] := by decide +kernel
  obtain ⟨-, hread⟩ := clean_end_iff (r := ⟨[[1, 0, 0], [0]], false⟩) hwrite (by decide) rfl
  have hframe : writeMsg Postcard.codecs.ack .ok = some [1, 0, 0, 0, 0] := by decide +kernel
  obtain ⟨hdone, hend⟩ := hread [] [1, 0, 0, 0]
    ⟨⟨[], rfl, rfl⟩, .inr ⟨.ok, [], _, rfl, hframe, by decide, by decide⟩⟩
  refine ⟨hdone, fun hok => ?_⟩
  exact absurd ((hend.mpr (by decide)).mp hok) (by decide)

end Egdod
