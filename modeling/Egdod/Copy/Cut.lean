import Egdod.Copy.Commands
import Egdod.Exec.Stream
import Egdod.Postcard

/-! What the controller makes of an answer that was cut. The proxy ends a
stream cleanly when it loses a connection, so a cut is only told from an end
by what the answer still owed: a status, a body as long as announced, an
acknowledgement. -/
namespace Egdod.Copy

open Text Posix Stream StepSystem Exec

/-- An agent's answer to a pull: the head, and the body that the head announces. -/
structure PullReply where
  head : PullStart
  body : Bytes
  announced : match head with
    | .ok _ len _ => body.length = len.toNat
    | _ => body = []

def PullReply.bytes (codec : Codec PullStart) (reply : PullReply) : Option Bytes :=
  (writeMsg codec reply.head).map (· ++ reply.body)

section
variable {codecs : Codecs} {sha : Bytes → Digest} {routed : RouteReply}
  {routedBytes bytes : Bytes} {socket : Socket UInt8}

/-- Behind the reply of `serve`, a cut answer is still a cut answer. -/
theorem readMsg_routed {T : Type} {codec : Codec T} {r r' : Reader UInt8} {x y : T} {more : Bytes}
    (h : writeMsg codec x = some bytes) (hr : r.content <+: bytes ++ more)
    (hne : r.content ≠ bytes ++ more) (hread : readMsg codec r = .ok (y, r')) :
    y = x ∧ r'.content <+: more ∧ r'.content ≠ more ∧ r'.content.length ≤ r.content.length := by
  rcases readMsg_carried h hr with ⟨-, -, e, he⟩ | ⟨r₁, hread₁, hcontent, hmore, -⟩
  · cases he.symm.trans hread
  · cases hread₁.symm.trans hread
    refine ⟨rfl, hmore, fun e => hne (by rw [hcontent, e]), ?_⟩
    rw [hcontent, List.length_append]
    omega

/-- A body that falls short of what was announced is never taken. -/
theorem Intake.short {base : Str} {fs : Files Str} {x : Transfer} {r : Reader UInt8} {s : Intake}
    {as : List Intake.Action} (hshort : r.content.length < x.len)
    (hrun : Steps (Intake.step sha base) always (.start fs x r) as s) :
    s.fs.stat base = fs.stat base ∧ s.call.result ≠ some (.ok ()) := by
  have hsound := Intake.Sound.of_steps hrun
  have hnot : s.call.result ≠ some (.ok ()) := fun hok => by
    obtain ⟨-, ⟨hlen, -⟩, -⟩ := hsound.whole hok
    omega
  exact ⟨hsound.untouched hnot, hnot⟩

theorem Pull.progress {dest : Str} {p : Pull} (h : p.result = none) :
    ∃ a p', p.step sha dest a = some p' := by
  cases p with
  | ended => cases h
  | receiving s =>
    obtain ⟨a, s', hstep⟩ : ∃ a s', s.step sha dest a = some s' :=
      Intake.progress (Option.map_eq_none_iff.mp h)
    exact ⟨a, .receiving s', by simp [Pull.step, hstep]⟩

theorem pull_cut {reply : PullReply} {agent remote dest : Str} {max : Nat} {fs : Files Str}
    {as : List Intake.Action} {p : Pull}
    (hrouted : writeMsg codecs.routeReply routed = some routedBytes)
    (hreply : reply.bytes codecs.pullStart = some bytes)
    (hcut : socket.reader.content <+: routedBytes ++ bytes)
    (hne : socket.reader.content ≠ routedBytes ++ bytes)
    (hrun : Steps (Pull.step sha dest) always (Pull.start codecs agent remote max fs socket) as p) :
    p.fs.stat dest = fs.stat dest ∧ (∀ found, p.result ≠ some (.ok found)) ∧
      as.length ≤ 5 * socket.reader.content.length + 20 := by
  obtain ⟨headBytes, hhead, rfl⟩ := Option.map_eq_some_iff.mp hreply
  rcases Pull.start_cases codecs agent remote max fs socket with
    ⟨e, hstart⟩ | ⟨id, path, addr, r, start, rest, hr, hrest, hstart⟩
  · rw [hstart] at hrun
    obtain ⟨rfl, rfl⟩ := Pull.steps_ended hrun
    exact ⟨rfl, by simp [Pull.result], by simp⟩
  · obtain ⟨-, hcut₁, hne₁, hle₁⟩ := readMsg_routed hrouted hcut hne hr
    obtain ⟨rfl, hcut₂, hne₂, hle₂⟩ := readMsg_routed hhead hcut₁ hne₁ hrest
    have hannounced := reply.announced
    rcases hstart with ⟨hmissing, -⟩ | ⟨mode, len, sha256, hok, hstart⟩
    -- nothing follows a head without a body, so it cannot have been read whole
    · rw [hmissing] at hannounced
      rw [hannounced] at hcut₂ hne₂
      exact absurd (List.prefix_nil.mp hcut₂) hne₂
    · rw [hok] at hannounced
      rw [hstart] at hrun
      obtain ⟨t, rfl, ht⟩ := Pull.steps_receiving hrun
      have hshort : rest.content.length < len.toNat := by
        have := hcut₂.length_le
        have : rest.content.length ≠ reply.body.length := fun e => hne₂ (hcut₂.eq_of_length e)
        omega
      obtain ⟨hstat, hnot⟩ := Intake.short hshort ht
      have hbound := Intake.length_le ht
      refine ⟨hstat, fun found hfound => ?_, ?_⟩
      · obtain ⟨res, hres, hfound⟩ := Option.map_eq_some_iff.mp hfound
        cases res with
        | ok => exact hnot hres
        | error => cases hfound
      · simp only [Intake.left, Intake.start, Receive.rank, Receive.start, Inflight.left,
          Pc.rank] at hbound
        omega

theorem push_cut {ack : Ack} {hashed sent : Opens} {agent source remote : Str}
    (hrouted : writeMsg codecs.routeReply routed = some routedBytes)
    (hack : writeMsg codecs.ack ack = some bytes)
    (hcut : socket.reader.content <+: routedBytes ++ bytes)
    (hne : socket.reader.content ≠ routedBytes ++ bytes) :
    ∃ e, (pushFile codecs sha hashed sent agent source remote socket).1 = .error e := by
  cases hres : (pushFile codecs sha hashed sent agent source remote socket).1 with
  | error e => exact ⟨e, rfl⟩
  | ok res =>
    obtain ⟨mode, id, path, addr, r, r', -, hr, hr'⟩ := pushFile_ok (Prod.ext hres rfl)
    obtain ⟨-, hcut₁, hne₁, -⟩ := readMsg_routed hrouted hcut hne hr
    rw [← List.append_nil bytes] at hcut₁ hne₁
    obtain ⟨-, hcut₂, hne₂, -⟩ := readMsg_routed hack hcut₁ hne₁ hr'
    exact absurd (List.prefix_nil.mp hcut₂) hne₂

/-- A cut stream is never mistaken for a complete answer: no command takes a proper beginning
of what an agent sent for more than an error, and a pull then leaves its path alone. -/
theorem cut_never_complete (codecs : Codecs) (execCodec : Codec ExecFrame) (sha : Bytes → Digest) :
    (∀ (rep : Report) (bytes : Bytes) (max : Nat) (faults : List Bool) (r : Reader UInt8),
      writeMsgs execCodec rep.frames = some bytes → r.content <+: bytes → r.content ≠ bytes →
      ∃ e, recvExecStream execCodec max faults r = .error e) ∧
    (∀ (routed : RouteReply) (routedBytes : Bytes) (reply : PullReply) (bytes : Bytes)
        (agent remote dest : Str) (max : Nat) (fs : Files Str) (socket : Socket UInt8),
      writeMsg codecs.routeReply routed = some routedBytes →
      reply.bytes codecs.pullStart = some bytes →
      socket.reader.content <+: routedBytes ++ bytes →
      socket.reader.content ≠ routedBytes ++ bytes →
      ∀ as p, Steps (Pull.step sha dest) always
          (Pull.start codecs agent remote max fs socket) as p →
        p.fs.stat dest = fs.stat dest ∧
        (p.result = none ∨ ∃ e, p.result = some (.error e)) ∧
        (p.result = none → ∃ a p', p.step sha dest a = some p') ∧
        as.length ≤ 5 * socket.reader.content.length + 20) ∧
    ∀ (routed : RouteReply) (routedBytes : Bytes) (ack : Ack) (bytes : Bytes)
        (hashed sent : Opens) (agent source remote : Str) (socket : Socket UInt8),
      writeMsg codecs.routeReply routed = some routedBytes →
      writeMsg codecs.ack ack = some bytes →
      socket.reader.content <+: routedBytes ++ bytes →
      socket.reader.content ≠ routedBytes ++ bytes →
      ∃ e, (pushFile codecs sha hashed sent agent source remote socket).1 = .error e := by
  refine ⟨?_, ?_, ?_⟩
  · intro rep bytes max faults r hbytes hcut hne
    exact recvExecStream_cut hbytes hcut hne
  · intro routed routedBytes reply bytes agent remote dest max fs socket hrouted hreply hcut hne
      as p hrun
    obtain ⟨hstat, hnot, hbound⟩ := pull_cut hrouted hreply hcut hne hrun
    refine ⟨hstat, ?_, Pull.progress, hbound⟩
    rcases hres : p.result with _ | (e | found)
    · exact .inl rfl
    · exact .inr ⟨e, rfl⟩
    · exact absurd hres (hnot found)
  · intro routed routedBytes ack bytes hashed sent agent source remote socket hrouted hack hcut hne
    exact push_cut hrouted hack hcut hne

end

/-- Two bytes that are announced, and the first of them. -/
def cutPull : Socket UInt8 :=
  ⟨⟨[Postcard.grantedBytes, Postcard.headBytes ++ [1]], false⟩, [], []⟩

/-- Three cuts: between a command's output and its status, in the body of a file, and in the
length of an acknowledgement. -/
theorem cut_never_complete_midway :
    (∃ e, recvExecStream (Postcard.codec Postcard.execFrame) 100 []
      ⟨[[3, 0, 0, 0, 0], [1, 33]], false⟩ = .error e) ∧
    (∀ as p, Steps (Pull.step byteSum "f".toList) always
        (Pull.start Postcard.codecs "ab".toList "g".toList 10 Files.empty cutPull) as p →
      p.fs.stat "f".toList = none ∧ (p.result = none ∨ ∃ e, p.result = some (.error e))) ∧
    ∃ e, (pushFile Postcard.codecs byteSum Postcard.oneFile Postcard.oneFile "ab".toList
      "g".toList "f".toList ⟨⟨[Postcard.grantedBytes, [1, 0]], false⟩, [], []⟩).1 = .error e := by
  have hgranted :
      writeMsg Postcard.codecs.routeReply Postcard.granted = some Postcard.grantedBytes := by
    decide +kernel
  obtain ⟨hexec, hpull, hpush⟩ :=
    cut_never_complete Postcard.codecs (Postcard.codec Postcard.execFrame) byteSum
  refine ⟨hexec ⟨[(.stdout, [33])], false, 0⟩ [3, 0, 0, 0, 0, 1, 33, 2, 0, 0, 0, 2, 0] 100 [] _
    (by decide +kernel) (by decide) (by decide), ?_, ?_⟩
  · intro as p hrun
    obtain ⟨hstat, hres, -, -⟩ := hpull Postcard.granted Postcard.grantedBytes
      ⟨.ok 0o644 2 (.filled 32 3), [1, 2], rfl⟩ (Postcard.headBytes ++ [1, 2]) _ _ _ _ _ cutPull
      hgranted (by decide +kernel) (by decide) (by decide) as p hrun
    exact ⟨hstat, hres⟩
  · exact hpush Postcard.granted Postcard.grantedBytes .ok [1, 0, 0, 0, 0] _ _ _ _ _ _ hgranted
      (by decide +kernel) (by decide) (by decide)

end Egdod.Copy
