import Egdod.Copy.Commands
import Egdod.Postcard

/-! A copy from end to end: a command, the proxy of `serve`, and the agent's
handler, joined by streams that carry some beginning of what was written, in
any arrivals. What the sender hashed is what the receiver was told to expect,
so what lands is what was hashed, whatever was sent after it. -/
namespace Egdod.Copy

open Text Posix Stream StepSystem

/-! ## The proxy -/

/-- A connection to the control socket as `route_local` has it: what it reads from the command
and from the agent, what became of the route, and how its writes go. -/
structure Relay where
  up : Reader UInt8
  down : Reader UInt8
  reply : RouteReply
  replied : Option Nat
  upFates : List (Option Nat)
  downFates : List (Option Nat)

/-- `route_local`: what it writes to the command and what it writes to the agent. -/
def Relay.run (codecs : Codecs) (relay : Relay) : Bytes × Bytes :=
  match readMsg codecs.route relay.up with
  | .error _ => ([], [])
  | .ok (_, rest) =>
    match writeMsg codecs.routeReply relay.reply, relay.replied, relay.reply with
    | none, _, _ => ([], [])
    | some bs, some n, _ => (bs.take n, [])
    | some bs, none, .err _ => (bs, [])
    | some bs, none, .ok _ _ _ =>
      (bs ++ spliced relay.downFates relay.down.chunks, spliced relay.upFates rest.chunks)

/-- The streams of one request. `sent` and `reply` are what the command and the agent have
written, `back` and `recv` what there is for them to read. -/
structure Wired (codecs : Codecs) (relay : Relay) (sent reply : Bytes) (back recv : Reader UInt8) :
    Prop where
  up : relay.up.content <+: sent
  recv : recv.content <+: (relay.run codecs).2
  down : relay.down.content <+: reply
  back : back.content <+: (relay.run codecs).1

section
variable {codecs : Codecs} {relay : Relay} {sent reply more : Bytes} {back recv r : Reader UInt8}

theorem Relay.run_up {x : Route} (h : relay.up.content <+: framed codecs.route x more) :
    (relay.run codecs).2 <+: more := by
  unfold Relay.run
  split
  · exact List.nil_prefix
  · rename_i rest hread
    obtain ⟨-, hrest⟩ := readMsg_framed h hread
    split
    · exact List.nil_prefix
    · exact List.nil_prefix
    · exact List.nil_prefix
    · exact (spliced_prefix_flatten _ _).trans hrest

theorem Relay.run_down (relay : Relay) :
    (relay.run codecs).1 <+: framed codecs.routeReply relay.reply
      (match relay.reply with
        | .ok _ _ _ => relay.down.content
        | .err _ => []) := by
  unfold Relay.run framed
  split
  · exact List.nil_prefix
  · cases writeMsg codecs.routeReply relay.reply with
    | none => exact List.nil_prefix
    | some bs =>
      cases relay.replied with
      | some n => exact (List.take_prefix _ _).trans (List.prefix_append _ _)
      | none =>
        cases relay.reply with
        | err e => exact List.prefix_append _ _
        | ok => exact (List.prefix_append_right_inj bs).mpr (spliced_prefix_flatten _ _)

theorem Wired.request {x : Route} (h : Wired codecs relay sent reply back recv)
    (hsent : sent <+: framed codecs.route x more) : recv.content <+: more :=
  h.recv.trans (Relay.run_up (h.up.trans hsent))

theorem Wired.answer {id addr : Str} {path : PathKind} (h : Wired codecs relay sent reply back recv)
    (hread : readMsg codecs.routeReply back = .ok (.ok id path addr, r)) : r.content <+: reply := by
  obtain ⟨hreply, hrest⟩ := readMsg_framed (h.back.trans relay.run_down) hread
  rw [← hreply] at hrest
  exact hrest.trans h.down

/-! ## The agent -/

/-- What has been written of an acknowledgement once a copy has come to its end. -/
def acknowledged (codecs : Codecs) (text : RecvError → Str) :
    Option (Except RecvError Unit) → Bytes
  | some result => framed codecs.ack (ackOf text result) []
  | none => []

/-- `handle` at any moment: the files of the agent's machine, what it has written, and how the
copy it received came out. A command may do anything to the files. -/
inductive Handles (codecs : Codecs) (sha : Bytes → Digest) (text : RecvError → Str)
    (hashed sent : Opens) (recv : Reader UInt8) (fs : Files Str) :
    Files Str → Bytes → Option (Except RecvError Unit) → Prop
  | unread {e} : readMsg codecs.request recv = .error e →
      Handles codecs sha text hashed sent recv fs fs [] none
  | push {path mode len sha256 rest as s reply} :
      readMsg codecs.request recv = .ok (.push path mode len sha256, rest) →
      Steps (Intake.step sha path) always
        (.start fs ⟨len.toNat, sha256, mode.toNat, 2 ^ 64 - 1⟩ rest)
        as s →
      reply <+: acknowledged codecs text s.call.result →
      Handles codecs sha text hashed sent recv fs s.fs reply s.call.result
  | pull {path rest fates} :
      readMsg codecs.request recv = .ok (.pull path, rest) →
      Handles codecs sha text hashed sent recv fs fs
        (handlePull codecs sha hashed sent path ⟨rest, fates, []⟩).2.sent none
  | exec {argv rest fs' reply} : readMsg codecs.request recv = .ok (.exec argv, rest) →
      Handles codecs sha text hashed sent recv fs fs' reply none
  | forward {addr rest reply} : readMsg codecs.request recv = .ok (.forward addr, rest) →
      Handles codecs sha text hashed sent recv fs fs reply none

end

section
variable {codecs : Codecs} {sha : Bytes → Digest} {text : RecvError → Str} {relay : Relay}
  {hashed sent hashed' sent' : Opens} {recv back r r' : Reader UInt8} {fs fs' : Files Str}
  {reply more : Bytes} {outcome : Option (Except RecvError Unit)}
  {agent source remote dest : Str} {fates : List (Option Nat)}

theorem acknowledged_ok (h : r.content <+: acknowledged codecs text outcome)
    (hread : readMsg codecs.ack r = .ok (.ok, r')) : outcome = some (.ok ()) := by
  cases outcome with
  | none =>
    obtain ⟨e, he⟩ := readMsg_nil codecs.ack (List.prefix_nil.mp h)
    cases he.symm.trans hread
  | some result =>
    obtain ⟨hack, -⟩ := readMsg_framed h hread
    cases result with
    | ok => rfl
    | error e => cases hack

theorem Handles.nothing (h : Handles codecs sha text hashed sent recv fs fs' reply outcome)
    (hrecv : recv.content = []) : fs' = fs ∧ reply = [] ∧ outcome = none := by
  obtain ⟨e, he⟩ := readMsg_nil codecs.request hrecv
  cases h with
  | unread => exact ⟨rfl, rfl, rfl⟩
  | push hread | pull hread | exec hread | forward hread => cases he.symm.trans hread

/-- Of a push, any beginning of it, an agent makes that push or nothing. -/
theorem Handles.pushed {mode : UInt32} {len : UInt64} {sha256 : Digest}
    (h : Handles codecs sha text hashed sent recv fs fs' reply outcome)
    (hrecv : recv.content <+: framed codecs.request (.push remote mode len sha256) more) :
    reply <+: acknowledged codecs text outcome ∧
    (fs'.stat remote = fs.stat remote ∧ outcome ≠ some (.ok ()) ∨
      outcome = some (.ok ()) ∧ ∃ body, body <+: more ∧ body.length = len.toNat ∧
        sha body = sha256 ∧ fs'.stat remote = some ⟨body, mode.toNat % 0o10000⟩) := by
  cases h with
  | unread => exact ⟨List.nil_prefix, .inl ⟨rfl, nofun⟩⟩
  | @push path mode' len' sha' rest as s reply hread hrun hreply =>
    obtain ⟨hrequest, hrest⟩ := readMsg_framed hrecv hread
    cases hrequest
    refine ⟨hreply, ?_⟩
    have hsound := Intake.Sound.of_steps hrun
    by_cases hok : s.call.result = some (.ok ())
    · obtain ⟨-, ⟨hlen, hsha, -⟩, hstat⟩ := hsound.whole hok
      exact .inr ⟨hok, _, hrest, hlen, hsha, hstat⟩
    · exact .inl ⟨hsound.untouched hok, hok⟩
  | pull hread | exec hread | forward hread =>
    obtain ⟨hrequest, -⟩ := readMsg_framed hrecv hread
    cases hrequest

/-- Of a pull, an agent answers with the head and the body it read. It writes no file. -/
theorem Handles.pulled (h : Handles codecs sha text hashed sent recv fs fs' reply outcome)
    (hrecv : recv.content <+: framed codecs.request (.pull remote) more) :
    fs' = fs ∧ reply <+: framed codecs.pullStart
      (pullStart remote (statAndHash sha (hashed remote))) (pullBody sha hashed sent remote) := by
  cases h with
  | unread => exact ⟨rfl, List.nil_prefix⟩
  | pull hread =>
    obtain ⟨hrequest, -⟩ := readMsg_framed hrecv hread
    cases hrequest
    exact ⟨rfl, writes_handlePull.sent rfl⟩
  | push hread | exec hread | forward hread =>
    obtain ⟨hrequest, -⟩ := readMsg_framed hrecv hread
    cases hrequest

/-! ## From end to end -/

/-- A push at any moment: the path is as it was, or was given some beginning of what was sent,
of the length and the digest that the hashing pass came to. -/
theorem push_lands
    (hwired : Wired codecs relay
      (pushFile codecs sha hashed sent agent source remote ⟨back, fates, []⟩).2.sent reply
      back recv)
    (hagent : Handles codecs sha text hashed' sent' recv fs fs' reply outcome) :
    reply <+: acknowledged codecs text outcome ∧
    (fs'.stat remote = fs.stat remote ∧ outcome ≠ some (.ok ()) ∨
      outcome = some (.ok ()) ∧ ∃ mode len body,
        statAndHash sha (hashed source) = .ok (mode, len, sha body) ∧ body.length = len.toNat ∧
        body <+: bodyOf (sent source) ∧ fs'.stat remote = some ⟨body, mode.toNat % 0o10000⟩) := by
  cases hhash : statAndHash sha (hashed source) with
  | error e =>
    rw [pushFile, hhash] at hwired
    have hrecv : recv.content = [] :=
      List.prefix_nil.mp (hwired.request (x := ⟨agent⟩) List.nil_prefix)
    obtain ⟨rfl, rfl, rfl⟩ := hagent.nothing hrecv
    exact ⟨List.nil_prefix, .inl ⟨rfl, nofun⟩⟩
  | ok head =>
    obtain ⟨mode, len, sha256⟩ := head
    have hrecv := hwired.request ((writes_pushFile hhash).sent rfl)
    obtain ⟨hreply, hcases⟩ := hagent.pushed hrecv
    refine ⟨hreply, hcases.imp id ?_⟩
    rintro ⟨hok, body, hbody, hlen, rfl, hstat⟩
    exact ⟨hok, mode, len, body, rfl, hlen, hbody, hstat⟩

/-- A pull at any moment: likewise, and it calls missing only what the agent found missing. -/
theorem pull_lands {max : Nat} {files : Files Str} {as : List Intake.Action} {p : Pull}
    (hwired : Wired codecs relay
      (pullHead codecs agent remote max ⟨back, fates, []⟩).2.sent reply back recv)
    (hagent : Handles codecs sha text hashed sent recv fs fs' reply outcome)
    (hrun : Steps (Pull.step sha dest) always
      (Pull.start codecs agent remote max files ⟨back, fates, []⟩) as p) :
    (p.fs.stat dest = files.stat dest ∧ ((∃ e, p.result = some (.error e)) ∨ p.result = none ∨
      p.result = some (.ok .missing) ∧
        pullStart remote (statAndHash sha (hashed remote)) = .missing)) ∨
    ∃ mode len body, statAndHash sha (hashed remote) = .ok (mode, len, sha body) ∧
      p.result = some (.ok (.fetched len.toNat (sha body))) ∧ body.length = len.toNat ∧
      body <+: bodyOf (sent remote) ∧ p.fs.stat dest = some ⟨body, mode.toNat % 0o10000⟩ := by
  obtain ⟨-, hreply⟩ := hagent.pulled (hwired.request (writes_pullHead.sent rfl))
  rcases Pull.start_cases codecs agent remote max files ⟨back, fates, []⟩ with
    ⟨e, hstart⟩ | ⟨id, path, addr, r, start, rest, hr, hrest, hstart⟩
  · rw [hstart] at hrun
    obtain ⟨rfl, -⟩ := Pull.steps_ended hrun
    exact .inl ⟨rfl, .inl ⟨e, rfl⟩⟩
  · obtain ⟨rfl, hbody⟩ := readMsg_framed ((hwired.answer hr).trans hreply) hrest
    rcases hstart with ⟨hmissing, hstart⟩ | ⟨mode, len, sha256, hok, hstart⟩
    · rw [hstart] at hrun
      obtain ⟨rfl, -⟩ := Pull.steps_ended hrun
      exact .inl ⟨rfl, .inr (.inr ⟨rfl, hmissing⟩)⟩
    · rw [hstart] at hrun
      obtain ⟨t, rfl, ht⟩ := Pull.steps_receiving hrun
      have hsound := Intake.Sound.of_steps ht
      rcases hres : t.call.result with _ | (e | u)
      · exact .inl ⟨hsound.untouched (by simp [hres]), .inr (.inl (by simp [Pull.result, hres]))⟩
      · refine .inl ⟨hsound.untouched (by simp [hres]), .inl ⟨.receiving e, ?_⟩⟩
        simp [Pull.result, hres]
      · obtain ⟨-, ⟨hlen, hsha, -⟩, hstat⟩ := hsound.whole hres
        have hhead := pullStart_ok hok
        rw [pullBody, hhead] at hbody
        refine .inr ⟨mode, len, rest.content, ?_, ?_, hlen, hbody, hstat⟩
        · rw [hsha]
          exact hhead
        · rw [hsha]
          simp [Pull.result, hres, hsound.transfer]

/-- What a copy that went well has done: the path holds what the hashing pass read to its end,
under the mode it saw, and the length and digest reported are those of these bytes. -/
def Copied (sha : Bytes → Digest) (opened : Except Io Pass) (fs : Files Str) (path : Str)
    (len : Nat) (sha256 : Digest) : Prop :=
  ∃ f mode, opened = .ok f ∧ f.stat = .ok (mode, true) ∧ f.body.broken = false ∧
    len = f.body.content.length ∧ sha256 = sha f.body.content ∧
    fs.stat path = some ⟨f.body.content, mode % 0o10000⟩

/-- Nothing that can have come of what was sent collides with what was hashed. -/
def NoCollision (sha : Bytes → Digest) (hashed sent : Bytes) : Prop :=
  ∀ bs, bs <+: sent → sha bs = sha hashed → bs = hashed

/-- Without a collision, what has the digest of the hashing pass is what it read. -/
theorem copied_of_hashed {opened : Except Io Pass} {mode : UInt32} {len : UInt64} {body all : Bytes}
    (hsha : NoCollision sha (bodyOf opened) all) (hbody : body <+: all)
    (hhash : statAndHash sha opened = .ok (mode, len, sha body)) (hlen : body.length = len.toNat)
    (hstat : fs.stat dest = some ⟨body, mode.toNat % 0o10000⟩) :
    Copied sha opened fs dest len.toNat (sha body) := by
  obtain ⟨f, m, rfl, hstat', hbroken, hmode, -, hdigest⟩ := statAndHash_ok hhash
  obtain rfl := hsha body hbody hdigest
  rw [hmode, Nat.mod_mod] at hstat
  exact ⟨f, m, rfl, hstat', hbroken, hlen.symm, rfl, hstat⟩

/-- A copy is faithful to the hashing pass. Unless the digest collides, a push or a pull that
reports success has given the path exactly what that pass read; a copy that the receiver rejects
has left the path alone. -/
theorem copy_faithful (codecs : Codecs) (sha : Bytes → Digest) (text : RecvError → Str) :
    (∀ (hashed sent hashed' sent' : Opens) (agent source remote : Str) (relay : Relay)
        (back recv : Reader UInt8) (fates : List (Option Nat)) (fs fs' : Files Str)
        (reply : Bytes) (outcome : Option (Except RecvError Unit)),
      let run := pushFile codecs sha hashed sent agent source remote ⟨back, fates, []⟩
      Wired codecs relay run.2.sent reply back recv →
      Handles codecs sha text hashed' sent' recv fs fs' reply outcome →
      (NoCollision sha (bodyOf (hashed source)) (bodyOf (sent source)) →
        ∀ len sha256, run.1 = .ok (len, sha256) →
          Copied sha (hashed source) fs' remote len.toNat sha256) ∧
      ∀ e, outcome = some (.error e) → fs'.stat remote = fs.stat remote) ∧
    ∀ (hashed sent : Opens) (agent remote dest : Str) (max : Nat) (relay : Relay)
        (back recv : Reader UInt8) (fates : List (Option Nat)) (fs fs' files : Files Str)
        (reply : Bytes) (outcome : Option (Except RecvError Unit)) (as : List Intake.Action)
        (p : Pull),
      Wired codecs relay (pullHead codecs agent remote max ⟨back, fates, []⟩).2.sent reply
        back recv →
      Handles codecs sha text hashed sent recv fs fs' reply outcome →
      Steps (Pull.step sha dest) always
        (Pull.start codecs agent remote max files ⟨back, fates, []⟩) as p →
      (NoCollision sha (bodyOf (hashed remote)) (bodyOf (sent remote)) →
        ∀ len sha256, p.result = some (.ok (.fetched len sha256)) →
          Copied sha (hashed remote) p.fs dest len sha256) ∧
      ∀ e, p.result = some (.error e) → p.fs.stat dest = files.stat dest := by
  refine ⟨?_, ?_⟩
  · intro hashed sent hashed' sent' agent source remote relay back recv fates fs fs' reply outcome
      run hwired hagent
    obtain ⟨hreply, hcases⟩ := push_lands hwired hagent
    refine ⟨fun hsha len sha256 hok => ?_, fun e he => ?_⟩
    · obtain ⟨mode, id, path, addr, r, r', hhash, hr, hack⟩ := pushFile_ok (Prod.ext hok rfl)
      have houtcome := acknowledged_ok ((hwired.answer hr).trans hreply) hack
      rcases hcases with ⟨-, hnot⟩ | ⟨-, mode', len', body, hhash', hlen, hbody, hstat⟩
      · exact absurd houtcome hnot
      · cases hhash.symm.trans hhash'
        exact copied_of_hashed hsha hbody hhash hlen hstat
    · rcases hcases with ⟨hsame, -⟩ | ⟨hok, -⟩
      · exact hsame
      · cases he.symm.trans hok
  · intro hashed sent agent remote dest max relay back recv fates fs fs' files reply outcome as p
      hwired hagent hrun
    rcases pull_lands hwired hagent hrun with
      ⟨hsame, hres⟩ | ⟨mode, len, body, hhash, hres, hlen, hbody, hstat⟩
    · refine ⟨fun _ len sha256 hok => ?_, fun _ _ => hsame⟩
      rcases hres with ⟨e, he⟩ | hnone | ⟨hmissing, -⟩
      · cases he.symm.trans hok
      · cases hnone.symm.trans hok
      · cases hmissing.symm.trans hok
    · refine ⟨fun hsha len' sha256 hok => ?_, fun e he => ?_⟩
      · cases hres.symm.trans hok
        exact copied_of_hashed hsha hbody hhash hlen hstat
      · cases hres.symm.trans he

end

/-- A receiver's run on a body that comes in pieces of these lengths, all going well. -/
def smallLanding (pieces : List Nat) : List Intake.Action :=
  [.step .ok, .step .ok, .step (.figures ⟨0, 0, 0⟩), .step (.nonce [0, 0, 0, 0, 0, 0, 0, 0])] ++
    pieces.flatMap (fun n => [.read, .step .ok, .land n]) ++
    [.read, .step .ok, .step .ok, .step .ok, .step .ok]

/-- A connection on which nothing fails. -/
def plainRelay (up down : List Bytes) : Relay :=
  ⟨⟨up, false⟩, ⟨down, false⟩, Postcard.granted, none, [], []⟩

/-- What the agent reads of a small push. -/
def smallPush : Bytes :=
  [38, 0, 0, 0, 1, 1, 102, 164, 3, 2] ++ List.replicate 32 3 ++ [1, 2]

/-- The command's side of that push, with an acknowledgement to read. -/
def smallPusher : Except Failure (UInt64 × Digest) × Socket UInt8 :=
  pushFile Postcard.codecs byteSum Postcard.oneFile Postcard.oneFile "ab".toList "g".toList
    "f".toList ⟨⟨[Postcard.grantedBytes, [1, 0, 0, 0, 0]], false⟩, [], []⟩

/-- What there is to read for a pull of the same file. -/
def smallAnswer : Reader UInt8 :=
  ⟨[Postcard.grantedBytes, Postcard.headBytes, [1], [2]], false⟩

/-- What the agent reads of that pull. -/
def smallPull : Bytes := [3, 0, 0, 0, 2, 1, 103]

theorem noCollision_oneFile :
    NoCollision byteSum (bodyOf (Postcard.oneFile "g".toList))
      (bodyOf (Postcard.oneFile "g".toList)) := by
  intro bs hbs heq
  have hall : [1, 2].inits.all (fun bs => byteSum bs ≠ byteSum [1, 2] ∨ bs = [1, 2]) = true := by
    decide +kernel
  have hmem : bs ∈ [1, 2].inits := (List.mem_inits _ _).mpr hbs
  exact (of_decide_eq_true (List.all_eq_true.mp hall bs hmem)).resolve_left (absurd heq ·)

/-- A push that goes well, and a pull that does, from end to end. -/
theorem copy_faithful_small :
    (∃ s, Steps (Intake.step byteSum "f".toList) always
        (.start Files.empty ⟨2, .filled 32 3, 0o644, 2 ^ 64 - 1⟩ ⟨[[1, 2]], false⟩)
        (smallLanding [2]) s ∧
      Handles Postcard.codecs byteSum (fun _ => []) Postcard.oneFile Postcard.oneFile
        ⟨[smallPush], false⟩ Files.empty s.fs [1, 0, 0, 0, 0] s.call.result ∧
      Wired Postcard.codecs
        (plainRelay [[3, 0, 0, 0, 2, 97], 98 :: smallPush] [[1, 0, 0, 0, 0]])
        smallPusher.2.sent [1, 0, 0, 0, 0]
        ⟨[Postcard.grantedBytes, [1, 0, 0, 0, 0]], false⟩ ⟨[smallPush], false⟩ ∧
      smallPusher.1 = .ok (2, .filled 32 3) ∧
      Copied byteSum (Postcard.oneFile "g".toList) s.fs "f".toList 2 (.filled 32 3)) ∧
    ∃ p, Steps (Pull.step byteSum "f".toList) always
        (Pull.start Postcard.codecs "ab".toList "g".toList 10 Files.empty ⟨smallAnswer, [], []⟩)
        (smallLanding [1, 1]) p ∧
      Handles Postcard.codecs byteSum (fun _ => []) Postcard.oneFile Postcard.oneFile
        ⟨[smallPull], false⟩ Files.empty Files.empty (Postcard.headBytes ++ [1, 2]) none ∧
      Wired Postcard.codecs
        (plainRelay [[3, 0, 0, 0, 2, 97, 98], smallPull] [Postcard.headBytes, [1], [2]])
        (pullHead Postcard.codecs "ab".toList "g".toList 10 ⟨smallAnswer, [], []⟩).2.sent
        (Postcard.headBytes ++ [1, 2]) smallAnswer ⟨[smallPull], false⟩ ∧
      p.result = some (.ok (.fetched 2 (.filled 32 3))) ∧
      Copied byteSum (Postcard.oneFile "g".toList) p.fs "f".toList 2 (.filled 32 3) := by
  obtain ⟨hpush, hpull⟩ := copy_faithful Postcard.codecs byteSum (fun _ => [])
  constructor
  · have hrun : (run (Intake.step byteSum "f".toList)
        (.start Files.empty ⟨2, .filled 32 3, 0o644, 2 ^ 64 - 1⟩ ⟨[[1, 2]], false⟩)
        (smallLanding [2])).map (fun s => s.call.result) = some (some (.ok ())) := by
      decide +kernel
    obtain ⟨s, hs, hresult⟩ := Option.map_eq_some_iff.mp hrun
    have hsteps := Steps.of_run (fun _ _ _ => trivial) hs
    have hread : readMsg Postcard.codecs.request ⟨[smallPush], false⟩ =
        .ok (.push "f".toList 0o644 2 (.filled 32 3), ⟨[[1, 2]], false⟩) := by decide +kernel
    have hagent : Handles Postcard.codecs byteSum (fun _ => []) Postcard.oneFile Postcard.oneFile
        ⟨[smallPush], false⟩ Files.empty s.fs [1, 0, 0, 0, 0] s.call.result := by
      refine .push hread hsteps ?_
      rw [hresult]
      decide +kernel
    have hwired : Wired Postcard.codecs
        (plainRelay [[3, 0, 0, 0, 2, 97], 98 :: smallPush] [[1, 0, 0, 0, 0]])
        smallPusher.2.sent [1, 0, 0, 0, 0]
        ⟨[Postcard.grantedBytes, [1, 0, 0, 0, 0]], false⟩ ⟨[smallPush], false⟩ := by
      constructor <;> decide +kernel
    have hok : smallPusher.1 = .ok (2, .filled 32 3) := by decide +kernel
    exact ⟨s, hsteps, hagent, hwired, hok, (hpush _ _ _ _ _ _ _ _ _ _ _ _ _ _ _ hwired hagent).1
      noCollision_oneFile 2 _ hok⟩
  · have hrun : (run (Pull.step byteSum "f".toList) (Pull.start Postcard.codecs "ab".toList
        "g".toList 10 Files.empty ⟨smallAnswer, [], []⟩) (smallLanding [1, 1])).map Pull.result =
        some (some (.ok (.fetched 2 (.filled 32 3)))) := by
      decide +kernel
    obtain ⟨p, hp, hresult⟩ := Option.map_eq_some_iff.mp hrun
    have hsteps := Steps.of_run (fun _ _ _ => trivial) hp
    have hread : readMsg Postcard.codecs.request ⟨[smallPull], false⟩ =
        .ok (.pull "g".toList, ⟨[], false⟩) := by decide +kernel
    have hsent : (handlePull Postcard.codecs byteSum Postcard.oneFile Postcard.oneFile "g".toList
        ⟨⟨[], false⟩, [], []⟩).2.sent = Postcard.headBytes ++ [1, 2] := by decide +kernel
    have hagent : Handles Postcard.codecs byteSum (fun _ => []) Postcard.oneFile Postcard.oneFile
        ⟨[smallPull], false⟩ Files.empty Files.empty (Postcard.headBytes ++ [1, 2]) none :=
      hsent ▸ .pull hread
    have hwired : Wired Postcard.codecs
        (plainRelay [[3, 0, 0, 0, 2, 97, 98], smallPull] [Postcard.headBytes, [1], [2]])
        (pullHead Postcard.codecs "ab".toList "g".toList 10 ⟨smallAnswer, [], []⟩).2.sent
        (Postcard.headBytes ++ [1, 2]) smallAnswer ⟨[smallPull], false⟩ := by
      constructor <;> decide +kernel
    exact ⟨p, hsteps, hagent, hwired, hresult,
      (hpull _ _ _ _ _ _ _ _ _ _ _ _ _ _ _ _ _ hwired hagent hsteps).1 noCollision_oneFile 2 _
        hresult⟩

end Egdod.Copy
