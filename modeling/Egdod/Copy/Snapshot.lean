import Egdod.Copy.Landing
import Egdod.Copy.Session

/-! A pull of a path that pushes are landing on. The pass that hashes the file
opens it once and reads what it opened; a push never writes to a file under
its final name, and the rename that replaces the file leaves it to those who
have it open. So the pull gets one version of the file, as a whole. -/
namespace Egdod.Copy

open Text Posix Stream StepSystem

/-! ## The hashing pass -/

/-- `stat_and_hash`: before it opens the path, at the metadata, at a read, or over with what its
calls gave. -/
inductive Sight where
  | closed
  | opened (fd : Nat)
  | reading (fd mode : Nat) (pieces : List Bytes)
  | done (pass : Except Io Pass)

/-- The agent's files with the pushes under way to one path, and a pass over that path. -/
structure Watched where
  copies : Copies
  sight : Sight

def Watched.start (fs : Files Str) : Watched := ⟨Copies.before fs, .closed⟩

inductive Watched.Action where
  | copy (a : Copy.Action)
  /-- The pass's next call works; a read brings at most `n` bytes. -/
  | go (n : Nat)
  | fail (e : Io)

/-- The pass's next call. What is open stays open, whatever becomes of its name. -/
def Sight.go (path : Str) (fs : Files Str) (n : Nat) : Sight → Option Sight
  | .closed => (fs.dir path).map .opened
  | .opened fd => some (.reading fd (fs.inode fd).mode [])
  | .reading fd mode pieces =>
    if 0 < n ∧ n ≤ chunk then
      match ((fs.inode fd).bytes.drop pieces.flatten.length).take n with
      | [] => some (.done (.ok ⟨.ok (mode, true), ⟨pieces, false⟩, ⟨false, []⟩⟩))
      | b :: bs => some (.reading fd mode (pieces ++ [b :: bs]))
    else none
  | .done _ => none

/-- The pass's next call fails. Only opening a path can find that it is not there, and then it
is not. -/
def Sight.fail (path : Str) (fs : Files Str) (e : Io) : Sight → Option Sight
  | .closed =>
    if e.notFound = true → fs.dir path = none then some (.done (.error e)) else none
  | .opened _ =>
    if e.notFound then none else some (.done (.ok ⟨.error e, ⟨[], false⟩, e⟩))
  | .reading _ mode pieces =>
    if e.notFound then none else some (.done (.ok ⟨.ok (mode, true), ⟨pieces, true⟩, e⟩))
  | .done _ => none

def Watched.step (sha : Bytes → Digest) (path : Str) (s : Watched) :
    Watched.Action → Option Watched
  | .copy a => (Copy.step sha path s.copies a).map fun copies => { s with copies := copies }
  | .go n => (s.sight.go path s.copies.fs n).map fun sight => { s with sight := sight }
  | .fail e => (s.sight.fail path s.copies.fs e).map fun sight => { s with sight := sight }

/-- Removing one's own staging file does not fail. -/
def Watched.UnlinkWorks (s : Watched) : Watched.Action → Prop
  | .copy a => Copy.UnlinkWorks s.copies a
  | _ => True

/-! ## Versions of the file -/

/-- The file as it was, or as a push that succeeded has it. -/
def Version (sha : Bytes → Digest) (original : Option Inode) (s : Copies) (v : Inode) : Prop :=
  original = some v ∨ ∃ t c, s.calls t = some c ∧ c.result = some (.ok ()) ∧
    c.transfer.Complete sha c.received ∧ v = ⟨c.received, c.transfer.mode % 0o10000⟩

/-- An inode that nobody writes to any more. -/
structure Fixed (s : Copies) (fd : Nat) (v : Inode) : Prop where
  inode : s.fs.inode fd = v
  old : fd < s.fs.next
  apart : ∀ t c p, s.calls t = some c → c.result = none → c.pc.part = some p → p.fd ≠ fd

section
variable {sha : Bytes → Digest} {path : Str} {original : Option Inode} {s s' : Copies} {a : Action}
  {fd : Nat} {v : Inode}

theorem Version.step (h : Version sha original s v) (hs : Copies.Sound sha path original s)
    (hstep : step sha path s a = some s') : Version sha original s' v := by
  rcases h with hold | ⟨t, c, hc, hr, hrest⟩
  · exact .inl hold
  · exact .inr ⟨t, c, hs.keeps_returned hstep hc hr, hr, hrest⟩

/-- What the path names is a version. -/
theorem version_of_dir (hs : Copies.Sound sha path original s) (hdir : s.fs.dir path = some fd) :
    Version sha original s (s.fs.inode fd) := by
  have hstat : s.fs.stat path = some (s.fs.inode fd) := Files.stat_of_dir hdir
  rcases hs.destination with hold | ⟨t, c, hc, hr, hcomplete, hnew⟩
  · exact .inl (hold.symm.trans hstat)
  · exact .inr ⟨t, c, hc, hr, hcomplete, Option.some.inj (hstat.symm.trans hnew)⟩

/-- And nobody writes to it: a staging file has another name, and so another inode. -/
theorem fixed_of_dir (hs : Copies.Sound sha path original s) (hdir : s.fs.dir path = some fd) :
    Fixed s fd (s.fs.inode fd) := by
  refine ⟨rfl, s.fs.bound _ _ hdir, ?_⟩
  intro t c p hc hr hp heq
  have held := (hs.calls t c hc).held hp hr
  exact held.aside (s.fs.single _ _ _ held.linked (heq ▸ hdir))

theorem Fixed.step (h : Fixed s fd v) (hs : Copies.Sound sha path original s)
    (hstep : step sha path s a = some s') : Fixed s' fd v := by
  rcases step_cases hstep with ⟨t, x, rfl, -, rfl⟩ | ⟨c, fs', c', hc, hm, rfl⟩
  · refine ⟨h.inode, h.old, ?_⟩
    intro u d p hd hr hp
    rcases calls_set hd with ⟨-, rfl⟩ | ⟨-, hd⟩
    · cases hp
    · exact h.apart u d p hd hr hp
  · have hrunning := hm.not_returned (hs.calls _ _ hc)
    obtain ⟨touched, ht, hwhose⟩ := hm.touches (hs.calls _ _ hc)
    have hne : fd ≠ touched := by
      rcases hwhose with ⟨-, rfl⟩ | ⟨p, hp, rfl⟩
      · exact Nat.ne_of_lt h.old
      · exact (h.apart _ c p hc hrunning hp).symm
    refine ⟨(ht.inode fd hne h.old).trans h.inode, Nat.lt_of_lt_of_le h.old ht.next, ?_⟩
    intro u d p hd hr hp
    rcases calls_set hd with ⟨-, rfl⟩ | ⟨-, hd⟩
    · rcases hm.part with hsame | ⟨-, q, hq, hfresh⟩
      · exact h.apart _ c p hc hrunning (hsame ▸ hp)
      · cases hp.symm.trans hq
        exact hfresh ▸ (Nat.ne_of_lt h.old).symm
    · exact h.apart u d p hd hr hp

end

/-! ## What a pass sees -/

/-- Invariant of a pass, by where it stands. -/
def Sight.Sees (sha : Bytes → Digest) (original : Option Inode) (s : Copies) : Sight → Prop
  | .closed => True
  | .opened fd => ∃ v, Version sha original s v ∧ Fixed s fd v
  | .reading fd mode pieces =>
    ∃ v, Version sha original s v ∧ Fixed s fd v ∧ mode = v.mode ∧ pieces.flatten <+: v.bytes
  | .done (.ok f) =>
    (∀ mode isFile, f.stat = .ok (mode, isFile) → f.body.broken = false →
      ∃ v, Version sha original s v ∧ mode = v.mode ∧ f.body.content = v.bytes) ∧
    (∀ e, f.stat = .error e → e.notFound = false) ∧
    (f.body.broken = true → f.error.notFound = false)
  | .done (.error e) => e.notFound = true → original = none

section
variable {sha : Bytes → Digest} {path : Str} {original : Option Inode} {s s' : Watched}
  {sight : Sight}

theorem Sight.Sees.step {copies : Copies} {a : Action}
    (h : s.sight.Sees sha original s.copies) (hs : Copies.Sound sha path original s.copies)
    (hstep : Copy.step sha path s.copies a = some copies) : s.sight.Sees sha original copies := by
  cases hsight : s.sight with
  | closed => trivial
  | opened fd =>
    rw [hsight] at h
    obtain ⟨v, hv, hfixed⟩ := h
    exact ⟨v, hv.step hs hstep, hfixed.step hs hstep⟩
  | reading fd mode pieces =>
    rw [hsight] at h
    obtain ⟨v, hv, hfixed, hmode, hread⟩ := h
    exact ⟨v, hv.step hs hstep, hfixed.step hs hstep, hmode, hread⟩
  | done pass =>
    rw [hsight] at h
    cases pass with
    | error e => exact h
    | ok f =>
      refine ⟨fun mode isFile hstat hbroken => ?_, h.2⟩
      obtain ⟨v, hv, hrest⟩ := h.1 mode isFile hstat hbroken
      exact ⟨v, hv.step hs hstep, hrest⟩

/-- The next piece goes on where the last one ended. -/
theorem append_take_drop_isPrefix {read all : Bytes} (h : read <+: all) (n : Nat) :
    read ++ (all.drop read.length).take n <+: all := by
  obtain ⟨rest, rfl⟩ := h
  rw [List.drop_left]
  exact (List.prefix_append_right_inj read).mpr (List.take_prefix n rest)

theorem eq_of_take_drop_nil {read all : Bytes} (h : read <+: all) {n : Nat} (hn : 0 < n)
    (hnil : (all.drop read.length).take n = []) : read = all := by
  obtain ⟨rest, rfl⟩ := h
  rw [List.drop_left, List.take_eq_nil_iff] at hnil
  rcases hnil with hzero | rfl
  · omega
  · simp

theorem Sight.Sees.go {n : Nat} (h : s.sight.Sees sha original s.copies)
    (hs : Copies.Sound sha path original s.copies)
    (hstep : s.sight.go path s.copies.fs n = some sight) : sight.Sees sha original s.copies := by
  cases hsight : s.sight with
  | closed =>
    rw [hsight] at hstep
    obtain ⟨fd, hdir, rfl⟩ := Option.map_eq_some_iff.mp hstep
    exact ⟨_, version_of_dir hs hdir, fixed_of_dir hs hdir⟩
  | opened fd =>
    rw [hsight] at h hstep
    cases hstep
    obtain ⟨v, hv, hfixed⟩ := h
    exact ⟨v, hv, hfixed, by rw [hfixed.inode], List.nil_prefix⟩
  | reading fd mode pieces =>
    rw [hsight] at h hstep
    obtain ⟨v, hv, hfixed, hmode, hread⟩ := h
    simp only [Sight.go, hfixed.inode] at hstep
    split_ifs at hstep with hn
    split at hstep
    · rename_i hnil
      cases hstep
      refine ⟨fun _ _ hstat _ => ?_, by simp, by simp⟩
      cases hstat
      exact ⟨v, hv, hmode, eq_of_take_drop_nil hread hn.1 hnil⟩
    · rename_i b bs hbytes
      cases hstep
      refine ⟨v, hv, hfixed, hmode, ?_⟩
      have hmore := append_take_drop_isPrefix hread n
      rw [hbytes] at hmore
      simpa using hmore
  | done pass =>
    rw [hsight] at hstep
    cases hstep

/-- A path that is not there has not been landed on. -/
theorem original_of_missing (hs : Copies.Sound sha path original s.copies)
    (hdir : s.copies.fs.dir path = none) : original = none := by
  have hstat : s.copies.fs.stat path = none := by
    simp [Files.stat, hdir]
  rcases hs.destination with hold | ⟨t, c, -, -, -, hnew⟩
  · exact hold.symm.trans hstat
  · cases hstat.symm.trans hnew

theorem Sight.Sees.fail {e : Io} (hs : Copies.Sound sha path original s.copies)
    (hstep : s.sight.fail path s.copies.fs e = some sight) :
    sight.Sees sha original s.copies := by
  cases hsight : s.sight with
  | closed =>
    simp only [hsight, Sight.fail] at hstep
    split at hstep
    · rename_i hmissing
      cases hstep
      intro hnotFound
      exact original_of_missing hs (hmissing hnotFound)
    · cases hstep
  | opened fd =>
    simp only [hsight, Sight.fail] at hstep
    split at hstep
    · cases hstep
    · rename_i hfound
      cases hstep
      refine ⟨by simp, fun e' he' => ?_, by simp⟩
      cases he'
      simpa using hfound
  | reading fd mode pieces =>
    simp only [hsight, Sight.fail] at hstep
    split at hstep
    · cases hstep
    · rename_i hfound
      cases hstep
      exact ⟨by simp, by simp, fun _ => by simpa using hfound⟩
  | done pass =>
    rw [hsight] at hstep
    cases hstep

/-- Run lemma: whatever the pushes do meanwhile, a pass sees one version. -/
theorem sees_of_steps {before : Files Str} {as : List Watched.Action}
    (h : Steps (Watched.step sha path) Watched.UnlinkWorks (.start before) as s) :
    Copies.Sound sha path (before.stat path) s.copies ∧
      s.sight.Sees sha (before.stat path) s.copies := by
  refine h.invariant (I := fun s => Copies.Sound sha path (before.stat path) s.copies ∧
    s.sight.Sees sha (before.stat path) s.copies) ?_ ⟨.before before, trivial⟩
  intro s a s' hok hstep hi
  obtain ⟨hs, hsees⟩ := hi
  cases a with
  | copy a =>
    obtain ⟨copies, hcopy, rfl⟩ := Option.map_eq_some_iff.mp hstep
    exact ⟨hs.step hok hcopy, hsees.step hs hcopy⟩
  | go n =>
    obtain ⟨sight, hgo, rfl⟩ := Option.map_eq_some_iff.mp hstep
    exact ⟨hs, hsees.go hs hgo⟩
  | fail e =>
    obtain ⟨sight, hfail, rfl⟩ := Option.map_eq_some_iff.mp hstep
    have hnew : sight.Sees sha (before.stat path) s.copies := .fail hs hfail
    exact ⟨hs, hnew⟩

end

section
variable {codecs : Codecs} {sha : Bytes → Digest} {text : RecvError → Str} {relay : Relay}
  {hashed sent : Opens} {recv back : Reader UInt8} {fs fs' before files : Files Str} {reply : Bytes}
  {outcome : Option (Except RecvError Unit)} {agent remote dest : Str}
  {fates : List (Option Nat)} {max : Nat} {as : List Watched.Action} {acts : List Intake.Action}
  {s : Watched} {p : Pull}

/-- However any number of pushes to a path interleave with the hashing pass of a pull of it: a
pull that succeeds has given its destination the length, the digest and the mode of one version,
the file as it was before them all or the file of one push that succeeded; and a pull finds the
path missing only if it was missing before them all. -/
theorem pull_gets_one_version
    (hwatched : Steps (Watched.step sha remote) Watched.UnlinkWorks (.start before) as s)
    (hdone : s.sight = .done (hashed remote))
    (hwired : Wired codecs relay
      (pullHead codecs agent remote max ⟨back, fates, []⟩).2.sent reply back recv)
    (hagent : Handles codecs sha text hashed sent recv fs fs' reply outcome)
    (hrun : Steps (Pull.step sha dest) always
      (Pull.start codecs agent remote max files ⟨back, fates, []⟩) acts p) :
    (∀ len sha256, p.result = some (.ok (.fetched len sha256)) →
      ∃ v body, Version sha (before.stat remote) s.copies v ∧ len = v.bytes.length % 2 ^ 64 ∧
        sha256 = sha v.bytes ∧ body.length = len ∧ sha body = sha256 ∧
        p.fs.stat dest = some ⟨body, v.mode % 0o10000⟩) ∧
    (p.result = some (.ok .missing) → before.stat remote = none) := by
  have hsees := (sees_of_steps hwatched).2
  rw [hdone] at hsees
  rcases pull_lands hwired hagent hrun with
    ⟨-, hres⟩ | ⟨mode, len, body, hhash, hres, hlen, -, hstat⟩
  · refine ⟨fun len sha256 hok => ?_, fun hmissing => ?_⟩
    · rcases hres with ⟨e, he⟩ | hnone | ⟨hmissing, -⟩
      · cases he.symm.trans hok
      · cases hnone.symm.trans hok
      · cases hmissing.symm.trans hok
    · rcases hres with ⟨e, he⟩ | hnone | ⟨-, hstart⟩
      · cases he.symm.trans hmissing
      · cases hnone.symm.trans hmissing
      · -- of the calls of a pass, only the opening finds a path missing
        rcases pullStart_missing hstart with ⟨e, hopened, hnot⟩ | ⟨f, hopened, hcall⟩
        · rw [hopened] at hsees
          exact hsees hnot
        · rw [hopened] at hsees
          rcases hcall with ⟨e, hstat, hnot⟩ | ⟨hbroken, hnot⟩
          · cases hnot.symm.trans (hsees.2.1 e hstat)
          · cases hnot.symm.trans (hsees.2.2 hbroken)
  · refine ⟨fun len' sha256 hok => ?_, fun hmissing => ?_⟩
    · cases hres.symm.trans hok
      obtain ⟨f, m, hopened, hstat', hbroken, hmode, hsize, hdigest⟩ := statAndHash_ok hhash
      rw [hopened] at hsees
      obtain ⟨v, hv, rfl, hbytes⟩ := hsees.1 m true hstat' hbroken
      rw [hbytes] at hsize hdigest
      rw [hmode, Nat.mod_mod] at hstat
      exact ⟨v, body, hv, hsize, hdigest, hlen, rfl, hstat⟩
    · cases hres.symm.trans hmissing

end

/-- A push of a few bytes, all going well. -/
def landing (t : Nat) (body : Bytes) (mode : Nat) : List Watched.Action :=
  [.copy (.start t ⟨body.length, byteSum body, mode, 10⟩), .copy (.step t .ok), .copy (.step t .ok),
    .copy (.step t (.figures ⟨0, 0, 0⟩)),
    .copy (.step t (.nonce [0, 0, 0, 0, 0, 0, 0, 0])), .copy (.step t (.data body)),
    .copy (.step t .ok), .copy (.land t body.length), .copy (.step t (.data [])),
    .copy (.step t .ok), .copy (.step t .ok), .copy (.step t .ok), .copy (.step t .ok)]

/-- A file is replaced between two reads of it. -/
def replaced : List Watched.Action :=
  landing 0 [1, 2] 0o644 ++ [.go 1, .go 1, .go 1] ++ landing 1 [9] 0o600 ++ [.go 1, .go 1]

/-- What the pass over it comes to. -/
def seen : Opens := fun _ => .ok ⟨.ok (0o644, true), ⟨[[1], [2]], false⟩, ⟨false, []⟩⟩

/-- What the pull of it reads, as it comes in. -/
def pullAnswer : Reader UInt8 := ⟨[Postcard.grantedBytes, Postcard.headBytes, [1, 2]], false⟩

/-- What the agent reads of that pull. -/
def pullRequest : Bytes := [3, 0, 0, 0, 2, 1, 102]

def Watched.Action.succeeds : Watched.Action → Bool
  | .copy a => Copy.Action.succeeds a
  | _ => true

theorem watchedUnlinkWorks_of_succeeds {s : Watched} {a : Watched.Action}
    (h : a.succeeds = true) : s.UnlinkWorks a := by
  cases a with
  | copy a => exact unlinkWorks_of_succeeds h
  | go n => trivial
  | fail e => trivial

theorem pull_gets_one_version_replaced :
    ∃ (s : Watched) (p : Pull),
      Steps (Watched.step byteSum "f".toList) Watched.UnlinkWorks (.start Files.empty) replaced s ∧
      s.copies.fs.stat "f".toList = some ⟨[9], 0o600⟩ ∧
      Handles Postcard.codecs byteSum (fun _ => []) seen seen ⟨[pullRequest], false⟩ Files.empty
        Files.empty (Postcard.headBytes ++ [1, 2]) none ∧
      Steps (Pull.step byteSum "g".toList) always
        (Pull.start Postcard.codecs "ab".toList "f".toList 10 Files.empty ⟨pullAnswer, [], []⟩)
        (smallLanding [2]) p ∧
      p.result = some (.ok (.fetched 2 (.filled 32 3))) ∧
      ∃ v body, Version byteSum none s.copies v ∧ 2 = v.bytes.length % 2 ^ 64 ∧
        .filled 32 3 = byteSum v.bytes ∧ body.length = 2 ∧ byteSum body = .filled 32 3 ∧
        p.fs.stat "g".toList = some ⟨body, v.mode % 0o10000⟩ := by
  have hrun : (run (Watched.step byteSum "f".toList) (.start Files.empty) replaced).map
      (fun s => (s.sight, s.copies.fs.stat "f".toList)) =
      some (.done (seen "f".toList), some ⟨[9], 0o600⟩) := by
    rfl
  obtain ⟨s, hs, hview⟩ := Option.map_eq_some_iff.mp hrun
  obtain ⟨hdone, hstat⟩ := Prod.mk.inj hview
  have hall : replaced.all Watched.Action.succeeds = true := by decide
  have hwatched : Steps (Watched.step byteSum "f".toList) Watched.UnlinkWorks (.start Files.empty)
      replaced s :=
    Steps.of_run (fun a ha _ => watchedUnlinkWorks_of_succeeds (List.all_eq_true.mp hall a ha)) hs
  have hpull : (run (Pull.step byteSum "g".toList) (Pull.start Postcard.codecs "ab".toList
      "f".toList 10 Files.empty ⟨pullAnswer, [], []⟩) (smallLanding [2])).map Pull.result =
      some (some (.ok (.fetched 2 (.filled 32 3)))) := by
    decide +kernel
  obtain ⟨p, hp, hresult⟩ := Option.map_eq_some_iff.mp hpull
  have hsteps : Steps (Pull.step byteSum "g".toList) always _ (smallLanding [2]) p :=
    Steps.of_run (fun _ _ _ => trivial) hp
  have hread : readMsg Postcard.codecs.request ⟨[pullRequest], false⟩ =
      .ok (.pull "f".toList, ⟨[], false⟩) := by decide +kernel
  have hsent : (handlePull Postcard.codecs byteSum seen seen "f".toList
      ⟨⟨[], false⟩, [], []⟩).2.sent = Postcard.headBytes ++ [1, 2] := by decide +kernel
  have hagent : Handles Postcard.codecs byteSum (fun _ => []) seen seen ⟨[pullRequest], false⟩
      Files.empty Files.empty (Postcard.headBytes ++ [1, 2]) none := hsent ▸ .pull hread
  have hwired : Wired Postcard.codecs
      (plainRelay [[3, 0, 0, 0, 2, 97, 98], pullRequest] [Postcard.headBytes, [1, 2]])
      (pullHead Postcard.codecs "ab".toList "f".toList 10 ⟨pullAnswer, [], []⟩).2.sent
      (Postcard.headBytes ++ [1, 2]) pullAnswer ⟨[pullRequest], false⟩ := by
    constructor <;> decide +kernel
  exact ⟨s, p, hwatched, hstat, hagent, hsteps, hresult,
    (pull_gets_one_version hwatched hdone hwired hagent hsteps).1 2 _ hresult⟩

end Egdod.Copy
