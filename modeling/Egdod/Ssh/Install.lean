import Egdod.Copy.Session
import Egdod.Ssh.Recipe

/-! `install_authorized_key`: pull the target's file, merge, push it back. A
pull that could not read the file is an error and no empty file, and what is
pushed lands whole or not at all, so the target keeps its keys wherever the
three steps fail. -/
namespace Egdod.Ssh

open Text Posix Stream StepSystem
open Copy (Codecs Opens Pass Io Failure Pull RecvError Relay Wired Handles Intake maxFileSize
  statAndHash pullStart pushFile pullHead bodyOf push_lands pull_lands statAndHash_ok
  pullStart_missing pushFile_ok acknowledged_ok writes_pullHead byteSum)

inductive InstallError where
  | pulling (e : Failure)
  | opening (e : Io)
  | creating
  | merging
  | installing (e : Failure)

/-! ## The merge, write by write -/

/-- One line into the merged file. -/
def writeKept (blob line : Bytes) : Peer UInt8 InstallError Unit :=
  if (line.splitOnP isAsciiWhitespace).contains blob then pure ()
  else do
    .put .merging line
    if line.getLast? = some 10 then pure () else .put .merging [10]

def writeLines (blob : Bytes) : List Bytes → Peer UInt8 InstallError Unit
  | [] => pure ()
  | line :: lines => do
    writeKept blob line
    writeLines blob lines

/-- What `read_until` brings before the end or an error. -/
def readLines (f : Pass) : List Bytes :=
  let lines := splitInclusive 10 f.body.content
  if f.body.broken then lines.filter fun line => line.getLast? = some 10 else lines

def writeExisting (blob : Bytes) : Option Pass → Peer UInt8 InstallError Unit
  | none => pure ()
  | some f => do
    writeLines blob (readLines f)
    if f.body.broken then .fail .merging else pure ()

/-- `merge_authorized_keys` on an open file, if there is one, and a sink. -/
def mergeInto (blob line : Bytes) (existing : Option Pass) : Peer UInt8 InstallError Unit := do
  writeExisting blob existing
  .put .merging line
  .put .merging [10]
  .put .merging []

section
open Peer (Writes)
variable {blob line : Bytes}

theorem writes_writeKept : Writes (writeKept blob line) (keptLine blob line) := by
  unfold writeKept keptLine
  simp only [List.contains_iff_mem]
  split
  · exact .pure _
  · split
    · exact Writes.bind_left (.put _ _) fun _ => .pure _
    · exact Writes.bind (.put _ _) fun _ => .put _ _

theorem writes_writeLines (blob : Bytes) (lines : List Bytes) :
    Writes (writeLines blob lines) (lines.flatMap (keptLine blob)) := by
  induction lines with
  | nil => exact .pure _
  | cons line lines ih => exact writes_writeKept.bind fun _ => ih

theorem writes_writeExisting {existing : Option Pass}
    (h : ∀ f, existing = some f → f.body.broken = false) :
    Writes (writeExisting blob existing)
      ((splitInclusive 10 ((existing.map fun f => f.body.content).getD [])).flatMap
        (keptLine blob)) := by
  cases existing with
  | none => exact .pure _
  | some f =>
    have hlines : readLines f = splitInclusive 10 f.body.content := by simp [readLines, h f rfl]
    have hwrites := writes_writeLines blob (readLines f)
    rw [hlines] at hwrites
    simp only [writeExisting, hlines, h f rfl]
    exact hwrites.bind_left fun _ => .pure _

/-- A file that was read to its end is merged as a whole. -/
theorem writes_mergeInto {existing : Option Pass}
    (h : ∀ f, existing = some f → f.body.broken = false) :
    Writes (mergeInto blob line existing)
      (mergeAuthorizedKeys (existing.map fun f => f.body.content) blob line) := by
  rw [mergeAuthorizedKeys, List.append_assoc]
  exact (writes_writeExisting h).bind fun _ => Writes.bind (.put _ _) fun _ =>
    Writes.bind_left (.put _ _) fun _ => .put _ _

/-- The merge ends well only on a file that was read to its end. -/
theorem mergeInto_ok {existing : Option Pass} {s s' : Socket UInt8} {u : Unit}
    (h : mergeInto blob line existing s = (.ok u, s')) :
    ∀ f, existing = some f → f.body.broken = false := by
  rintro f rfl
  obtain ⟨_, s₁, h₁, -⟩ := Peer.bind_ok h
  obtain ⟨_, s₂, -, h₂⟩ := Peer.bind_ok h₁
  split at h₂
  · cases h₂
  · rename_i hbroken
    simpa using hbroken

end

/-! ## What the file systems answer -/

/-- Files nobody else writes to, as their passes see them: only what is not there is not found, a
regular file is one of them, a pass reads it from its start, all of it unless a read fails, and no
call on an open file says that it is not there. -/
structure Views (fs : Files Str) (opens : Opens) : Prop where
  notFound : ∀ path e, opens path = .error e → e.notFound = true → fs.read path = none
  regular : ∀ path f mode, opens path = .ok f → f.stat = .ok (mode, true) →
    ∃ bytes, fs.read path = some bytes
  begins : ∀ path f bytes, opens path = .ok f → fs.read path = some bytes →
    f.body.content <+: bytes
  whole : ∀ path f bytes, opens path = .ok f → fs.read path = some bytes →
    f.body.broken = false → f.body.content = bytes
  statFound : ∀ path f e, opens path = .ok f → f.stat = .error e → e.notFound = false
  readFound : ∀ path f, opens path = .ok f → f.error.notFound = false
  size : ∀ path f bytes, opens path = .ok f → fs.read path = some bytes →
    bytes.length ≤ maxFileSize

/-! ## The recipe -/

/-- The scratch directory's two files. -/
def pulledPath (scratch : Str) : Str := scratch ++ "/authorized_keys".toList

def mergedPath (scratch : Str) : Str := scratch ++ "/authorized_keys.merged".toList

/-- What is there to merge with: nothing, or the file that was pulled. -/
def existingOf (opens : Opens) (path : Str) : Copy.Pulled → Except Io (Option Pass)
  | .missing => .ok none
  | .fetched _ _ => (opens path).map some

/-- Between the pull and the push: the merged file in the scratch directory. -/
def stage (plan : Plan) (scratch : Str) (opens : Opens) (creates : Bool)
    (fates : List (Option Nat)) (found : Copy.Pulled) (fs : Files Str) :
    Except InstallError (Files Str) :=
  match existingOf opens (pulledPath scratch) found with
  | .error e => .error (.opening e)
  | .ok existing =>
    match if creates then fs.createNew (mergedPath scratch) 0o600 else none with
    | none => .error .creating
    | some (fs, fd) =>
      match mergeInto (encode plan.blob) (encode plan.line) existing ⟨⟨[], false⟩, fates, []⟩ with
      | (.error e, _) => .error e
      | (.ok _, sink) => .ok (fs.pwrite fd 0 sink.sent)

section
variable (codecs : Codecs) (sha : Bytes → Digest) (text : RecvError → Str)

/-- A pull from a machine into local files, at any moment. -/
def Pulls (agent remote dest : Str) (max : Nat) (target target' files : Files Str) (p : Pull) :
    Prop :=
  ∃ relay reply back recv fates outcome hashed sent as, Views target hashed ∧ Views target sent ∧
    Wired codecs relay (pullHead codecs agent remote max ⟨back, fates, []⟩).2.sent reply
      back recv ∧
    Handles codecs sha text hashed sent recv target target' reply outcome ∧
    Steps (Pull.step sha dest) always
      (Pull.start codecs agent remote max files ⟨back, fates, []⟩) as p

/-- A push from local files to a machine that came to `result`, at any moment after. -/
def Pushes (agent source remote : Str) (files target target' : Files Str)
    (result : Except Failure (UInt64 × Digest)) : Prop :=
  ∃ relay reply back recv fates outcome hashed sent hashed' sent', Views files hashed ∧
    Views files sent ∧
    Wired codecs relay
      (pushFile codecs sha hashed sent agent source remote ⟨back, fates, []⟩).2.sent reply
      back recv ∧
    Handles codecs sha text hashed' sent' recv target target' reply outcome ∧
    (pushFile codecs sha hashed sent agent source remote ⟨back, fates, []⟩).1 = result

/-- `install_authorized_key`: the target's files after it returned, and what it returned. -/
inductive Installs (plan : Plan) (scratch : Str) (files target : Files Str) :
    Files Str → Except InstallError Unit → Prop
  | notPulled {target' p e} :
      Pulls codecs sha text plan.cfg.agent plan.cfg.authorizedKeys (pulledPath scratch)
        keyFileMaxBytes target target' files p →
      p.result = some (.error e) → Installs plan scratch files target target' (.error (.pulling e))
  | notStaged {target' p found opens creates fates e} :
      Pulls codecs sha text plan.cfg.agent plan.cfg.authorizedKeys (pulledPath scratch)
        keyFileMaxBytes target target' files p →
      p.result = some (.ok found) →
      stage plan scratch opens creates fates found p.fs = .error e →
      Installs plan scratch files target target' (.error e)
  | pushed {target' target'' p found opens creates fates staged result} :
      Pulls codecs sha text plan.cfg.agent plan.cfg.authorizedKeys (pulledPath scratch)
        keyFileMaxBytes target target' files p →
      p.result = some (.ok found) → Views p.fs opens →
      stage plan scratch opens creates fates found p.fs = .ok staged →
      Pushes codecs sha text plan.cfg.agent (mergedPath scratch) plan.cfg.authorizedKeys staged
        target' target'' result →
      Installs plan scratch files target target''
        ((result.map fun _ => ()).mapError .installing)

end

section
variable {codecs : Codecs} {sha : Bytes → Digest} {text : RecvError → Str}
  {agent source remote dest : Str} {target target' files : Files Str}

theorem Views.hashed {fs : Files Str} {opens : Opens} {path : Str} {mode : UInt32}
    {len : UInt64} {sha256 : Digest} (h : Views fs opens)
    (hhash : statAndHash sha (opens path) = .ok (mode, len, sha256)) :
    ∃ bytes, fs.read path = some bytes ∧ len.toNat = bytes.length := by
  obtain ⟨f, m, hopen, hstat, hbroken, -, hlen, -⟩ := statAndHash_ok hhash
  obtain ⟨bytes, hread⟩ := h.regular _ _ _ hopen hstat
  refine ⟨bytes, hread, ?_⟩
  have hsize := h.size _ _ _ hopen hread
  rw [hlen, h.whole _ _ _ hopen hread hbroken]
  apply Nat.mod_eq_of_lt
  simp only [maxFileSize] at hsize
  omega

/-- Some beginning of a file that is as long as the file is the file. -/
theorem Views.body_eq {fs : Files Str} {opens : Opens} {path : Str} {bytes body : Bytes}
    (h : Views fs opens) (hread : fs.read path = some bytes) (hbody : body <+: bodyOf (opens path))
    (hlen : body.length = bytes.length) : body = bytes := by
  cases hopen : opens path with
  | error e =>
    rw [hopen] at hbody
    obtain rfl := List.prefix_nil.mp hbody
    exact (List.eq_nil_of_length_eq_zero hlen.symm).symm
  | ok f =>
    rw [hopen] at hbody
    exact (hbody.trans (h.begins _ _ _ hopen hread)).eq_of_length hlen

/-- Only a file that is not there is pulled as missing. -/
theorem Views.missing {fs : Files Str} {opens : Opens} {path : Str} (h : Views fs opens)
    (hmissing : pullStart path (statAndHash sha (opens path)) = .missing) :
    fs.read path = none := by
  rcases pullStart_missing hmissing with ⟨e, hopen, he⟩ | ⟨f, hopen, ⟨e, hstat, he⟩ | ⟨-, he⟩⟩
  · exact h.notFound _ _ hopen he
  · simp [h.statFound _ _ _ hopen hstat] at he
  · simp [h.readFound _ _ hopen] at he

/-- A pull changes nothing on the target and brings the file as it is there, or says that there
is none. -/
theorem Pulls.found {max : Nat} {p : Pull}
    (h : Pulls codecs sha text agent remote dest max target target' files p) :
    target' = target ∧
    (p.result = some (.ok .missing) → target.read remote = none) ∧
    ∀ len sha256, p.result = some (.ok (.fetched len sha256)) →
      ∃ bytes, target.read remote = some bytes ∧ p.fs.read dest = some bytes := by
  obtain ⟨relay, reply, back, recv, fates, outcome, hashed, sent, as, hviews, hviews', hwired,
    hagent, hrun⟩ := h
  refine ⟨(hagent.pulled (hwired.request (writes_pullHead.sent rfl))).1, ?_, ?_⟩
  · intro hres
    rcases pull_lands hwired hagent hrun with
      ⟨-, ⟨e, he⟩ | hnone | ⟨-, hmissing⟩⟩ | ⟨_, _, _, _, hfetched, _⟩
    · cases he.symm.trans hres
    · cases hnone.symm.trans hres
    · exact hviews.missing hmissing
    · cases hfetched.symm.trans hres
  · intro len sha256 hres
    rcases pull_lands hwired hagent hrun with
      ⟨-, ⟨e, he⟩ | hnone | ⟨hmissing, -⟩⟩ | ⟨mode, len', body, hhash, -, hlen, hbody, hstat⟩
    · cases he.symm.trans hres
    · cases hnone.symm.trans hres
    · cases hmissing.symm.trans hres
    · obtain ⟨bytes, hread, hsize⟩ := hviews.hashed hhash
      obtain rfl := hviews'.body_eq hread hbody (hlen.trans hsize)
      exact ⟨body, hread, by simp [Files.read, hstat]⟩

/-- A push leaves the path as it was or gives it the local file, and the latter if it says so. -/
theorem Pushes.lands {bytes : Bytes} {result : Except Failure (UInt64 × Digest)}
    (h : Pushes codecs sha text agent source remote files target target' result)
    (hfile : files.read source = some bytes) :
    (target'.stat remote = target.stat remote ∨ target'.read remote = some bytes) ∧
    ∀ x, result = .ok x → target'.read remote = some bytes := by
  obtain ⟨relay, reply, back, recv, fates, outcome, hashed, sent, hashed', sent', hviews, hviews',
    hwired, hagent, rfl⟩ := h
  obtain ⟨hreply, hcases⟩ := push_lands hwired hagent
  have landed : outcome = some (.ok ()) → target'.read remote = some bytes := by
    intro hok
    rcases hcases with ⟨-, hnot⟩ | ⟨-, mode, len, body, hhash, hlen, hbody, hstat⟩
    · exact absurd hok hnot
    · obtain ⟨bytes', hread, hsize⟩ := hviews.hashed hhash
      cases hfile.symm.trans hread
      obtain rfl := hviews'.body_eq hread hbody (hlen.trans hsize)
      simp [Files.read, hstat]
  refine ⟨?_, ?_⟩
  · rcases hcases with ⟨hsame, -⟩ | ⟨hok, -⟩
    · exact .inl hsame
    · exact .inr (landed hok)
  · rintro ⟨len, sha256⟩ hok
    obtain ⟨mode, id, path, addr, r, r', -, hr, hack⟩ := pushFile_ok (Prod.ext hok rfl)
    exact landed (acknowledged_ok ((hwired.answer hr).trans hreply) hack)

/-- A new file holds what is written to it. -/
theorem read_created {fs fs' : Files Str} {path : Str} {fd mode : Nat} {bytes : Bytes}
    (h : fs.createNew path mode = some (fs', fd)) :
    (fs'.pwrite fd 0 bytes).read path = some bytes := by
  obtain ⟨-, rfl, rfl⟩ := Files.createNew_some h
  simp [Files.read, Files.stat, Files.pwrite, Files.setInode, Files.create, Files.spliceAt]

/-- What is staged is the merge of what was found. -/
theorem stage_ok {plan : Plan} {scratch : Str} {opens : Opens} {creates : Bool}
    {fates : List (Option Nat)} {found : Copy.Pulled} {fs staged : Files Str}
    (hviews : Views fs opens)
    (h : stage plan scratch opens creates fates found fs = .ok staged) :
    ∃ existing, staged.read (mergedPath scratch) = some (plan.merge existing) ∧
      (found = .missing ∧ existing = none ∨
        ∃ len sha256, found = .fetched len sha256 ∧
          ∀ bytes, fs.read (pulledPath scratch) = some bytes → existing = some bytes) := by
  unfold stage at h
  split at h
  · cases h
  · rename_i existing hexisting
    split at h
    · cases h
    · rename_i fs' fd hcreate
      split at h
      · cases h
      · rename_i sink hmerge
        cases h
        have hwhole := mergeInto_ok hmerge
        have hnew : fs.createNew (mergedPath scratch) 0o600 = some (fs', fd) := by
          split at hcreate
          · exact hcreate
          · cases hcreate
        refine ⟨existing.map fun f => f.body.content, ?_, ?_⟩
        · rw [read_created hnew, (writes_mergeInto hwhole).sent_ok hmerge]
          rfl
        · cases found with
          | missing =>
            cases hexisting
            exact .inl ⟨rfl, rfl⟩
          | fetched len sha256 =>
            refine .inr ⟨len, sha256, rfl, fun bytes hread => ?_⟩
            cases hopen : opens (pulledPath scratch) with
            | error e => simp [existingOf, hopen, Except.map] at hexisting
            | ok f =>
              obtain rfl : some f = existing := by
                simpa [existingOf, hopen, Except.map] using hexisting
              rw [Option.map_some, hviews.whole _ _ _ hopen hread (hwhole f rfl)]

/-- The recipe never destroys a target's keys: wherever it fails, the file is as it was or the
merge of all that was in it, with nothing only if there was no file, and if the recipe says that
it is done it is the merge. -/
theorem install_keeps_keys {plan : Plan} {scratch : Str} {result : Except InstallError Unit}
    (h : Installs codecs sha text plan scratch files target target' result) :
    (target'.stat plan.cfg.authorizedKeys = target.stat plan.cfg.authorizedKeys ∨
      target'.read plan.cfg.authorizedKeys =
        some (plan.merge (target.read plan.cfg.authorizedKeys))) ∧
    (result = .ok () → target'.read plan.cfg.authorizedKeys =
      some (plan.merge (target.read plan.cfg.authorizedKeys))) := by
  cases h with
  | notPulled hpull =>
    obtain ⟨rfl, -, -⟩ := hpull.found
    exact ⟨.inl rfl, nofun⟩
  | notStaged hpull =>
    obtain ⟨rfl, -, -⟩ := hpull.found
    exact ⟨.inl rfl, nofun⟩
  | @pushed mid _ p found opens creates fates staged res hpull hres hviews hstage hpush =>
    obtain ⟨rfl, hmissing, hfetched⟩ := hpull.found
    obtain ⟨existing, hmerged, hfound⟩ := stage_ok hviews hstage
    -- what was found is what is on the target
    have hexisting : existing = mid.read plan.cfg.authorizedKeys := by
      rcases hfound with ⟨rfl, rfl⟩ | ⟨len, sha256, rfl, hall⟩
      · exact (hmissing hres).symm
      · obtain ⟨bytes, hread, hlocal⟩ := hfetched len sha256 hres
        rw [hread]
        exact hall bytes hlocal
    rw [hexisting] at hmerged
    obtain ⟨hlands, hok⟩ := hpush.lands hmerged
    refine ⟨hlands, fun hdone => ?_⟩
    cases res with
    | ok x => exact hok x rfl
    | error e => cases hdone

end

/-- A view in which one file can be read and nothing else can be opened. -/
def only (path : Str) (bytes : Bytes) : Opens := fun q =>
  if q = path then .ok ⟨.ok (0o100600, true), ⟨[bytes], false⟩, ⟨false, []⟩⟩
  else .error ⟨false, []⟩

theorem views_only {fs : Files Str} {path : Str} {bytes : Bytes}
    (h : fs.read path = some bytes) (hsize : bytes.length ≤ maxFileSize) :
    Views fs (only path bytes) := by
  have opened : ∀ q f, only path bytes q = .ok f →
      q = path ∧ f = ⟨.ok (0o100600, true), ⟨[bytes], false⟩, ⟨false, []⟩⟩ := by
    intro q f hf
    unfold only at hf
    split at hf
    · rename_i hq
      cases hf
      exact ⟨hq, rfl⟩
    · cases hf
  refine ⟨?_, ?_, ?_, ?_, ?_, ?_, ?_⟩
  · intro q e he hnot
    unfold only at he
    split at he
    · cases he
    · cases he
      cases hnot
  · intro q f mode hf _
    obtain ⟨rfl, -⟩ := opened q f hf
    exact ⟨bytes, h⟩
  · intro q f bytes' hf hread
    obtain ⟨rfl, rfl⟩ := opened q f hf
    cases h.symm.trans hread
    simp [Reader.content]
  · intro q f bytes' hf hread _
    obtain ⟨rfl, rfl⟩ := opened q f hf
    cases h.symm.trans hread
    simp [Reader.content]
  · intro q f e hf hstat
    obtain ⟨rfl, rfl⟩ := opened q f hf
    cases hstat
  · intro q f hf
    obtain ⟨rfl, rfl⟩ := opened q f hf
    rfl
  · intro q f bytes' hf hread
    obtain ⟨rfl, rfl⟩ := opened q f hf
    cases h.symm.trans hread
    exact hsize

/-- A target with one key, which is to get another. -/
def oneKey : Files Str :=
  (Files.empty.create "k".toList 0o600).pwrite 0 0 [107, 10]

def keyPlan : Plan where
  cfg := ⟨"ab".toList, "k".toList, [], [], [], [], []⟩
  blob := "b".toList
  line := "l".toList

/-- What goes over the wire to fetch the key and to install both. -/
def keyPull : Bytes := [3, 0, 0, 0, 2, 1, 107]

def keyReply : Bytes := [36, 0, 0, 0, 0, 128, 3, 2] ++ List.replicate 32 117 ++ [107, 10]

def keyPush : Bytes :=
  [38, 0, 0, 0, 1, 1, 107, 128, 3, 4] ++ List.replicate 32 235 ++ [107, 10, 108, 10]

/-- The pull into an empty scratch directory. -/
def keyFetch : Option Pull :=
  run (Pull.step byteSum (pulledPath []))
    (Pull.start Postcard.codecs "ab".toList "k".toList keyFileMaxBytes Files.empty
      ⟨⟨[Postcard.grantedBytes, keyReply], false⟩, [], []⟩) (Copy.smallLanding [2])

theorem pulls_key {p : Pull} (h : keyFetch = some p) :
    Pulls Postcard.codecs byteSum (fun _ => []) keyPlan.cfg.agent keyPlan.cfg.authorizedKeys
      (pulledPath []) keyFileMaxBytes oneKey oneKey Files.empty p := by
  have hviews : Views oneKey (only "k".toList [107, 10]) :=
    views_only (by decide +kernel) (by decide)
  have hread : readMsg Postcard.codecs.request ⟨[keyPull], false⟩ =
      .ok (.pull "k".toList, ⟨[], false⟩) := by decide +kernel
  have hagent : Handles Postcard.codecs byteSum (fun _ => []) (only "k".toList [107, 10])
      (only "k".toList [107, 10]) ⟨[keyPull], false⟩ oneKey oneKey
      (Copy.handlePull Postcard.codecs byteSum (only "k".toList [107, 10])
        (only "k".toList [107, 10]) "k".toList ⟨⟨[], false⟩, [], []⟩).2.sent none := .pull hread
  refine ⟨Copy.plainRelay [[3, 0, 0, 0, 2, 97, 98], keyPull] [keyReply], _,
    ⟨[Postcard.grantedBytes, keyReply], false⟩, ⟨[keyPull], false⟩, [], none, _, _, _, hviews,
    hviews, ⟨?_, ?_, ?_, ?_⟩, hagent, Steps.of_run (fun _ _ _ => trivial) h⟩
  all_goals decide +kernel

/-- The push of the merged file, whose acknowledgement arrives or is lost. -/
theorem pushes_keys {staged : Files Str}
    (h : staged.read (mergedPath []) = some [107, 10, 108, 10]) :
    ∃ target', Pushes Postcard.codecs byteSum (fun _ => []) keyPlan.cfg.agent (mergedPath [])
        keyPlan.cfg.authorizedKeys staged oneKey target' (.ok (4, .filled 32 235)) ∧
      Pushes Postcard.codecs byteSum (fun _ => []) keyPlan.cfg.agent (mergedPath [])
        keyPlan.cfg.authorizedKeys staged oneKey target' (.error (.reading .closed)) := by
  have hviews : Views staged (only (mergedPath []) [107, 10, 108, 10]) :=
    views_only h (by decide)
  have hrun : (run (Intake.step byteSum "k".toList)
      (.start oneKey ⟨4, .filled 32 235, 0o600, 2 ^ 64 - 1⟩ ⟨[[107, 10, 108, 10]], false⟩)
      (Copy.smallLanding [4])).map (fun s => s.call.result) = some (some (.ok ())) := by
    decide +kernel
  obtain ⟨s, hs, hresult⟩ := Option.map_eq_some_iff.mp hrun
  have hread : readMsg Postcard.codecs.request ⟨[keyPush], false⟩ =
      .ok (.push "k".toList 0o600 4 (.filled 32 235), ⟨[[107, 10, 108, 10]], false⟩) := by
    decide +kernel
  have hagent : Handles Postcard.codecs byteSum (fun _ => []) Postcard.oneFile Postcard.oneFile
      ⟨[keyPush], false⟩ oneKey s.fs [1, 0, 0, 0, 0] s.call.result := by
    refine .push hread (Steps.of_run (fun _ _ _ => trivial) hs) ?_
    rw [hresult]
    decide +kernel
  refine ⟨s.fs, ⟨Copy.plainRelay [[3, 0, 0, 0, 2, 97, 98], keyPush] [[1, 0, 0, 0, 0]], _,
    ⟨[Postcard.grantedBytes, [1, 0, 0, 0, 0]], false⟩, _, [], _, _, _, _, _, hviews, hviews,
    ⟨?_, ?_, ?_, ?_⟩, hagent, ?_⟩, Copy.plainRelay [[3, 0, 0, 0, 2, 97, 98], keyPush] [], _,
    ⟨[Postcard.grantedBytes], false⟩, _, [], _, _, _, _, _, hviews, hviews,
    ⟨?_, ?_, ?_, ?_⟩, hagent, ?_⟩
  all_goals decide +kernel

/-- Two runs on a target with one key. In the first nothing fails and the key stays beside the
new one; in the second the acknowledgement of the push is lost. -/
theorem install_keeps_keys_one :
    ∃ target' e,
      Installs Postcard.codecs byteSum (fun _ => []) keyPlan [] Files.empty oneKey target'
        (.ok ()) ∧
      target'.read "k".toList = some (keyPlan.merge (some [107, 10])) ∧
      Installs Postcard.codecs byteSum (fun _ => []) keyPlan [] Files.empty oneKey target'
        (.error e) ∧
      (target'.stat "k".toList = oneKey.stat "k".toList ∨
        target'.read "k".toList = some (keyPlan.merge (some [107, 10]))) := by
  have hrun : (keyFetch.bind fun p =>
      (stage keyPlan [] (only (pulledPath []) [107, 10]) true [] (.fetched 2 (.filled 32 117))
        p.fs).toOption.map fun staged =>
          (p.result, p.fs.read (pulledPath []), staged.read (mergedPath []))) =
      some (some (.ok (.fetched 2 (.filled 32 117))), some [107, 10],
        some [107, 10, 108, 10]) := by
    decide +kernel
  obtain ⟨p, hp, hrun⟩ := Option.bind_eq_some_iff.mp hrun
  obtain ⟨staged, hstaged, hprobe⟩ := Option.map_eq_some_iff.mp hrun
  obtain ⟨hresult, hread, hmerged⟩ := by simpa only [Prod.mk.injEq] using hprobe
  obtain ⟨target', hpush, hlost⟩ := pushes_keys hmerged
  have hstage : stage keyPlan [] (only (pulledPath []) [107, 10]) true []
      (.fetched 2 (.filled 32 117)) p.fs = .ok staged := by
    cases hs : stage keyPlan [] (only (pulledPath []) [107, 10]) true []
      (.fetched 2 (.filled 32 117)) p.fs with
    | ok x => simpa [hs, Except.toOption] using hstaged
    | error e => simp [hs, Except.toOption] at hstaged
  have hviews : Views p.fs (only (pulledPath []) [107, 10]) := views_only hread (by decide)
  have hinstall := Installs.pushed (pulls_key hp) hresult hviews hstage hpush
  have hfailed := Installs.pushed (pulls_key hp) hresult hviews hstage hlost
  have hbefore : oneKey.read keyPlan.cfg.authorizedKeys = some [107, 10] := by decide +kernel
  have hafter := (install_keeps_keys hinstall).2 rfl
  have hkept := (install_keeps_keys hfailed).1
  rw [hbefore] at hafter hkept
  exact ⟨target', _, hinstall, hafter, hfailed, hkept⟩

end Egdod.Ssh
