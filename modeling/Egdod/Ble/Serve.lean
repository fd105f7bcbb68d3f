import Egdod.Ble.Exchange
import Egdod.Lib.Files
import Egdod.Lib.Text

/-! `serve_on_adapter`: attempts one after the other until one installs
credentials. An attempt may be cut off at any point where it waits; the loop
then goes by a flag that the attempt sets once the file is in place. -/
namespace Egdod.Ble

open Text Posix StepSystem

/-! ## What a target makes of a request -/

/-- The cryptography of one target, over bytes of any kind. `S` is what an
attempt draws for its secret; signatures are checked under the controller's
key. -/
structure Suite (β S : Type) where
  serverLabel : List β
  clientLabel : List β
  keyLabel : List β
  okText : List β
  controller : List β
  agent : List β
  sign : List β → List β
  verify : List β → List β → Bool
  point : S → List β
  diffieHellman : S → List β → List β
  sha256 : List β → List β
  encrypt : List β → List UInt8 → List β → List β → Option (List β)
  decrypt : List β → List UInt8 → List β → List β → Option (List β)

namespace Suite

variable {β S : Type} [DecidableEq β] (suite : Suite β S)

def identityMessage (label : List β) (keys : List (List β)) : List β :=
  label ++ suite.controller ++ suite.agent ++ keys.flatten

def serverHello (ephemeral : List β) : List β :=
  suite.agent ++ ephemeral ++ suite.sign (suite.identityMessage suite.serverLabel [ephemeral])

/-- The client ephemeral of a request, if the request is for this target. -/
def verifyClientHello (bytes serverEphemeral : List β) : Option (List β) :=
  if bytes.length < 128 + 16 then none
  else if bytes.take 32 ≠ suite.controller then none
  else
    let clientEphemeral := (bytes.drop 32).take 32
    if suite.verify (suite.identityMessage suite.clientLabel [serverEphemeral, clientEphemeral])
        ((bytes.drop 64).take 64) then
      some clientEphemeral
    else none

def sessionKey (shared transcript : List β) : List β :=
  suite.sha256 (suite.keyLabel ++ shared ++ transcript)

/-- A request that verifies and decrypts to something: the transcript, the
session key and the credentials. -/
def accept (secret : S) (request : List β) : Option (List β × List β × List β) := do
  let clientEphemeral ← suite.verifyClientHello request (suite.point secret)
  let transcript := suite.serverHello (suite.point secret) ++ request.take 128
  let key := suite.sessionKey (suite.diffieHellman secret clientEphemeral) transcript
  let conf ← suite.decrypt key (nonce 0) transcript (request.drop 128)
  if conf = [] then none else some (transcript, key, conf)

theorem conf_ne_nil {secret : S} {request transcript key conf : List β}
    (h : suite.accept secret request = some (transcript, key, conf)) : conf ≠ [] := by
  obtain ⟨_, _, hrest⟩ := Option.bind_eq_some_iff.mp h
  obtain ⟨conf', _, hconf⟩ := Option.bind_eq_some_iff.mp hrest
  split_ifs at hconf with hne
  cases hconf
  exact hne

end Suite

/-- The idealised cryptography of the exchange model. -/
def symbolicSuite (t : Target) : Suite Symbolic.SByte Nat where
  serverLabel := serverLabel
  clientLabel := clientLabel
  keyLabel := keyLabel
  okText := okText
  controller := Symbolic.pubBytes t.controller
  agent := Symbolic.pubBytes t.agent
  sign := Symbolic.sign t.agent
  verify := Symbolic.verify t.controller
  point n := Symbolic.pointBytes (.party n)
  diffieHellman n := Symbolic.diffieHellman (.party n)
  sha256 := Symbolic.sha256
  encrypt key n aad clear := some (Symbolic.encrypt key n aad clear)
  decrypt := Symbolic.decrypt

/-- A target of the exchange model accepts what its suite does. -/
theorem accept_symbolicSuite (t : Target) (n : Nat) (request : Symbolic.SBytes) :
    (symbolicSuite t).accept n request =
      (t.accept n request).map fun (σ, conf) => (σ.transcript, σ.key, conf) := by
  have hverify : (symbolicSuite t).verifyClientHello request (Symbolic.pointBytes (.party n)) =
      verifyClientHello request t.controller t.agent (Symbolic.pointBytes (.party n)) := rfl
  simp only [Suite.accept, Target.accept, Option.bind_eq_bind, Option.map_bind]
  change (Suite.verifyClientHello _ request (Symbolic.pointBytes (.party n))).bind _ = _
  rw [hverify]
  congr 1
  funext clientEphemeral
  dsimp only [Function.comp_apply]
  rw [Option.map_bind]
  congr 1
  funext conf
  simp only [Function.comp_apply]
  split_ifs <;> rfl

/-! ## Installation -/

/-- The staging name next to the output. -/
def stagingName (output pid : Str) : Str := output ++ ".ble.tmp.".toList ++ pid

/-- Where an installation goes wrong, if it does: a `write_all` may have
written a part. -/
inductive Trouble where
  | nowhere
  | create
  | write (n : Nat)
  | sync
  | rename
  deriving DecidableEq

/-- `install`, whose removal of its staging file works. -/
def install (fs : Files Str) (output tmp : Str) (bytes : Bytes) (trouble : Trouble) :
    Files Str × Bool :=
  if trouble = .create then (fs, false)
  else match fs.createNew tmp 0o600 with
    | none => (fs, false)
    | some (fs₁, fd) =>
      match trouble with
      | .write n => ((fs₁.pwrite fd 0 (bytes.take n)).unlink tmp, false)
      | .sync | .rename => ((fs₁.pwrite fd 0 bytes).unlink tmp, false)
      | _ =>
        match (fs₁.pwrite fd 0 bytes).rename tmp output with
        | none => ((fs₁.pwrite fd 0 bytes).unlink tmp, false)
        | some fs₂ => (fs₂, true)

theorem stagingName_ne (output pid : Str) : stagingName output pid ≠ output := by
  intro h
  have := congrArg List.length h
  simp [stagingName] at this

section
variable {fs fs' : Files Str} {output tmp : Str} {bytes bs : Bytes} {trouble : Trouble} {fd : Nat}

/-- A file just created and written to shows nowhere else. -/
theorem sameAt_staged {name : Str} (h : fs.createNew tmp 0o600 = some (fs', fd))
    (hne : name ≠ tmp) : Files.SameAt fs (fs'.pwrite fd 0 bs) name := by
  obtain ⟨_, rfl, rfl⟩ := Files.createNew_some h
  refine (Files.sameAt_create hne _).trans (Files.sameAt_pwrite (fun hname => ?_) _ _)
  rw [(Files.sameAt_create hne 0o600).1] at hname
  exact Nat.lt_irrefl _ (fs.bound name _ hname)

theorem sameAt_removed (h : fs.createNew tmp 0o600 = some (fs', fd)) (name : Str) :
    Files.SameAt fs ((fs'.pwrite fd 0 bs).unlink tmp) name := by
  by_cases hname : name = tmp
  · subst hname
    have hnone := (Files.createNew_some h).1
    exact ⟨by simp [Files.unlink, hnone], by simp [hnone]⟩
  · exact (sameAt_staged h hname).trans (Files.sameAt_unlink hname)

/-- An installation that fails leaves no trace. -/
theorem sameAt_install (h : install fs output tmp bytes trouble = (fs', false)) (name : Str) :
    Files.SameAt fs fs' name := by
  unfold install at h
  split_ifs at h
  · cases h
    exact .refl _ _
  · split at h
    · cases h
      exact .refl _ _
    · rename_i hnew
      split at h
      · cases h
        exact sameAt_removed hnew name
      · cases h
        exact sameAt_removed hnew name
      · cases h
        exact sameAt_removed hnew name
      · split at h
        · cases h
          exact sameAt_removed hnew name
        · cases h

/-- One that works replaces the output and nothing else. -/
theorem stat_install (h : install fs output tmp bytes trouble = (fs', true)) (hne : tmp ≠ output) :
    fs'.stat output = some ⟨bytes, 0o600⟩ ∧ ∀ name, name ≠ output → Files.SameAt fs fs' name := by
  unfold install at h
  split_ifs at h
  · cases h
  split at h
  · cases h
  · rename_i fs₁ fd hnew
    split at h
    · cases h
    · cases h
    · cases h
    · split at h
      · cases h
      · rename_i fs₂ hrename
        cases h
        obtain ⟨hnone, rfl, rfl⟩ := Files.createNew_some hnew
        refine ⟨?_, fun name hname => ?_⟩
        · rw [Files.stat_rename hrename]
          simp [Files.stat, Files.pwrite, Files.setInode, Files.create, Files.spliceAt]
        · by_cases htmp : name = tmp
          · subst htmp
            obtain ⟨i, _, _, _, hdir⟩ := Files.rename_some hrename
            exact ⟨by simp [hdir, hname, hnone], by simp [hnone]⟩
          · exact (sameAt_staged hnew htmp).trans (Files.sameAt_rename hrename htmp hname)

end

/-! ## The loop -/

/-- How an attempt ended. -/
inductive Attempt where
  | done
  | refused
  | timedOut
  deriving DecidableEq

/-- Where `serve_on_adapter` stands, each at what it waits for next. -/
inductive Serve.Pc (S : Type) where
  | advertise
  | serveApp
  | next
  | pairing (peer : Nat) (reader writer : Bool)
  | unpair
  | start
  | random
  | writeHello (secret : S)
  | readSize (secret : S)
  | readBody (secret : S) (size : Nat)
  | writeAck
  | sleep
  | removeDevice (attempt : Attempt)
  | returned (ok : Bool)

structure Serve (S : Type) where
  fs : Files Str
  installed : Bool
  pc : Serve.Pc S

/-- What comes in: the end of an operation, a timeout, an event on the
characteristic, bytes of the peer, or a secret. With a request comes what the
disk makes of the installation. -/
inductive Serve.Event (S : Type) where
  | ok
  | fail
  | timeout
  | write (address : Nat) (accepted : Bool)
  | notify (address : Nat)
  | stopped
  | data (bytes : Bytes)
  | secret (secret : S)
  | request (bytes : Bytes) (trouble : Trouble)

def fromBe32 (bs : Bytes) : Nat := bs.foldl (fun n b => 2 ^ 8 * n + b.toNat) 0

namespace Serve

variable {S : Type} (suite : Suite UInt8 S) (output pid : Str)

def begin (fs : Files Str) : Serve S := ⟨fs, false, .advertise⟩

def goto (s : Serve S) (pc : Pc S) : Serve S := { s with pc := pc }

/-- The attempt is over; its peer is dropped before the loop looks at how. -/
def finish (s : Serve S) (attempt : Attempt) : Serve S := s.goto (.removeDevice attempt)

/-- An event of the pairing loop: on to the exchange once both channels are open. -/
def channels (s : Serve S) (peer : Nat) (reader writer : Bool) : Serve S :=
  if reader && writer then { s with installed := false, pc := .start }
  else s.goto (.pairing peer reader writer)

/-- A whole request: everything up to the flag happens without waiting. -/
def onRequest (s : Serve S) (secret : S) (request : Bytes) (trouble : Trouble) : Serve S :=
  match suite.accept secret request with
  | none => s.finish .refused
  | some (transcript, key, conf) =>
    match install s.fs output (stagingName output pid) conf trouble with
    | (fs, false) => { s with fs := fs, pc := .removeDevice .refused }
    | (fs, true) =>
      match suite.encrypt key (nonce 1) transcript suite.okText with
      | none => ⟨fs, true, .removeDevice .refused⟩
      | some _ => ⟨fs, true, .writeAck⟩

def step (s : Serve S) (e : Event S) : Option (Serve S) :=
  match s.pc, e with
  | .advertise, .ok => some (s.goto .serveApp)
  | .serveApp, .ok => some (s.goto .next)
  | .advertise, .fail | .serveApp, .fail => some (s.goto (.returned false))
  | .next, .write address true => some (s.goto (.pairing address true false))
  | .next, .notify address => some (s.goto (.pairing address false true))
  | .next, .write _ false | .next, .stopped => some (s.goto (.returned false))
  -- channels of other peers are dropped
  | .pairing peer reader writer, .write address true =>
    some (s.channels peer (reader || address = peer) writer)
  | .pairing peer reader writer, .notify address =>
    some (s.channels peer reader (writer || address = peer))
  | .pairing _ _ _, .write _ false | .pairing _ _ _, .stopped | .pairing _ _ _, .timeout =>
    some (s.goto .unpair)
  | .unpair, .ok | .unpair, .fail => some (s.goto .next)
  | .start, .data bytes =>
    if bytes.length = 1 then some (if bytes = [1] then s.goto .random else s.finish .refused)
    else none
  | .random, .secret secret => some (s.goto (.writeHello secret))
  | .writeHello secret, .ok => some (s.goto (.readSize secret))
  | .readSize secret, .data bytes =>
    if bytes.length = 4 then
      some (if fromBe32 bytes ≤ maxFrame then s.goto (.readBody secret (fromBe32 bytes))
        else s.finish .refused)
    else none
  | .readBody secret size, .request bytes trouble =>
    if bytes.length = size then some (s.onRequest suite output pid secret bytes trouble) else none
  | .start, .fail | .random, .fail | .writeHello _, .fail | .readSize _, .fail
  | .readBody _ _, .fail => some (s.finish .refused)
  -- a lost acknowledgement is only logged
  | .writeAck, .ok | .writeAck, .fail => some (s.goto .sleep)
  | .sleep, .ok => some (s.finish .done)
  | .start, .timeout | .writeHello _, .timeout | .readSize _, .timeout | .readBody _ _, .timeout
  | .writeAck, .timeout | .sleep, .timeout => some (s.finish .timedOut)
  | .removeDevice .done, .ok | .removeDevice .done, .fail => some (s.goto (.returned true))
  | .removeDevice .refused, .ok | .removeDevice .refused, .fail => some (s.goto .next)
  | .removeDevice .timedOut, .ok | .removeDevice .timedOut, .fail =>
    some (s.goto (if s.installed then .returned true else .next))
  | _, _ => none

def result (s : Serve S) : Option Bool :=
  match s.pc with
  | .returned ok => some ok
  | _ => none

/-- The credentials an event has installed, if it has. -/
def installing (s : Serve S) (e : Event S) : Option Bytes :=
  match s.pc, e with
  | .readBody secret size, .request bytes trouble =>
    if bytes.length = size then
      (suite.accept secret bytes).bind fun (_, _, conf) =>
        if (install s.fs output (stagingName output pid) conf trouble).2 then some conf else none
    else none
  | _, _ => none

/-- All credentials installed in the course of a run. -/
def installations : Serve S → List (Event S) → List Bytes
  | _, [] => []
  | s, e :: es =>
    (s.installing suite output pid e).toList ++
      ((s.step suite output pid e).elim [] fun s' => installations s' es)

/-- Where the flag may be set, and where it may be unset. -/
def Pc.closing : Pc S → Bool
  | .writeAck | .sleep | .removeDevice .done | .removeDevice .timedOut | .returned true => true
  | _ => false

def Pc.opening : Pc S → Bool
  | .writeAck | .sleep | .removeDevice .done | .returned true => false
  | _ => true

/-- The flag agrees with where the loop stands. -/
def Sound (s : Serve S) : Prop := if s.installed then s.pc.closing else s.pc.opening

/-! ## What one step can do -/

/-- Every way the loop moves, with the facts its branch was taken on. -/
inductive Moves (s : Serve S) : Event S → Serve S → Prop
  | before {e pc} : s.pc.closing = false → s.installing suite output pid e = none →
      pc.opening = true → Moves s e (s.goto pc)
  | begins {e} : s.pc.closing = false → s.installing suite output pid e = none →
      Moves s e { s with installed := false, pc := .start }
  | after {e pc} : s.pc.opening = false → pc.closing = true → Moves s e (s.goto pc)
  | cutOff {e} : s.pc = .removeDevice .timedOut →
      Moves s e (s.goto (if s.installed then .returned true else .next))
  | request {secret bytes trouble} : s.pc = .readBody secret bytes.length →
      Moves s (.request bytes trouble) (s.onRequest suite output pid secret bytes trouble)

variable {suite output pid} {s s' : Serve S} {e : Event S}

theorem moves_channels (peer : Nat) (reader writer : Bool) (h : s.pc.closing = false)
    (hquiet : s.installing suite output pid e = none) :
    s.Moves suite output pid e (s.channels peer reader writer) := by
  unfold channels
  split_ifs
  · exact .begins h hquiet
  · exact .before h hquiet rfl

theorem step_moves (h : s.step suite output pid e = some s') : s.Moves suite output pid e s' := by
  unfold step at h
  split at h
  case h_9 hpc | h_10 hpc =>
    cases h
    exact moves_channels _ _ _ (by rw [hpc]; rfl) (by simp [installing, hpc])
  case h_16 hpc | h_19 hpc =>
    split_ifs at h <;> cases h <;>
      exact .before (by rw [hpc]; rfl) (by simp [installing, hpc]) rfl
  case h_20 hpc =>
    split_ifs at h with hlen
    cases h
    exact .request (hlen ▸ hpc)
  case h_26 hpc | h_27 hpc | h_28 hpc | h_33 hpc | h_34 hpc | h_35 hpc | h_36 hpc =>
    cases h; exact .after (by rw [hpc]; rfl) rfl
  case h_39 hpc | h_40 hpc => cases h; exact .cutOff hpc
  case h_41 => cases h
  all_goals
    rename_i hpc
    cases h
    exact .before (by rw [hpc]; rfl) (by simp [installing, hpc]) rfl

theorem Sound.of_closing (h : s.Sound) (hpc : s.pc.closing = false) :
    s.installed = false := by
  unfold Sound at h
  cases hi : s.installed with
  | false => rfl
  | true => simp [hi, hpc] at h

theorem Sound.of_opening (h : s.Sound) (hpc : s.pc.opening = false) : s.installed = true := by
  unfold Sound at h
  cases hi : s.installed with
  | true => rfl
  | false => simp [hi, hpc] at h

/-- The credentials of a request, by what becomes of it. -/
theorem onRequest_cases (hack : ∀ key aad, (suite.encrypt key (nonce 1) aad suite.okText).isSome)
    {secret : S} {bytes : Bytes} {trouble : Trouble} (hpc : s.pc = .readBody secret bytes.length) :
    (s.installing suite output pid (.request bytes trouble) = none ∧
      ∃ fs, (∀ name, Files.SameAt s.fs fs name) ∧
        s.onRequest suite output pid secret bytes trouble =
          { s with fs := fs, pc := .removeDevice .refused }) ∨
    (∃ conf fs, s.installing suite output pid (.request bytes trouble) = some conf ∧ conf ≠ [] ∧
      fs.stat output = some ⟨conf, 0o600⟩ ∧ (∀ name, name ≠ output → Files.SameAt s.fs fs name) ∧
      s.onRequest suite output pid secret bytes trouble = ⟨fs, true, .writeAck⟩) := by
  unfold onRequest installing
  simp only [hpc, if_true]
  cases haccept : suite.accept secret bytes with
  | none => exact .inl ⟨rfl, s.fs, fun _ => .refl _ _, rfl⟩
  | some found =>
    obtain ⟨transcript, key, conf⟩ := found
    rcases hinstall : install s.fs output (stagingName output pid) conf trouble with ⟨fs, ok⟩
    cases ok with
    | false => exact .inl ⟨by simp [hinstall], fs, sameAt_install hinstall, by simp [hinstall]⟩
    | true =>
      obtain ⟨hstat, hothers⟩ := stat_install hinstall (stagingName_ne output pid)
      obtain ⟨ack, hsealed⟩ := Option.isSome_iff_exists.mp (hack key transcript)
      exact .inr ⟨conf, fs, by simp [hinstall], suite.conf_ne_nil haccept, hstat, hothers,
        by simp [hinstall, hsealed]⟩

theorem installing_of_opening (hpc : s.pc.opening = false) :
    s.installing suite output pid e = none := by
  unfold installing
  split
  · rename_i heq
    simp [heq, Pc.opening] at hpc
  · rfl

/-- Step lemma: a step leaves the directory as it was, for good once the flag
is set, or it is the installation. -/
theorem step_cases (hack : ∀ key aad, (suite.encrypt key (nonce 1) aad suite.okText).isSome)
    (hsound : s.Sound) (h : s.step suite output pid e = some s') :
    s'.Sound ∧
    ((s.installing suite output pid e = none ∧ s'.installed = s.installed ∧
        (∀ name, Files.SameAt s.fs s'.fs name) ∧ (s.installed = true → s'.fs = s.fs)) ∨
      (∃ conf, s.installing suite output pid e = some conf ∧ s.installed = false ∧
        s'.installed = true ∧ s'.pc = .writeAck ∧ conf ≠ [] ∧
        s'.fs.stat output = some ⟨conf, 0o600⟩ ∧
        ∀ name, name ≠ output → Files.SameAt s.fs s'.fs name)) := by
  cases step_moves h with
  | before hpc hquiet hopen =>
    have hi := hsound.of_closing hpc
    exact ⟨by simp [Sound, goto, hi, hopen], .inl ⟨hquiet, rfl, fun _ => .refl _ _, fun _ => rfl⟩⟩
  | begins hpc hquiet =>
    have hi := hsound.of_closing hpc
    exact ⟨by simp [Sound, Pc.opening], .inl ⟨hquiet, hi.symm, fun _ => .refl _ _, fun _ => rfl⟩⟩
  | after hpc hclose =>
    have hi := hsound.of_opening hpc
    exact ⟨by simp [Sound, goto, hi, hclose],
      .inl ⟨installing_of_opening hpc, rfl, fun _ => .refl _ _, fun _ => rfl⟩⟩
  | cutOff hpc =>
    refine ⟨?_, .inl ⟨by simp [installing, hpc], rfl, fun _ => .refl _ _, fun _ => rfl⟩⟩
    cases hi : s.installed <;> simp [Sound, goto, hi, Pc.opening, Pc.closing]
  | request hpc =>
    have hi := hsound.of_closing (by rw [hpc]; rfl)
    rcases onRequest_cases hack hpc with
      ⟨hnone, fs, hfs, heq⟩ | ⟨conf, fs, hsome, hne, hstat, hothers, heq⟩
    · rw [heq]
      exact ⟨by simp [Sound, hi, Pc.opening], .inl ⟨hnone, rfl, hfs, by simp [hi]⟩⟩
    · rw [heq]
      exact ⟨by simp [Sound, Pc.closing],
        .inr ⟨conf, hsome, hi, rfl, rfl, hne, hstat, hothers⟩⟩

/-! ## Whole runs -/

theorem pc_of_result {ok : Bool} (h : s.result = some ok) : s.pc = .returned ok := by
  unfold result at h
  split at h
  · rename_i hpc
    cases h
    exact hpc
  · cases h

/-- Steps left once the flag is set. -/
def Pc.left : Pc S → Nat
  | .writeAck => 3
  | .sleep => 2
  | .removeDevice _ => 1
  | _ => 0

theorem left_step (hpc : s.pc.closing = true) (h : s.step suite output pid e = some s') :
    s'.pc.left < s.pc.left := by
  unfold step at h
  split at h
  case h_26 heq | h_27 heq | h_28 heq | h_33 heq | h_34 heq | h_35 heq | h_36 heq =>
    cases h
    simp [goto, finish, Pc.left, heq]
  case h_39 heq | h_40 heq =>
    cases h
    cases hi : s.installed <;> simp [goto, Pc.left, heq]
  case h_41 => cases h
  all_goals
    rename_i heq
    rw [heq] at hpc
    cases hpc

theorem Sound.closing (h : s.Sound) (hi : s.installed = true) : s.pc.closing = true := by
  simpa [Sound, hi] using h

/-- Until it returns, a loop with the flag set goes on whatever happens. -/
theorem enabled_of_closing (hpc : s.pc.closing = true) :
    s.pc = .returned true ∨ (s.step suite output pid .ok).isSome = true := by
  obtain ⟨fs, installed, pc⟩ := s
  cases pc with
  | writeAck | sleep => exact .inr rfl
  | removeDevice attempt => cases attempt <;> exact .inr rfl
  | returned ok =>
    cases ok with
    | true => exact .inl rfl
    | false => cases hpc
  | _ => cases hpc

theorem installations_cons (es : List (Event S)) (h : s.step suite output pid e = some s') :
    s.installations suite output pid (e :: es) =
      (s.installing suite output pid e).toList ++ s'.installations suite output pid es := by
  simp [installations, h]

section
variable (hack : ∀ key aad, (suite.encrypt key (nonce 1) aad suite.okText).isSome)
include hack

/-- Run lemma with the flag set: nothing more is installed, and few steps are left. -/
theorem steps_closing {es : List (Event S)} (h : Steps (step suite output pid) always s es s')
    (hs : s.Sound) (hi : s.installed = true) :
    s.installations suite output pid es = [] ∧ s'.fs = s.fs ∧ s'.Sound ∧ s'.installed = true ∧
      es.length + s'.pc.left ≤ s.pc.left := by
  induction h with
  | nil => exact ⟨rfl, rfl, hs, hi, by simp⟩
  | @cons s e m es t _ hstep _ ih =>
    have hleft := left_step (hs.closing hi) hstep
    obtain ⟨hm, ⟨hnone, hflag, _, hfs⟩ | ⟨_, _, hunset, _⟩⟩ := step_cases hack hs hstep
    · obtain ⟨hinst, hfs', ht, hi', hlen⟩ := ih hm (hflag.trans hi)
      refine ⟨?_, hfs'.trans (hfs hi), ht, hi', ?_⟩
      · rw [installations_cons es hstep, hnone, hinst]
        rfl
      · simp only [List.length_cons]
        omega
    · cases hi.symm.trans hunset

/-- Run lemma with the flag unset: nothing happened, or one installation. -/
theorem steps_opening {es : List (Event S)} (h : Steps (step suite output pid) always s es s')
    (hs : s.Sound) (hi : s.installed = false) :
    s'.Sound ∧
    ((s.installations suite output pid es = [] ∧ s'.installed = false ∧
        ∀ name, Files.SameAt s.fs s'.fs name) ∨
      (∃ conf, s.installations suite output pid es = [conf] ∧ conf ≠ [] ∧ s'.installed = true ∧
        s'.fs.stat output = some ⟨conf, 0o600⟩ ∧
        ∀ name, name ≠ output → Files.SameAt s.fs s'.fs name)) := by
  induction h with
  | nil => exact ⟨hs, .inl ⟨rfl, hi, fun _ => .refl _ _⟩⟩
  | @cons s e m es t _ hstep hrest ih =>
    rw [installations_cons es hstep]
    obtain ⟨hm, ⟨hnone, hflag, hsame, _⟩ | ⟨conf, hsome, _, hset, _, hne, hstat, hothers⟩⟩ :=
      step_cases hack hs hstep
    · rw [hnone]
      obtain ⟨ht, ⟨hinst, hi', hsame'⟩ | ⟨conf, hinst, hne, hi', hstat, hothers⟩⟩ :=
        ih hm (hflag.trans hi)
      · exact ⟨ht, .inl ⟨hinst, hi', fun name => (hsame name).trans (hsame' name)⟩⟩
      · exact ⟨ht, .inr ⟨conf, hinst, hne, hi', hstat,
          fun name hname => (hsame name).trans (hothers name hname)⟩⟩
    · obtain ⟨hinst, hfs, ht, hi', _⟩ := steps_closing hack hrest hm hset
      rw [hsome, hinst, hfs]
      exact ⟨ht, .inr ⟨conf, rfl, hne, hi', hstat, hothers⟩⟩

end

/-- Whatever the peers send, the disk does and the timeouts cut off: until an
attempt has installed credentials that verified, the directory is as it was
and the loop does not return `Ok`; from then on the output holds them, there
is no further attempt, and `Ok` is at most three steps away. -/
theorem serve_stops_at_installation
    (hack : ∀ key aad, (suite.encrypt key (nonce 1) aad suite.okText).isSome)
    {fs : Files Str} {es : List (Event S)}
    (h : Steps (step suite output pid) always (begin fs) es s) :
    (installations suite output pid (begin fs) es = [] → ∀ name, Files.SameAt fs s.fs name) ∧
    (∀ conf rest, installations suite output pid (begin fs) es = conf :: rest →
      rest = [] ∧ conf ≠ [] ∧ s.fs.stat output = some ⟨conf, 0o600⟩ ∧
      (∀ name, name ≠ output → Files.SameAt fs s.fs name) ∧ s.pc.closing = true ∧
      (s.pc = .returned true ∨ ∃ e, (s.step suite output pid e).isSome = true)) ∧
    (∀ ok, s.pc = .returned ok →
      (ok = true ↔ installations suite output pid (begin fs) es ≠ [])) ∧
    ∀ es₁ es₂ m, es = es₁ ++ es₂ → Steps (step suite output pid) always (begin fs) es₁ m →
      installations suite output pid (begin fs) es₁ ≠ [] → s.fs = m.fs ∧ es₂.length ≤ 3 := by
  obtain ⟨hs, hcases⟩ := steps_opening hack h rfl rfl
  refine ⟨fun hnone => ?_, fun conf rest hsome => ?_, fun ok hok => ?_, ?_⟩
  · rcases hcases with ⟨_, _, hsame⟩ | ⟨conf, hinst, _⟩
    · exact hsame
    · cases hnone.symm.trans hinst
  · rcases hcases with ⟨hinst, _⟩ | ⟨conf', hinst, hne, hi, hstat, hothers⟩
    · cases hsome.symm.trans hinst
    · cases hsome.symm.trans hinst
      have hclosing := hs.closing hi
      exact ⟨rfl, hne, hstat, hothers, hclosing,
        (enabled_of_closing hclosing).imp_right fun he => ⟨.ok, he⟩⟩
  · rcases hcases with ⟨hinst, hi, _⟩ | ⟨conf, hinst, _, hi, _⟩
    · rw [hinst]
      cases ok with
      | false => simp
      | true => simp [Sound, hi, hok, Pc.opening] at hs
    · rw [hinst]
      cases ok with
      | true => simp
      | false => simp [Sound, hi, hok, Pc.closing] at hs
  · rintro es₁ es₂ m rfl hm hinst
    obtain ⟨m', hm', hrest⟩ := Steps.append_iff.mp h
    cases hm.det hm'
    obtain ⟨hsm, ⟨hnone, _⟩ | ⟨conf, _, _, hi, _⟩⟩ := steps_opening hack hm rfl rfl
    · exact absurd hnone hinst
    · obtain ⟨_, hfs, _, _, hlen⟩ := steps_closing hack hrest hsm hi
      have hthree : m.pc.left ≤ 3 := by
        cases m.pc <;> simp [Pc.left]
      exact ⟨hfs, by omega⟩

def checksum (bytes : Bytes) : UInt8 := bytes.foldl (· + ·) 0

/-- A suite of no strength that runs, with the labels and the sizes of the real one: keys and
secrets are repeated bytes, and a signature, a digest and a tag repeat a checksum. It signs as
`signer` and checks under `checked`. -/
def checksumSuite (controller agent signer checked : Bytes) : Suite UInt8 UInt8 where
  serverLabel := encode "egdod-ble-server-v1".toList
  clientLabel := encode "egdod-ble-client-v1".toList
  keyLabel := encode "egdod-ble-key-v1".toList
  okText := encode "ok".toList
  controller := controller
  agent := agent
  sign m := List.replicate 64 (checksum (signer ++ m))
  verify m signature := signature = List.replicate 64 (checksum (checked ++ m))
  point secret := List.replicate 32 secret
  diffieHellman secret p := p.map (· + secret)
  sha256 m := List.replicate 32 (checksum m)
  encrypt key nonce aad clear :=
    some (clear ++ List.replicate 16 (checksum (key ++ nonce ++ aad ++ clear)))
  decrypt key nonce aad cipher :=
    let clear := cipher.take (cipher.length - 16)
    if cipher = clear ++ List.replicate 16 (checksum (key ++ nonce ++ aad ++ clear)) then some clear
    else none

/-- The suite of a target with its controller. -/
def targetSuite : Suite UInt8 UInt8 :=
  checksumSuite (List.replicate 32 1) (List.replicate 32 3) (List.replicate 32 3)
    (List.replicate 32 1)

/-- A request: the controller's key, an ephemeral, a signature, and sixteen bytes of credentials
with their tag. -/
def sampleRequest : Bytes :=
  List.replicate 32 1 ++ List.replicate 32 5 ++ List.replicate 64 67 ++
    List.replicate 16 97 ++ List.replicate 16 112

/-- An attempt that times out, then one whose acknowledgement is lost. -/
def twoAttempts : List (Event UInt8) :=
  [.ok, .ok, .write 1 true, .notify 2, .notify 1, .timeout, .ok,
    .notify 1, .write 1 true, .data [1], .secret 9, .ok, .data [0, 0, 0, 160],
    .request sampleRequest .nowhere, .timeout, .ok]

theorem serve_stops_at_installation_twoAttempts :
    ∃ s : Serve UInt8,
      Steps (step targetSuite ['o'] ['1']) always (begin Files.empty) twoAttempts s ∧
      s.pc = .returned true ∧ s.fs.stat ['o'] = some ⟨List.replicate 16 97, 0o600⟩ := by
  have hrun : (run (step targetSuite ['o'] ['1']) (begin Files.empty) twoAttempts).map
      result = some (some true) := by
    decide +kernel
  have hinst : installations targetSuite ['o'] ['1'] (begin Files.empty) twoAttempts =
      [List.replicate 16 97] := by
    decide +kernel
  obtain ⟨s, hs, hret⟩ := Option.map_eq_some_iff.mp hrun
  have hsteps := Steps.of_run (fun _ _ _ => trivial) hs
  exact ⟨s, hsteps, pc_of_result hret,
    ((serve_stops_at_installation (fun _ _ => rfl) hsteps).2.1 _ _ hinst).2.2.1⟩

end Serve

end Egdod.Ble
