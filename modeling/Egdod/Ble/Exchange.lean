import Egdod.Lib.Run
import Egdod.Lib.Symbolic

/-! The exchange that hands network credentials to a target over BLE: the
messages both sides build and check, and any number of attempts on both
sides with every frame in the adversary's hands. Keys are named by numbers;
the bytes of a key's node id are `pubBytes`. -/
namespace Egdod.Ble

open Symbolic StepSystem

/-- The bytes of an ASCII text. -/
def ascii (s : String) : SBytes := s.toList.map fun c => .lit (UInt8.ofNat c.toNat)

def serverLabel : SBytes := ascii "egdod-ble-server-v1"

def clientLabel : SBytes := ascii "egdod-ble-client-v1"

def keyLabel : SBytes := ascii "egdod-ble-key-v1"

/-- `START`, the byte a controller opens with. -/
def startMarker : SByte := .lit 1

def maxFrame : Nat := 64 * 1024

/-! ## Messages -/

structure ServerHello where
  agent : SBytes
  ephemeral : SBytes
  signature : SBytes

def identityMessage (label : SBytes) (controller agent : Nat) (keys : List SBytes) : SBytes :=
  label ++ pubBytes controller ++ pubBytes agent ++ keys.flatten

def serverHello (key controller : Nat) (ephemeral : SBytes) : SBytes :=
  pubBytes key ++ ephemeral ++ sign key (identityMessage serverLabel controller key [ephemeral])

def parseServerHello (bytes : SBytes) : Option ServerHello :=
  if bytes.length = 128 then
    some ⟨bytes.take 32, (bytes.drop 32).take 32, (bytes.drop 64).take 64⟩
  else none

def verifyServerHello (bytes : SBytes) (controller expectedAgent : Nat) : Option ServerHello := do
  let hello ← parseServerHello bytes
  if hello.agent ≠ pubBytes expectedAgent then none
  else if verify expectedAgent
      (identityMessage serverLabel controller expectedAgent [hello.ephemeral])
      hello.signature then
    some hello
  else none

/-- The client ephemeral of a request, if the request is for this target. -/
def verifyClientHello (bytes : SBytes) (controller agent : Nat) (serverEphemeral : SBytes) :
    Option SBytes :=
  if bytes.length < 128 + 16 then none
  else if bytes.take 32 ≠ pubBytes controller then none
  else
    let clientEphemeral := (bytes.drop 32).take 32
    if verify controller
        (identityMessage clientLabel controller agent [serverEphemeral, clientEphemeral])
        ((bytes.drop 64).take 64) then
      some clientEphemeral
    else none

def sessionKey (shared transcript : SBytes) : SBytes := sha256 (keyLabel ++ shared ++ transcript)

def nonce (n : UInt8) : List UInt8 := List.replicate 11 0 ++ [n]

def crypt (key : SBytes) (n : UInt8) (aad clear : SBytes) : SBytes :=
  encrypt key (nonce n) aad clear

def decryptAs (key : SBytes) (n : UInt8) (aad cipher : SBytes) : Option SBytes :=
  decrypt key (nonce n) aad cipher

/-- The acknowledgement's text. -/
def okText : SBytes := ascii "ok"

/-! ## The two sides -/

/-- What both sides have worked out by the time they share a key. -/
@[ext] structure Session where
  transcript : SBytes
  key : SBytes

/-- An attempt of `serve_on_adapter`, past its start marker. -/
inductive TargetStage where
  | waiting
  | installed (request conf : SBytes) (acked : Bool)
  | ended

structure Target where
  agent : Nat
  controller : Nat
  stage : TargetStage

/-- The hello of attempt `n`, whose ephemeral secret is its own. -/
def Target.hello (t : Target) (n : Nat) : SBytes :=
  serverHello t.agent t.controller (pointBytes (.party n))

/-- What a target makes of a request: a session and the credentials. -/
def Target.accept (t : Target) (n : Nat) (request : SBytes) : Option (Session × SBytes) := do
  let clientEphemeral ← verifyClientHello request t.controller t.agent (pointBytes (.party n))
  let transcript := t.hello n ++ request.take 128
  let key := sessionKey (diffieHellman (.party n) clientEphemeral) transcript
  let conf ← decryptAs key 0 transcript (request.drop 128)
  if conf = [] then none else some (⟨transcript, key⟩, conf)

/-- A `provision` run: who it is from, who it is for, and the text. -/
structure Provision where
  controller : Nat
  agent : Nat
  conf : SBytes

/-- The signed head of the request of attempt `n`. -/
def Provision.head (run : Provision) (n : Nat) (serverEphemeral : SBytes) : SBytes :=
  pubBytes run.controller ++ pointBytes (.party n) ++
    sign run.controller (identityMessage clientLabel run.controller run.agent
      [serverEphemeral, pointBytes (.party n)])

/-- What a controller makes of a hello: a session and its request. -/
def Provision.answer (run : Provision) (n : Nat) (helloBytes : SBytes) :
    Option (Session × SBytes) := do
  let hello ← verifyServerHello helloBytes run.controller run.agent
  let head := run.head n hello.ephemeral
  let transcript := helloBytes ++ head
  let key := sessionKey (diffieHellman (.party n) hello.ephemeral) transcript
  let request := head ++ crypt key 0 transcript run.conf
  if request.length ≤ maxFrame then some (⟨transcript, key⟩, request) else none

/-- An exchange attempt of a run: the hello it answered and the
acknowledgement it accepted, if it got that far. -/
structure Client where
  run : Nat
  hello : Option SBytes
  ack : Option SBytes
  ended : Bool

inductive Party where
  | target (t : Target)
  | client (c : Client)

/-! ## Any number of attempts

An attempt's number is also its ephemeral secret, which is what makes
secrets fresh. -/

structure State where
  parties : List Party
  runs : List Provision
  /-- Frames sent by either side. -/
  air : List SBytes

def State.start : State := ⟨[], [], []⟩

/-- A byte that has been sent. -/
def State.seen (s : State) (b : SByte) : Prop := ∃ frame ∈ s.air, b ∈ frame

inductive Event where
  | serve (agent controller : Nat) (start : SByte)
  | request (n : Nat) (frame : SBytes) (installs acks : Bool)
  | provision (controller agent : Nat) (conf : SBytes)
  | connect (run : Nat)
  | hello (n : Nat) (frame : SBytes)
  | ack (n : Nat) (frame : SBytes)
  | timeout (n : Nat)

def State.set (s : State) (n : Nat) (p : Party) : State := { s with parties := s.parties.set n p }

/-- A request reaches a target that waits for one. The installation may fail,
and the acknowledgement may not get out. -/
def State.onRequest (s : State) (n : Nat) (t : Target) (frame : SBytes) (installs acks : Bool) :
    State :=
  if frame.length ≤ maxFrame then
    match t.accept n frame with
    | none => s.set n (.target { t with stage := .ended })
    | some (session, conf) =>
      if installs then
        { s with
          parties := s.parties.set n (.target { t with stage := .installed frame conf acks })
          air := if acks then crypt session.key 1 session.transcript okText :: s.air else s.air }
      else s.set n (.target { t with stage := .ended })
  else s.set n (.target { t with stage := .ended })

/-- A hello reaches a controller that waits for one. -/
def State.onHello (s : State) (n : Nat) (c : Client) (run : Provision) (frame : SBytes) : State :=
  match run.answer n frame with
  | none => s.set n (.client { c with ended := true })
  | some (_, request) =>
    { s with
      parties := s.parties.set n (.client { c with hello := some frame })
      air := request :: s.air }

/-- An acknowledgement reaches a controller that waits for one. -/
def State.onAck (s : State) (n : Nat) (c : Client) (run : Provision) (hello frame : SBytes) :
    State :=
  match run.answer n hello with
  | none => s.set n (.client { c with ended := true })
  | some (session, _) =>
    if decryptAs session.key 1 session.transcript frame = some okText then
      s.set n (.client { c with ack := some frame, ended := true })
    else s.set n (.client { c with ended := true })

def step (s : State) : Event → Option State
  | .serve agent controller start =>
    if start = startMarker then
      let t : Target := ⟨agent, controller, .waiting⟩
      some { s with
        parties := s.parties ++ [.target t]
        air := t.hello s.parties.length :: s.air }
    else none
  | .request n frame installs acks =>
    match s.parties[n]? with
    | some (.target ⟨agent, controller, .waiting⟩) =>
      some (s.onRequest n ⟨agent, controller, .waiting⟩ frame installs acks)
    | _ => none
  | .provision controller agent conf =>
    some { s with runs := s.runs ++ [⟨controller, agent, conf⟩] }
  | .connect run =>
    if run < s.runs.length then
      some { s with
        parties := s.parties ++ [.client ⟨run, none, none, false⟩]
        air := [startMarker] :: s.air }
    else none
  | .hello n frame =>
    match s.parties[n]? with
    | some (.client ⟨run, none, none, false⟩) =>
      (s.runs[run]?).map fun p => s.onHello n ⟨run, none, none, false⟩ p frame
    | _ => none
  | .ack n frame =>
    match s.parties[n]? with
    | some (.client ⟨run, some hello, none, false⟩) =>
      (s.runs[run]?).map fun p => s.onAck n ⟨run, some hello, none, false⟩ p hello frame
    | _ => none
  | .timeout n =>
    match s.parties[n]? with
    | some (.target ⟨agent, controller, .waiting⟩) =>
      some (s.set n (.target ⟨agent, controller, .ended⟩))
    | some (.client c) => some (s.set n (.client { c with ended := true }))
    | _ => none

/-- A byte of a text that is not secret. -/
def IsLit (b : SByte) : Prop := ∃ c, b = .lit c

/-- The adversary delivers what it can work out; texts for a compromised
agent hold nothing secret. -/
def Derivable (compromised : Nat → Prop) (s : State) : Event → Prop
  | .serve _ _ start => Knows compromised s.seen start
  | .request _ frame _ _ => ∀ b ∈ frame, Knows compromised s.seen b
  | .hello _ frame => ∀ b ∈ frame, Knows compromised s.seen b
  | .ack _ frame => ∀ b ∈ frame, Knows compromised s.seen b
  | .provision _ agent conf => compromised agent → ∀ b ∈ conf, IsLit b
  | .connect _ => True
  | .timeout _ => True

/-! ## What the checks establish -/

@[simp] theorem length_serverLabel : serverLabel.length = 19 := by decide

@[simp] theorem length_clientLabel : clientLabel.length = 19 := by decide

theorem clientLabel_ne_serverLabel : clientLabel ≠ serverLabel := by decide +kernel

theorem nonce_zero_ne_one : nonce 0 ≠ nonce 1 := by decide

/-- The bytes of a hello that are its ephemeral. -/
def ephemeralOf (bytes : SBytes) : SBytes := (bytes.drop 32).take 32

/-- Signed messages have their fields at fixed places. -/
theorem identityMessage_inj {label label' : SBytes} {c c' a a' : Nat} {keys keys' : List SBytes}
    (h : identityMessage label c a keys = identityMessage label' c' a' keys')
    (hlen : label.length = label'.length) :
    label = label' ∧ c = c' ∧ a = a' ∧ keys.flatten = keys'.flatten := by
  simp only [identityMessage, List.append_assoc] at h
  obtain ⟨hlabel, h⟩ := List.append_inj h hlen
  obtain ⟨hc, h⟩ := List.append_inj h (by simp)
  obtain ⟨ha, h⟩ := List.append_inj h (by simp)
  exact ⟨hlabel, pubBytes_injective hc, pubBytes_injective ha, h⟩

@[simp] theorem length_serverHello (key controller : Nat) (x : Eph) :
    (serverHello key controller (pointBytes x)).length = 128 := by
  simp [serverHello]

@[simp] theorem length_head (run : Provision) (n : Nat) (e : SBytes) :
    (run.head n e).length = 128 := by
  simp [Provision.head]

theorem verifyServerHello_some {bytes : SBytes} {controller agent : Nat} {hello : ServerHello}
    (h : verifyServerHello bytes controller agent = some hello) :
    hello.ephemeral = ephemeralOf bytes ∧ bytes.length = 128 ∧ bytes.take 32 = pubBytes agent ∧
      verify agent (identityMessage serverLabel controller agent [ephemeralOf bytes])
        ((bytes.drop 64).take 64) = true := by
  simp only [verifyServerHello, parseServerHello, Option.bind_eq_bind] at h
  by_cases hlen : bytes.length = 128
  · rw [if_pos hlen, Option.bind_some] at h
    split at h
    · cases h
    · rename_i hagent
      split at h
      · rename_i hv
        cases h
        exact ⟨rfl, hlen, by simpa using hagent, hv⟩
      · cases h
  · rw [if_neg hlen] at h
    cases h

theorem verifyClientHello_some {bytes e ce : SBytes} {controller agent : Nat}
    (h : verifyClientHello bytes controller agent e = some ce) :
    ce = ephemeralOf bytes ∧ 144 ≤ bytes.length ∧ bytes.take 32 = pubBytes controller ∧
      verify controller (identityMessage clientLabel controller agent [e, ephemeralOf bytes])
        ((bytes.drop 64).take 64) = true := by
  unfold verifyClientHello at h
  split at h
  · cases h
  · rename_i hlen
    split at h
    · cases h
    · rename_i hc
      dsimp only at h
      split at h
      · rename_i hv
        cases h
        exact ⟨rfl, by omega, by simpa using hc, hv⟩
      · cases h

/-- What a controller has established once it answers a hello. -/
structure Provision.Answers (run : Provision) (n : Nat) (hello : SBytes) (σ : Session)
    (request : SBytes) : Prop where
  length : hello.length = 128
  agent : hello.take 32 = pubBytes run.agent
  signature : verify run.agent
    (identityMessage serverLabel run.controller run.agent [ephemeralOf hello])
    ((hello.drop 64).take 64) = true
  transcript : σ.transcript = hello ++ run.head n (ephemeralOf hello)
  key : σ.key = sessionKey (diffieHellman (.party n) (ephemeralOf hello)) σ.transcript
  request : request = run.head n (ephemeralOf hello) ++ crypt σ.key 0 σ.transcript run.conf

theorem Provision.answer_some {run : Provision} {n : Nat} {hello request : SBytes} {σ : Session}
    (h : run.answer n hello = some (σ, request)) : run.Answers n hello σ request := by
  simp only [Provision.answer, Option.bind_eq_bind] at h
  obtain ⟨sh, hsh, h⟩ := Option.bind_eq_some_iff.mp h
  obtain ⟨he, hlen, hagent, hv⟩ := verifyServerHello_some hsh
  split at h
  · cases h
    rw [he]
    exact ⟨hlen, hagent, hv, rfl, rfl, rfl⟩
  · cases h

/-- What a target has established once it accepts a request. -/
structure Target.Accepts (t : Target) (n : Nat) (request : SBytes) (σ : Session)
    (conf : SBytes) : Prop where
  length : 144 ≤ request.length
  controller : request.take 32 = pubBytes t.controller
  signature : verify t.controller
    (identityMessage clientLabel t.controller t.agent
      [pointBytes (.party n), ephemeralOf request])
    ((request.drop 64).take 64) = true
  transcript : σ.transcript = t.hello n ++ request.take 128
  key : σ.key = sessionKey (diffieHellman (.party n) (ephemeralOf request)) σ.transcript
  cipher : request.drop 128 = crypt σ.key 0 σ.transcript conf

theorem Target.accept_some {t : Target} {n : Nat} {request conf : SBytes} {σ : Session}
    (h : t.accept n request = some (σ, conf)) : t.Accepts n request σ conf := by
  simp only [Target.accept, Option.bind_eq_bind] at h
  obtain ⟨ce, hce, h⟩ := Option.bind_eq_some_iff.mp h
  obtain ⟨rfl, hlen, hcontroller, hv⟩ := verifyClientHello_some hce
  obtain ⟨clear, hclear, h⟩ := Option.bind_eq_some_iff.mp h
  split at h
  · cases h
  · cases h
    exact ⟨hlen, hcontroller, hv, rfl, rfl, decrypt_some hclear⟩

/-- Transcripts of the two sides that agree have the same ends, and so do
those of two attempts of one side. -/
theorem transcript_ends {a a' b b' : SBytes} (ha : a.length = 128) (ha' : a'.length = 128)
    (h : a ++ b = a' ++ b') : a = a' ∧ b = b' :=
  List.append_inj h (ha.trans ha'.symm)

theorem Provision.head_inj {run run' : Provision} {n n' : Nat} {e e' : SBytes}
    (h : run.head n e = run'.head n' e') : run.controller = run'.controller ∧ n = n' := by
  simp only [Provision.head, List.append_assoc] at h
  obtain ⟨hc, h⟩ := List.append_inj h (by simp)
  obtain ⟨hn, _⟩ := List.append_inj h (by simp)
  have := pointBytes_injective hn
  exact ⟨pubBytes_injective hc, by simpa using this⟩

theorem Target.hello_inj {t t' : Target} {n n' : Nat} (h : t.hello n = t'.hello n') :
    t.agent = t'.agent ∧ n = n' := by
  simp only [Target.hello, serverHello, List.append_assoc] at h
  obtain ⟨ha, h⟩ := List.append_inj h (by simp)
  obtain ⟨hn, _⟩ := List.append_inj h (by simp)
  have := pointBytes_injective hn
  exact ⟨pubBytes_injective ha, by simpa using this⟩

/-! ## Without interference -/

/-- The session of attempt `m` of a run with attempt `n` of its target. -/
def Provision.session (run : Provision) (n m : Nat) : Session :=
  let transcript := serverHello run.agent run.controller (pointBytes (.party n)) ++
    run.head m (pointBytes (.party n))
  ⟨transcript, sessionKey (diffieHellman (.party m) (pointBytes (.party n))) transcript⟩

/-- The request sent in that session. -/
def Provision.request (run : Provision) (n m : Nat) : SBytes :=
  run.head m (pointBytes (.party n)) ++
    crypt (run.session n m).key 0 (run.session n m).transcript run.conf

theorem length_request (run : Provision) (n m : Nat) :
    (run.request n m).length = run.conf.length + 144 := by
  simp only [Provision.request, crypt, List.length_append, length_head, length_encrypt]
  omega

theorem slices {a b c : SBytes} (ha : a.length = 32) (hb : b.length = 32)
    (hc : c.length = 64) (rest : SBytes) : let bytes := a ++ b ++ c ++ rest
    bytes.take 32 = a ∧ (bytes.drop 32).take 32 = b ∧ (bytes.drop 64).take 64 = c ∧
      bytes.take 128 = a ++ b ++ c ∧ bytes.drop 128 = rest := by
  refine ⟨?_, ?_, ?_, ?_, ?_⟩
  · rw [List.append_assoc, List.append_assoc, List.take_left' ha]
  · rw [List.append_assoc, List.append_assoc, List.drop_left' ha, List.take_left' hb]
  · rw [List.append_assoc, List.drop_left' (by simp [ha, hb]), List.take_left' hc]
  · rw [List.take_left' (by simp [ha, hb, hc])]
  · rw [List.drop_left' (by simp [ha, hb, hc])]

theorem verifyServerHello_serverHello (key controller : Nat) (x : Eph) :
    verifyServerHello (serverHello key controller (pointBytes x)) controller key =
      some ⟨pubBytes key, pointBytes x,
        sign key (identityMessage serverLabel controller key [pointBytes x])⟩ := by
  obtain ⟨h₁, h₂, h₃, _⟩ := slices (length_pubBytes key) (length_pointBytes x)
    (length_sign key (identityMessage serverLabel controller key [pointBytes x])) []
  rw [List.append_nil] at h₁ h₂ h₃
  have hlen := length_serverHello key controller x
  have hv := verify_sigBytes key (identityMessage serverLabel controller key [pointBytes x]) 0
  unfold serverHello at hlen ⊢
  simp only [verifyServerHello, parseServerHello, if_pos hlen, h₁, h₂, h₃, Option.bind_eq_bind,
    Option.bind_some]
  rw [if_neg (not_not_intro rfl)]
  exact if_pos hv

theorem Provision.answer_hello (run : Provision) (n m : Nat)
    (hfit : run.conf.length + 144 ≤ maxFrame) :
    run.answer m (serverHello run.agent run.controller (pointBytes (.party n))) =
      some (run.session n m, run.request n m) := by
  have hlen : (run.request n m).length ≤ maxFrame := by
    rw [length_request]
    omega
  simp only [Provision.answer, verifyServerHello_serverHello, Option.bind_eq_bind,
    Option.bind_some]
  exact if_pos hlen

theorem Provision.accept_request (run : Provision) (n m : Nat) (hne : run.conf ≠ []) :
    Target.accept ⟨run.agent, run.controller, .waiting⟩ n (run.request n m) =
      some (run.session n m, run.conf) := by
  obtain ⟨h₁, h₂, h₃, h₄, h₅⟩ := slices
    (length_pubBytes run.controller) (length_pointBytes (.party m))
    (length_sign run.controller (identityMessage clientLabel run.controller run.agent
      [pointBytes (.party n), pointBytes (.party m)]))
    (crypt (run.session n m).key 0 (run.session n m).transcript run.conf)
  have hreq : 144 ≤ (run.request n m).length := by
    rw [length_request]
    omega
  have hverify : verifyClientHello (run.request n m) run.controller run.agent
      (pointBytes (.party n)) = some (pointBytes (.party m)) := by
    unfold verifyClientHello
    rw [if_neg (by omega), Provision.request, Provision.head, h₁, if_neg (by simp), h₂, h₃]
    simp [sign, verify_sigBytes]
  simp only [Target.accept, hverify, Option.bind_eq_bind, Option.bind_some]
  rw [diffieHellman_comm]
  have htake : (run.request n m).take 128 = run.head m (pointBytes (.party n)) := h₄
  have hdrop : (run.request n m).drop 128 =
      crypt (run.session n m).key 0 (run.session n m).transcript run.conf := h₅
  rw [htake, hdrop]
  have hdec : decryptAs (run.session n m).key 0 (run.session n m).transcript
      (crypt (run.session n m).key 0 (run.session n m).transcript run.conf) = some run.conf :=
    decrypt_encrypt _ _ _ _
  change (decryptAs (run.session n m).key 0 (run.session n m).transcript _).bind _ = _
  rw [hdec, Option.bind_some, if_neg hne]
  rfl

end Egdod.Ble
