import Egdod.Controller.Sessions
import Egdod.Copy.Landing
import Egdod.Exec.Output
import Egdod.Ssh.AuthorizedKeys

/-! `ssh::session`: a read-modify-write of the target's `authorized_keys`,
a host key, an sshd and a forward, each of them requests of their own. Every
request is routed by the selector anew, against the agents connected at that
moment. The recipe therefore talks to one machine exactly when the selector
cannot name two of the agents that come and go. -/
namespace Egdod.Ssh

open Text Posix StepSystem Controller Copy Exec

def keyFileMaxBytes : Nat := 2 ^ 20

def execOutputMaxBytes : Nat := 2 ^ 16

/-- The parts of `Config` that requests are made from. -/
structure Config where
  agent : Str
  authorizedKeys : Str
  hostKeyPub : Str
  sshdArgv : List Str
  keygenArgv : List Str
  targetAddr : Str
  keyOptions : Str

/-- What `session` knows before its first request. -/
structure Plan where
  cfg : Config
  blob : Str
  line : Str

/-- The start of `session`, given the local public key file and the time the
installed line is to expire. -/
def plan (cfg : Config) (pubkey : Str) (expiry : Nat) : Option Plan :=
  let pubkeyLine := trim pubkey
  (keyBlob pubkeyLine).map fun blob =>
    ⟨cfg, blob, authorizedLine cfg.keyOptions expiry pubkeyLine⟩

def Plan.merge (plan : Plan) (existing : Option Bytes) : Bytes :=
  mergeAuthorizedKeys existing (encode plan.blob) (encode plan.line)

/-! ## Requests -/

/-- What comes back on the stream of a request. -/
inductive Reply where
  | pull (start : PullStart) (body : Bytes)
  | ack (a : Ack)
  | exec (frames : List ExecFrame)
  | lost

inductive Pulled where
  | fetched (body : Bytes)
  | missing
  deriving DecidableEq

/-- `pull_file`, into a scratch directory of its own. -/
def pullFile (sha : Bytes → Digest) (max : Nat) : Reply → Option Pulled
  | .pull .missing _ => some .missing
  | .pull (.ok mode len sha256) body =>
    if (⟨len.toNat, sha256, mode.toNat, max⟩ : Transfer).Complete sha body then
      some (.fetched body)
    else none
  | _ => none

/-- `push_file` and `forward_one`, up to the acknowledgement. -/
def acked : Reply → Option Unit
  | .ack .ok => some ()
  | _ => none

/-- `exec_capture`. -/
def execCapture (max : Nat) : Reply → Option (Int32 × Bytes × Bytes)
  | .exec frames => (recvExecOutput max frames).toOption
  | _ => none

/-- Whether the first line of a host key file has the two fields of a public
key. `lossy` is `String::from_utf8_lossy`. -/
def isHostKey (lossy : Bytes → Str) (file : Bytes) : Bool :=
  2 ≤ (splitWhitespace (lossy ((splitInclusive 10 file).headD []))).length

/-! ## The recipe -/

inductive Stage where
  | pullKeys
  | pushKeys (merged : Bytes)
  | hostKey (generated : Bool)
  | keygen
  | banner
  | startSshd
  | poll (left : Nat)
  | ssh
  | done
  | failed
  deriving DecidableEq

/-- A request that reached an agent, and whether it succeeded. -/
structure Routed (K : Type) where
  key : K
  request : Request
  ok : Bool

/-- A run of the recipe, the agents connected to the controller, and what the
recipe has done: the requests routed, what it pulled `authorized_keys` as and
from whom, and what it pushed and to whom. -/
structure Recipe (K : Type) where
  sessions : Sessions K
  stage : Stage
  listening : Bool
  routed : List (Routed K)
  pulled : Option (K × Option Bytes)
  pushed : List (K × Bytes)

def Recipe.start {K : Type} : Recipe K := ⟨∅, .pullKeys, false, [], none, []⟩

/-- The request a stage makes, if it makes one. -/
def Plan.request (sha : Bytes → Digest) (plan : Plan) : Stage → Option Request
  | .pullKeys => some (.pull plan.cfg.authorizedKeys)
  | .pushKeys merged =>
    some (.push plan.cfg.authorizedKeys 0o600 (.ofNat merged.length) (sha merged))
  | .hostKey _ => some (.pull plan.cfg.hostKeyPub)
  | .keygen => some (.exec plan.cfg.keygenArgv)
  | .startSshd => some (.exec plan.cfg.sshdArgv)
  | _ => none

/-- The stage after the answer to the request of a stage, or none if the
request itself failed. -/
def Plan.answer (sha : Bytes → Digest) (lossy : Bytes → Str) (plan : Plan) (reply : Reply) :
    Stage → Option Stage
  | .pullKeys => (pullFile sha keyFileMaxBytes reply).map fun
    | .fetched body => .pushKeys (plan.merge (some body))
    | .missing => .pushKeys (plan.merge none)
  | .pushKeys _ => (acked reply).map fun _ => .hostKey false
  | .hostKey generated => (pullFile sha keyFileMaxBytes reply).map fun
    | .fetched body => if isHostKey lossy body then .banner else .failed
    | .missing => if generated then .failed else .keygen
  | .keygen => (execCapture execOutputMaxBytes reply).map fun
    | (0, _, _) => .hostKey true
    | _ => .failed
  | .startSshd => (execCapture execOutputMaxBytes reply).map fun
    | (0, _, _) => .poll 20
    | _ => .failed
  | _ => none

/-- What the first answer said the target's file is. -/
def Plan.pulledAs (sha : Bytes → Digest) (reply : Reply) : Stage → Option (Option Bytes)
  | .pullKeys => (pullFile sha keyFileMaxBytes reply).map fun
    | .fetched body => some body
    | .missing => none
  | _ => none

inductive Event (K : Type) where
  | connect (key : K) (s : Session)
  | disconnect (key : K)
  | request (reply : Reply)
  | forward (reply : Reply)
  | banner (answered : Bool)
  | exit
  | fail

section
variable {K : Type}

/-- A stage entered; the listener is bound once the host key is known. -/
def Recipe.enter (s : Recipe K) (stage : Stage) : Recipe K :=
  { s with stage := stage, listening := s.listening || stage = .banner }

/-- A stage's request with `key` picked and its answer. -/
def Recipe.routeTo (sha : Bytes → Digest) (lossy : Bytes → Str) (plan : Plan) (s : Recipe K)
    (request : Request) (reply : Reply) (key : K) : Recipe K :=
  let next := plan.answer sha lossy reply s.stage
  { s.enter (next.getD .failed) with
    routed := ⟨key, request, next.isSome⟩ :: s.routed
    pulled := ((Plan.pulledAs sha reply s.stage).map fun existing => (key, existing)).or s.pulled
    pushed := match s.stage with
      | .pushKeys merged => (key, merged) :: s.pushed
      | _ => s.pushed }

variable [DecidableEq K] [KeyText K]

/-- Steps of the recipe and of the world around it. `fail` is everything a
stage can fail on before its request reaches an agent. -/
def step (sha : Bytes → Digest) (lossy : Bytes → Str) (plan : Plan) (s : Recipe K) :
    Event K → Option (Recipe K)
  | .connect key session => some { s with sessions := s.sessions.insert key session }
  | .disconnect key => some { s with sessions := s.sessions.erase key }
  | .request reply =>
    (plan.request sha s.stage).map fun request =>
      match pick s.sessions plan.cfg.agent with
      | .error _ => s.enter .failed
      | .ok (key, _) => s.routeTo sha lossy plan request reply key
  -- a failed forward is logged and leaves the recipe running
  | .forward reply =>
    if s.listening then
      match pick s.sessions plan.cfg.agent with
      | .error _ => some s
      | .ok (key, _) => some { s with
          routed := ⟨key, .forward plan.cfg.targetAddr, (acked reply).isSome⟩ :: s.routed }
    else none
  | .banner answered =>
    match s.stage, answered with
    | .banner, true | .poll _, true => some (s.enter .ssh)
    | .banner, false => some (s.enter .startSshd)
    | .poll (left + 1), false => some (s.enter (if left = 0 then .failed else .poll left))
    | _, _ => none
  | .exit =>
    match s.stage with
    | .ssh => some (s.enter .done)
    | _ => none
  | .fail =>
    match s.stage with
    | .done | .failed => none
    | _ => some (s.enter .failed)

end

/-! ## One machine -/

section
variable {K : Type} [KeyText K]

/-- The requests of a run that succeeded went to one agent, and every
`authorized_keys` pushed is the merge of the one pulled from the same agent. -/
def Recipe.OneMachine (plan : Plan) (s : Recipe K) : Prop :=
  (∀ r ∈ s.routed, ∀ r' ∈ s.routed, r.ok = true → r'.ok = true → r.key = r'.key) ∧
  ∀ key body, (key, body) ∈ s.pushed →
    ∃ existing, s.pulled = some (key, existing) ∧ body = plan.merge existing

/-- Only agents of `A` connect. -/
def ConnectsWithin (A : Set K) (_ : Recipe K) (e : Event K) : Prop :=
  ∀ key session, e = .connect key session → key ∈ A

/-- An agent that may be connected and that the selector names. -/
def Nameable (A : Set K) (plan : Plan) (key : K) : Prop :=
  key ∈ A ∧ selects plan.cfg.agent key = true

/-- What holds of a recipe whatever the selector: it deals with agents the
selector names, and what it pushes is made from what it pulled. -/
structure Traced (A : Set K) (plan : Plan) (s : Recipe K) : Prop where
  members : ∀ key, key ∈ s.sessions → key ∈ A
  routed : ∀ r ∈ s.routed, Nameable A plan r.key
  pulled : ∀ key existing, s.pulled = some (key, existing) → Nameable A plan key
  first : s.stage = .pullKeys → s.pushed = []
  merging : ∀ merged, s.stage = .pushKeys merged →
    ∃ key existing, s.pulled = some (key, existing) ∧ merged = plan.merge existing
  pushed : ∀ key body, (key, body) ∈ s.pushed → Nameable A plan key ∧
    ∃ key' existing, s.pulled = some (key', existing) ∧ body = plan.merge existing

variable {sha : Bytes → Digest} {lossy : Bytes → Str} {plan : Plan} {A : Set K} {s s' : Recipe K}

theorem Traced.start : Traced A plan (Recipe.start : Recipe K) :=
  ⟨by simp [Recipe.start], by simp [Recipe.start], by simp [Recipe.start], by simp [Recipe.start],
    by simp [Recipe.start], by simp [Recipe.start]⟩

/-- A stage that is neither of the first two asks for nothing. -/
theorem Traced.enter (h : Traced A plan s) {stage : Stage} (h₁ : stage ≠ .pullKeys)
    (h₂ : ∀ merged, stage ≠ .pushKeys merged) : Traced A plan (s.enter stage) :=
  ⟨h.members, h.routed, h.pulled, fun e => absurd e h₁, fun m e => absurd e (h₂ m), h.pushed⟩

/-- After the first answer the merge is of what it brought. -/
theorem answer_pullKeys {reply : Reply} {stage : Stage}
    (h : plan.answer sha lossy reply .pullKeys = some stage) :
    ∃ existing, Plan.pulledAs sha reply .pullKeys = some existing ∧
      stage = .pushKeys (plan.merge existing) := by
  obtain ⟨pulled, hp, rfl⟩ := Option.map_eq_some_iff.mp h
  cases pulled with
  | fetched body => exact ⟨some body, by simp [Plan.pulledAs, hp], rfl⟩
  | missing => exact ⟨none, by simp [Plan.pulledAs, hp], rfl⟩

/-- Later answers lead back to neither of the first two stages. -/
theorem answer_later (sha : Bytes → Digest) (lossy : Bytes → Str) (plan : Plan) (reply : Reply)
    {stage : Stage} (hs : stage ≠ .pullKeys) :
    (plan.answer sha lossy reply stage).getD .failed ≠ .pullKeys ∧
      ∀ merged, (plan.answer sha lossy reply stage).getD .failed ≠ .pushKeys merged := by
  cases hans : plan.answer sha lossy reply stage with
  | none => exact ⟨by simp, by simp⟩
  | some next =>
    simp only [Option.getD_some]
    cases stage with
    | pullKeys => exact absurd rfl hs
    | pushKeys =>
      obtain ⟨_, _, rfl⟩ := Option.map_eq_some_iff.mp hans
      exact ⟨by simp, by simp⟩
    | hostKey generated =>
      obtain ⟨pulled, _, rfl⟩ := Option.map_eq_some_iff.mp hans
      cases pulled with
      | fetched body => dsimp only; split_ifs <;> exact ⟨by simp, by simp⟩
      | missing => dsimp only; split_ifs <;> exact ⟨by simp, by simp⟩
    | keygen | startSshd =>
      obtain ⟨_, _, rfl⟩ := Option.map_eq_some_iff.mp hans
      split <;> exact ⟨by simp, by simp⟩
    | _ => cases hans

/-- A request and its answer. The first one sets what was pulled, before
anything is pushed; the second pushes the merge of it. -/
theorem Traced.routeTo (h : Traced A plan s) {request : Request} {reply : Reply} {key : K}
    (hk : Nameable A plan key) : Traced A plan (s.routeTo sha lossy plan request reply key) := by
  have hrouted : ∀ r ∈ (⟨key, request, (plan.answer sha lossy reply s.stage).isSome⟩ :: s.routed),
      Nameable A plan r.key := by
    intro r hr
    rcases List.mem_cons.mp hr with rfl | hr
    · exact hk
    · exact h.routed r hr
  by_cases hfirst : s.stage = .pullKeys
  · have hnone := h.first hfirst
    cases hans : plan.answer sha lossy reply .pullKeys with
    | none =>
      have hpulled : Plan.pulledAs sha reply .pullKeys = none := by
        simpa [Plan.pulledAs, Plan.answer] using hans
      refine ⟨h.members, hrouted, ?_, ?_, ?_, ?_⟩ <;>
        simp [Recipe.routeTo, Recipe.enter, hfirst, hans, hpulled, hnone]
      exact h.pulled
    | some next =>
      obtain ⟨existing, hpulled, rfl⟩ := answer_pullKeys hans
      refine ⟨h.members, hrouted, ?_, ?_, ?_, ?_⟩ <;>
        simp [Recipe.routeTo, Recipe.enter, hfirst, hans, hpulled, hnone]
      exact hk
  · have hpulled : (s.routeTo sha lossy plan request reply key).pulled = s.pulled := by
      have : Plan.pulledAs sha reply s.stage = none := by
        cases hs : s.stage <;> first | exact absurd hs hfirst | rfl
      simp [Recipe.routeTo, this]
    have hnext := answer_later sha lossy plan reply hfirst
    refine ⟨h.members, hrouted, hpulled ▸ h.pulled, fun e => absurd e hnext.1,
      fun m e => absurd e (hnext.2 m), fun key' body hmem => ?_⟩
    rw [hpulled]
    cases hs : s.stage with
    | pushKeys merged =>
      simp only [Recipe.routeTo, hs, List.mem_cons, Prod.mk.injEq] at hmem
      rcases hmem with ⟨rfl, rfl⟩ | hmem
      · exact ⟨hk, h.merging _ hs⟩
      · exact h.pushed key' body hmem
    | _ =>
      simp only [Recipe.routeTo, hs] at hmem
      exact h.pushed key' body hmem

/-- With one nameable agent, all the agents of a recipe are that one. -/
theorem Traced.oneMachine (h : Traced A plan s)
    (unique : ∀ k k', Nameable A plan k → Nameable A plan k' → k = k') : s.OneMachine plan := by
  refine ⟨fun r hr r' hr' _ _ => unique _ _ (h.routed r hr) (h.routed r' hr'), ?_⟩
  intro key body hmem
  obtain ⟨hk, key', existing, hpulled, hbody⟩ := h.pushed key body hmem
  cases unique _ _ (h.pulled key' existing hpulled) hk
  exact ⟨existing, hpulled, hbody⟩

end

section
variable {K : Type} [DecidableEq K] [KeyText K] {sha : Bytes → Digest} {lossy : Bytes → Str}
  {plan : Plan} {A : Set K} {s s' : Recipe K}

theorem Traced.picked (h : Traced A plan s) {key : K} {conn : Nat}
    (hp : pick s.sessions plan.cfg.agent = .ok (key, conn)) : Nameable A plan key := by
  obtain ⟨hsel, session, hl, _⟩ := pick_lookup hp
  exact ⟨h.members key (AList.lookup_isSome.mp (by simp [hl])), hsel⟩

theorem Traced.step {e : Event K} (hok : ConnectsWithin A s e)
    (hstep : step sha lossy plan s e = some s') (h : Traced A plan s) : Traced A plan s' := by
  cases e with
  | connect key session =>
    cases hstep
    refine ⟨fun k hk => ?_, h.routed, h.pulled, h.first, h.merging, h.pushed⟩
    rcases AList.mem_insert _ |>.mp hk with rfl | hk
    · exact hok k session rfl
    · exact h.members k hk
  | disconnect key =>
    cases hstep
    exact ⟨fun k hk => h.members k (AList.mem_erase.mp hk).2, h.routed, h.pulled, h.first,
      h.merging, h.pushed⟩
  | request reply =>
    obtain ⟨request, _, rfl⟩ := Option.map_eq_some_iff.mp hstep
    split
    · exact h.enter (by simp) (by simp)
    · rename_i key conn hpick
      exact h.routeTo (h.picked hpick)
  | forward reply =>
    simp only [Ssh.step] at hstep
    split at hstep
    · split at hstep
      · cases hstep
        exact h
      · rename_i key conn hpick
        cases hstep
        refine ⟨h.members, fun r hr => ?_, h.pulled, h.first, h.merging, h.pushed⟩
        rcases List.mem_cons.mp hr with rfl | hr
        · exact h.picked hpick
        · exact h.routed r hr
    · cases hstep
  | banner answered =>
    simp only [Ssh.step] at hstep
    split at hstep <;> cases hstep
    · exact h.enter (by simp) (by simp)
    · exact h.enter (by simp) (by simp)
    · exact h.enter (by simp) (by simp)
    · apply h.enter <;> split_ifs <;> simp
  | exit =>
    simp only [Ssh.step] at hstep
    split at hstep <;> cases hstep
    exact h.enter (by simp) (by simp)
  | fail =>
    simp only [Ssh.step] at hstep
    split at hstep <;> cases hstep
    exact h.enter (by simp) (by simp)

theorem Traced.of_steps {es : List (Event K)}
    (h : Steps (Ssh.step sha lossy plan) (ConnectsWithin A) Recipe.start es s) :
    Traced A plan s :=
  h.invariant (fun _ _ _ hok hstep hi => hi.step hok hstep) .start

/-- An agent is pulled from, goes, and another one takes the push. -/
def pullThenPush (first second : K) (reply : Reply) : List (Event K) :=
  [.connect first ⟨0, 0, 0⟩, .request reply, .disconnect first, .connect second ⟨1, 1, 0⟩,
    .request (.ack .ok)]

theorem run_pullThenPush (sha : Bytes → Digest) (lossy : Bytes → Str) {first second : K}
    (h₁ : selects plan.cfg.agent first = true)
    (h₂ : selects plan.cfg.agent second = true) :
    ∃ s, run (step sha lossy plan) Recipe.start
        (pullThenPush first second (.pull .missing [])) = some s ∧
      s.routed.map (fun r => (r.key, r.ok)) = [(second, true), (first, true)] := by
  have herase : (AList.singleton first ⟨0, 0, 0⟩ : Sessions K).erase first = ∅ := by
    apply AList.ext
    exact List.kerase_cons_eq rfl
  simp [pullThenPush, run, step, Recipe.start, AList.insert_empty, pick_singleton h₁,
    pick_singleton h₂, Recipe.routeTo, Recipe.enter, Plan.request, Plan.answer, pullFile, acked,
    herase]

/-- Run theorem: whatever agents of `A` come and go, every run of the recipe
keeps to one machine, if and only if the selector names at most one of them. -/
theorem one_machine_iff (sha : Bytes → Digest) (lossy : Bytes → Str) (plan : Plan) (A : Set K) :
    (∀ es s, Steps (step sha lossy plan) (ConnectsWithin A) Recipe.start es s →
      s.OneMachine plan) ↔
    ∀ key other, key ∈ A → other ∈ A → selects plan.cfg.agent key = true →
      selects plan.cfg.agent other = true → key = other := by
  constructor
  · intro h key other hkey hother hsel hsel'
    obtain ⟨s, hrun, hrouted⟩ := run_pullThenPush sha lossy hsel hsel'
    have hsteps : Steps (step sha lossy plan) (ConnectsWithin A) Recipe.start
        (pullThenPush key other (.pull .missing [])) s := by
      refine Steps.of_run (fun e he _ k session heq => ?_) hrun
      subst heq
      simp only [pullThenPush, List.mem_cons, Event.connect.injEq, reduceCtorEq, false_or,
        List.not_mem_nil, or_false] at he
      rcases he with ⟨rfl, _⟩ | ⟨rfl, _⟩
      · exact hkey
      · exact hother
    have hone := (h _ s hsteps).1
    obtain ⟨push, rest, hpush, hto, hrest⟩ := List.map_eq_cons_iff.mp hrouted
    obtain ⟨pull, rest', rfl, hfrom, _⟩ := List.map_eq_cons_iff.mp hrest
    obtain ⟨rfl, hok⟩ := Prod.mk.inj hto
    obtain ⟨rfl, hok'⟩ := Prod.mk.inj hfrom
    exact hone pull (by simp [hpush]) push (by simp [hpush]) hok' hok
  · intro unique es s hsteps
    refine (Traced.of_steps hsteps).oneMachine fun k k' hk hk' => ?_
    exact unique k k' hk.1 hk'.1 hk.2 hk'.2

/-- A recipe that names its agent by the whole key keeps to that machine,
whoever else comes and goes. -/
theorem oneMachine_of_text {key : K} (hagent : plan.cfg.agent = text key) {es : List (Event K)}
    (h : Steps (step sha lossy plan) (ConnectsWithin Set.univ) Recipe.start es s) :
    s.OneMachine plan := by
  refine (Traced.of_steps h).oneMachine fun k k' hk hk' => ?_
  have named : ∀ {k : K}, Nameable Set.univ plan k → k = key := fun hk =>
    selects_text.mp (hagent ▸ hk.2)
  rw [named hk, named hk']

end

/-- A recipe told to use `any` agent. -/
def anyPlan : Plan where
  cfg := ⟨"any".toList, "/root/.ssh/authorized_keys".toList, "/etc/ssh/host.pub".toList,
    ["sshd".toList], ["ssh-keygen".toList, "-A".toList], "127.0.0.1:22".toList, []⟩
  blob := "AAAA".toList
  line := "ssh-ed25519 AAAA".toList

/-- One agent has a key file, which the other one gets. -/
theorem any_two_machines :
    ∃ s, run (step byteSum (fun _ => []) anyPlan) Recipe.start
        (pullThenPush (NodeId.filled 1) (.filled 3)
          (.pull (.ok 0o600 3 (.filled 32 130)) [65, 55, 10])) = some s ∧
      s.routed.map (fun r => (r.key, r.ok)) = [(.filled 3, true), (.filled 1, true)] ∧
      s.pulled = some (.filled 1, some [65, 55, 10]) ∧
      s.pushed = [(.filled 3, [65, 55, 10] ++ encode "ssh-ed25519 AAAA\n".toList)] := by
  have hrun : ((run (step byteSum (fun _ => []) anyPlan) Recipe.start
      (pullThenPush (NodeId.filled 1) (.filled 3)
        (.pull (.ok 0o600 3 (.filled 32 130)) [65, 55, 10]))).any
        fun s =>
          decide (s.routed.map (fun r => (r.key, r.ok)) = [(.filled 3, true), (.filled 1, true)]) &&
          decide (s.pulled = some (.filled 1, some [65, 55, 10])) &&
          decide (s.pushed =
            [(.filled 3, [65, 55, 10] ++ encode "ssh-ed25519 AAAA\n".toList)])) = true := by
    decide +kernel
  simp only [Option.any_eq_true, Bool.and_eq_true, decide_eq_true_eq, and_assoc] at hrun
  exact hrun

end Egdod.Ssh
