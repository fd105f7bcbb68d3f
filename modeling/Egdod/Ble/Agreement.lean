import Egdod.Ble.Exchange

/-! What the BLE exchange guarantees against an adversary that holds every
frame: a target installs only what a controller sent it, once; a controller
that is told so can rely on it; and no secret text gets out. The invariant
is that everything on the air is safe in the sense of the symbolic model,
with the parties' own signatures and ciphertexts read off their states. -/
namespace Egdod.Ble

open Symbolic StepSystem

/-! ## What the parties have done -/

/-- Attempt `n` of a run has answered a hello and shares a session. -/
def State.Answered (s : State) (n : Nat) (run : Provision) (hello : SBytes) (σ : Session) : Prop :=
  ∃ c request, s.parties[n]? = some (.client c) ∧ s.runs[c.run]? = some run ∧
    c.hello = some hello ∧ run.answer n hello = some (σ, request)

/-- Attempt `n` of a target has installed a text in a session. -/
def State.Installed (s : State) (n : Nat) (t : Target) (conf : SBytes) (σ : Session) : Prop :=
  s.parties[n]? = some (.target t) ∧
    ∃ request acked, t.stage = .installed request conf acked ∧ t.accept n request = some (σ, conf)

/-- Attempt `n` of a run has returned success. -/
def State.Accepted (s : State) (n : Nat) (run : Provision) (σ : Session) : Prop :=
  ∃ c ack hello, s.parties[n]? = some (.client c) ∧ c.ack = some ack ∧
    s.Answered n run hello σ ∧ decryptAs σ.key 1 σ.transcript ack = some okText

/-- The signatures made so far. -/
def State.Signed (s : State) (key : Nat) (msg : SBytes) : Prop :=
  (∃ n t, s.parties[n]? = some (.target t) ∧ key = t.agent ∧
    msg = identityMessage serverLabel t.controller t.agent [pointBytes (.party n)]) ∨
  (∃ n run hello σ, s.Answered n run hello σ ∧ key = run.controller ∧
    msg = identityMessage clientLabel run.controller run.agent
      [ephemeralOf hello, pointBytes (.party n)])

/-- The ciphertexts made so far. -/
def State.Sealed (s : State) (key : SBytes) (nonce' : List UInt8) (aad clear : SBytes) : Prop :=
  (∃ n run hello σ, s.Answered n run hello σ ∧ key = σ.key ∧ nonce' = nonce 0 ∧
    aad = σ.transcript ∧ clear = run.conf) ∨
  (∃ n t conf σ, s.Installed n t conf σ ∧ key = σ.key ∧ nonce' = nonce 1 ∧
    aad = σ.transcript ∧ clear = okText)

/-- What may be on the air in a state. -/
def State.Safe (compromised : Nat → Prop) (s : State) (b : SByte) : Prop :=
  Symbolic.Safe compromised s.Signed s.Sealed b

/-- Invariant: frames sent and frames accepted are safe. -/
structure Secure (compromised : Nat → Prop) (s : State) : Prop where
  air : ∀ frame ∈ s.air, ∀ b ∈ frame, s.Safe compromised b
  runs : ∀ run ∈ s.runs, compromised run.agent → ∀ b ∈ run.conf, IsLit b
  hellos : ∀ (n : Nat) (c : Client) (hello : SBytes),
    s.parties[n]? = some (.client c) → c.hello = some hello →
    (∀ b ∈ hello, s.Safe compromised b) ∧ ∃ run σ, s.Answered n run hello σ
  requests : ∀ (n : Nat) (t : Target) (request conf : SBytes) (acked : Bool),
    s.parties[n]? = some (.target t) →
    t.stage = .installed request conf acked →
    (∀ b ∈ request, s.Safe compromised b) ∧ ∃ σ, t.accept n request = some (σ, conf)
  acks : ∀ (n : Nat) (c : Client) (ack : SBytes),
    s.parties[n]? = some (.client c) → c.ack = some ack →
    (∀ b ∈ ack, s.Safe compromised b) ∧ ∃ run σ, s.Accepted n run σ

section
variable {compromised : Nat → Prop} {s s' : State} {n : Nat} {run run' : Provision}
  {hello hello' conf : SBytes} {σ σ' : Session} {t : Target}

theorem mem_of_mem_drop_take {b : SByte} {bytes : SBytes} {i k : Nat}
    (h : b ∈ (bytes.drop i).take k) : b ∈ bytes :=
  List.mem_of_mem_drop (List.mem_of_mem_take h)

/-- The party behind a number is one and has one session. -/
theorem State.Answered.unique (h : s.Answered n run hello σ) (h' : s.Answered n run' hello' σ') :
    run = run' ∧ hello = hello' ∧ σ = σ' := by
  obtain ⟨c, request, hc, hrun, hhello, hans⟩ := h
  obtain ⟨c', request', hc', hrun', hhello', hans'⟩ := h'
  cases hc.symm.trans hc'
  cases hrun.symm.trans hrun'
  cases hhello.symm.trans hhello'
  cases hans.symm.trans hans'
  exact ⟨rfl, rfl, rfl⟩

theorem State.Answered.answers (h : s.Answered n run hello σ) :
    ∃ request, run.Answers n hello σ request := by
  obtain ⟨_, request, _, _, _, hans⟩ := h
  exact ⟨request, Provision.answer_some hans⟩

theorem State.Installed.accepts (h : s.Installed n t conf σ) :
    ∃ request, t.Accepts n request σ conf := by
  obtain ⟨_, request, _, _, hacc⟩ := h
  exact ⟨request, Target.accept_some hacc⟩

/-! ## Keys nobody else has -/

/-- A controller that talks to an uncompromised agent shares its key with a
target attempt and with nobody else. -/
theorem Secure.client_key (h : Secure compromised s) (ha : s.Answered n run hello σ)
    (hagent : ¬ compromised run.agent) : ¬ ∀ b ∈ σ.key, s.Safe compromised b := by
  obtain ⟨request, hans⟩ := ha.answers
  have hsafe : ∀ b ∈ hello, s.Safe compromised b := by
    obtain ⟨c, _, hc, _, hhello, _⟩ := ha
    exact (h.hellos n c hello hc hhello).1
  have hsigned := (Symbolic.Safe.of_verify (fun b hb => hsafe b (mem_of_mem_drop_take hb))
    hans.signature).resolve_left hagent
  -- only a target signs with the server label
  have hpoint : ∃ m, ephemeralOf hello = pointBytes (.party m) := by
    rcases hsigned with ⟨m, t, _, _, hmsg⟩ | ⟨m, run', hello', σ', _, _, hmsg⟩
    · obtain ⟨_, _, _, hkeys⟩ := identityMessage_inj hmsg rfl
      exact ⟨m, by simpa using hkeys⟩
    · exact absurd (identityMessage_inj hmsg (by simp)).1.symm clientLabel_ne_serverLabel
  obtain ⟨m, hm⟩ := hpoint
  rw [hans.key, hm]
  exact Symbolic.Safe.not_hash_shared

/-- A target whose controller is uncompromised shares its key with an attempt
of that controller and with nobody else. -/
theorem Secure.target_key (h : Secure compromised s) (hi : s.Installed n t conf σ)
    (hcontroller : ¬ compromised t.controller) : ¬ ∀ b ∈ σ.key, s.Safe compromised b := by
  obtain ⟨hn, request, acked, hstage, hacc⟩ := hi
  have hans := Target.accept_some hacc
  have hsafe := (h.requests n t request conf acked hn hstage).1
  have hsigned := (Symbolic.Safe.of_verify (fun b hb => hsafe b (mem_of_mem_drop_take hb))
    hans.signature).resolve_left hcontroller
  -- only a controller signs with the client label
  have hpoint : ∃ m, ephemeralOf request = pointBytes (.party m) := by
    rcases hsigned with ⟨m, t', _, _, hmsg⟩ | ⟨m, run', hello', σ', ha, _, hmsg⟩
    · exact absurd (identityMessage_inj hmsg (by simp)).1 clientLabel_ne_serverLabel
    · obtain ⟨_, _, _, hkeys⟩ := identityMessage_inj hmsg rfl
      obtain ⟨request', hans'⟩ := ha.answers
      have hlen : (pointBytes (.party n)).length = (ephemeralOf hello').length := by
        simp [ephemeralOf, hans'.length]
      simp only [List.flatten_cons, List.flatten_nil, List.append_nil] at hkeys
      exact ⟨m, (List.append_inj hkeys hlen).2⟩
  obtain ⟨m, hm⟩ := hpoint
  rw [hans.key, hm]
  exact Symbolic.Safe.not_hash_shared

/-- No party seals a secret under a key the adversary could have. -/
theorem Secure.sealed (h : Secure compromised s) (key : SBytes) (nonce' : List UInt8)
    (aad clear : SBytes) (hs : s.Sealed key nonce' aad clear)
    (hkey : ∀ b ∈ key, s.Safe compromised b) :
    ∀ b ∈ clear, s.Safe compromised b := by
  rcases hs with ⟨n, run, hello, σ, ha, rfl, _, _, rfl⟩ | ⟨n, t, conf, σ, _, _, _, _, rfl⟩
  · by_cases hagent : compromised run.agent
    · obtain ⟨c, _, _, hrun, _⟩ := ha
      intro b hb
      obtain ⟨l, rfl⟩ := h.runs run (List.mem_of_getElem? hrun) hagent b hb
      exact .lit
    · exact absurd hkey (h.client_key ha hagent)
  · intro b hb
    obtain ⟨l, _, rfl⟩ := List.mem_map.mp hb
    exact .lit

/-- What the adversary can work out may be on the air. -/
theorem Secure.knows (h : Secure compromised s) {b : SByte} (hb : Knows compromised s.seen b) :
    s.Safe compromised b :=
  hb.safe (fun _ ⟨frame, hf, hb⟩ => h.air frame hf _ hb) h.sealed

/-! ## Agreement -/

/-- A request under a key the adversary lacks was made by a controller. -/
theorem Secure.request_from (h : Secure compromised s) (hi : s.Installed n t conf σ)
    (hkey : ¬ ∀ b ∈ σ.key, s.Safe compromised b) :
    ∃ m run hello, s.Answered m run hello σ ∧ run.conf = conf := by
  obtain ⟨hn, request, acked, hstage, hacc⟩ := hi
  have hans := Target.accept_some hacc
  have hsafe := (h.requests n t request conf acked hn hstage).1
  have hcipher : ∀ b ∈ encrypt σ.key (nonce 0) σ.transcript conf, s.Safe compromised b := by
    intro b hb
    refine hsafe b (List.mem_of_mem_drop (i := 128) ?_)
    rw [hans.cipher]
    exact hb
  have hsealed : s.Sealed σ.key (nonce 0) σ.transcript conf :=
    Symbolic.Safe.of_encrypt hcipher hkey
  rcases hsealed with ⟨m, run, hello, σ', ha, hk, _, ht, hc⟩ | ⟨_, _, _, _, _, _, hn, _⟩
  · cases Session.ext ht hk
    exact ⟨m, run, hello, ha, hc.symm⟩
  · exact absurd hn nonce_zero_ne_one

/-- Two sides with one transcript name each other. -/
theorem parties_of_transcript (ha : s.Answered n run hello σ) {m : Nat}
    (hi : s.Installed m t conf σ') (h : σ.transcript = σ'.transcript) :
    run.agent = t.agent ∧ run.controller = t.controller := by
  obtain ⟨request, hans⟩ := ha.answers
  obtain ⟨request', hacc⟩ := hi.accepts
  rw [hans.transcript, hacc.transcript] at h
  obtain ⟨hhello, hhead⟩ := transcript_ends hans.length (by simp [Target.hello]) h
  constructor
  · have hagent := hans.agent
    rw [hhello, Target.hello, serverHello, List.append_assoc, List.take_left' (by simp)] at hagent
    exact (pubBytes_injective hagent).symm
  · have hcontroller := hacc.controller
    have htake : (request'.take 128).take 32 = pubBytes run.controller := by
      rw [← hhead, Provision.head, List.append_assoc, List.take_left' (by simp)]
    rw [List.take_take, show min 32 128 = 32 from rfl, hcontroller] at htake
    exact (pubBytes_injective htake).symm

/-- An attempt of a controller is named by its transcript. -/
theorem client_of_transcript {m : Nat} (ha : s.Answered n run hello σ)
    (ha' : s.Answered m run' hello' σ') (h : σ.transcript = σ'.transcript) : n = m := by
  obtain ⟨request, hans⟩ := ha.answers
  obtain ⟨request', hans'⟩ := ha'.answers
  rw [hans.transcript, hans'.transcript] at h
  exact (Provision.head_inj (transcript_ends hans.length hans'.length h).2).2

/-- And so is an attempt of a target. -/
theorem target_of_transcript {m : Nat} {t' : Target} {conf' : SBytes}
    (hi : s.Installed n t conf σ) (hi' : s.Installed m t' conf' σ')
    (h : σ.transcript = σ'.transcript) : n = m := by
  obtain ⟨request, hacc⟩ := hi.accepts
  obtain ⟨request', hacc'⟩ := hi'.accepts
  rw [hacc.transcript, hacc'.transcript] at h
  exact (Target.hello_inj (transcript_ends (by simp [Target.hello]) (by simp [Target.hello]) h).1).2

/-- What a target with an uncompromised controller installs, an attempt of
that controller for that agent sent in the same session. -/
theorem Secure.installed_from (h : Secure compromised s) (hi : s.Installed n t conf σ)
    (hcontroller : ¬ compromised t.controller) :
    ∃ m run hello, s.Answered m run hello σ ∧ run.controller = t.controller ∧
      run.agent = t.agent ∧ run.conf = conf := by
  obtain ⟨m, run, hello, ha, hconf⟩ := h.request_from hi (h.target_key hi hcontroller)
  obtain ⟨hagent, hcontroller⟩ := parties_of_transcript ha hi rfl
  exact ⟨m, run, hello, ha, hcontroller, hagent, hconf⟩

/-- A controller that is told of success by an uncompromised agent is told
so by a target that installed its text. -/
theorem Secure.accepted_installed (h : Secure compromised s) (ha : s.Accepted n run σ)
    (hagent : ¬ compromised run.agent) :
    ∃ m t, s.Installed m t run.conf σ ∧ t.agent = run.agent ∧ t.controller = run.controller := by
  obtain ⟨c, ack, hello, hc, hack, hans, hdec⟩ := ha
  have hkey := h.client_key hans hagent
  have hsafe := (h.acks n c ack hc hack).1
  have hsealed : s.Sealed σ.key (nonce 1) σ.transcript okText :=
    Symbolic.Safe.of_encrypt (fun b hb => hsafe b (decrypt_some hdec ▸ hb)) hkey
  rcases hsealed with ⟨_, _, _, _, _, _, hn, _⟩ | ⟨m, t, conf, σ', hi, hk, _, ht, _⟩
  · exact absurd hn.symm nonce_zero_ne_one
  · cases Session.ext ht hk
    obtain ⟨k, run', hello', hans', hconf⟩ := h.request_from hi hkey
    cases client_of_transcript hans hans' rfl
    obtain ⟨rfl, _, _⟩ := hans.unique hans'
    obtain ⟨hagent, hcontroller⟩ := parties_of_transcript hans hi rfl
    exact ⟨m, t, hconf ▸ hi, hagent.symm, hcontroller.symm⟩

/-! ## Steps -/

theorem set_cases {l : List Party} {m : Nat} {p q : Party} (h : (l.set n p)[m]? = some q) :
    (m = n ∧ q = p) ∨ (m ≠ n ∧ l[m]? = some q) := by
  by_cases hm : n = m
  · subst hm
    have hlt : n < l.length := by simpa using (List.getElem?_eq_some_iff.mp h).1
    rw [List.getElem?_set_self hlt] at h
    exact .inl ⟨rfl, (Option.some.inj h).symm⟩
  · rw [List.getElem?_set_ne hm] at h
    exact .inr ⟨fun e => hm e.symm, h⟩

theorem append_cases {l : List Party} {m : Nat} {p q : Party} (h : (l ++ [p])[m]? = some q) :
    (m = l.length ∧ q = p) ∨ l[m]? = some q := by
  rcases Nat.lt_trichotomy m l.length with hm | hm | hm
  · exact .inr (by rwa [List.getElem?_append_left hm] at h)
  · subst hm
    exact .inl ⟨rfl, by simpa using h.symm⟩
  · rw [List.getElem?_append_right hm.le, List.getElem?_eq_none (by simp; omega)] at h
    cases h

theorem getElem?_append_some {α : Type} {l : List α} {m : Nat} {a b : α} (h : l[m]? = some a) :
    (l ++ [b])[m]? = some a := by
  rw [List.getElem?_append_left (List.getElem?_eq_some_iff.mp h).1]
  exact h

/-- Parties only add to what they have done. -/
structure Grows (s s' : State) : Prop where
  targets : ∀ (n : Nat) (t : Target), s.parties[n]? = some (.target t) →
    ∃ t', s'.parties[n]? = some (.target t') ∧ t'.agent = t.agent ∧
      t'.controller = t.controller ∧ ∀ r c a, t.stage = .installed r c a → t' = t
  clients : ∀ (n : Nat) (c : Client), s.parties[n]? = some (.client c) →
    ∃ c', s'.parties[n]? = some (.client c') ∧ c'.run = c.run ∧
      (∀ hello, c.hello = some hello → c'.hello = some hello) ∧
      ∀ ack, c.ack = some ack → c'.ack = some ack
  runs : ∀ (r : Nat) (run : Provision), s.runs[r]? = some run → s'.runs[r]? = some run

theorem Grows.answered (h : Grows s s') (ha : s.Answered n run hello σ) :
    s'.Answered n run hello σ := by
  obtain ⟨c, request, hc, hrun, hhello, hans⟩ := ha
  obtain ⟨c', hc', hrun', hhello', _⟩ := h.clients n c hc
  exact ⟨c', request, hc', hrun' ▸ h.runs _ _ hrun, hhello' _ hhello, hans⟩

theorem Grows.accepted (h : Grows s s') (ha : s.Accepted n run σ) : s'.Accepted n run σ := by
  obtain ⟨c, ack, hello, hc, hack, hans, hdec⟩ := ha
  obtain ⟨c', hc', _, _, hack'⟩ := h.clients n c hc
  exact ⟨c', ack, hello, hc', hack' ack hack, h.answered hans, hdec⟩

theorem Grows.safe (h : Grows s s') {b : SByte} (hb : s.Safe compromised b) :
    s'.Safe compromised b := by
  refine Symbolic.Safe.mono (fun key msg hs => ?_) (fun key nonce' aad clear hs => ?_) hb
  · rcases hs with ⟨n, t, hn, hkey, hmsg⟩ | ⟨n, run, hello, σ, ha, hkey, hmsg⟩
    · obtain ⟨t', hn', hagent, hcontroller, _⟩ := h.targets n t hn
      exact .inl ⟨n, t', hn', by rw [hagent]; exact hkey, by rw [hagent, hcontroller]; exact hmsg⟩
    · exact .inr ⟨n, run, hello, σ, h.answered ha, hkey, hmsg⟩
  · rcases hs with ⟨n, run, hello, σ, ha, hrest⟩ | ⟨n, t, conf, σ, hi, hrest⟩
    · exact .inl ⟨n, run, hello, σ, h.answered ha, hrest⟩
    · obtain ⟨hn, r, a, hstage, hacc⟩ := hi
      obtain ⟨t', hn', _, _, hsame⟩ := h.targets n t hn
      cases hsame r conf a hstage
      exact .inr ⟨n, t, conf, σ, ⟨hn', r, a, hstage, hacc⟩, hrest⟩

/-- What a step has to show about what it adds. -/
theorem Secure.grow (h : Secure compromised s) (hg : Grows s s')
    (air : ∀ frame ∈ s'.air, frame ∈ s.air ∨ ∀ b ∈ frame, s'.Safe compromised b)
    (runs : ∀ run ∈ s'.runs, run ∈ s.runs ∨ (compromised run.agent → ∀ b ∈ run.conf, IsLit b))
    (hellos : ∀ (n : Nat) (c : Client) (hello : SBytes), s'.parties[n]? = some (.client c) →
      c.hello = some hello → (∃ c₀, s.parties[n]? = some (.client c₀) ∧ c₀.hello = some hello) ∨
        (∀ b ∈ hello, s.Safe compromised b) ∧ ∃ run σ, s'.Answered n run hello σ)
    (requests : ∀ (n : Nat) (t : Target) (request conf : SBytes) (acked : Bool),
      s'.parties[n]? = some (.target t) → t.stage = .installed request conf acked →
      s.parties[n]? = some (.target t) ∨
        (∀ b ∈ request, s.Safe compromised b) ∧ ∃ σ, t.accept n request = some (σ, conf))
    (acks : ∀ (n : Nat) (c : Client) (ack : SBytes), s'.parties[n]? = some (.client c) →
      c.ack = some ack → (∃ c₀, s.parties[n]? = some (.client c₀) ∧ c₀.ack = some ack) ∨
        (∀ b ∈ ack, s.Safe compromised b) ∧ ∃ run σ, s'.Accepted n run σ) :
    Secure compromised s' := by
  refine ⟨fun frame hf b hb => ?_, fun run hrun => ?_, fun n c hello hc hhello => ?_,
    fun n t request conf acked hn hstage => ?_, fun n c ack hc hack => ?_⟩
  · rcases air frame hf with hold | hnew
    · exact hg.safe (h.air frame hold b hb)
    · exact hnew b hb
  · exact (runs run hrun).elim (h.runs run) id
  · rcases hellos n c hello hc hhello with ⟨c₀, hc₀, hh⟩ | ⟨hsafe, hans⟩
    · obtain ⟨hsafe, run, σ, hans⟩ := h.hellos n c₀ hello hc₀ hh
      exact ⟨fun b hb => hg.safe (hsafe b hb), run, σ, hg.answered hans⟩
    · exact ⟨fun b hb => hg.safe (hsafe b hb), hans⟩
  · rcases requests n t request conf acked hn hstage with hold | ⟨hsafe, hacc⟩
    · obtain ⟨hsafe, hacc⟩ := h.requests n t request conf acked hold hstage
      exact ⟨fun b hb => hg.safe (hsafe b hb), hacc⟩
    · exact ⟨fun b hb => hg.safe (hsafe b hb), hacc⟩
  · rcases acks n c ack hc hack with ⟨c₀, hc₀, ha⟩ | ⟨hsafe, hacc⟩
    · obtain ⟨hsafe, run, σ, hacc⟩ := h.acks n c₀ ack hc₀ ha
      exact ⟨fun b hb => hg.safe (hsafe b hb), run, σ, hg.accepted hacc⟩
    · exact ⟨fun b hb => hg.safe (hsafe b hb), hacc⟩

theorem safe_pubBytes (key : Nat) : ∀ b ∈ pubBytes key, s.Safe compromised b := by
  intro b hb
  obtain ⟨i, rfl⟩ := of_mem_block hb
  exact .pub

theorem safe_pointBytes (x : Eph) : ∀ b ∈ pointBytes x, s.Safe compromised b := by
  intro b hb
  obtain ⟨i, rfl⟩ := of_mem_block hb
  exact .point

theorem safe_sign {key : Nat} {msg : SBytes} (h : s.Signed key msg) :
    ∀ b ∈ sign key msg, s.Safe compromised b := by
  intro b hb
  obtain ⟨i, rfl⟩ := of_mem_block hb
  exact .sig (.inr h)

theorem safe_crypt {key aad clear : SBytes} {k : UInt8} (h : s.Sealed key (nonce k) aad clear) :
    ∀ b ∈ crypt key k aad clear, s.Safe compromised b := by
  intro b hb
  obtain ⟨i, rfl⟩ := of_mem_block hb
  exact .sealed h

theorem safe_append {a b : SBytes} (ha : ∀ x ∈ a, s.Safe compromised x)
    (hb : ∀ x ∈ b, s.Safe compromised x) : ∀ x ∈ a ++ b, s.Safe compromised x := by
  intro x hx
  rcases List.mem_append.mp hx with h | h
  · exact ha x h
  · exact hb x h

/-- An attempt that has just begun has done nothing but send its frame. -/
theorem Secure.join (h : Secure compromised s) {p : Party} {frame : SBytes}
    (htarget : ∀ t, p = .target t → t.stage = .waiting)
    (hclient : ∀ c, p = .client c → c.hello = none ∧ c.ack = none)
    (hframe : ∀ b ∈ frame, State.Safe compromised
      { s with parties := s.parties ++ [p], air := frame :: s.air } b) :
    Secure compromised { s with parties := s.parties ++ [p], air := frame :: s.air } := by
  refine h.grow ⟨?_, ?_, fun _ _ hr => hr⟩ ?_ (fun run hrun => .inl hrun) ?_ ?_ ?_
  · exact fun n t hn => ⟨t, getElem?_append_some hn, rfl, rfl, fun _ _ _ _ => rfl⟩
  · exact fun n c hn => ⟨c, getElem?_append_some hn, rfl, fun _ => id, fun _ => id⟩
  · intro f hf
    rcases List.mem_cons.mp hf with rfl | hf
    · exact .inr hframe
    · exact .inl hf
  · intro n c hello hc hhello
    rcases append_cases hc with ⟨_, hp⟩ | hc
    · simp [(hclient c hp.symm).1] at hhello
    · exact .inl ⟨c, hc, hhello⟩
  · intro n t request conf acked hn hstage
    rcases append_cases hn with ⟨_, hp⟩ | hn
    · simp [htarget t hp.symm] at hstage
    · exact .inl hn
  · intro n c ack hc hack
    rcases append_cases hc with ⟨_, hp⟩ | hc
    · simp [(hclient c hp.symm).2] at hack
    · exact .inl ⟨c, hc, hack⟩

theorem Secure.provision (h : Secure compromised s) {run : Provision}
    (hrun : compromised run.agent → ∀ b ∈ run.conf, IsLit b) :
    Secure compromised { s with runs := s.runs ++ [run] } := by
  refine h.grow ⟨?_, ?_, fun _ _ hr => getElem?_append_some hr⟩ (fun f hf => .inl hf) ?_ ?_ ?_ ?_
  · exact fun n t hn => ⟨t, hn, rfl, rfl, fun _ _ _ _ => rfl⟩
  · exact fun n c hn => ⟨c, hn, rfl, fun _ => id, fun _ => id⟩
  · intro r hr
    rcases List.mem_append.mp hr with hr | hr
    · exact .inl hr
    · exact .inr (List.mem_singleton.mp hr ▸ hrun)
  · exact fun n c hello hc hhello => .inl ⟨c, hc, hhello⟩
  · exact fun n t request conf acked hn _ => .inl hn
  · exact fun n c ack hc hack => .inl ⟨c, hc, hack⟩

/-- A target that was waiting moves on, with a frame or without. -/
theorem Secure.setTarget (h : Secure compromised s) {stage : TargetStage} (air : List SBytes)
    (hn : s.parties[n]? = some (.target t)) (hw : t.stage = .waiting)
    (hair : ∀ frame ∈ air, frame ∈ s.air ∨ ∀ b ∈ frame, State.Safe compromised
      { s with parties := s.parties.set n (.target { t with stage := stage }), air := air } b)
    (hstage : ∀ request conf acked, stage = .installed request conf acked →
      (∀ b ∈ request, s.Safe compromised b) ∧ ∃ σ, t.accept n request = some (σ, conf)) :
    Secure compromised
      { s with parties := s.parties.set n (.target { t with stage := stage }), air := air } := by
  have hlt := (List.getElem?_eq_some_iff.mp hn).1
  refine h.grow ⟨fun m u hu => ?_, fun m c hc => ?_, fun _ _ hr => hr⟩ hair
    (fun run hrun => .inl hrun) ?_ ?_ ?_
  · by_cases hm : n = m
    · subst hm
      cases hn.symm.trans hu
      exact ⟨_, List.getElem?_set_self hlt, rfl, rfl, by simp [hw]⟩
    · exact ⟨u, (List.getElem?_set_ne hm).trans hu, rfl, rfl, fun _ _ _ _ => rfl⟩
  · have hm : n ≠ m := by
      rintro rfl
      cases hn.symm.trans hc
    exact ⟨c, (List.getElem?_set_ne hm).trans hc, rfl, fun _ => id, fun _ => id⟩
  · intro m c hello hc hhello
    rcases set_cases hc with ⟨_, hp⟩ | ⟨_, hc⟩
    · cases hp
    · exact .inl ⟨c, hc, hhello⟩
  · intro m u request conf acked hu hs
    rcases set_cases hu with ⟨rfl, hp⟩ | ⟨_, hu⟩
    · cases hp
      exact .inr (hstage request conf acked hs)
    · exact .inl hu
  · intro m c ack hc hack
    rcases set_cases hc with ⟨_, hp⟩ | ⟨_, hc⟩
    · cases hp
    · exact .inl ⟨c, hc, hack⟩

/-- An attempt of a controller moves on; what it has so far stays. -/
theorem Secure.setClient (h : Secure compromised s) {c c' : Client} (air : List SBytes)
    (hn : s.parties[n]? = some (.client c)) (hrun : c'.run = c.run)
    (hkeep : ∀ hello, c.hello = some hello → c'.hello = some hello)
    (hkeep' : ∀ ack, c.ack = some ack → c'.ack = some ack)
    (hair : ∀ frame ∈ air, frame ∈ s.air ∨ ∀ b ∈ frame, State.Safe compromised
      { s with parties := s.parties.set n (.client c'), air := air } b)
    (hhello : ∀ hello, c'.hello = some hello → c.hello = some hello ∨
      (∀ b ∈ hello, s.Safe compromised b) ∧ ∃ run σ, State.Answered
        { s with parties := s.parties.set n (.client c'), air := air } n run hello σ)
    (hack : ∀ ack, c'.ack = some ack → c.ack = some ack ∨
      (∀ b ∈ ack, s.Safe compromised b) ∧ ∃ run σ, State.Accepted
        { s with parties := s.parties.set n (.client c'), air := air } n run σ) :
    Secure compromised { s with parties := s.parties.set n (.client c'), air := air } := by
  have hlt := (List.getElem?_eq_some_iff.mp hn).1
  refine h.grow ⟨fun m u hu => ?_, fun m d hd => ?_, fun _ _ hr => hr⟩ hair
    (fun run hrun => .inl hrun) ?_ ?_ ?_
  · have hm : n ≠ m := by
      rintro rfl
      cases hn.symm.trans hu
    exact ⟨u, (List.getElem?_set_ne hm).trans hu, rfl, rfl, fun _ _ _ _ => rfl⟩
  · by_cases hm : n = m
    · subst hm
      cases hn.symm.trans hd
      exact ⟨c', List.getElem?_set_self hlt, hrun, hkeep, hkeep'⟩
    · exact ⟨d, (List.getElem?_set_ne hm).trans hd, rfl, fun _ => id, fun _ => id⟩
  · intro m d hello hd hh
    rcases set_cases hd with ⟨rfl, hp⟩ | ⟨_, hd⟩
    · cases hp
      exact (hhello hello hh).imp (fun ho => ⟨c, hn, ho⟩) id
    · exact .inl ⟨d, hd, hh⟩
  · intro m u request conf acked hu hs
    rcases set_cases hu with ⟨_, hp⟩ | ⟨_, hu⟩
    · cases hp
    · exact .inl hu
  · intro m d ack hd ha
    rcases set_cases hd with ⟨rfl, hp⟩ | ⟨_, hd⟩
    · cases hp
      exact (hack ack ha).imp (fun ho => ⟨c, hn, ho⟩) id
    · exact .inl ⟨d, hd, ha⟩

/-- A target gives up, or refuses what it got. -/
theorem Secure.targetOver (h : Secure compromised s) (hn : s.parties[n]? = some (.target t))
    (hw : t.stage = .waiting) :
    Secure compromised (s.set n (.target { t with stage := .ended })) :=
  h.setTarget s.air hn hw (fun _ hf => .inl hf) (by simp)

theorem Secure.clientOver (h : Secure compromised s) {c : Client}
    (hn : s.parties[n]? = some (.client c)) :
    Secure compromised (s.set n (.client { c with ended := true })) :=
  h.setClient s.air hn rfl (fun _ => id) (fun _ => id) (fun _ hf => .inl hf)
    (fun _ hh => .inl hh) (fun _ hh => .inl hh)

theorem Secure.serve (h : Secure compromised s) (hw : t.stage = .waiting) :
    Secure compromised { s with
      parties := s.parties ++ [.target t]
      air := t.hello s.parties.length :: s.air } := by
  refine h.join (fun u hu => by cases hu; exact hw) (by simp) ?_
  refine safe_append (safe_append (safe_pubBytes _) (safe_pointBytes _)) (safe_sign (.inl ?_))
  exact ⟨s.parties.length, t, by simp, rfl, rfl⟩

theorem Secure.onRequest (h : Secure compromised s) (hn : s.parties[n]? = some (.target t))
    (hw : t.stage = .waiting) {frame : SBytes} (hframe : ∀ b ∈ frame, s.Safe compromised b)
    (installs acks : Bool) : Secure compromised (s.onRequest n t frame installs acks) := by
  unfold State.onRequest
  split
  · split
    · exact h.targetOver hn hw
    · rename_i σ conf hacc
      split
      · refine h.setTarget _ hn hw (fun f hf => ?_) ?_
        · cases acks with
          | false => exact .inl hf
          | true =>
            rcases List.mem_cons.mp hf with rfl | hf
            · have hset := List.getElem?_set_self
                (a := Party.target { t with stage := .installed frame conf true })
                (List.getElem?_eq_some_iff.mp hn).1
              exact .inr (safe_crypt (.inr ⟨n, { t with stage := .installed frame conf true },
                conf, σ, ⟨hset, frame, true, rfl, hacc⟩, rfl, rfl, rfl, rfl⟩))
            · exact .inl hf
        · rintro _ _ _ ⟨⟩
          exact ⟨hframe, σ, hacc⟩
      · exact h.targetOver hn hw
  · exact h.targetOver hn hw

theorem Secure.onHello (h : Secure compromised s) {c : Client}
    (hn : s.parties[n]? = some (.client c)) (hrun : s.runs[c.run]? = some run)
    (hnone : c.hello = none) {frame : SBytes} (hframe : ∀ b ∈ frame, s.Safe compromised b) :
    Secure compromised (s.onHello n c run frame) := by
  unfold State.onHello
  split
  · exact h.clientOver hn
  · rename_i σ request hans
    have hanswered : State.Answered { s with
        parties := s.parties.set n (.client { c with hello := some frame })
        air := request :: s.air } n run frame σ :=
      ⟨_, request, List.getElem?_set_self (List.getElem?_eq_some_iff.mp hn).1, hrun, rfl, hans⟩
    refine h.setClient _ hn rfl (by simp [hnone]) (fun _ => id) (fun f hf => ?_) ?_
      (fun _ => .inl)
    · rcases List.mem_cons.mp hf with rfl | hf
      · right
        rw [(Provision.answer_some hans).request]
        refine safe_append (safe_append (safe_append (safe_pubBytes _) (safe_pointBytes _))
          (safe_sign (.inr ?_))) (safe_crypt (.inl ?_))
        · exact ⟨n, run, frame, σ, hanswered, rfl, rfl⟩
        · exact ⟨n, run, frame, σ, hanswered, rfl, rfl, rfl, rfl⟩
      · exact .inl hf
    · rintro _ ⟨⟩
      exact .inr ⟨hframe, run, σ, hanswered⟩

theorem Secure.onAck (h : Secure compromised s) {c : Client}
    (hn : s.parties[n]? = some (.client c)) (hrun : s.runs[c.run]? = some run)
    (hhello : c.hello = some hello) (hnone : c.ack = none) {frame : SBytes}
    (hframe : ∀ b ∈ frame, s.Safe compromised b) :
    Secure compromised (s.onAck n c run hello frame) := by
  unfold State.onAck
  split
  · exact h.clientOver hn
  · rename_i σ request hans
    split
    · rename_i hdec
      have hset := List.getElem?_set_self (List.getElem?_eq_some_iff.mp hn).1
        (a := Party.client { c with ack := some frame, ended := true })
      refine h.setClient s.air hn rfl (fun _ => id) (by simp [hnone])
        (fun _ hf => .inl hf) (fun _ hh => .inl hh) ?_
      rintro _ ⟨⟩
      exact .inr ⟨hframe, run, σ, _, frame, hello, hset, rfl,
        ⟨_, request, hset, hrun, hhello, hans⟩, hdec⟩
    · exact h.clientOver hn

/-- Step lemma. -/
theorem Secure.step {e : Event} (hok : Derivable compromised s e) (hstep : step s e = some s')
    (h : Secure compromised s) : Secure compromised s' := by
  cases e with
  | serve agent controller start =>
    simp only [Ble.step] at hstep
    split at hstep
    · cases hstep
      exact h.serve rfl
    · cases hstep
  | request n frame installs acks =>
    simp only [Ble.step] at hstep
    split at hstep
    · rename_i hn
      cases hstep
      exact h.onRequest hn rfl (fun b hb => h.knows (hok b hb)) installs acks
    · cases hstep
  | provision controller agent conf =>
    cases hstep
    exact h.provision hok
  | connect run =>
    simp only [Ble.step] at hstep
    split at hstep
    · cases hstep
      refine h.join (by simp) (fun c hc => by cases hc; exact ⟨rfl, rfl⟩) fun b hb => ?_
      cases List.mem_singleton.mp hb
      exact .lit
    · cases hstep
  | hello n frame =>
    simp only [Ble.step] at hstep
    split at hstep
    · rename_i hn
      obtain ⟨run, hrun, rfl⟩ := Option.map_eq_some_iff.mp hstep
      exact h.onHello hn hrun rfl fun b hb => h.knows (hok b hb)
    · cases hstep
  | ack n frame =>
    simp only [Ble.step] at hstep
    split at hstep
    · rename_i hn
      obtain ⟨run, hrun, rfl⟩ := Option.map_eq_some_iff.mp hstep
      exact h.onAck hn hrun rfl rfl fun b hb => h.knows (hok b hb)
    · cases hstep
  | timeout n =>
    simp only [Ble.step] at hstep
    split at hstep
    · rename_i hn
      cases hstep
      exact h.targetOver hn rfl
    · rename_i hn
      cases hstep
      exact h.clientOver hn
    · cases hstep

theorem Secure.start : Secure compromised State.start :=
  ⟨by simp [State.start], by simp [State.start], by simp [State.start], by simp [State.start],
    by simp [State.start]⟩

end

/-! ## Without interference -/

/-- Every frame delivered is one that was sent. -/
def Relayed (s : State) : Event → Prop
  | .serve _ _ start => [start] ∈ s.air
  | .request _ frame _ _ => frame ∈ s.air
  | .hello _ frame => frame ∈ s.air
  | .ack _ frame => frame ∈ s.air
  | .provision _ _ _ => True
  | .connect _ => True
  | .timeout _ => True

/-- A run of `provision` that meets its target at the first attempt. -/
def exchange (s : State) (run : Provision) : List Event :=
  let n := s.parties.length
  let σ := run.session (n + 1) n
  [.provision run.controller run.agent run.conf,
    .connect s.runs.length,
    .serve run.agent run.controller startMarker,
    .hello n (serverHello run.agent run.controller (pointBytes (.party (n + 1)))),
    .request (n + 1) (run.request (n + 1) n) true true,
    .ack n (crypt σ.key 1 σ.transcript okText)]

section
variable {s : State} {n r : Nat} {run : Provision} {hello request frame conf : SBytes} {σ : Session}

theorem step_serve (agent controller : Nat) :
    step s (.serve agent controller startMarker) =
      some ⟨s.parties ++ [.target ⟨agent, controller, .waiting⟩], s.runs,
        serverHello agent controller (pointBytes (.party s.parties.length)) :: s.air⟩ := rfl

theorem step_connect (hr : r < s.runs.length) :
    step s (.connect r) = some ⟨s.parties ++ [.client ⟨r, none, none, false⟩], s.runs,
      [startMarker] :: s.air⟩ := if_pos hr

theorem step_hello (hn : s.parties[n]? = some (.client ⟨r, none, none, false⟩))
    (hr : s.runs[r]? = some run) (h : run.answer n frame = some (σ, request)) :
    step s (.hello n frame) = some ⟨s.parties.set n (.client ⟨r, some frame, none, false⟩), s.runs,
      request :: s.air⟩ := by
  simp [step, State.onHello, hn, hr, h]

theorem step_request {agent controller : Nat}
    (hn : s.parties[n]? = some (.target ⟨agent, controller, .waiting⟩))
    (hlen : frame.length ≤ maxFrame)
    (h : Target.accept ⟨agent, controller, .waiting⟩ n frame = some (σ, conf)) :
    step s (.request n frame true true) =
      some ⟨s.parties.set n (.target ⟨agent, controller, .installed frame conf true⟩), s.runs,
        crypt σ.key 1 σ.transcript okText :: s.air⟩ := by
  simp [step, State.onRequest, hn, hlen, h]

theorem step_ack (hn : s.parties[n]? = some (.client ⟨r, some hello, none, false⟩))
    (hr : s.runs[r]? = some run) (h : run.answer n hello = some (σ, request)) :
    step s (.ack n (crypt σ.key 1 σ.transcript okText)) =
      some ⟨s.parties.set n (.client ⟨r, some hello,
        some (crypt σ.key 1 σ.transcript okText), true⟩), s.runs, s.air⟩ := by
  have hok : decryptAs σ.key 1 σ.transcript (crypt σ.key 1 σ.transcript okText) = some okText :=
    decrypt_encrypt _ _ _ _
  simp [step, State.onAck, State.set, hn, hr, h, hok]

theorem set_fst (ps : List Party) (p q p' : Party) :
    (ps ++ [p, q]).set ps.length p' = ps ++ [p', q] := by simp

theorem set_snd (ps : List Party) (p q q' : Party) :
    (ps ++ [p, q]).set (ps.length + 1) q' = ps ++ [p, q'] := by simp

/-- Frames that get through as they were sent make the two sides agree on a
session, install the text and acknowledge it. -/
theorem exchange_steps (s : State) (run : Provision) (hne : run.conf ≠ [])
    (hfit : run.conf.length + 144 ≤ maxFrame) :
    ∃ s' t, Steps step Relayed s (exchange s run) s' ∧
      s'.Installed (s.parties.length + 1) t run.conf
        (run.session (s.parties.length + 1) s.parties.length) ∧
      t.agent = run.agent ∧ t.controller = run.controller ∧
      s'.Accepted s.parties.length run
        (run.session (s.parties.length + 1) s.parties.length) := by
  obtain ⟨ps, rs, air⟩ := s
  have hanswer := run.answer_hello (ps.length + 1) ps.length hfit
  have haccept := run.accept_request (ps.length + 1) ps.length hne
  have hlen := (length_request run (ps.length + 1) ps.length).trans_le hfit
  simp only [exchange]
  generalize run.session (ps.length + 1) ps.length = σ at *
  generalize run.request (ps.length + 1) ps.length = request at *
  generalize hh : serverHello run.agent run.controller (pointBytes (.party (ps.length + 1))) =
    hello at *
  have hrun : (rs ++ [run])[rs.length]? = some run := by simp
  let client (hello ack : Option SBytes) (done : Bool) : Party :=
    .client ⟨rs.length, hello, ack, done⟩
  let target (stage : TargetStage) : Party := .target ⟨run.agent, run.controller, stage⟩
  let ack := crypt σ.key 1 σ.transcript okText
  have h₁ : step ⟨ps, rs, air⟩ (.provision run.controller run.agent run.conf) =
      some ⟨ps, rs ++ [run], air⟩ := rfl
  have h₂ : step ⟨ps, rs ++ [run], air⟩ (.connect rs.length) =
      some ⟨ps ++ [client none none false], rs ++ [run], [startMarker] :: air⟩ :=
    step_connect (by simp)
  have h₃ : step ⟨ps ++ [client none none false], rs ++ [run], [startMarker] :: air⟩
      (.serve run.agent run.controller startMarker) =
      some ⟨ps ++ [client none none false, target .waiting], rs ++ [run],
        hello :: [startMarker] :: air⟩ := by
    rw [step_serve]
    simp [target, ← hh]
  have h₄ : step ⟨ps ++ [client none none false, target .waiting], rs ++ [run],
        hello :: [startMarker] :: air⟩ (.hello ps.length hello) =
      some ⟨ps ++ [client (some hello) none false, target .waiting], rs ++ [run],
        request :: hello :: [startMarker] :: air⟩ := by
    rw [step_hello (by simp [client]) hrun hanswer, set_fst]
  have h₅ : step ⟨ps ++ [client (some hello) none false, target .waiting], rs ++ [run],
        request :: hello :: [startMarker] :: air⟩ (.request (ps.length + 1) request true true) =
      some ⟨ps ++ [client (some hello) none false, target (.installed request run.conf true)],
        rs ++ [run], ack :: request :: hello :: [startMarker] :: air⟩ := by
    rw [step_request (by simp [target]) hlen haccept, set_snd]
  have h₆ : step ⟨ps ++ [client (some hello) none false,
        target (.installed request run.conf true)], rs ++ [run],
        ack :: request :: hello :: [startMarker] :: air⟩ (.ack ps.length ack) =
      some ⟨ps ++ [client (some hello) (some ack) true,
        target (.installed request run.conf true)], rs ++ [run],
        ack :: request :: hello :: [startMarker] :: air⟩ := by
    rw [step_ack (by simp [client]) hrun hanswer, set_fst]
  refine ⟨_, ⟨run.agent, run.controller, .installed request run.conf true⟩,
    .cons trivial h₁ <| .cons trivial h₂ <| .cons ?_ h₃ <| .cons ?_ h₄ <| .cons ?_ h₅ <|
      .cons ?_ h₆ .nil, ⟨by simp [target], request, true, rfl, haccept⟩, rfl, rfl, ?_⟩
  · exact List.mem_cons_self
  · exact List.mem_cons_self
  · exact List.mem_cons_self
  · exact List.mem_cons_self
  · have hc : (ps ++ [client (some hello) (some ack) true,
        target (.installed request run.conf true)])[ps.length]? =
        some (.client ⟨rs.length, some hello, some ack, true⟩) := by simp [client]
    exact ⟨_, ack, hello, hc, rfl, ⟨_, request, hc, hrun, rfl, hanswer⟩, decrypt_encrypt _ _ _ _⟩

end

/-- Relaying frames is something an adversary can do. -/
theorem Relayed.derivable {compromised : Nat → Prop} {s : State} {e : Event} (h : Relayed s e)
    (hconf : ∀ controller agent conf, e = .provision controller agent conf →
      compromised agent → ∀ b ∈ conf, IsLit b) : Derivable compromised s e := by
  have known {frame : SBytes} (hf : frame ∈ s.air) : ∀ b ∈ frame, Knows compromised s.seen b :=
    fun b hb => .seen ⟨frame, hf, hb⟩
  cases e with
  | serve agent controller start => exact known h start (List.mem_singleton.mpr rfl)
  | request n frame installs acks => exact known h
  | hello n frame => exact known h
  | ack n frame => exact known h
  | provision controller agent conf => exact hconf controller agent conf rfl
  | connect run => exact trivial
  | timeout n => exact trivial

/-- In any run against an adversary that delivers whatever it can work out:
what a target installs was sent to it in the same session by an attempt of
its controller, one attempt for one install; a controller told of success is
told by a target that installed its text; nothing secret gets out; and a run
whose frames are relayed succeeds. -/
theorem credentials_agree {compromised : Nat → Prop} {es : List Event} {s : State}
    (h : Steps step (Derivable compromised) State.start es s) :
    (∀ (n : Nat) (t : Target) (request conf : SBytes) (acked : Bool),
      s.parties[n]? = some (.target t) → t.stage = .installed request conf acked →
      ¬ compromised t.controller →
      ∃ σ, s.Installed n t conf σ ∧ ∃ m run hello, s.Answered m run hello σ ∧
        run.controller = t.controller ∧ run.agent = t.agent ∧ run.conf = conf) ∧
    (∀ (m : Nat) (run : Provision) (hello : SBytes) (σ : Session), s.Answered m run hello σ →
      ∀ n t conf n' t' conf', s.Installed n t conf σ → s.Installed n' t' conf' σ → n = n') ∧
    (∀ (n : Nat) (c : Client) (ack : SBytes),
      s.parties[n]? = some (.client c) → c.ack = some ack →
      ∃ run, s.runs[c.run]? = some run ∧ (¬ compromised run.agent →
        ∃ m t σ, s.Installed m t run.conf σ ∧ t.agent = run.agent ∧
          t.controller = run.controller)) ∧
    (∀ text i, ¬ Knows compromised s.seen (.secret text i)) ∧
    (∀ run : Provision, run.conf ≠ [] → run.conf.length + 144 ≤ maxFrame →
      ∃ s' n m t σ, Steps step Relayed s (exchange s run) s' ∧
        s'.Installed n t run.conf σ ∧ t.agent = run.agent ∧ t.controller = run.controller ∧
        s'.Accepted m run σ) := by
  have hs : Secure compromised s :=
    h.invariant (fun _ _ _ hok hstep hi => hi.step hok hstep) .start
  refine ⟨fun n t request conf acked hn hstage hc => ?_, ?_, fun n c ack hn hack => ?_,
    fun text i hk => (hs.knows hk).not_secret, fun run hne hfit => ?_⟩
  · obtain ⟨-, σ, hacc⟩ := hs.requests n t request conf acked hn hstage
    have hi : s.Installed n t conf σ := ⟨hn, request, acked, hstage, hacc⟩
    exact ⟨σ, hi, hs.installed_from hi hc⟩
  · intro m run hello σ _ n t conf n' t' conf' hi hi'
    exact target_of_transcript hi hi' rfl
  · obtain ⟨-, run, σ, ha⟩ := hs.acks n c ack hn hack
    obtain ⟨c', _, hello, hn', _, ⟨c'', _, hn'', hrun, _⟩, _⟩ := id ha
    cases hn.symm.trans hn'
    cases hn.symm.trans hn''
    refine ⟨run, hrun, fun hagent => ?_⟩
    obtain ⟨m, t, hi, hagent, hcontroller⟩ := hs.accepted_installed ha hagent
    exact ⟨m, t, σ, hi, hagent, hcontroller⟩
  · obtain ⟨s', t, hsteps, hi, hagent, hcontroller, ha⟩ := exchange_steps s run hne hfit
    exact ⟨s', _, _, t, _, hsteps, hi, hagent, hcontroller, ha⟩

/-- A controller provisions its target over a relayed exchange, with no key
compromised: the text is installed, and stays secret. -/
theorem credentials_agree_relayed :
    ∃ s n t σ, Steps step (Derivable fun _ => False) State.start
        (exchange State.start ⟨1, 2, [.secret 0 0]⟩) s ∧
      s.Installed n t [.secret 0 0] σ ∧ ¬ Knows (fun _ => False) s.seen (.secret 0 0) := by
  obtain ⟨s, t, hsteps, hi, _⟩ := exchange_steps State.start ⟨1, 2, [.secret 0 0]⟩
    (by simp) (by decide)
  have h : Steps step (Derivable fun _ => False) State.start
      (exchange State.start ⟨1, 2, [.secret 0 0]⟩) s :=
    hsteps.mono fun s e he => he.derivable fun _ _ _ _ hf => hf.elim
  exact ⟨s, _, t, _, h, hi, (credentials_agree h).2.2.2.1 0 0⟩

end Egdod.Ble
