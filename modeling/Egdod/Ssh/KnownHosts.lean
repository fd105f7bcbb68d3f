import Egdod.Lib.Files
import Egdod.Lib.Lines
import Egdod.Lib.Run
import Egdod.Ssh.Merge

/-! `known_hosts`. A recipe run writes the host key its target handed back, under
the local port of its forward, and starts an ssh that accepts no other key. All
runs of a state directory share the file, and each truncates it and writes at
its start, so an entry can be lost and the end of a longer one can stay behind
a shorter one. -/
namespace Egdod.Ssh.KnownHosts

open Text Posix Lines StepSystem

/-! ## The entry -/

/-- The two fields of a host key that are kept. -/
structure HostKey where
  kind : Str
  blob : Str
  plain : ∀ f ∈ [kind, blob], f ≠ [] ∧ ∀ c ∈ f, isWhitespace c = false

theorem plain_of_splitWhitespace {s kind blob : Str} {rest : List Str}
    (h : splitWhitespace s = kind :: blob :: rest) :
    ∀ f ∈ [kind, blob], f ≠ [] ∧ ∀ c ∈ f, isWhitespace c = false := by
  intro f hf
  have hmem : f ∈ splitWhitespace s := by
    rw [h]
    simp only [List.mem_cons, List.not_mem_nil, or_false] at hf ⊢
    rcases hf with rfl | rfl <;> simp
  exact plain_of_mem_words hmem

/-- `read_host_key` of a file that was pulled. `lossy` is `String::from_utf8_lossy`. -/
def readHostKey (lossy : Bytes → Str) (file : Bytes) : Option HostKey :=
  match h : splitWhitespace (lossy ((splitInclusive 10 file).headD [])) with
  | kind :: blob :: _ => some ⟨kind, blob, plain_of_splitWhitespace h⟩
  | _ => none

/-- What ssh looks a port of the loopback address up as. -/
def hostField (port : Nat) : Str :=
  if port = 22 then "127.0.0.1".toList
  else "[127.0.0.1]:".toList ++ Nat.toDigits 10 port

def entry (port : Nat) (key : HostKey) : Bytes :=
  encode (hostField port ++ " ".toList ++ (key.kind ++ " ".toList ++ key.blob) ++ "\n".toList)

/-! ## The runs -/

inductive Phase where
  | fetched
  | bound (port : Nat)
  /-- The file is open and truncated, with so much of the entry written. -/
  | writing (port off : Nat)
  /-- The entry is written and ssh runs. -/
  | connecting (port : Nat)
  | done
  deriving DecidableEq

/-- The port a run's forward holds. -/
def Phase.port : Phase → Option Nat
  | .bound port | .writing port _ | .connecting port => some port
  | _ => none

/-- The port of a run that has truncated the file. -/
def Phase.awaits : Phase → Option Nat
  | .writing port _ | .connecting port => some port
  | _ => none

structure Run where
  key : HostKey
  phase : Phase

structure State where
  file : Bytes
  runs : List Run

inductive Action where
  /-- A run has the host key its target handed back. -/
  | fetch (pulled : Bytes)
  | bind (r port : Nat)
  | create (r : Nat)
  /-- One `write(2)` that takes `k` bytes. -/
  | write (r k : Nat)
  /-- A run ends: ssh exits, or something failed. -/
  | finish (r : Nat)

def State.enter (s : State) (r : Nat) (run : Run) (phase : Phase) : State :=
  { s with runs := s.runs.set r { run with phase := phase } }

/-- What is still to be written. -/
def unwritten (run : Run) (port off : Nat) : Bytes := (entry port run.key).drop off

/-- `write_all` goes on until all is written. -/
def Run.wrote (run : Run) (port off k : Nat) : Phase :=
  if k = (unwritten run port off).length then .connecting port else .writing port (off + k)

def step (lossy : Bytes → Str) (s : State) : Action → Option State
  | .fetch pulled =>
    (readHostKey lossy pulled).map fun key => { s with runs := s.runs ++ [⟨key, .fetched⟩] }
  | .bind r port =>
    (s.runs[r]?).bind fun run =>
      -- a port has one listener
      if run.phase = .fetched ∧ s.runs.all (fun other => other.phase.port ≠ some port) then
        some (s.enter r run (.bound port))
      else none
  | .create r =>
    (s.runs[r]?).bind fun run =>
      match run.phase with
      | .bound port => some { s.enter r run (.writing port 0) with file := [] }
      | _ => none
  | .write r k =>
    (s.runs[r]?).bind fun run =>
      match run.phase with
      | .writing port off =>
        if 0 < k ∧ k ≤ (unwritten run port off).length then
          some { s.enter r run (run.wrote port off k) with
            file := Files.spliceAt s.file off ((unwritten run port off).take k) }
        else none
      | _ => none
  | .finish r => (s.runs[r]?).map fun run => s.enter r run .done

/-- A `write(2)` takes all it is given. -/
def Whole (s : State) : Action → Prop
  | .write r k => ∀ run port off, s.runs[r]? = some run → run.phase = .writing port off →
      k = (unwritten run port off).length
  | _ => True

/-! ## What ssh reads -/

def isBlank (b : UInt8) : Bool := b = 32 || b = 9 || b = 10

def isDigit (b : UInt8) : Bool := 48 ≤ b && b ≤ 57

/-- Digits, and the dots, colons and brackets of an address. -/
def isLiteral (b : UInt8) : Bool := isDigit b || b = 46 || b = 58 || b = 91 || b = 93

/-- How ssh looks a host up in the field of a line, which may be a list of patterns, or a digest.
All that matters here is that a field without any but the characters of an address is that
address. -/
structure HostFields where
  lists : Bytes → Bytes → Bool
  literal : ∀ field host, (∀ b ∈ field, isLiteral b = true) → lists field host = true →
    field = host

/-- A line gives a host a key, its own or, after a marker, that of an authority. -/
def Trusts (fields : HostFields) (file host kind blob : Bytes) : Prop :=
  ∃ line ∈ splitInclusive 10 file, ∃ marker hosts rest,
    (marker = [] ∨ ∃ word, marker = [word] ∧ word.head? = some 64) ∧
    words isBlank line = marker ++ hosts :: kind :: blob :: rest ∧ fields.lists hosts host = true

/-! ## Lines of the file -/

/-- An entry without its newline. -/
def body (port : Nat) (key : HostKey) : Bytes :=
  encode (hostField port) ++ 32 :: (encode key.kind ++ 32 :: encode key.blob)

theorem entry_eq (port : Nat) (key : HostKey) : entry port key = body port key ++ [10] := by
  have hspace : encode " ".toList = [32] := by decide
  have hnewline : encode "\n".toList = [10] := by decide
  simp only [entry, body, encode_append, hspace, hnewline, List.append_assoc, List.cons_append,
    List.nil_append]

theorem not_blank_of_plain {b : UInt8} (h : isAsciiWhitespace b = false) : isBlank b = false := by
  simp only [isAsciiWhitespace, Bool.or_eq_false_iff, decide_eq_false_iff_not] at h
  simp [isBlank, h]

theorem HostKey.not_blank (key : HostKey) {f : Str} (hf : f ∈ [key.kind, key.blob]) :
    encode f ≠ [] ∧ ∀ b ∈ encode f, isBlank b = false := by
  obtain ⟨hne, hplain⟩ := key.plain f hf
  exact ⟨encode_ne_nil hne, fun b hb => not_blank_of_plain (encode_plain hplain b hb)⟩

theorem hostField_visible (port : Nat) : Visible (hostField port) := by
  have haddr : Visible "127.0.0.1".toList := by decide
  have hbracket : Visible "[127.0.0.1]:".toList := by decide
  unfold hostField
  split_ifs
  · exact haddr
  · exact hbracket.append (visible_toDigits port)

theorem not_blank_of_visible {s : Str} (h : Visible s) : ∀ b ∈ encode s, isBlank b = false := by
  intro b hb
  apply not_blank_of_plain
  refine encode_plain (fun c hc => ?_) b hb
  obtain ⟨hlow, hhigh⟩ := h c hc
  simp only [isWhitespace, Bool.or_eq_false_iff, Bool.and_eq_false_iff, decide_eq_false_iff_not,
    beq_eq_false_iff_ne]
  omega

theorem words_body (port : Nat) (key : HostKey) :
    words isBlank (body port key) =
      [encode (hostField port), encode key.kind, encode key.blob] := by
  obtain ⟨hkind, hkind'⟩ := key.not_blank (f := key.kind) (by simp)
  obtain ⟨hblob, hblob'⟩ := key.not_blank (f := key.blob) (by simp)
  have hhost : encode (hostField port) ≠ [] := by
    apply encode_ne_nil
    unfold hostField
    split_ifs <;> simp
  rw [body, words_append_cons (by decide), words_append_cons (by decide),
    words_plain (not_blank_of_visible (hostField_visible port)) hhost, words_plain hkind' hkind,
    words_plain hblob' hblob]
  rfl

theorem hostField_injective {p q : Nat} (h : hostField p = hostField q) : p = q := by
  unfold hostField at h
  split_ifs at h with hp hq hq
  · rw [hp, hq]
  · simp at h
  · simp at h
  · have hdigits := List.append_cancel_left h
    rw [← Nat.ofDigitChars_toDigits (b := 10) (n := p) (by decide) (by decide), hdigits,
      Nat.ofDigitChars_toDigits (by decide) (by decide)]

/-! ## Rests of entries -/

/-- What stays behind a shorter entry: no more of the host than digits of the port. -/
def Fragment (f : Bytes) : Prop := ∃ port key n, 12 < n ∧ f = (body port key).drop n

theorem Fragment.suffix {f g : Bytes} (h : Fragment f) (hg : g <:+ f) : Fragment g := by
  obtain ⟨port, key, n, hn, rfl⟩ := h
  obtain ⟨before, hbefore⟩ := hg
  refine ⟨port, key, n + before.length, by omega, ?_⟩
  rw [← List.drop_drop, ← hbefore, List.drop_left]

theorem digit_of_mem_encode {s : Str} (h : ∀ c ∈ s, c.isDigit = true) :
    ∀ b ∈ encode s, isDigit b = true := by
  induction s with
  | nil => simp [encode]
  | cons c s ih =>
    obtain ⟨hc, hs⟩ := List.forall_mem_cons.mp h
    simp only [Char.isDigit, Bool.and_eq_true, decide_eq_true_eq, UInt32.le_iff_toNat_le] at hc
    have hlow : 48 ≤ c.toNat := hc.1
    have hhigh : c.toNat ≤ 57 := hc.2
    rw [encode_cons_ascii (by omega), List.forall_mem_cons]
    refine ⟨?_, ih hs⟩
    have hnat := toNat_toUInt8 (c := c) (by omega)
    simp only [isDigit, Bool.and_eq_true, decide_eq_true_eq, UInt8.le_iff_toNat_le, hnat]
    exact ⟨hlow, hhigh⟩

theorem not_blank_of_digit {b : UInt8} (h : isDigit b = true) : isBlank b = false := by
  by_contra hblank
  simp only [isBlank, Bool.not_eq_false, Bool.or_eq_true, decide_eq_true_eq] at hblank
  rcases hblank with (rfl | rfl) | rfl <;> exact absurd h (by decide)

/-- The digits of the host that are left. -/
theorem digits_of_drop {port n : Nat} (hn : 12 < n) :
    ∀ b ∈ (encode (hostField port)).drop n, isDigit b = true := by
  intro b hb
  unfold hostField at hb
  split_ifs at hb with hport
  · rw [List.drop_eq_nil_of_le] at hb
    · cases hb
    · have hlength : (encode "127.0.0.1".toList).length = 9 := by decide
      omega
  · have hlength : (encode "[127.0.0.1]:".toList).length = 12 := by decide
    rw [encode_append, List.drop_append, List.drop_eq_nil_of_le (by omega), List.nil_append] at hb
    have hdigits : ∀ c ∈ Nat.toDigits 10 port, c.isDigit = true := fun c hc =>
      Nat.isDigit_of_mem_toDigits (by decide) (by decide) hc
    exact digit_of_mem_encode hdigits b (List.mem_of_mem_drop hb)

theorem countP_key (key : HostKey) :
    (encode key.kind ++ 32 :: encode key.blob).countP isBlank = 1 := by
  have hkind := (key.not_blank (f := key.kind) (by simp)).2
  have hblob := (key.not_blank (f := key.blob) (by simp)).2
  rw [List.countP_append, List.countP_cons_of_pos (by decide),
    List.countP_eq_zero.mpr fun b hb => by simp [hkind b hb],
    List.countP_eq_zero.mpr fun b hb => by simp [hblob b hb]]

/-- A rest with three words starts with a number. -/
theorem Fragment.digits {f w₁ w₂ w₃ : Bytes} {rest : List Bytes} (h : Fragment f)
    (hw : words isBlank f = w₁ :: w₂ :: w₃ :: rest) : ∀ b ∈ w₁, isDigit b = true := by
  obtain ⟨port, key, n, hn, rfl⟩ := h
  have hcount := countP_key key
  by_cases hle : n ≤ (encode (hostField port)).length
  · -- the rest begins in the host, whose last characters are digits
    have hdigits : ∀ b ∈ (encode (hostField port)).drop n, isDigit b = true :=
      digits_of_drop hn
    rw [body, List.drop_append_of_le_length hle, words_append_cons (by decide)] at hw
    by_cases hnil : (encode (hostField port)).drop n = []
    · have hlength := length_words_le isBlank (encode key.kind ++ 32 :: encode key.blob)
      rw [hnil, words_nil, List.nil_append] at hw
      rw [hw, hcount] at hlength
      simp at hlength
    · rw [words_plain (fun b hb => not_blank_of_digit (hdigits b hb)) hnil] at hw
      obtain ⟨rfl, -⟩ := List.cons_eq_cons.mp hw
      exact hdigits
  · -- behind the host there is one space left, and so two words at most
    have hbody : (body port key).drop n = (encode key.kind ++ 32 :: encode key.blob).drop
        (n - (encode (hostField port)).length - 1) := by
      rw [body, List.drop_append, List.drop_eq_nil_of_le (by omega), List.nil_append]
      obtain ⟨m, hm⟩ : ∃ m, n - (encode (hostField port)).length = m + 1 :=
        ⟨n - (encode (hostField port)).length - 1, by omega⟩
      rw [hm]
      rfl
    have hlength := length_words_le isBlank ((body port key).drop n)
    have hsub := ((encode key.kind ++ 32 :: encode key.blob).drop_sublist
      (n - (encode (hostField port)).length - 1)).countP_le (p := isBlank)
    rw [hw] at hlength
    rw [← hbody, hcount] at hsub
    simp only [List.length_cons] at hlength
    omega

/-- The host of a run is not a number. -/
theorem hostField_not_digits (port : Nat) :
    ¬ ∀ b ∈ encode (hostField port), isDigit b = true := by
  intro h
  have hdot : '.' ∈ hostField port := by
    unfold hostField
    split_ifs <;> simp
  have hbyte := h _ ((mem_encode_ascii (by decide)).mpr hdot)
  revert hbyte
  decide

theorem isLiteral_of_isDigit {b : UInt8} (h : isDigit b = true) : isLiteral b = true := by
  simp [isLiteral, h]

/-- It is an address. -/
theorem hostField_literal (port : Nat) : ∀ b ∈ encode (hostField port), isLiteral b = true := by
  intro b hb
  have haddr : ∀ b ∈ encode "127.0.0.1".toList, isLiteral b = true :=
    List.all_eq_true.mp (by decide +kernel)
  have hbracket : ∀ b ∈ encode "[127.0.0.1]:".toList, isLiteral b = true :=
    List.all_eq_true.mp (by decide +kernel)
  unfold hostField at hb
  split_ifs at hb
  · exact haddr b hb
  · rw [encode_append] at hb
    rcases List.mem_append.mp hb with hb | hb
    · exact hbracket b hb
    · have hdigits : ∀ c ∈ Nat.toDigits 10 port, c.isDigit = true := fun c hc =>
        Nat.isDigit_of_mem_toDigits (by decide) (by decide) hc
      exact isLiteral_of_isDigit (digit_of_mem_encode hdigits b hb)

theorem newline_not_mem_body (port : Nat) (key : HostKey) : 10 ∉ body port key := by
  intro h
  simp only [body, List.mem_append, List.mem_cons] at h
  rcases h with h | h | h | h | h
  · exact absurd (not_blank_of_visible (hostField_visible port) _ h) (by decide)
  · cases h
  · exact absurd ((key.not_blank (f := key.kind) (by simp)).2 _ h) (by decide)
  · cases h
  · exact absurd ((key.not_blank (f := key.blob) (by simp)).2 _ h) (by decide)

theorem Fragment.newline_not_mem {f : Bytes} (h : Fragment f) : 10 ∉ f := by
  obtain ⟨port, key, n, -, rfl⟩ := h
  exact fun hmem => newline_not_mem_body port key (List.mem_of_mem_drop hmem)

/-! ## The file over a run -/

/-- The file is the entry written last and rests of earlier ones, and an entry for the port of
a run that has truncated the file is that run's own. -/
def Kept (runs : List Run) (file : Bytes) : Prop :=
  file = [] ∨ ∃ port key rests, file = (body port key :: rests).flatMap (· ++ [10]) ∧
    (∀ f ∈ rests, Fragment f) ∧ ∀ run ∈ runs, run.phase.awaits = some port → run.key = key

theorem Kept.mono {runs runs' : List Run} {file : Bytes} (h : Kept runs file)
    (hruns : ∀ run' ∈ runs', ∀ port, run'.phase.awaits = some port →
      ∃ run ∈ runs, run.key = run'.key ∧ run.phase.awaits = some port) : Kept runs' file := by
  rcases h with hnil | ⟨port, key, rests, hfile, hrests, howns⟩
  · exact .inl hnil
  · refine .inr ⟨port, key, rests, hfile, hrests, fun run' hmem hport => ?_⟩
    obtain ⟨run, hrun, hkey, hawaits⟩ := hruns run' hmem port hport
    exact hkey ▸ howns run hrun hawaits

/-- An entry is longer than the address of a host. -/
theorem length_entry (port : Nat) (key : HostKey) : 12 < (entry port key).length := by
  have hkind := List.length_pos_of_ne_nil (key.not_blank (f := key.kind) (by simp)).1
  have hblob := List.length_pos_of_ne_nil (key.not_blank (f := key.blob) (by simp)).1
  have hhost : 9 ≤ (encode (hostField port)).length := by
    rw [(hostField_visible port).length_encode]
    unfold hostField
    split_ifs <;> simp
  simp only [entry_eq, body, List.length_append, List.length_cons]
  omega

/-- A whole entry written over the start of the file leaves rests behind it. -/
theorem Kept.overwrite {runs runs' : List Run} {file : Bytes} (h : Kept runs file) {port : Nat}
    {key : HostKey} (howns : ∀ run ∈ runs', run.phase.awaits = some port → run.key = key) :
    Kept runs' (Files.spliceAt file 0 (entry port key)) := by
  have hlong := length_entry port key
  have hsplice : Files.spliceAt file 0 (entry port key) =
      entry port key ++ file.drop (entry port key).length := by
    simp [Files.spliceAt]
  rw [hsplice]
  generalize (entry port key).length = n at hlong
  rcases h with rfl | ⟨port', key', rests, rfl, hrests, -⟩
  · exact .inr ⟨port, key, [], by simp [entry_eq], by simp, howns⟩
  by_cases hle : n ≤ (body port' key').length
  · refine .inr ⟨port, key, (body port' key').drop n :: rests, ?_, ?_, howns⟩
    · simp only [List.flatMap_cons, entry_eq, List.append_assoc,
        List.drop_append_of_le_length hle]
    · exact List.forall_mem_cons.mpr ⟨⟨port', key', n, hlong, rfl⟩, hrests⟩
  · obtain ⟨rest, hdrop, hrest⟩ := exists_drop_lines (10 : UInt8) rests
      (n - (body port' key' ++ [10]).length)
    refine .inr ⟨port, key, rest, ?_, ?_, howns⟩
    · rw [List.flatMap_cons, List.drop_append, List.drop_eq_nil_of_le
        (by rw [List.length_append, List.length_singleton]; omega), List.nil_append, hdrop,
        List.flatMap_cons, entry_eq]
    · intro f hf
      obtain ⟨l, hl, hsuffix⟩ := hrest f hf
      exact (hrests l hl).suffix hsuffix

/-- No two runs hold a port. -/
def Exclusive (runs : List Run) : Prop :=
  ∀ (i j : Nat) (a b : Run) (port : Nat), runs[i]? = some a → runs[j]? = some b →
    a.phase.port = some port → b.phase.port = some port → i = j

theorem Exclusive.set {runs : List Run} (h : Exclusive runs) {r : Nat} {run : Run}
    (hr : runs[r]? = some run) {phase : Phase}
    (hport : ∀ port, phase.port = some port →
      run.phase.port = some port ∨ ∀ other ∈ runs, other.phase.port ≠ some port) :
    Exclusive (runs.set r { run with phase := phase }) := by
  have hlt : r < runs.length := (List.getElem?_eq_some_iff.mp hr).1
  -- what is at an index after the change held the port before it, or nobody did
  have hback : ∀ i a, (runs.set r { run with phase := phase })[i]? = some a →
      ∀ port, a.phase.port = some port →
        (∃ a', runs[i]? = some a' ∧ a'.phase.port = some port) ∨
          (i = r ∧ ∀ other ∈ runs, other.phase.port ≠ some port) := by
    intro i a ha port hp
    by_cases hi : i = r
    · subst hi
      rw [List.getElem?_set_self hlt] at ha
      cases ha
      rcases hport port hp with hold | hfree
      · exact .inl ⟨run, hr, hold⟩
      · exact .inr ⟨rfl, hfree⟩
    · rw [List.getElem?_set_ne (Ne.symm hi)] at ha
      exact .inl ⟨a, ha, hp⟩
  intro i j a b port ha hb hpa hpb
  rcases hback i a ha port hpa with ⟨a', ha', hpa'⟩ | ⟨rfl, hfree⟩
  · rcases hback j b hb port hpb with ⟨b', hb', hpb'⟩ | ⟨-, hfree⟩
    · exact h i j a' b' port ha' hb' hpa' hpb'
    · exact absurd hpa' (hfree a' (List.mem_of_getElem? ha'))
  · rcases hback j b hb port hpb with ⟨b', hb', hpb'⟩ | ⟨rfl, -⟩
    · exact absurd hpb' (hfree b' (List.mem_of_getElem? hb'))
    · rfl

structure Ok (s : State) : Prop where
  exclusive : Exclusive s.runs
  /-- Whole writes start at the start. -/
  fresh : ∀ run ∈ s.runs, ∀ port off, run.phase = .writing port off → off = 0
  kept : ∀ run ∈ s.runs, run.phase.awaits ≠ none → Kept s.runs s.file

section
variable {lossy : Bytes → Str} {s s' : State} {a : Action}

theorem Phase.port_of_awaits {phase : Phase} {port : Nat} (h : phase.awaits = some port) :
    phase.port = some port := by
  cases phase <;> simp_all [Phase.awaits, Phase.port]

/-- A step that leaves the file alone and after which no run awaits it that did not. -/
theorem Ok.enter (h : Ok s) {r : Nat} {run : Run} (hr : s.runs[r]? = some run) {phase : Phase}
    (hport : ∀ port, phase.port = some port →
      run.phase.port = some port ∨ ∀ other ∈ s.runs, other.phase.port ≠ some port)
    (hawaits : phase.awaits = none) : Ok (s.enter r run phase) := by
  refine ⟨h.exclusive.set hr hport, ?_, ?_⟩
  · intro run' hmem port off hphase
    rcases List.mem_or_eq_of_mem_set hmem with hmem | rfl
    · exact h.fresh run' hmem port off hphase
    · simp only at hphase
      simp [hphase, Phase.awaits] at hawaits
  · intro run' hmem hne
    rcases List.mem_or_eq_of_mem_set hmem with hmem | rfl
    · apply (h.kept run' hmem hne).mono
      intro other hother port hother'
      rcases List.mem_or_eq_of_mem_set hother with hother | rfl
      · exact ⟨other, hother, rfl, hother'⟩
      · simp only at hother'
        simp [hother'] at hawaits
    · exact absurd hawaits hne

theorem Ok.step (h : Ok s) (hwhole : Whole s a) (hstep : step lossy s a = some s') : Ok s' := by
  cases a with
  | fetch pulled =>
    obtain ⟨key, -, rfl⟩ := Option.map_eq_some_iff.mp hstep
    refine ⟨?_, ?_, ?_⟩
    · have hback : ∀ (i : Nat) (a : Run), (s.runs ++ [⟨key, .fetched⟩])[i]? = some a →
          ∀ port, a.phase.port = some port → s.runs[i]? = some a := by
        intro i a ha port hport
        by_cases hi : i < s.runs.length
        · rwa [List.getElem?_append_left hi] at ha
        · rw [List.getElem?_append_right (by omega)] at ha
          have hmem := List.mem_of_getElem? ha
          rw [List.mem_singleton.mp hmem] at hport
          cases hport
      intro i j a b port ha hb hpa hpb
      exact h.exclusive i j a b port (hback i a ha port hpa) (hback j b hb port hpb) hpa hpb
    · intro run hmem port off hphase
      rcases List.mem_append.mp hmem with hmem | hmem
      · exact h.fresh run hmem port off hphase
      · rw [List.mem_singleton.mp hmem] at hphase
        cases hphase
    · intro run hmem hne
      rcases List.mem_append.mp hmem with hmem | hmem
      · apply (h.kept run hmem hne).mono
        intro other hother port hawaits
        rcases List.mem_append.mp hother with hother | hother
        · exact ⟨other, hother, rfl, hawaits⟩
        · rw [List.mem_singleton.mp hother] at hawaits
          cases hawaits
      · rw [List.mem_singleton.mp hmem] at hne
        exact absurd rfl hne
  | bind r port =>
    obtain ⟨run, hr, hstep⟩ := Option.bind_eq_some_iff.mp hstep
    split_ifs at hstep with hfree
    cases hstep
    apply h.enter hr _ rfl
    intro port' hport'
    cases hport'
    exact .inr (by simpa using hfree.2)
  | create r =>
    obtain ⟨run, hr, hstep⟩ := Option.bind_eq_some_iff.mp hstep
    split at hstep
    · rename_i port hphase
      cases hstep
      refine ⟨h.exclusive.set hr fun port' hport' => .inl ?_, ?_, fun _ _ _ => .inl rfl⟩
      · cases hport'
        simp [hphase, Phase.port]
      · intro run' hmem port' off hwriting
        rcases List.mem_or_eq_of_mem_set hmem with hmem | rfl
        · exact h.fresh run' hmem port' off hwriting
        · cases hwriting
          rfl
    · cases hstep
  | write r k =>
    obtain ⟨run, hr, hstep⟩ := Option.bind_eq_some_iff.mp hstep
    split at hstep
    · rename_i port off hphase
      have hmem : run ∈ s.runs := List.mem_of_getElem? hr
      have hoff : off = 0 := h.fresh run hmem port off hphase
      have hk := hwhole run port off hr hphase
      subst hoff
      split_ifs at hstep with hbounds
      cases hstep
      have hentry : (unwritten run port 0).take k = entry port run.key := by
        rw [hk, List.take_length]
        rfl
      have hphase' : run.wrote port 0 k = .connecting port := if_pos hk
      have hport : run.phase.port = some port := by simp [hphase, Phase.port]
      rw [hentry, hphase']
      refine ⟨h.exclusive.set hr fun port' hport' => .inl ?_, ?_, fun _ _ _ => ?_⟩
      · cases hport'
        exact hport
      · intro run' hmem' port' off hwriting
        rcases List.mem_or_eq_of_mem_set hmem' with hmem' | rfl
        · exact h.fresh run' hmem' port' off hwriting
        · cases hwriting
      · apply (h.kept run hmem (by simp [hphase, Phase.awaits])).overwrite
        intro run' hmem' hawaits
        rcases List.mem_or_eq_of_mem_set hmem' with hmem' | rfl
        · -- the port is this run's alone
          obtain ⟨i, hi⟩ := List.mem_iff_getElem?.mp hmem'
          have hsame := h.exclusive i r run' run port hi hr (Phase.port_of_awaits hawaits) hport
          subst hsame
          rw [Option.some.inj (hi.symm.trans hr)]
        · rfl
    · cases hstep
  | finish r =>
    obtain ⟨run, hr, rfl⟩ := Option.map_eq_some_iff.mp hstep
    exact h.enter hr (fun port hport => by cases hport) rfl

theorem Ok.start (file : Bytes) : Ok ⟨file, []⟩ :=
  ⟨fun i j a b port ha => by simp at ha, by simp, by simp⟩

variable {fields : HostFields}

/-- A rest of an entry gives no run's host a key. -/
theorem Fragment.not_trusts {f kind blob : Bytes} {marker rest : List Bytes} {hosts : Bytes}
    {port : Nat} (h : Fragment f)
    (hmarker : marker = [] ∨ ∃ word, marker = [word] ∧ word.head? = some 64)
    (hwords : words isBlank f = marker ++ hosts :: kind :: blob :: rest)
    (hlists : fields.lists hosts (encode (hostField port)) = true) : False := by
  rcases hmarker with rfl | ⟨word, rfl, hat⟩
  · have hdigits := h.digits hwords
    have hsame := fields.literal _ _ (fun b hb => isLiteral_of_isDigit (hdigits b hb)) hlists
    exact hostField_not_digits port (hsame ▸ hdigits)
  · -- what would be the marker is a number
    have hdigit := h.digits hwords 64 (List.mem_of_mem_head? hat)
    exact absurd hdigit (by decide)

/-- The keys the file gives a host. -/
theorem Kept.trusts {runs : List Run} {file kind blob : Bytes} {port : Nat}
    (h : Kept runs file) (ht : Trusts fields file (encode (hostField port)) kind blob) :
    ∀ run ∈ runs, run.phase.awaits = some port →
      kind = encode run.key.kind ∧ blob = encode run.key.blob := by
  intro run hmem hawaits
  obtain ⟨line, hline, marker, hosts, rest, hmarker, hwords, hlists⟩ := ht
  rcases h with rfl | ⟨port', key, rests, rfl, hrests, howns⟩
  · cases hline
  have hlines : ∀ l ∈ body port' key :: rests, 10 ∉ l :=
    List.forall_mem_cons.mpr
      ⟨newline_not_mem_body port' key, fun f hf => (hrests f hf).newline_not_mem⟩
  rw [splitInclusive_lines hlines] at hline
  obtain ⟨l, hl, rfl⟩ := List.mem_map.mp hline
  rw [words_snoc (by decide)] at hwords
  rcases List.mem_cons.mp hl with rfl | hl
  · rw [words_body] at hwords
    rcases hmarker with rfl | ⟨word, rfl, -⟩
    · simp only [List.nil_append, List.cons.injEq] at hwords
      obtain ⟨rfl, hkind, hblob, -⟩ := hwords
      have hhost := fields.literal _ _ (hostField_literal port') hlists
      have hport := hostField_injective (encode_injective hhost)
      subst hport
      rw [howns run hmem hawaits]
      exact ⟨hkind.symm, hblob.symm⟩
    · -- an entry has no fourth word
      simp at hwords
  · exact ((hrests l hl).not_trusts hmarker hwords hlists).elim

/-- However the runs that share the file interleave, and whatever was in it before, the only
key it ever gives the host of a run whose ssh is connecting is the one that run fetched from
its own target. -/
theorem ssh_trusts_own_target {file : Bytes} {as : List Action}
    (h : Steps (KnownHosts.step lossy) Whole ⟨file, []⟩ as s) {r port : Nat} {run : Run}
    (hr : s.runs[r]? = some run) (hphase : run.phase = .connecting port) {kind blob : Bytes}
    (ht : Trusts fields s.file (encode (hostField port)) kind blob) :
    kind = encode run.key.kind ∧ blob = encode run.key.blob := by
  have hok : Ok s := h.invariant (fun _ _ _ hwhole hstep hok => hok.step hwhole hstep) (.start file)
  have hmem : run ∈ s.runs := List.mem_of_getElem? hr
  have hawaits : run.phase.awaits = some port := by simp [hphase, Phase.awaits]
  exact (hok.kept run hmem (by simp [hawaits])).trusts ht run hmem hawaits

end

def whole (s : State) : Action → Bool
  | .write r k =>
    match s.runs[r]? with
    | some ⟨key, .writing port off⟩ => k = (unwritten ⟨key, .writing port off⟩ port off).length
    | _ => true
  | _ => true

theorem whole_sound {s : State} {a : Action} (h : whole s a = true) : Whole s a := by
  cases a with
  | write r k =>
    intro run port off hr hphase
    obtain ⟨key, phase⟩ := run
    cases hphase
    simpa [whole, hr] using h
  | _ => trivial

/-- `*` stands for anything, `?` for any character. -/
def matchPattern : Bytes → Bytes → Bool
  | [], host => host.isEmpty
  | p :: pattern, host =>
    if p = 42 then host.tails.any (matchPattern pattern)
    else match host with
      | [] => false
      | c :: host => (p = 63 || p = c) && matchPattern pattern host

theorem eq_of_matchPattern {pattern host : Bytes} (h : ∀ b ∈ pattern, isLiteral b = true)
    (hmatch : matchPattern pattern host = true) : pattern = host := by
  induction pattern generalizing host with
  | nil => exact (List.isEmpty_iff.mp hmatch).symm
  | cons p pattern ih =>
    obtain ⟨hp, hrest⟩ := List.forall_mem_cons.mp h
    have hstar : p ≠ 42 := by
      rintro rfl
      exact absurd hp (by decide)
    have hany : p ≠ 63 := by
      rintro rfl
      exact absurd hp (by decide)
    cases host with
    | nil => simp [matchPattern, hstar] at hmatch
    | cons c host =>
      simp only [matchPattern, hstar, if_false, hany, decide_false, Bool.false_or,
        Bool.and_eq_true, decide_eq_true_eq] at hmatch
      rw [hmatch.1, ih hrest hmatch.2]

/-- Patterns with commas between them: one has to match, and none that is negated by a `!`. -/
def listsHost (field host : Bytes) : Bool :=
  let patterns := field.splitOnP (· = 44)
  patterns.any (fun p => p.head? ≠ some 33 && matchPattern p host) &&
    !patterns.any fun p => p.head? = some 33 && matchPattern p.tail host

def patternLists : HostFields where
  lists := listsHost
  literal field host hliteral hlists := by
    have hcomma : ∀ b ∈ field, decide (b = 44) = false := by
      intro b hb
      refine decide_eq_false fun hcomma => ?_
      rw [hcomma] at hb
      exact absurd (hliteral _ hb) (by decide)
    simp only [listsHost, List.splitOnP_eq_singleton hcomma, List.any_cons, List.any_nil,
      Bool.or_false, Bool.and_eq_true] at hlists
    exact eq_of_matchPattern hliteral hlists.1.2

/-- Bytes as the characters of their values. -/
def latin1 (bs : Bytes) : Str := bs.map fun b => Char.ofNat b.toNat

/-- Two runs open the file before either writes it, and the shorter entry is written last. -/
def overlapping : List Action :=
  [.fetch (encode "ssh-ed25519 AAAAC3NzaC1lZDI1 root@target\n".toList), .fetch [107, 32, 98],
    .bind 0 40001, .bind 1 40002, .create 0, .create 1, .write 0 47, .write 1 22]

theorem ssh_trusts_own_target_overlapping :
    ∃ s run, Steps (step latin1) Whole ⟨[35, 10], []⟩ overlapping s ∧ s.runs[1]? = some run ∧
      s.file = encode "[127.0.0.1]:40002 k b\ned25519 AAAAC3NzaC1lZDI1\n".toList ∧
      Trusts patternLists s.file (encode (hostField 40002)) [107] [98] ∧
      ∀ kind blob, Trusts patternLists s.file (encode (hostField 40002)) kind blob →
        kind = encode run.key.kind ∧ blob = encode run.key.blob := by
  have hrun : (StepSystem.run (fun s a => if whole s a then step latin1 s a else none)
      ⟨[35, 10], []⟩ overlapping).map (fun s => (s.file, s.runs.map Run.phase)) =
      some (encode "[127.0.0.1]:40002 k b\ned25519 AAAAC3NzaC1lZDI1\n".toList,
        [.connecting 40001, .connecting 40002]) := by decide +kernel
  obtain ⟨s, hrun, hview⟩ := Option.map_eq_some_iff.mp hrun
  have hsteps := (Steps.of_check hrun).mono fun _ _ => whole_sound
  obtain ⟨hfile, hphases⟩ := Prod.mk.inj hview
  have hphase : (s.runs[1]?).map Run.phase = some (.connecting 40002) := by
    rw [← List.getElem?_map, hphases]
    rfl
  obtain ⟨run, hr, hconnecting⟩ := Option.map_eq_some_iff.mp hphase
  have htrusts : Trusts patternLists s.file (encode (hostField 40002)) [107] [98] := by
    rw [hfile]
    exact ⟨encode "[127.0.0.1]:40002 k b\n".toList, by decide +kernel, [],
      encode (hostField 40002), [], .inl rfl, by decide +kernel, by decide +kernel⟩
  exact ⟨s, run, hsteps, hr, hfile, htrusts, fun kind blob ht =>
    ssh_trusts_own_target hsteps hr hconnecting ht⟩

end Egdod.Ssh.KnownHosts
