import Egdod.Lib.Lines
import Egdod.Ssh.Stamp

/-! `merge_authorized_keys`, line by line from the stream it reads. The blob
comes from splitting text at Unicode whitespace and is looked for in raw lines
split at ASCII whitespace; that both mean the same field is what makes a
second run replace the line of the first. -/
namespace Egdod.Ssh

open Text Posix Stream Lines

/-! ## The loop -/

/-- The loop over the existing file: what it writes, or `none` on a failed read. -/
def mergeLoop (blob : Bytes) : Nat → Reader UInt8 → Option Bytes
  | 0, _ => none
  | fuel + 1, existing => do
    let (buf, existing) ← readUntil 10 existing
    if buf = [] then some []
    else do
      let rest ← mergeLoop blob fuel existing
      some (keptLine blob buf ++ rest)

/-- `merge_authorized_keys` on a reader. Every round takes a byte at least. -/
def mergeFrom (existing : Option (Reader UInt8)) (blob line : Bytes) : Option Bytes := do
  let kept ← match existing with
    | none => some []
    | some r => mergeLoop blob (r.content.length + 1) r
  some (kept ++ line ++ [10])

theorem mergeLoop_eq (blob : Bytes) {fuel : Nat} {r : Reader UInt8} (h : r.broken = false)
    (hfuel : r.content.length < fuel) :
    mergeLoop blob fuel r = some ((splitInclusive 10 r.content).flatMap (keptLine blob)) := by
  induction fuel generalizing r with
  | zero => omega
  | succ fuel ih =>
    obtain ⟨line, rest, hread, hbroken, hline⟩ := readUntil_spec 10 h
    simp only [mergeLoop, hread, Option.bind_eq_bind, Option.bind_some]
    rcases hline with ⟨rfl, hnil⟩ | ⟨hne, hlen, hsplit⟩
    · simp [hnil, splitInclusive]
    · rw [if_neg hne, ih hbroken (by omega), hsplit]
      rfl

/-- However the file arrives, its lines are merged one by one. -/
theorem mergeFrom_eq {existing : Option (Reader UInt8)} (blob line : Bytes)
    (h : ∀ r ∈ existing, r.broken = false) :
    mergeFrom existing blob line =
      some (mergeAuthorizedKeys (existing.map Reader.content) blob line) := by
  cases existing with
  | none => rfl
  | some r =>
    simp only [mergeFrom, mergeLoop_eq blob (h r rfl) (Nat.lt_succ_self _)]
    rfl

/-! ## Lines that carry a blob -/

def Carries (blob line : Bytes) : Prop := HasField isAsciiWhitespace blob line

instance (blob line : Bytes) : Decidable (Carries blob line) :=
  inferInstanceAs (Decidable (HasField _ _ _))

/-- A line with its newline. -/
def terminated (line : Bytes) : Bytes := if line.getLast? = some 10 then line else line ++ [10]

/-- The lines of a file that do not carry a blob. -/
def strangers (blob file : Bytes) : List Bytes :=
  (splitInclusive 10 file).filter fun line => ¬ Carries blob line

theorem merge_eq (existing : Option Bytes) (blob line : Bytes) :
    mergeAuthorizedKeys existing blob line =
      ((strangers blob (existing.getD [])).map terminated).flatten ++ line ++ [10] := by
  unfold mergeAuthorizedKeys strangers
  congr 2
  induction splitInclusive 10 (existing.getD []) with
  | nil => rfl
  | cons l ls ih =>
    rw [List.flatMap_cons, ih]
    by_cases hl : Carries blob l
    · have hmem : blob ∈ l.splitOnP isAsciiWhitespace := mem_splitOnP_iff.mpr hl
      simp [keptLine, hmem, hl]
    · have hmem : blob ∉ l.splitOnP isAsciiWhitespace := fun h => hl (mem_splitOnP_iff.mp h)
      simp [keptLine, hmem, hl, terminated]

/-- A newline at the end is no part of a field. -/
theorem carries_snoc {blob : Bytes} (hblob : blob ≠ []) (line : Bytes) :
    Carries blob (line ++ [10]) ↔ Carries blob line := by
  unfold Carries
  rw [← mem_splitOnP_iff, ← mem_splitOnP_iff, List.splitOnP_append_cons line [] (by decide)]
  simp [hblob]

theorem carries_terminated {blob : Bytes} (hblob : blob ≠ []) (line : Bytes) :
    Carries blob (terminated line) ↔ Carries blob line := by
  unfold terminated
  split
  · rfl
  · exact carries_snoc hblob line

theorem terminated_terminated (line : Bytes) : terminated (terminated line) = terminated line := by
  have hlast : (terminated line).getLast? = some 10 := by
    unfold terminated
    split
    · assumption
    · simp
  rw [terminated, if_pos hlast]

theorem exists_body {file line : Bytes} (h : line ∈ splitInclusive 10 file) :
    ∃ body, 10 ∉ body ∧ terminated line = body ++ [10] := by
  rcases mem_splitInclusive h with ⟨body, rfl, hbody⟩ | hline
  · exact ⟨body, hbody, by simp [terminated]⟩
  · have hlast : line.getLast? ≠ some 10 := fun hlast => hline (List.mem_of_getLast? hlast)
    exact ⟨line, hline, if_neg hlast⟩

/-- Lines with their newlines are read back as they are. -/
theorem splitInclusive_terminated {lines : List Bytes} (file : Bytes)
    (h : ∀ line ∈ lines, line ∈ splitInclusive 10 file) (rest : Bytes) :
    splitInclusive 10 ((lines.map terminated).flatten ++ rest) =
      lines.map terminated ++ splitInclusive 10 rest := by
  induction lines with
  | nil => rfl
  | cons l ls ih =>
    obtain ⟨hl, hls⟩ := List.forall_mem_cons.mp h
    obtain ⟨body, hbody, heq⟩ := exists_body hl
    rw [List.map_cons, List.flatten_cons, List.append_assoc, heq,
      splitInclusive_append (.inr (by simp)), splitInclusive_line hbody, ih hls]
    rfl

section
variable {existing : Option Bytes} {blob line : Bytes}

/-- The lines of a merged file. -/
theorem lines_merge (hline : 10 ∉ line) :
    splitInclusive 10 (mergeAuthorizedKeys existing blob line) =
      (strangers blob (existing.getD [])).map terminated ++ [line ++ [10]] := by
  have hlines : ∀ l ∈ strangers blob (existing.getD []), l ∈ splitInclusive 10 (existing.getD []) :=
    fun l hl => List.mem_of_mem_filter hl
  rw [merge_eq, List.append_assoc, splitInclusive_terminated _ hlines, splitInclusive_line hline]

theorem not_carries_of_mem (hblob : blob ≠ []) {l : Bytes}
    (h : l ∈ (strangers blob (existing.getD [])).map terminated) : ¬ Carries blob l := by
  obtain ⟨l, hl, rfl⟩ := List.mem_map.mp h
  rw [carries_terminated hblob]
  simpa using (List.mem_filter.mp hl).2

/-- After a merge the strangers are those there were. -/
theorem strangers_merge (hblob : blob ≠ []) (hline : 10 ∉ line) (hcarries : Carries blob line) :
    strangers blob (mergeAuthorizedKeys existing blob line) =
      (strangers blob (existing.getD [])).map terminated := by
  rw [strangers, lines_merge hline, List.filter_append,
    List.filter_eq_self.mpr fun l hl => by simpa using not_carries_of_mem hblob hl]
  simp [carries_snoc hblob, hcarries]

theorem merge_merge {line' : Bytes} (hblob : blob ≠ []) (hline : 10 ∉ line)
    (hcarries : Carries blob line) :
    mergeAuthorizedKeys (some (mergeAuthorizedKeys existing blob line)) blob line' =
      mergeAuthorizedKeys existing blob line' := by
  rw [merge_eq, Option.getD_some, strangers_merge hblob hline hcarries, merge_eq, List.map_map]
  congr 3
  exact List.map_congr_left fun l _ => terminated_terminated l

theorem countP_merge (hblob : blob ≠ []) (hline : 10 ∉ line) (hcarries : Carries blob line) :
    (splitInclusive 10 (mergeAuthorizedKeys existing blob line)).countP (Carries blob ·) = 1 := by
  have hnone : ((strangers blob (existing.getD [])).map terminated).countP (Carries blob ·) = 0 :=
    List.countP_eq_zero.mpr fun l hl => by simpa using not_carries_of_mem hblob hl
  rw [lines_merge hline, List.countP_append, hnone]
  simp [carries_snoc hblob, hcarries]

end

/-! ## The installed line -/

/-- A public key line as ssh-keygen writes it: fields with one space between
two of them. -/
structure PubkeyLine where
  kind : Str
  blob : Str
  comment : List Str
  plain : ∀ f ∈ kind :: blob :: comment, f ≠ [] ∧ ∀ c ∈ f, isWhitespace c = false

def PubkeyLine.text (k : PubkeyLine) : Str :=
  k.kind ++ ' ' :: (k.blob ++ k.comment.flatMap (' ' :: ·))

/-- The blob as `merge_authorized_keys` looks for it. -/
def PubkeyLine.blobBytes (k : PubkeyLine) : Bytes := encode k.blob

/-- The line `authorized_line` makes of the key. -/
def PubkeyLine.installed (k : PubkeyLine) (options : Str) (expiry : Nat) : Bytes :=
  encode (authorizedLine options expiry k.text)

namespace PubkeyLine

variable (k : PubkeyLine)

theorem not_whitespace {f : Str} (h : f ∈ k.kind :: k.blob :: k.comment) :
    ∀ c ∈ f, isWhitespace c = false := (k.plain f h).2

/-- `key_blob` finds the second field. -/
theorem keyBlob_text : keyBlob k.text = some k.blob := by
  have hspace : isWhitespace ' ' = true := by decide
  obtain ⟨hkind, hkind'⟩ := k.plain k.kind (by simp)
  obtain ⟨hblob, hblob'⟩ := k.plain k.blob (by simp)
  have hrest : ∃ more, (k.blob ++ k.comment.flatMap (' ' :: ·)).splitOnP isWhitespace =
      k.blob :: more := by
    cases k.comment with
    | nil => exact ⟨[], by simp [List.splitOnP_eq_singleton hblob']⟩
    | cons f fs =>
      rw [List.flatMap_cons, List.cons_append, List.splitOnP_append_cons _ _ hspace,
        List.splitOnP_eq_singleton hblob']
      exact ⟨_, rfl⟩
  obtain ⟨more, hmore⟩ := hrest
  unfold keyBlob splitWhitespace text
  rw [List.splitOnP_append_cons _ _ hspace, List.splitOnP_eq_singleton hkind', hmore]
  simp [hkind, hblob]

theorem newline_not_mem_text : '\n' ∉ k.text := by
  have hnewline : isWhitespace '\n' = true := by decide
  have absent : ∀ f ∈ k.kind :: k.blob :: k.comment, '\n' ∉ f := fun f hf hmem => by
    have := k.not_whitespace hf _ hmem
    rw [hnewline] at this
    cases this
  unfold text
  simp only [List.mem_append, List.mem_cons, List.mem_flatMap, not_or, not_exists, not_and]
  refine ⟨absent _ (by simp), by decide, absent _ (by simp), fun f hf => ⟨by decide, ?_⟩⟩
  exact absent f (by simp [hf])

end PubkeyLine

theorem newline_not_mem_zeroPad (w n : Nat) : '\n' ∉ zeroPad w n := by
  unfold zeroPad
  rw [List.mem_append, List.mem_replicate, not_or]
  exact ⟨fun h => absurd h.2 (by decide), (visible_toDigits n).not_mem (by decide)⟩

theorem newline_not_mem_authorizedLine {options : Str} (h : '\n' ∉ options) (expiry : Nat)
    (k : PubkeyLine) : '\n' ∉ authorizedLine options expiry k.text := by
  have hexpiry : '\n' ∉ ",expiry-time=\"".toList := by decide
  have hquote : '\n' ∉ "\" ".toList := by decide
  have hzone : '\n' ∉ ['Z'] := by decide
  have hstamp : '\n' ∉ utcYyyymmddhhmm expiry := by
    simp only [utcYyyymmddhhmm, List.mem_append, newline_not_mem_zeroPad, hzone, or_self,
      not_false_eq_true]
  simp only [authorizedLine, List.mem_append, h, hexpiry, hstamp, hquote, k.newline_not_mem_text,
    or_self, not_false_eq_true]

/-- Text without whitespace has none as bytes: the ASCII whitespace is Unicode whitespace, and
its bytes stand for nothing else. -/
theorem encode_plain {s : Str} (h : ∀ c ∈ s, isWhitespace c = false) :
    ∀ b ∈ encode s, isAsciiWhitespace b = false := by
  intro b hb
  by_contra hws
  have hbyte : b = 9 ∨ b = 10 ∨ b = 12 ∨ b = 13 ∨ b = 32 := by
    rw [Bool.not_eq_false] at hws
    simpa [isAsciiWhitespace, or_assoc] using hws
  have hlt : b.toNat < 128 := by
    rcases hbyte with rfl | rfl | rfl | rfl | rfl <;> decide
  obtain ⟨c, hc, hmem⟩ := List.mem_flatMap.mp hb
  have hcode := (mem_utf8EncodeChar hlt c).mp hmem
  have hplain := h c hc
  simp only [isWhitespace, ← hcode] at hplain
  rcases hbyte with rfl | rfl | rfl | rfl | rfl <;> exact absurd hplain (by decide)

/-- The installed line carries the blob, between two spaces or a space and the end. -/
theorem carries_installed (k : PubkeyLine) (options : Str) (expiry : Nat) :
    Carries k.blobBytes (k.installed options expiry) := by
  have hspace : ∀ s : Str, encode (' ' :: s) = 32 :: encode s := encode_cons_ascii (by decide)
  refine ⟨encode_plain (k.not_whitespace (by simp)),
    encode (options ++ ",expiry-time=\"".toList ++ utcYyyymmddhhmm expiry ++ "\" ".toList ++
      k.kind) ++ [32], encode (k.comment.flatMap (' ' :: ·)), ?_, .inr ⟨_, 32, rfl, by decide⟩, ?_⟩
  · simp only [PubkeyLine.installed, authorizedLine, PubkeyLine.text, encode_append, hspace,
      PubkeyLine.blobBytes]
    simp only [List.append_assoc, List.cons_append, List.nil_append]
  · cases k.comment with
    | nil => exact .inl rfl
    | cons f fs =>
      rw [List.flatMap_cons, List.cons_append, hspace]
      exact .inr ⟨32, _, rfl, by decide⟩

theorem newline_not_mem_installed {options : Str} (h : '\n' ∉ options) (expiry : Nat)
    (k : PubkeyLine) : 10 ∉ k.installed options expiry := by
  have hascii := mem_encode_ascii (c := '\n') (by decide)
    (s := authorizedLine options expiry k.text)
  have hcode : '\n'.toUInt8 = 10 := by decide
  rw [hcode] at hascii
  exact fun hmem => newline_not_mem_authorizedLine h expiry k (hascii.mp hmem)

/-! ## Merging -/

/-- Merging drops the lines that carry the key, keeps every other as it stood
and puts the new line last; so a second merge replaces what the first one put
there, and one line carries the key. -/
theorem merge_replaces (k : PubkeyLine) {existing : Option (Reader UInt8)}
    (hread : ∀ r ∈ existing, r.broken = false) {options₁ : Str} (hoptions : '\n' ∉ options₁)
    (options₂ : Str) (expiry₁ expiry₂ : Nat) :
    keyBlob k.text = some k.blob ∧
    ∃ out, mergeFrom existing k.blobBytes (k.installed options₁ expiry₁) = some out ∧
      out = ((strangers k.blobBytes ((existing.map Reader.content).getD [])).map
        terminated).flatten ++ k.installed options₁ expiry₁ ++ [10] ∧
      (∀ r : Reader UInt8, r.broken = false → r.content = out →
        mergeFrom (some r) k.blobBytes (k.installed options₁ expiry₁) = some out ∧
        mergeFrom (some r) k.blobBytes (k.installed options₂ expiry₂) =
          mergeFrom existing k.blobBytes (k.installed options₂ expiry₂)) ∧
      (splitInclusive 10 out).countP (Carries k.blobBytes ·) = 1 := by
  have hblob : k.blobBytes ≠ [] := encode_ne_nil (k.plain k.blob (by simp)).1
  have hline := newline_not_mem_installed hoptions expiry₁ k
  have hcarries := carries_installed k options₁ expiry₁
  refine ⟨k.keyBlob_text, _, mergeFrom_eq _ _ hread, merge_eq _ _ _, ?_,
    countP_merge hblob hline hcarries⟩
  intro r hr hcontent
  have hr' : ∀ r' ∈ some r, r'.broken = false := fun r' h => by
    obtain rfl := Option.some.inj h
    exact hr
  rw [mergeFrom_eq _ _ hr', mergeFrom_eq _ _ hr', mergeFrom_eq _ _ hread, Option.map_some,
    hcontent, merge_merge hblob hline hcarries, merge_merge hblob hline hcarries]
  exact ⟨rfl, rfl⟩

/-- A key, and a file that arrives in two pieces: an older line of the key,
and a stranger's without a newline. -/
def controllerKey : PubkeyLine where
  kind := "ssh-ed25519".toList
  blob := "AAAAC3".toList
  comment := ["egdod".toList]
  plain := by
    have hall : (["ssh-ed25519".toList, "AAAAC3".toList, "egdod".toList].all fun f =>
        !f.isEmpty && f.all fun c => !isWhitespace c) = true := by decide +kernel
    simpa only [List.all_eq_true, Bool.and_eq_true, Bool.not_eq_true', List.isEmpty_eq_false_iff]
      using hall

def targetFile : Reader UInt8 :=
  ⟨[encode "expiry-time=\"202601010000Z\" ssh-ed".toList,
    encode "25519 AAAAC3 egdod\nssh-rsa AAAAB3 other".toList], false⟩

theorem merge_replaces_rerun :
    ∃ out, mergeFrom (some targetFile) controllerKey.blobBytes
        (controllerKey.installed "from=\"::1\"".toList 1788264600) = some out ∧
      out = encode ("ssh-rsa AAAAB3 other\nfrom=\"::1\",expiry-time=\"202609011210Z\" ".toList ++
        controllerKey.text ++ ['\n']) ∧
      (splitInclusive 10 out).countP (Carries controllerKey.blobBytes ·) = 1 := by
  obtain ⟨-, out, hout, -, -, hcount⟩ := merge_replaces controllerKey
    (show ∀ r ∈ some targetFile, r.broken = false from fun r h => Option.some.inj h ▸ rfl)
    (show '\n' ∉ "from=\"::1\"".toList by decide) [] 1788264600 0
  refine ⟨out, hout, Option.some.inj (hout.symm.trans ?_), hcount⟩
  decide +kernel

end Egdod.Ssh
