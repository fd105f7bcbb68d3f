import Egdod.Key

/-! The two writers of `wpa_supplicant.conf`. `networkConf` is the BLE
helper's; `emit` is the shell function that bakes networks into an image. Both
write the network name in hexadecimal, the shell one by way of `od` and `tr`. -/
namespace Egdod.Networks

open Text

def isAsciiHexdigit (b : UInt8) : Bool :=
  (0x30 ≤ b && b ≤ 0x39) || (0x41 ≤ b && b ≤ 0x46) || (0x61 ≤ b && b ≤ 0x66)

/-- Exactly 64 hexadecimal digits: a key as it is, not a passphrase. -/
def isRaw (psk : List UInt8) : Bool := psk.length == 64 && psk.all isAsciiHexdigit

/-! ## The BLE helper -/

/-- The characters neither credential may hold. -/
def forbidden : List Char := ['\n', '\r', '\x00', '"', '\\']

/-- `str::contains`, for a list of characters. -/
def contains (s : Str) (cs : List Char) : Bool := s.any fun c => cs.contains c

theorem contains_eq_false {s : Str} {cs : List Char} :
    contains s cs = false ↔ ∀ c ∈ s, c ∉ cs := by
  simp [contains]

def networkConf (ssid psk : Str) : Except Str Str :=
  if ssid = [] ∨ 32 < (encode ssid).length ∨ contains ssid forbidden then
    .error "SSID must be 1–32 bytes without a quote, backslash, line break or NUL".toList
  else
    let raw := isRaw (encode psk)
    let pskOk := (8 ≤ (encode psk).length && (encode psk).length ≤ 63) || raw
    if pskOk = false ∨ contains psk forbidden then
      .error ("PSK must be 8–63 bytes or 64 hexadecimal digits without a quote, " ++
        "backslash, line break or NUL").toList
    else
      let pskLine := if raw then "psk=".toList ++ psk else "psk=\"".toList ++ psk ++ "\"".toList
      .ok ("network=\x7b\n\tssid=".toList ++ hex (encode ssid) ++ ("\n\t".toList ++ pskLine ++
        "\n\tkey_mgmt=WPA-PSK\n\x7d\n".toList))

/-! ## The shell function -/

/-- One output line of `od -An -tx1`. -/
def odLine (line : List UInt8) : Str := (line.flatMap fun b => ' ' :: hex [b]) ++ ['\n']

/-- The lines of a dump, 16 bytes each. The fuel is the number of bytes left. -/
def odSplit : Nat → List UInt8 → List (List UInt8)
  | 0, _ => []
  | _, [] => []
  | fuel + 1, bytes => bytes.take 16 :: odSplit fuel (bytes.drop 16)

/-- Without `-v`, full lines equal to the one before are all shown by one `*`. -/
def odLines : Option (List UInt8) → Bool → List (List UInt8) → Str
  | _, _, [] => []
  | prev, starred, line :: lines =>
    if line.length = 16 ∧ prev = some line then
      (if starred then [] else ['*', '\n']) ++ odLines prev true lines
    else odLine line ++ odLines (some line) false lines

/-- `od -An -tx1`. -/
def od (bytes : List UInt8) : Str := odLines none false (odSplit bytes.length bytes)

/-- `tr -d ' \n'`. -/
def trDelete (s : Str) : Str := s.filter fun c => c ≠ ' ' ∧ c ≠ '\n'

/-- What `emit` prints, or the line on its standard error before it exits. -/
def emit (ssid psk : List UInt8) : Except (List UInt8) (List UInt8) :=
  if (ssid ++ psk).any fun b => ['"', '\\', '\n'].any fun c => c.toUInt8 == b then
    .error (encode "refuse: a quote, backslash or newline in the credentials for ".toList ++
      ssid ++ encode "\n".toList)
  else
    .ok (encode "network=\x7b\n\tssid=".toList ++ encode (trDelete (od ssid)) ++
      encode "\n".toList ++
      (if isRaw psk then encode "\tpsk=".toList ++ psk ++ encode "\n".toList
        else encode "\tpsk=\"".toList ++ psk ++ encode "\"\n".toList) ++
      encode "\tkey_mgmt=WPA-PSK\n\x7d\n".toList)

/-! ## What the dump leaves of a name -/

theorem trDelete_append (a b : Str) : trDelete (a ++ b) = trDelete a ++ trDelete b :=
  List.filter_append ..

theorem trDelete_hex (bytes : List UInt8) : trDelete (hex bytes) = hex bytes := by
  refine List.filter_eq_self.mpr fun c hc => ?_
  have hplain : (hexDigits.all fun c => c ≠ ' ' ∧ c ≠ '\n') = true := by decide
  simpa using List.all_eq_true.mp hplain c (hex_mem hc)

theorem trDelete_odLine (line : List UInt8) : trDelete (odLine line) = hex line := by
  have hdigits : trDelete (line.flatMap fun b => ' ' :: hex [b]) = hex line := by
    induction line with
    | nil => rfl
    | cons b line ih =>
      have hspace : trDelete (' ' :: hex [b]) = hex [b] := trDelete_hex [b]
      rw [List.flatMap_cons, trDelete_append, ih, hspace, ← hex_append, List.singleton_append]
  rw [odLine, trDelete_append, hdigits]
  exact List.append_nil _

/-- The second line of the dump repeats the first. -/
def Repeated (bytes : List UInt8) : Prop :=
  bytes.length = 32 ∧ bytes.take 16 = bytes.drop 16

instance (bytes : List UInt8) : Decidable (Repeated bytes) :=
  inferInstanceAs (Decidable (_ ∧ _))

theorem odSplit_short {bytes : List UInt8} (hne : bytes ≠ []) (h : bytes.length ≤ 16) :
    odSplit bytes.length bytes = [bytes] := by
  obtain ⟨b, rest, rfl⟩ := List.exists_cons_of_ne_nil hne
  have hdrop : (b :: rest).drop 16 = [] := List.drop_eq_nil_of_le h
  rw [List.length_cons, odSplit, hdrop, List.take_of_length_le h]
  · cases rest.length <;> rfl
  · simp

theorem odSplit_two {bytes : List UInt8} (hlo : 16 < bytes.length) (hhi : bytes.length ≤ 32) :
    odSplit bytes.length bytes = [bytes.take 16, bytes.drop 16] := by
  obtain ⟨n, hn⟩ : ∃ n, bytes.length = n + 2 := ⟨bytes.length - 2, by omega⟩
  have hfirst : bytes ≠ [] := by rintro rfl; simp at hlo
  have hrest : bytes.drop 16 ≠ [] := by
    intro h
    have := List.drop_eq_nil_iff.mp h
    omega
  have hlast : (bytes.drop 16).drop 16 = [] := by
    rw [List.drop_drop]
    exact List.drop_eq_nil_of_le (by omega)
  have hsecond : (bytes.drop 16).take 16 = bytes.drop 16 := by
    refine List.take_of_length_le ?_
    rw [List.length_drop]
    omega
  rw [hn, odSplit, odSplit, hlast, hsecond]
  · cases n <;> rfl
  · exact hrest
  · exact hfirst

theorem trDelete_od {bytes : List UInt8} (hne : bytes ≠ []) (hlen : bytes.length ≤ 32) :
    trDelete (od bytes) =
      if Repeated bytes then hex (bytes.take 16) ++ ['*'] else hex bytes := by
  by_cases hshort : bytes.length ≤ 16
  · have hrep : ¬ Repeated bytes := fun h => by have := h.1; omega
    simp [od, odSplit_short hne hshort, odLines, trDelete_odLine, hrep]
  · have hsplit : hex bytes = hex (bytes.take 16) ++ hex (bytes.drop 16) := by
      rw [← hex_append, List.take_append_drop]
    rw [od, odSplit_two (by omega) hlen]
    have hfirst : ¬ ((bytes.take 16).length = 16 ∧ none = some (bytes.take 16)) := by simp
    rw [odLines, if_neg hfirst, trDelete_append, trDelete_odLine, odLines]
    by_cases hrep : Repeated bytes
    · have hfull : (bytes.drop 16).length = 16 := by
        have := hrep.1
        simp only [List.length_drop]
        omega
      rw [if_pos ⟨hfull, congrArg some hrep.2⟩, if_pos hrep]
      rfl
    · have hdiff :
          ¬ ((bytes.drop 16).length = 16 ∧ some (bytes.take 16) = some (bytes.drop 16)) := by
        rintro ⟨hfull, heq⟩
        refine hrep ⟨?_, Option.some.inj heq⟩
        simp only [List.length_drop] at hfull
        omega
      rw [if_neg hdiff, if_neg hrep, trDelete_append, trDelete_odLine, hsplit]
      exact congrArg _ (List.append_nil _)

theorem star_not_hex (bytes tail : List UInt8) : hex bytes ++ ['*'] ≠ hex tail := by
  intro h
  have hmem : '*' ∈ hex tail := by simp [← h]
  exact absurd (hex_mem hmem) (by decide)

/-! ## Agreement -/

/-- The block both writers aim at, around the name as each writes it. -/
def block (name psk : Str) : Str :=
  "network=\x7b\n\tssid=".toList ++ name ++ ("\n\t".toList ++
    (if isRaw (encode psk) then "psk=".toList ++ psk else "psk=\"".toList ++ psk ++ "\"".toList) ++
    "\n\tkey_mgmt=WPA-PSK\n\x7d\n".toList)

theorem block_inj {name name' psk : Str} (h : block name psk = block name' psk) : name = name' :=
  List.append_cancel_left (List.append_cancel_right h)

/-- What an accepted pair of credentials satisfies, and the block written for it. -/
theorem networkConf_ok {ssid psk conf : Str} (h : networkConf ssid psk = .ok conf) :
    ssid ≠ [] ∧ (encode ssid).length ≤ 32 ∧
      (8 ≤ (encode psk).length ∧ (encode psk).length ≤ 63 ∨ isRaw (encode psk) = true) ∧
      (∀ c ∈ ssid ++ psk, c ∉ forbidden) ∧ conf = block (hex (encode ssid)) psk := by
  simp only [networkConf] at h
  split at h
  case isTrue => cases h
  case isFalse hssid =>
    split at h
    case isTrue => cases h
    case isFalse hpsk =>
      simp only [not_or, not_lt, Bool.not_eq_true, Bool.not_eq_false, Bool.or_eq_true,
        Bool.and_eq_true, decide_eq_true_eq, contains_eq_false] at hssid hpsk
      refine ⟨hssid.1, hssid.2.1, hpsk.1, ?_, (Except.ok.inj h).symm⟩
      intro c hc
      rcases List.mem_append.mp hc with hc | hc
      · exact hssid.2.2 c hc
      · exact hpsk.2 c hc

/-- The shell function accepts what the helper accepts, and prints the helper's lines around
whatever it makes of the name. -/
theorem emit_ok {ssid psk : Str} (hclean : ∀ c ∈ ssid ++ psk, c ∉ forbidden) :
    emit (encode ssid) (encode psk) = .ok (encode (block (trDelete (od (encode ssid))) psk)) := by
  have haccept : ¬ ((encode ssid ++ encode psk).any fun b =>
      ['"', '\\', '\n'].any fun c => c.toUInt8 == b) = true := by
    simp only [List.any_eq_true, beq_iff_eq, not_exists, not_and]
    rintro b hmem c hc rfl
    have hascii : (['"', '\\', '\n'].all fun c => c ∈ forbidden ∧ c.toNat < 128) = true := by decide
    have hchar : c ∈ forbidden ∧ c.toNat < 128 := by
      simpa using List.all_eq_true.mp hascii c hc
    rw [← encode_append, mem_encode_ascii hchar.2] at hmem
    exact hclean c hmem hchar.1
  -- the shell prints the same lines, cut at other places
  have hhead : "\n\t".toList = "\n".toList ++ "\t".toList := by decide
  have hpsk : "\tpsk=".toList = "\t".toList ++ "psk=".toList := by decide
  have hquoted : "\tpsk=\"".toList = "\t".toList ++ "psk=\"".toList := by decide
  have hclose : "\"\n".toList = "\"".toList ++ "\n".toList := by decide
  have htail : "\n\tkey_mgmt=WPA-PSK\n\x7d\n".toList =
      "\n".toList ++ "\tkey_mgmt=WPA-PSK\n\x7d\n".toList := by decide
  unfold emit block
  rw [if_neg haccept]
  refine congrArg Except.ok ?_
  rw [hhead, hpsk, hquoted, hclose, htail]
  by_cases hraw : isRaw (encode psk)
  · simp only [if_pos hraw, encode_append, List.append_assoc]
  · simp only [if_neg hraw, encode_append, List.append_assoc]

/-- The shell function prints the helper's block, unless the name fills two lines of the
dump with the same sixteen bytes. -/
theorem emit_eq_networkConf_iff {ssid psk conf : Str} (h : networkConf ssid psk = .ok conf) :
    emit (encode ssid) (encode psk) = .ok (encode conf) ↔ ¬ Repeated (encode ssid) := by
  obtain ⟨hne, hlen, -, hclean, rfl⟩ := networkConf_ok h
  rw [emit_ok hclean, trDelete_od (encode_ne_nil hne) hlen, Except.ok.injEq]
  constructor
  · intro heq hrep
    rw [if_pos hrep] at heq
    exact star_not_hex _ _ (block_inj (encode_injective heq))
  · intro hrep
    rw [if_neg hrep]

/-- A name of 32 equal letters is dumped as one line and a star. -/
theorem emit_repeated_name :
    let ssid := List.replicate 32 'a'
    let psk := "correct horse".toList
    ∃ conf, networkConf ssid psk = .ok conf ∧
      emit (encode ssid) (encode psk) ≠ .ok (encode conf) ∧
      emit (encode ssid) (encode psk) =
        .ok (encode (block ((List.replicate 16 ['6', '1']).flatten ++ ['*']) psk)) := by
  refine ⟨block (hex (List.replicate 32 0x61)) "correct horse".toList, ?_, ?_, ?_⟩
  all_goals decide +kernel

/-- Names of 17 to 32 bytes agree whenever their two lines differ. -/
theorem emit_eq_long_name :
    ∃ conf, networkConf ("the network upstairs".toList) ("correct horse".toList) = .ok conf ∧
      emit (encode "the network upstairs".toList) (encode "correct horse".toList)
        = .ok (encode conf) := by
  have hconf : networkConf ("the network upstairs".toList) ("correct horse".toList) =
      .ok (block (hex (encode "the network upstairs".toList)) "correct horse".toList) := by
    decide +kernel
  exact ⟨_, hconf, (emit_eq_networkConf_iff hconf).mpr (by decide)⟩

end Egdod.Networks
