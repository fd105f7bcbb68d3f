import Egdod.Boot.Networks
import Mathlib.Data.List.Count

/-! `wpa_supplicant.conf` as its reader takes it: lines, without the blanks
around them and without comments, that are settings or make up a block of
settings. What `network_conf` writes is one block of three settings, whatever
the credentials hold. -/
namespace Egdod.Networks

open Text

/-! ## The grammar -/

def isBlank (b : UInt8) : Bool := b == 0x20 || b == 0x09 || b == 0x0d || b == 0x0a

/-- A line without its comment. A `#` between the first quote and the last is none. -/
def stripComment (line : List UInt8) : List UInt8 :=
  let quoted := line.rdropWhile (· ≠ 0x22)
  if 2 ≤ quoted.count 0x22 then quoted ++ (line.rtakeWhile (· ≠ 0x22)).takeWhile (· ≠ 0x23)
  else line.takeWhile (· ≠ 0x23)

def clean (line : List UInt8) : List UInt8 :=
  (stripComment (line.dropWhile isBlank)).rdropWhile isBlank

/-- A name and its value, as written. -/
abbrev Setting := List UInt8 × List UInt8

def setting (line : List UInt8) : Option Setting :=
  match line.dropWhile (· ≠ 0x3d) with
  | [] => none
  | _ :: value => some (line.takeWhile (· ≠ 0x3d), value)

/-- The settings outside any block, and the blocks. -/
structure Conf where
  globals : List Setting
  networks : List (List Setting)

def opening : List UInt8 := encode "network=\x7b".toList

def closing : List UInt8 := encode "\x7d".toList

/-- Line by line, outside a block or with what the current one holds so far. -/
def parseLines : Option (List Setting) → List (List UInt8) → Option Conf
  | none, [] => some ⟨[], []⟩
  | some _, [] => none
  | none, line :: lines =>
    if clean line = [] then parseLines none lines
    else if clean line = opening then parseLines (some []) lines
    else do
      let global ← setting (clean line)
      let conf ← parseLines none lines
      some { conf with globals := global :: conf.globals }
  | some settings, line :: lines =>
    if clean line = [] then parseLines (some settings) lines
    else if clean line = closing then do
      let conf ← parseLines none lines
      some { conf with networks := settings :: conf.networks }
    else do
      let next ← setting (clean line)
      parseLines (some (settings ++ [next])) lines

def parseConf (text : List UInt8) : Option Conf := parseLines none (splitInclusive 0x0a text)

/-! ## What the values denote -/

def hexValue (b : UInt8) : Option Nat :=
  if 0x30 ≤ b ∧ b ≤ 0x39 then some (b.toNat - 0x30)
  else if 0x41 ≤ b ∧ b ≤ 0x46 then some (b.toNat - 0x37)
  else if 0x61 ≤ b ∧ b ≤ 0x66 then some (b.toNat - 0x57)
  else none

def fromHex : List UInt8 → Option (List UInt8)
  | [] => some []
  | [_] => none
  | a :: b :: rest => do
    let hi ← hexValue a
    let lo ← hexValue b
    let bytes ← fromHex rest
    some (UInt8.ofNat (16 * hi + lo) :: bytes)

/-- The text between a first and a last quote. -/
def unquote : List UInt8 → Option (List UInt8)
  | 0x22 :: rest => if rest.getLast? = some 0x22 then some rest.dropLast else none
  | _ => none

/-- A name of at most 32 bytes, quoted or in hexadecimal. -/
def ssidOf (value : List UInt8) : Option (List UInt8) :=
  let name := if value.head? = some 0x22 then unquote value else fromHex value
  name.filter fun name => name.length ≤ 32

inductive Psk where
  | passphrase (text : List UInt8)
  | raw (key : List UInt8)

/-- A quoted passphrase of 8 to 63 bytes, or 64 hexadecimal digits. -/
def pskOf (value : List UInt8) : Option Psk :=
  if value.head? = some 0x22 then
    (unquote value).bind fun text =>
      if 8 ≤ text.length ∧ text.length ≤ 63 then some (.passphrase text) else none
  else if value.length = 64 then (fromHex value).map .raw
  else none

/-! ## Lines -/

theorem takeWhile_absent {b : UInt8} {line : List UInt8} (h : b ∉ line) :
    line.takeWhile (· ≠ b) = line := by
  rw [List.takeWhile_eq_self_iff]
  intro c hc
  have hne : c ≠ b := fun e => h (e ▸ hc)
  simpa using hne

theorem stripComment_plain {line : List UInt8} (h : 0x23 ∉ line) : stripComment line = line := by
  have htail : 0x23 ∉ line.rtakeWhile (· ≠ 0x22) :=
    fun hmem => h ((List.rtakeWhile_suffix _ line).subset hmem)
  simp only [stripComment, takeWhile_absent h, takeWhile_absent htail,
    List.rdropWhile_append_rtakeWhile, ite_self]

/-- What stands in quotes at the end of a line is no comment. -/
theorem stripComment_quoted (pre text : List UInt8) :
    stripComment (pre ++ 0x22 :: text ++ [0x22, 0x0a]) = pre ++ 0x22 :: text ++ [0x22, 0x0a] := by
  have hend : pre ++ 0x22 :: text ++ [0x22, 0x0a] = (pre ++ 0x22 :: text ++ [0x22]) ++ [0x0a] := by
    simp
  have hdrop : (pre ++ 0x22 :: text ++ [0x22, 0x0a]).rdropWhile (· ≠ 0x22)
      = pre ++ 0x22 :: text ++ [0x22] := by
    rw [hend, List.rdropWhile_concat_pos _ _ _ (by decide),
      List.rdropWhile_concat_neg _ _ _ (by decide)]
  have htake : (pre ++ 0x22 :: text ++ [0x22, 0x0a]).rtakeWhile (· ≠ 0x22) = [0x0a] := by
    rw [hend, List.rtakeWhile_concat_pos _ _ _ (by decide),
      List.rtakeWhile_concat_neg _ _ _ (by decide), List.nil_append]
  have hcount : 2 ≤ (pre ++ 0x22 :: text ++ [0x22]).count 0x22 := by
    simp only [List.count_append, List.count_cons_self, List.count_nil]
    omega
  simp only [stripComment, hdrop, htake, if_pos hcount]
  rw [hend]
  rfl

/-- A line that was indented and has nothing to take off besides. -/
theorem clean_indented {body : List UInt8} {first last : UInt8}
    (hcomment : stripComment (body ++ [0x0a]) = body ++ [0x0a]) (hfirst : body.head? = some first)
    (hlast : body.getLast? = some last) (hblank : isBlank first = false ∧ isBlank last = false) :
    clean (0x09 :: body ++ [0x0a]) = body := by
  obtain ⟨rest, rfl⟩ := List.head?_eq_some_iff.mp hfirst
  have hstart : (0x09 :: (first :: rest) ++ [0x0a]).dropWhile isBlank =
      first :: rest ++ [0x0a] := by
    rw [List.cons_append, List.dropWhile_cons_of_pos (by decide), List.cons_append,
      List.dropWhile_cons_of_neg (by simp [hblank.1])]
  rw [clean, hstart, hcomment, List.rdropWhile_concat_pos _ _ _ (by decide),
    List.rdropWhile_eq_self_iff]
  intro hne hpos
  rw [List.getLast?_eq_some_getLast hne, Option.some.injEq] at hlast
  rw [hlast, hblank.2] at hpos
  cases hpos

theorem setting_eq {name : List UInt8} (h : 0x3d ∉ name) (value : List UInt8) :
    setting (name ++ 0x3d :: value) = some (name, value) := by
  have hname : ∀ c ∈ name, decide (c ≠ 0x3d) = true := by
    intro c hc
    have hne : c ≠ 0x3d := fun e => h (e ▸ hc)
    simpa using hne
  rw [setting, List.dropWhile_append_of_pos hname, List.takeWhile_append_of_pos hname,
    List.dropWhile_cons_of_neg (by decide), List.takeWhile_cons_of_neg (by decide),
    List.append_nil]

/-! ## Values -/

theorem hexValue_hexDigit : ∀ n < 16, (encode [hexDigit n]).map hexValue = [some n] := by
  decide +kernel

theorem encode_hexDigit {n : Nat} (h : n < 16) :
    ∃ b, encode [hexDigit n] = [b] ∧ hexValue b = some n := by
  have hmap := hexValue_hexDigit n h
  obtain ⟨b, rest, hb, hvalue, hrest⟩ := List.map_eq_cons_iff.mp hmap
  rw [List.map_eq_nil_iff] at hrest
  exact ⟨b, by rw [hb, hrest], hvalue⟩

theorem fromHex_hex (bytes : List UInt8) : fromHex (encode (hex bytes)) = some bytes := by
  induction bytes with
  | nil => rfl
  | cons b bytes ih =>
    have hb := b.toNat_lt
    obtain ⟨hi, hhi, hhiv⟩ := encode_hexDigit (n := b.toNat / 16) (by omega)
    obtain ⟨lo, hlo, hlov⟩ := encode_hexDigit (n := b.toNat % 16) (by omega)
    have hval : 16 * (b.toNat / 16) + b.toNat % 16 = b.toNat := Nat.div_add_mod ..
    have hcons : encode (hex (b :: bytes)) = hi :: lo :: encode (hex bytes) := by
      have hsplit : hex (b :: bytes)
          = [hexDigit (b.toNat / 16)] ++ ([hexDigit (b.toNat % 16)] ++ hex bytes) := rfl
      rw [hsplit, encode_append, encode_append, hhi, hlo]
      rfl
    rw [hcons, fromHex, hhiv, hlov, ih]
    simp only [Option.bind_eq_bind, Option.bind_some, hval, UInt8.ofNat_toNat]

theorem hexValue_isSome {b : UInt8} (h : isAsciiHexdigit b = true) : ∃ n, hexValue b = some n := by
  simp only [isAsciiHexdigit, Bool.or_eq_true, Bool.and_eq_true, decide_eq_true_eq] at h
  unfold hexValue
  split
  · exact ⟨_, rfl⟩
  · split
    · exact ⟨_, rfl⟩
    · split
      · exact ⟨_, rfl⟩
      · simp_all

/-- Digits in pairs are bytes. -/
theorem fromHex_digits (digits : List UInt8) (h : digits.all isAsciiHexdigit = true)
    (heven : digits.length % 2 = 0) : ∃ bytes, fromHex digits = some bytes := by
  induction digits using fromHex.induct with
  | case1 => exact ⟨[], rfl⟩
  | case2 => simp at heven
  | case3 a b rest ih =>
    simp only [List.all_cons, Bool.and_eq_true] at h
    obtain ⟨hi, hhi⟩ := hexValue_isSome h.1
    obtain ⟨lo, hlo⟩ := hexValue_isSome h.2.1
    obtain ⟨bytes, hbytes⟩ := ih h.2.2 (by simp only [List.length_cons] at heven; omega)
    exact ⟨_, by rw [fromHex, hhi, hlo, hbytes]; rfl⟩

/-- The value `network_conf` writes for a key. -/
def pskValue (psk : Str) : List UInt8 :=
  if isRaw (encode psk) then encode psk else 0x22 :: (encode psk ++ [0x22])

theorem isRaw_digits {psk : List UInt8} (h : isRaw psk = true) :
    psk.length = 64 ∧ psk.all isAsciiHexdigit = true := by
  simpa [isRaw] using h

/-- A raw key does not begin like a quoted text. -/
theorem head_of_isRaw {psk : List UInt8} (h : isRaw psk = true) : psk.head? ≠ some 0x22 := by
  intro hhead
  have hdigit := List.all_eq_true.mp (isRaw_digits h).2 0x22 (List.mem_of_head? hhead)
  exact absurd hdigit (by decide)

theorem pskValue_injective {psk psk' : Str} (h : pskValue psk = pskValue psk') : psk = psk' := by
  unfold pskValue at h
  split at h
  case isTrue hraw =>
    split at h
    case isTrue => exact encode_injective h
    case isFalse => exact absurd (by rw [h]; rfl) (head_of_isRaw hraw)
  case isFalse =>
    split at h
    case isTrue hraw => exact absurd (by rw [← h]; rfl) (head_of_isRaw hraw)
    case isFalse => exact encode_injective (List.append_cancel_right (List.cons.inj h).2)

theorem pskOf_raw {psk : Str} (h : isRaw (encode psk) = true) :
    ∃ key, fromHex (encode psk) = some key ∧ pskOf (pskValue psk) = some (.raw key) := by
  obtain ⟨hlen, hall⟩ := isRaw_digits h
  obtain ⟨key, hkey⟩ := fromHex_digits (encode psk) hall (by omega)
  refine ⟨key, hkey, ?_⟩
  rw [pskOf, pskValue, if_pos h, if_neg (head_of_isRaw h), if_pos hlen, hkey]
  rfl

theorem pskOf_passphrase {psk : Str} (hraw : ¬ isRaw (encode psk) = true)
    (hlen : 8 ≤ (encode psk).length ∧ (encode psk).length ≤ 63) :
    pskOf (pskValue psk) = some (.passphrase (encode psk)) := by
  have hunquote : unquote (0x22 :: (encode psk ++ [0x22])) = some (encode psk) := by
    simp [unquote]
  rw [pskOf, pskValue, if_neg hraw, if_pos List.head?_cons, hunquote, Option.bind_some, if_pos hlen]

/-- Only digits are written for a name. -/
theorem not_mem_encode_hex {c : Char} (hascii : c.toNat < 128) (hc : c ∉ hexDigits)
    (bytes : List UInt8) : c.toUInt8 ∉ encode (hex bytes) := by
  rw [mem_encode_ascii hascii]
  exact fun hmem => hc (hex_mem hmem)

theorem ssidOf_hex {ssid : List UInt8} (hlen : ssid.length ≤ 32) :
    ssidOf (encode (hex ssid)) = some ssid := by
  have hquote := not_mem_encode_hex (c := '"') (by decide) (by decide) ssid
  have hhead : (encode (hex ssid)).head? ≠ some 0x22 := fun h => hquote (List.mem_of_head? h)
  simp [ssidOf, hhead, fromHex_hex, hlen]

/-! ## The block -/

def ssidName : List UInt8 := encode "ssid".toList

def pskName : List UInt8 := encode "psk".toList

def keyMgmt : Setting := (encode "key_mgmt".toList, encode "WPA-PSK".toList)

/-- The lines of a block, without their ends. -/
def blockLines (name psk : Str) : List (List UInt8) :=
  [opening, 0x09 :: (ssidName ++ 0x3d :: encode name), 0x09 :: (pskName ++ 0x3d :: pskValue psk),
    0x09 :: (keyMgmt.1 ++ 0x3d :: keyMgmt.2), closing]

theorem encode_block (name psk : Str) :
    encode (block name psk) = (blockLines name psk).flatMap (· ++ [0x0a]) := by
  have hopen : encode "network=\x7b\n\tssid=".toList
      = opening ++ (0x0a :: 0x09 :: (ssidName ++ [0x3d])) := by decide +kernel
  have hnext : encode "\n\t".toList = [0x0a, 0x09] := by decide +kernel
  have hraw : encode "psk=".toList = pskName ++ [0x3d] := by decide +kernel
  have hquoted : encode "psk=\"".toList = pskName ++ [0x3d, 0x22] := by decide +kernel
  have hquote : encode "\"".toList = [0x22] := by decide +kernel
  have hclose : encode "\n\tkey_mgmt=WPA-PSK\n\x7d\n".toList
      = 0x0a :: 0x09 :: (keyMgmt.1 ++ 0x3d :: keyMgmt.2 ++ 0x0a :: (closing ++ [0x0a])) := by
    decide +kernel
  have hpsk : encode (if isRaw (encode psk) then "psk=".toList ++ psk
      else "psk=\"".toList ++ psk ++ "\"".toList) = pskName ++ 0x3d :: pskValue psk := by
    unfold pskValue
    split
    · rw [encode_append, hraw, List.append_assoc]
      rfl
    · rw [encode_append, encode_append, hquoted, hquote]
      simp
  unfold block
  simp only [encode_append, hopen, hnext, hpsk, hclose]
  simp only [blockLines, List.flatMap_cons, List.flatMap_nil, List.append_assoc, List.cons_append,
    List.nil_append]

/-- A setting inside a block is added to it. -/
theorem parseLines_setting {settings : List Setting} {line name value : List UInt8}
    (hclean : clean line = name ++ 0x3d :: value) (hname : 0x3d ∉ name)
    (lines : List (List UInt8)) :
    parseLines (some settings) (line :: lines) =
      parseLines (some (settings ++ [(name, value)])) lines := by
  have hnil : clean line ≠ [] := by simp [hclean]
  have hclosing : clean line ≠ closing := by
    intro e
    have hmem : 0x3d ∈ closing := by simp [← e, hclean]
    exact absurd hmem (by decide)
  rw [parseLines, if_neg hnil, if_neg hclosing, hclean, setting_eq hname]
  rfl

section
variable {ssid psk conf : Str}

/-- A line of a setting is broken only by its value. -/
theorem newline_not_mem_setting {name value : List UInt8} (hname : 0x0a ∉ name)
    (hvalue : 0x0a ∉ value) : 0x0a ∉ 0x09 :: (name ++ 0x3d :: value) := by
  simp only [List.mem_cons, List.mem_append, not_or]
  exact ⟨by decide, hname, by decide, hvalue⟩

theorem newline_not_mem_blockLines (bytes : List UInt8) (hclean : '\n' ∉ psk) :
    ∀ line ∈ blockLines (hex bytes) psk, 0x0a ∉ line := by
  have hname := not_mem_encode_hex (c := '\n') (by decide) (by decide) bytes
  have hbytes : '\n'.toUInt8 ∉ encode psk := by rwa [mem_encode_ascii (by decide)]
  have hpsk : 0x0a ∉ pskValue psk := by
    unfold pskValue
    split
    · exact hbytes
    · simp only [List.mem_cons, List.mem_append, List.not_mem_nil, or_false, not_or]
      exact ⟨by decide, hbytes, by decide⟩
  simp only [blockLines, List.forall_mem_cons, List.not_mem_nil, false_implies, implies_true,
    and_true]
  exact ⟨by decide, newline_not_mem_setting (by decide) hname,
    newline_not_mem_setting (by decide) hpsk, newline_not_mem_setting (by decide) (by decide),
    by decide⟩

/-! ## Reading it back -/

/-- A setting whose value ends in something and has no comment in it is read as it stands. -/
theorem clean_setting {name value : List UInt8} {first last : UInt8}
    (hname : name.head? = some first)
    (hcomment : 0x23 ∉ name ++ 0x3d :: value) (hlast : value.getLast? = some last)
    (hblank : isBlank first = false ∧ isBlank last = false) :
    clean (0x09 :: (name ++ 0x3d :: value) ++ [0x0a]) = name ++ 0x3d :: value := by
  refine clean_indented (stripComment_plain ?_) ?_ ?_ hblank
  · intro hmem
    rcases List.mem_append.mp hmem with hmem | hmem
    · exact hcomment hmem
    · exact absurd hmem (by decide)
  · rw [List.head?_append, hname]
    rfl
  · rw [List.getLast?_append, List.getLast?_cons, hlast]
    rfl

theorem clean_ssid {bytes : List UInt8} (hne : bytes ≠ []) :
    clean (0x09 :: (ssidName ++ 0x3d :: encode (hex bytes)) ++ [0x0a]) =
      ssidName ++ 0x3d :: encode (hex bytes) := by
  have hvalue : encode (hex bytes) ≠ [] := by
    intro e
    have hbytes := fromHex_hex bytes
    rw [e] at hbytes
    exact hne (Option.some.inj hbytes).symm
  have hblank : ∀ b ∈ encode (hex bytes), isBlank b = false := by
    intro b hb
    by_contra hblank
    simp only [Bool.not_eq_false, isBlank, Bool.or_eq_true, beq_iff_eq] at hblank
    rcases hblank with ((rfl | rfl) | rfl) | rfl
    · exact not_mem_encode_hex (c := ' ') (by decide) (by decide) bytes hb
    · exact not_mem_encode_hex (c := '\t') (by decide) (by decide) bytes hb
    · exact not_mem_encode_hex (c := '\r') (by decide) (by decide) bytes hb
    · exact not_mem_encode_hex (c := '\n') (by decide) (by decide) bytes hb
  have hname : ssidName.head? = some 0x73 := by decide +kernel
  refine clean_setting hname ?_ (List.getLast?_eq_some_getLast hvalue)
    ⟨by decide, hblank _ (List.getLast_mem hvalue)⟩
  simp only [List.mem_append, List.mem_cons, not_or]
  exact ⟨by decide, by decide, not_mem_encode_hex (c := '#') (by decide) (by decide) bytes⟩

theorem clean_psk (psk : Str) :
    clean (0x09 :: (pskName ++ 0x3d :: pskValue psk) ++ [0x0a]) =
      pskName ++ 0x3d :: pskValue psk := by
  have hname : pskName.head? = some 0x70 := by decide +kernel
  unfold pskValue
  split
  case isTrue hraw =>
    obtain ⟨hlen, hdigits⟩ := isRaw_digits hraw
    rw [List.all_eq_true] at hdigits
    have hvalue : encode psk ≠ [] := by
      intro e
      simp [e] at hlen
    have hblank : isBlank ((encode psk).getLast hvalue) = false := by
      by_contra hblank
      have hdigit := hdigits _ (List.getLast_mem hvalue)
      simp only [Bool.not_eq_false, isBlank, Bool.or_eq_true, beq_iff_eq] at hblank
      rcases hblank with ((e | e) | e) | e
      all_goals
        rw [e] at hdigit
        exact absurd hdigit (by decide)
    refine clean_setting hname ?_ (List.getLast?_eq_some_getLast hvalue) ⟨by decide, hblank⟩
    simp only [List.mem_append, List.mem_cons, not_or]
    exact ⟨by decide, by decide, fun hmem => absurd (hdigits _ hmem) (by decide)⟩
  case isFalse =>
    have hline : pskName ++ 0x3d :: 0x22 :: (encode psk ++ [0x22]) ++ [0x0a] =
        (pskName ++ [0x3d]) ++ 0x22 :: encode psk ++ [0x22, 0x0a] := by simp
    have hbody : pskName ++ 0x3d :: 0x22 :: (encode psk ++ [0x22]) =
        (pskName ++ 0x3d :: 0x22 :: encode psk) ++ [0x22] := by simp
    have hfirst : (pskName ++ 0x3d :: 0x22 :: (encode psk ++ [0x22])).head? = some 0x70 := by
      rw [List.head?_append, hname]
      rfl
    have hlast : (pskName ++ 0x3d :: 0x22 :: (encode psk ++ [0x22])).getLast? = some 0x22 := by
      rw [hbody, List.getLast?_concat]
    exact clean_indented (by rw [hline, stripComment_quoted]) hfirst hlast (by decide)

theorem split_block (bytes : List UInt8) (hclean : '\n' ∉ psk) :
    splitInclusive 0x0a (encode (block (hex bytes) psk)) =
      (blockLines (hex bytes) psk).map (· ++ [0x0a]) := by
  rw [encode_block, splitInclusive_lines (newline_not_mem_blockLines bytes hclean)]

theorem parse_block {bytes : List UInt8} (hne : bytes ≠ []) (hclean : '\n' ∉ psk) :
    parseConf (encode (block (hex bytes) psk)) =
      some ⟨[], [[(ssidName, encode (hex bytes)), (pskName, pskValue psk), keyMgmt]]⟩ := by
  have hopen : clean (opening ++ [0x0a]) = opening := by decide +kernel
  have hmgmt : clean (0x09 :: (keyMgmt.1 ++ 0x3d :: keyMgmt.2) ++ [0x0a]) =
      keyMgmt.1 ++ 0x3d :: keyMgmt.2 := by decide +kernel
  have hclose : clean (closing ++ [0x0a]) = closing := by decide +kernel
  rw [parseConf, split_block bytes hclean]
  simp only [blockLines, List.map_cons, List.map_nil]
  rw [parseLines, hopen, if_neg (by decide), if_pos rfl,
    parseLines_setting (clean_ssid hne) (by decide),
    parseLines_setting (clean_psk psk) (by decide), parseLines_setting hmgmt (by decide),
    parseLines, hclose, if_neg (by decide), if_pos rfl]
  rfl

/-- `network_conf` writes five lines, which make one block with three settings that denote its
arguments, and nothing else; no other arguments give the same text. -/
theorem networkConf_confined (h : networkConf ssid psk = .ok conf) :
    (∃ name value,
      splitInclusive 0x0a (encode conf) = [opening, 0x09 :: (ssidName ++ 0x3d :: name),
        0x09 :: (pskName ++ 0x3d :: value), 0x09 :: (keyMgmt.1 ++ 0x3d :: keyMgmt.2),
        closing].map (· ++ [0x0a]) ∧
      parseConf (encode conf) =
        some ⟨[], [[(ssidName, name), (pskName, value), keyMgmt]]⟩ ∧
      ssidOf name = some (encode ssid) ∧
      (isRaw (encode psk) = true →
        ∃ key, fromHex (encode psk) = some key ∧ pskOf value = some (.raw key)) ∧
      (¬ isRaw (encode psk) = true → pskOf value = some (.passphrase (encode psk)))) ∧
    ∀ ssid' psk', networkConf ssid' psk' = .ok conf → ssid' = ssid ∧ psk' = psk := by
  obtain ⟨hne, hlen, hpsk, hclean, rfl⟩ := networkConf_ok h
  have hnewline : ∀ {ssid psk : Str}, (∀ c ∈ ssid ++ psk, c ∉ forbidden) → '\n' ∉ psk :=
    fun hclean hmem => hclean '\n' (List.mem_append_right _ hmem) (by decide)
  have hparse := parse_block (encode_ne_nil hne) (hnewline hclean)
  refine ⟨⟨_, _, split_block _ (hnewline hclean), hparse, ssidOf_hex hlen, pskOf_raw,
    fun hraw => ?_⟩, ?_⟩
  · exact pskOf_passphrase hraw (hpsk.resolve_right hraw)
  · intro ssid' psk' h'
    obtain ⟨hne', hlen', -, hclean', hsame⟩ := networkConf_ok h'
    have hparse' := parse_block (encode_ne_nil hne') (hnewline hclean')
    rw [← hsame, hparse] at hparse'
    simp only [Option.some.injEq, Conf.mk.injEq, List.cons.injEq, Prod.mk.injEq, true_and,
      and_true] at hparse'
    have hssid := congrArg ssidOf hparse'.1
    rw [ssidOf_hex hlen, ssidOf_hex hlen'] at hssid
    exact ⟨encode_injective (Option.some.inj hssid).symm, (pskValue_injective hparse'.2).symm⟩

end

/-- A passphrase with the characters of the grammar that it may hold. -/
theorem networkConf_confined_hash :
    ∃ conf name value, networkConf "caf\u00e9 # 2".toList "a=b \x7d #c\td".toList = .ok conf ∧
      (splitInclusive 0x0a (encode conf)).length = 5 ∧
      parseConf (encode conf) = some ⟨[], [[(ssidName, name), (pskName, value), keyMgmt]]⟩ ∧
      ssidOf name = some (encode "caf\u00e9 # 2".toList) ∧
      pskOf value = some (.passphrase (encode "a=b \x7d #c\td".toList)) := by
  have hconf : networkConf "caf\u00e9 # 2".toList "a=b \x7d #c\td".toList =
      .ok (block (hex (encode "caf\u00e9 # 2".toList)) "a=b \x7d #c\td".toList) := by
    decide +kernel
  obtain ⟨⟨name, value, hlines, hparse, hssid, -, hpsk⟩, -⟩ := networkConf_confined hconf
  exact ⟨_, name, value, hconf, by rw [hlines]; rfl, hparse, hssid, hpsk (by decide +kernel)⟩

end Egdod.Networks
