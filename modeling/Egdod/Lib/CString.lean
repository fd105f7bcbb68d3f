import Egdod.Lib.Text

/-! Strings that a NUL ends, read from memory. A pointer is the memory from it
on, and a read that finds no end in it has no result. Searching the bytes of a
text finds what searching the text finds. -/
namespace CString

open Text

/-- The bytes up to one of `reject` or the end of the string. -/
def strcspn (reject : List UInt8) : List UInt8 → Option (List UInt8)
  | [] => none
  | b :: p => if b = 0 ∨ b ∈ reject then some [] else (strcspn reject p).map (b :: ·)

/-- The bytes of a string. -/
def string (p : List UInt8) : Option (List UInt8) := strcspn [] p

/-- The first `c` of a string, if it has one. -/
def strchr (c : UInt8) : List UInt8 → Option (Option (List UInt8))
  | [] => none
  | b :: p => if b = c then some (some (b :: p)) else if b = 0 then some none else strchr c p

/-- Whether `strncmp` finds the bytes of a string without its end at the pointer. -/
def strncmp : List UInt8 → List UInt8 → Option Bool
  | [], _ => some true
  | _ :: _, [] => none
  | k :: key, b :: p => if b = k then strncmp key p else some false

theorem strcspn_append {reject xs : List UInt8} (h : ∀ b ∈ xs, b ≠ 0 ∧ b ∉ reject)
    (p : List UInt8) : strcspn reject (xs ++ p) = (strcspn reject p).map (xs ++ ·) := by
  induction xs with
  | nil => simp
  | cons b xs ih =>
    obtain ⟨hb, hxs⟩ := List.forall_mem_cons.mp h
    rw [List.cons_append, strcspn, if_neg (not_or.mpr hb), ih hxs, Option.map_map]
    rfl

theorem strchr_append {c : UInt8} {xs : List UInt8} (h : ∀ b ∈ xs, b ≠ 0 ∧ b ≠ c)
    (p : List UInt8) : strchr c (xs ++ p) = strchr c p := by
  induction xs with
  | nil => rfl
  | cons b xs ih =>
    obtain ⟨hb, hxs⟩ := List.forall_mem_cons.mp h
    rw [List.cons_append, strchr, if_neg hb.2, if_neg hb.1, ih hxs]

theorem string_terminated {s : List UInt8} (h : 0 ∉ s) (junk : List UInt8) :
    string (s ++ 0 :: junk) = some s := by
  rw [string, strcspn_append fun b hb => ⟨fun heq => h (heq ▸ hb), by simp⟩]
  simp [strcspn]

/-! ## The bytes of a text -/

theorem zero_not_mem_encode {s : Str} (h : '\x00' ∉ s) : 0 ∉ encode s :=
  fun hmem => h ((mem_encode_ascii (by decide)).mp hmem)

theorem toUInt8_ne_zero {c : Char} (hc : c.toNat < 128) (h : c ≠ '\x00') : c.toUInt8 ≠ 0 := by
  intro heq
  have hnat := toNat_toUInt8 hc
  rw [heq] at hnat
  exact h (Char.toNat_inj.mp hnat.symm)

/-- Another character does not start with the byte of an ASCII character. -/
theorem exists_first_byte {c k : Char} (hk : k.toNat < 128) (h : c ≠ k) :
    ∃ b bs, String.utf8EncodeChar c = b :: bs ∧ b ≠ k.toUInt8 := by
  cases hbytes : String.utf8EncodeChar c with
  | nil =>
    have hne : encode [c] ≠ [] := encode_ne_nil (by simp)
    simp [encode, hbytes] at hne
  | cons b bs =>
    refine ⟨b, bs, rfl, ?_⟩
    rintro rfl
    have hmem : k.toUInt8 ∈ String.utf8EncodeChar c := hbytes ▸ List.mem_cons_self
    have hnat := toNat_toUInt8 hk
    rw [mem_utf8EncodeChar (by omega), hnat] at hmem
    exact h (Char.toNat_inj.mp hmem.symm)

/-- The byte at the pointer is an ASCII character's where the text starts with it. -/
theorem head_encode {c : Char} (hc : c.toNat < 128) (hzero : c ≠ '\x00') (text : Str)
    (junk : List UInt8) :
    ∃ b p, encode text ++ 0 :: junk = b :: p ∧ (b = c.toUInt8 ↔ text.head? = some c) := by
  cases text with
  | nil => exact ⟨0, junk, rfl, by simp [(toUInt8_ne_zero hc hzero).symm]⟩
  | cons d text =>
    by_cases hd : d = c
    · subst hd
      exact ⟨d.toUInt8, encode text ++ 0 :: junk, by rw [encode_cons_ascii hc]; rfl, by simp⟩
    · obtain ⟨b, bs, hbytes, hb⟩ := exists_first_byte hc hd
      exact ⟨b, bs ++ encode text ++ 0 :: junk, by simp [encode, hbytes], by simp [hb, hd]⟩

section
variable {text : Str} (htext : '\x00' ∉ text) (junk : List UInt8)
include htext

/-- Bytes in which neither the end nor `c` stands. -/
theorem bytes_plain {c : Char} (hc : c.toNat < 128) {s : Str} (hs : ∀ d ∈ s, d ∈ text)
    (hcs : c ∉ s) : ∀ b ∈ encode s, b ≠ 0 ∧ b ≠ c.toUInt8 := by
  intro b hb
  constructor
  · rintro rfl
    exact zero_not_mem_encode (fun hmem => htext (hs _ hmem)) hb
  · rintro rfl
    exact hcs ((mem_encode_ascii hc).mp hb)

theorem strcspn_encode {c : Char} (hc : c.toNat < 128) :
    strcspn [c.toUInt8] (encode text ++ 0 :: junk) = some (encode (text.takeWhile (· ≠ c))) := by
  by_cases hmem : c ∈ text
  · obtain ⟨a, rest, rfl, ha⟩ := List.eq_append_cons_of_mem hmem
    have hplain := bytes_plain htext hc (s := a) (by simp +contextual) ha
    rw [takeWhile_ne_append ha, encode_append, encode_cons_ascii hc, List.append_assoc,
      strcspn_append (by simpa using hplain)]
    simp [strcspn]
  · have hplain := bytes_plain htext hc (fun _ hd => hd) hmem
    rw [List.takeWhile_eq_self_iff.mpr (forall_ne_of_not_mem hmem),
      strcspn_append (by simpa using hplain)]
    simp [strcspn]

theorem strchr_encode {c : Char} (hc : c.toNat < 128) (hzero : c ≠ '\x00') :
    strchr c.toUInt8 (encode text ++ 0 :: junk) =
      some (match text.dropWhile (· ≠ c) with
        | [] => none
        | rest => some (encode rest ++ 0 :: junk)) := by
  by_cases hmem : c ∈ text
  · obtain ⟨a, rest, rfl, ha⟩ := List.eq_append_cons_of_mem hmem
    have hplain := bytes_plain htext hc (s := a) (by simp +contextual) ha
    rw [dropWhile_ne_append ha, encode_append, encode_cons_ascii hc, List.append_assoc,
      strchr_append hplain]
    simp [strchr, encode_cons_ascii hc]
  · have hplain := bytes_plain htext hc (fun _ hd => hd) hmem
    rw [List.dropWhile_eq_nil_iff.mpr (forall_ne_of_not_mem hmem), strchr_append hplain]
    simp [strchr, (toUInt8_ne_zero hc hzero).symm]

/-- Comparing with a string of ASCII characters compares characters. -/
theorem strncmp_encode {key : Str} (hkey : ∀ k ∈ key, k.toNat < 128 ∧ k ≠ '\x00') :
    strncmp (encode key) (encode text ++ 0 :: junk) =
      some (decide (text.take key.length = key)) := by
  induction key generalizing text with
  | nil => simp [encode, strncmp]
  | cons k key ih =>
    rw [List.forall_mem_cons] at hkey
    rw [encode_cons_ascii hkey.1.1]
    cases text with
    | nil =>
      have hbyte := toUInt8_ne_zero hkey.1.1 hkey.1.2
      simp [encode, strncmp, hbyte.symm]
    | cons c text =>
      by_cases hc : c = k
      · subst hc
        rw [encode_cons_ascii hkey.1.1, List.cons_append, strncmp, if_pos rfl,
          ih (fun hmem => htext (List.mem_cons_of_mem _ hmem)) hkey.2]
        simp
      · obtain ⟨b, bs, hbytes, hb⟩ := exists_first_byte hkey.1.1 hc
        simp [encode, hbytes, strncmp, hb, hc]

end

end CString
