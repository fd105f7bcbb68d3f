import Mathlib.Data.Finset.Dedup
import Mathlib.Data.Finset.Insert
import Mathlib.Data.Finset.Union
import Egdod.Key
import Egdod.Lib.Files

/-! The `approved` file: one key a line, hand-editable, read afresh on every
connection attempt and extended textually by `approve`. -/
namespace Egdod.State

open Text Posix

/-- `std::io::ErrorKind`, as far as the program tells kinds apart. -/
inductive IoError where
  | notFound
  | other
  deriving DecidableEq, Repr

/-- `std::fs::read`, of a name that may be missing, when the call itself works. -/
def ofEntry : Option Bytes → Except IoError Bytes
  | none => .error .notFound
  | some bytes => .ok bytes

/-- `std::fs::read_to_string`: bytes that are not UTF-8 are an error too. -/
def readToString : Except IoError Bytes → Except IoError Str
  | .error e => .error e
  | .ok bytes => match decode bytes with
    | some body => .ok body
    | none => .error .other

section
variable {K : Type} [KeyText K]

/-- The key a line of `approved` names: its first field before any `#`. -/
def lineKey (line : Str) : Option K :=
  let line := trim (line.takeWhile (· ≠ '#'))
  if line = [] then none
  else match (splitWhitespace line).head? with
    | none => none
    | some key => KeyText.parse key

def approvedKeys (body : Str) : List K := (lines body).filterMap lineKey

/-- The body `approve` writes back. -/
def appendKey (body : Str) (key : K) : Str :=
  let body := if body ≠ [] ∧ body.getLast? ≠ some '\n' then body ++ ['\n'] else body
  body ++ (text key ++ ['\n'])

section
variable [DecidableEq K]

/-- `StateDir::approved`: no file is the empty set, an unreadable one an error. -/
def approved (file : Except IoError Bytes) : Except IoError (Finset K) :=
  match readToString file with
  | .ok body => .ok (approvedKeys body).toFinset
  | .error .notFound => .ok ∅
  | .error e => .error e

/-- The keys in force: a list that cannot be read approves nobody. -/
def approvedSet (file : Except IoError Bytes) : Finset K :=
  match approved file with
  | .ok set => set
  | .error _ => ∅

end

/-! ## Reading back what `approve` appends -/

theorem lineKey_append_cr (line : Str) :
    (lineKey (line ++ ['\r']) : Option K) = lineKey line := by
  have hcut : trim ((line ++ ['\r']).takeWhile (· ≠ '#'))
      = trim (line.takeWhile (· ≠ '#')) := by
    by_cases hash : ∀ c ∈ line, c ≠ '#'
    · have hall : (line ++ ['\r']).takeWhile (· ≠ '#') = line ++ ['\r'] := by
        rw [List.takeWhile_eq_self_iff]
        intro c hc
        rcases List.mem_append.mp hc with hc | hc
        · simpa using hash c hc
        · have : c = '\r' := by simpa using hc
          subst this
          decide
      have hline : line.takeWhile (· ≠ '#') = line := by
        rw [List.takeWhile_eq_self_iff]
        intro c hc
        simpa using hash c hc
      rw [hall, hline, trim_append_ws (by decide)]
    · have hmem : ∃ c ∈ line, ¬ (decide (c ≠ '#')) = true := by simpa using hash
      obtain ⟨c, hc, hne⟩ := hmem
      rw [List.takeWhile_append, if_neg]
      intro hlen
      have hall := (List.takeWhile_eq_self_iff.mp
        ((List.takeWhile_prefix _).eq_of_length hlen)) c hc
      exact hne hall
  simp only [lineKey, hcut]

/-- Adding the `\n` a last line lacks changes no key, even after a bare `\r`. -/
theorem lineKey_strip_cr (line : Str) :
    (lineKey ((stripSuffix '\r' line).getD line) : Option K) = lineKey line := by
  unfold stripSuffix
  split
  · rename_i h
    obtain ⟨ys, rfl⟩ := List.getLast?_eq_some_iff.mp h
    rw [Option.getD_some, List.dropLast_concat, lineKey_append_cr]
  · rfl

theorem approvedKeys_append {a : Str} (h : Closed '\n' a) (b : Str) :
    (approvedKeys (a ++ b) : List K) = approvedKeys a ++ approvedKeys b := by
  simp [approvedKeys, lines_append h]

/-- Closing the last line of a list keeps its keys. -/
theorem approvedKeys_close (body : Str) :
    (approvedKeys (body ++ ['\n']) : List K) = approvedKeys body := by
  obtain ⟨a, b, rfl, ha, hb⟩ := exists_closed_append '\n' body
  rw [List.append_assoc, approvedKeys_append ha, approvedKeys_append ha]
  congr 1
  simp only [approvedKeys, lines_line hb]
  by_cases hne : b = []
  · subst hne
    simp [lines, splitInclusive, stripSuffix, lineKey, trim]
  · rw [lines_piece hb hne, List.filterMap_cons, List.filterMap_cons, lineKey_strip_cr]

theorem lineKey_text (key : K) : lineKey (text key) = some key := by
  obtain ⟨_, _, hash⟩ := text_plain key
  have hcut : (text key).takeWhile (· ≠ '#') = text key := by
    rw [List.takeWhile_eq_self_iff]
    intro c hc
    have : c ≠ '#' := fun e => hash (e ▸ hc)
    simpa using this
  have hws := text_not_whitespace key
  simp only [lineKey, hcut, trim_eq_self hws, text_ne_nil, if_false,
    splitWhitespace_eq_self hws (text_ne_nil key), List.head?_cons, KeyText.parse_text]

theorem approvedKeys_line (key : K) : approvedKeys (text key ++ ['\n']) = [key] := by
  obtain ⟨hnl, _, _⟩ := text_plain key
  simp [approvedKeys, lines_line hnl, lineKey_strip_cr, lineKey_text]

/-- Appending a key adds that key and nothing else, whatever the list held. -/
theorem approvedKeys_appendKey (body : Str) (key : K) :
    approvedKeys (appendKey body key) = approvedKeys body ++ [key] := by
  simp only [appendKey]
  split
  · have hclosed : Closed '\n' (body ++ ['\n']) := .inr (by simp)
    rw [approvedKeys_append hclosed, approvedKeys_close, approvedKeys_line]
  · rename_i h
    have hclosed : Closed '\n' body := by
      by_cases hb : body = []
      · exact .inl hb
      · exact .inr (by simpa [hb] using h)
    rw [approvedKeys_append hclosed, approvedKeys_line]

section
variable [DecidableEq K]

theorem approvedSet_encode (body : Str) :
    (approvedSet (.ok (encode body)) : Finset K) = (approvedKeys body).toFinset := by
  simp [approvedSet, approved, readToString]

theorem approvedSet_appendKey (body : Str) (key : K) :
    (approvedSet (.ok (encode (appendKey body key))) : Finset K)
      = insert key (approvedSet (.ok (encode body))) := by
  rw [approvedSet_encode, approvedSet_encode, approvedKeys_appendKey]
  ext k
  simp

end

end

end Egdod.State
