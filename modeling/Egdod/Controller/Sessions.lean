import Mathlib.Data.List.AList
import Egdod.Key

/-! The session map of `serve` and the selector lookup every routed request
goes through. Connections are numbered in the order they are dialled. -/
namespace Egdod.Controller

open Text

/-- A session. `id` is the connection's `stable_id`, which the transport may
use again once every handle on the connection is gone. -/
structure Session where
  conn : Nat
  id : Nat
  since : Nat
  deriving DecidableEq, Repr

/-- `Sessions`. The order of the entries stands for the map's own. -/
abbrev Sessions (K : Type) := AList fun _ : K => Session

/-- What `pick` fails with; the texts are made from these. -/
inductive PickError where
  | noAgent
  | noMatch (selector : Str)
  | ambiguous (n : Nat) (selector : Str)
  deriving DecidableEq

section
variable {K : Type} [KeyText K]

/-- Whether a selector names a key: nothing, `any`, or a prefix of its text. -/
def selects (selector : Str) (key : K) : Bool :=
  let sel := toLowercase (trim selector)
  sel.isEmpty || sel = "any".toList || sel.isPrefixOf (text key)

/-- The connected agents a selector names. -/
def selected (sessions : Sessions K) (selector : Str) : List (K × Nat) :=
  (sessions.entries.filter fun e => selects selector e.1).map fun e => (e.1, e.2.conn)

/-- `pick`: one agent or an error, never a choice. -/
def pick (sessions : Sessions K) (selector : Str) : Except PickError (K × Nat) :=
  match selected sessions selector with
  | [] => .error (if sessions.entries.isEmpty then .noAgent else .noMatch selector)
  | [found] => .ok found
  | found => .error (.ambiguous found.length selector)

theorem mem_selected {sessions : Sessions K} {selector : Str} {key : K} {conn : Nat} :
    (key, conn) ∈ selected sessions selector ↔
      selects selector key ∧ ∃ s, ⟨key, s⟩ ∈ sessions.entries ∧ s.conn = conn := by
  simp only [selected, List.mem_map, List.mem_filter, Prod.mk.injEq]
  constructor
  · rintro ⟨⟨k, s⟩, ⟨hmem, hsel⟩, rfl, rfl⟩
    exact ⟨hsel, s, hmem, rfl⟩
  · rintro ⟨hsel, s, hmem, rfl⟩
    exact ⟨⟨key, s⟩, ⟨hmem, hsel⟩, rfl, rfl⟩

/-- What `pick` returns is selected, and nothing else is. -/
theorem pick_ok {sessions : Sessions K} {selector : Str} {key : K} {conn : Nat} :
    pick sessions selector = .ok (key, conn) ↔ selected sessions selector = [(key, conn)] := by
  unfold pick
  split
  · rename_i h
    simp [h]
  · rename_i found h
    simp [h]
  · rename_i h₁ h₂
    constructor
    · intro h
      cases h
    · intro h
      exact absurd h (h₂ _)

theorem toLowercase_text (key : K) : toLowercase (text key) = text key := by
  have hall : (hexDigits.all fun c => c.toLower = c) = true := by decide
  unfold toLowercase
  rw [List.map_congr_left (g := id) fun c hc => by
    simpa using List.all_eq_true.mp hall c (KeyText.hex_text key c hc), List.map_id]

/-- A whole key names itself and nobody else. -/
theorem selects_text {key other : K} : selects (text key) other = true ↔ other = key := by
  have hlen := KeyText.length_text key
  have hany : text key ≠ "any".toList := fun h => by simp [h] at hlen
  have hsame : (text key).length = (text other).length :=
    hlen.trans (KeyText.length_text other).symm
  simp only [selects, trim_eq_self (text_not_whitespace key), toLowercase_text, Bool.or_eq_true,
    List.isEmpty_iff, text_ne_nil, hany, decide_false, Bool.false_eq_true, or_self, false_or,
    List.isPrefixOf_iff_prefix]
  constructor
  · intro h
    exact (text_injective (h.eq_of_length hsame)).symm
  · rintro rfl
    exact List.prefix_refl _

/-- With one agent connected, a selector that names it picks it. -/
theorem pick_singleton {selector : Str} {key : K} {session : Session}
    (h : selects selector key = true) :
    pick (AList.singleton key session) selector = .ok (key, session.conn) := by
  rw [pick_ok]
  simp [selected, h]

end

section
variable {K : Type} [DecidableEq K] [KeyText K]

/-- A picked connection is the one the map has for its key. -/
theorem pick_lookup {sessions : Sessions K} {selector : Str} {key : K} {conn : Nat}
    (h : pick sessions selector = .ok (key, conn)) :
    selects selector key ∧ ∃ s, sessions.lookup key = some s ∧ s.conn = conn := by
  have hmem : (key, conn) ∈ selected sessions selector := by
    rw [pick_ok.mp h]
    exact List.mem_singleton_self _
  obtain ⟨hsel, s, hs, hconn⟩ := mem_selected.mp hmem
  exact ⟨hsel, s, AList.mem_lookup_iff.mpr hs, hconn⟩

end

end Egdod.Controller
