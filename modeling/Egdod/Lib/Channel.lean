import Mathlib.Data.List.Basic
import Mathlib.Data.List.Infix

/-! A stream from one writer to one reader. What was written waits in order
until it is read, and an end may follow it. What one party does to its side
leaves alone all that the other relies on: a write changes nothing that was
read, and a read nothing that was written. -/

/-- What the reader has had, what waits for it, and whether an end follows. -/
structure Channel (α : Type) where
  taken : List α
  waiting : List α
  closed : Bool
  deriving DecidableEq

namespace Channel

variable {α : Type} {c c' : Channel α} {xs : List α}

def fresh : Channel α := ⟨[], [], false⟩

/-- All that was ever written. -/
def sent (c : Channel α) : List α := c.taken ++ c.waiting

def put (c : Channel α) (xs : List α) : Channel α := { c with waiting := c.waiting ++ xs }

def close (c : Channel α) : Channel α := { c with closed := true }

/-- Takes `xs`, if that is what waits first. -/
def read [DecidableEq α] (c : Channel α) (xs : List α) : Option (Channel α) :=
  if xs.isPrefixOf c.waiting then some ⟨c.taken ++ xs, c.waiting.drop xs.length, c.closed⟩
  else none

/-- Whether a read finds the end. -/
def atEnd (c : Channel α) : Bool := c.closed && c.waiting.isEmpty

@[simp] theorem taken_fresh : (fresh : Channel α).taken = [] := rfl

@[simp] theorem sent_fresh : (fresh : Channel α).sent = [] := rfl

@[simp] theorem closed_fresh : (fresh : Channel α).closed = false := rfl

@[simp] theorem taken_put : (c.put xs).taken = c.taken := rfl

@[simp] theorem sent_put : (c.put xs).sent = c.sent ++ xs := by
  simp [sent, put]

@[simp] theorem closed_put : (c.put xs).closed = c.closed := rfl

@[simp] theorem taken_close : c.close.taken = c.taken := rfl

@[simp] theorem sent_close : c.close.sent = c.sent := rfl

@[simp] theorem waiting_close : c.close.waiting = c.waiting := rfl

@[simp] theorem closed_close : c.close.closed = true := rfl

theorem taken_isPrefix (c : Channel α) : c.taken <+: c.sent := List.prefix_append _ _

theorem atEnd_iff : c.atEnd = true ↔ c.closed = true ∧ c.waiting = [] := by
  simp [atEnd]

theorem taken_of_waiting (h : c.waiting = []) : c.taken = c.sent := by
  simp [sent, h]

section
variable [DecidableEq α]

theorem read_eq_some (h : c.read xs = some c') :
    c'.taken = c.taken ++ xs ∧ c.waiting = xs ++ c'.waiting ∧ c'.closed = c.closed := by
  unfold read at h
  split at h
  · rename_i hbegin
    cases h
    obtain ⟨rest, hrest⟩ := List.isPrefixOf_iff_prefix.mp hbegin
    exact ⟨rfl, by simp [← hrest], rfl⟩
  · cases h

theorem taken_read (h : c.read xs = some c') : c'.taken = c.taken ++ xs := (read_eq_some h).1

theorem sent_read (h : c.read xs = some c') : c'.sent = c.sent := by
  obtain ⟨htaken, hwaiting, -⟩ := read_eq_some h
  simp [sent, htaken, hwaiting]

theorem closed_read (h : c.read xs = some c') : c'.closed = c.closed := (read_eq_some h).2.2

end

end Channel
