import Mathlib.Data.List.Infix

/-! Memory of a fixed size. An access that leaves it has no result, so that a
program that has one has stayed inside. What a program knows of a block is
what it holds from its start on; the rest is whatever was there. -/
namespace Memory

variable {α : Type} {size : Nat}

structure Block (α : Type) (size : Nat) where
  cells : List α
  length_cells : cells.length = size
  deriving DecidableEq

/-- All cells alike. -/
def Block.filled (size : Nat) (a : α) : Block α size :=
  ⟨List.replicate size a, List.length_replicate⟩

/-- The cells from `i` on are overwritten. -/
def Block.store (b : Block α size) (i : Nat) (xs : List α) : Option (Block α size) :=
  if h : i + xs.length ≤ size then
    some ⟨b.cells.take i ++ xs ++ b.cells.drop (i + xs.length), by
      have := b.length_cells
      simp only [List.length_append, List.length_take, List.length_drop]
      omega⟩
  else none

def Block.load (b : Block α size) (i n : Nat) : Option (List α) :=
  if i + n ≤ size then some ((b.cells.drop i).take n) else none

def Block.get (b : Block α size) (i : Nat) : Option α := b.cells[i]?

/-- `xs` stands at the start of the block. -/
def Block.Holds (b : Block α size) (xs : List α) : Prop := xs <+: b.cells

theorem Block.Holds.length_le {b : Block α size} {xs : List α} (h : b.Holds xs) :
    xs.length ≤ size := by
  rw [← b.length_cells]
  exact List.IsPrefix.length_le h

theorem Block.holds_nil (b : Block α size) : b.Holds [] := List.nil_prefix

theorem Block.Holds.store {b : Block α size} {xs : List α} (h : b.Holds xs) (ys : List α)
    (hfit : xs.length + ys.length ≤ size) :
    ∃ b', b.store xs.length ys = some b' ∧ b'.Holds (xs ++ ys) := by
  obtain ⟨rest, hrest⟩ := h
  have htake : b.cells.take xs.length = xs := by rw [← hrest, List.take_left]
  refine ⟨_, dif_pos hfit, ?_⟩
  show xs ++ ys <+: b.cells.take xs.length ++ ys ++ _
  rw [htake]
  exact List.prefix_append _ _

theorem Block.Holds.load {b : Block α size} (xs ys : List α) (h : b.Holds (xs ++ ys)) :
    b.load xs.length ys.length = some ys := by
  have hfit : xs.length + ys.length ≤ size := by simpa using h.length_le
  obtain ⟨rest, hrest⟩ := h
  rw [Block.load, if_pos hfit, ← hrest, List.append_assoc, List.drop_left, List.take_left]

theorem Block.Holds.get {b : Block α size} {xs ys : List α} {c : α} (h : b.Holds (xs ++ c :: ys)) :
    b.get xs.length = some c := by
  obtain ⟨rest, hrest⟩ := h
  simp [Block.get, ← hrest]

theorem Block.Holds.left {b : Block α size} {xs ys : List α} (h : b.Holds (xs ++ ys)) :
    b.Holds xs := (List.prefix_append xs ys).trans h

end Memory
