import Stowage.Table
import Stowage.Trailed

/-!
# Cells

Cells are integers that are restored on backtracking: a trailed table of integers.  A write of the
value that a cell already has leaves no entry on the trail.  What is added up in a cell is taken to fit in
64 bits.

* `Cells.allocate`, `Cells.allocateEach` — add a block of cells.
* `Cells.read`, `Cells.write`, `Cells.add` — for a cell that exists.
* `Cells.fetch`, `Cells.assign`, `Cells.increase` — the same, faulting on a cell that does not.
-/

set_option autoImplicit false

namespace Stowage

/-- Integers that are restored on backtracking, addressed by position. -/
abbrev Cells := Trailed Int

namespace Cells

def empty : Cells := Trailed.empty

/-- Adds a block of `count` cells holding `value`; returns the position of the first, which is the
next free position if the block is empty. -/
def allocate (c : Cells) (count : Nat) (value : Int) : Nat × Cells :=
  (c.size, { c with values := c.values ++ Array.replicate count value })

/-- Adds a cell for each of the values; returns the position of the first, which is the next free position
if there is none. -/
def allocateEach (c : Cells) (values : List Int) : Nat × Cells :=
  (c.size, { c with values := c.values ++ values.toArray })

/-- The cell `amount` places after cell `first` of a block; whether the block is that long is not
checked. -/
def offset (first amount : Nat) : Nat := first + amount

/-- The value of a cell; 0 for a cell that does not exist. -/
def read (c : Cells) (i : Nat) : Int := (c.get? i).getD 0

def write (c : Cells) (i : Nat) (value : Int) : Cells :=
  if c.read i = value then c else c.set i value

def add (c : Cells) (i : Nat) (amount : Int) : Cells := c.write i (c.read i + amount)

/-- The value of a cell; faults if it does not exist. -/
def fetch (c : Cells) (i : Nat) : Except Fault Int := Table.fetch c.values i

/-- Gives a cell a new value; faults if it does not exist. -/
def assign (c : Cells) (i : Nat) (value : Int) : Except Fault Cells := do
  let _ ← c.fetch i
  return c.write i value

/-- Adds to the value of a cell; faults if it does not exist. -/
def increase (c : Cells) (i : Nat) (amount : Int) : Except Fault Cells := do
  let _ ← c.fetch i
  return c.add i amount

/-- Goes back to checkpoint `k`, which has to be before the current one. -/
def revert (c : Cells) (k : Nat) : Except Fault Cells := Trailed.revert c k

/-! ## Reading after writing -/

@[simp] theorem size_write (c : Cells) (i : Nat) (v : Int) : (c.write i v).size = c.size := by
  unfold write; split <;> simp

theorem read_write (c : Cells) {i : Nat} (h : i < c.size) (j : Nat) (v : Int) :
    (c.write i v).read j = if i = j then v else c.read j := by
  unfold write
  split
  next same =>
    split
    next eq => rw [← eq, same]
    next => rfl
  next => unfold read; rw [Trailed.get?_set]; simp only [h, and_true]; split <;> simp

theorem size_allocate (c : Cells) (count : Nat) (value : Int) :
    (c.allocate count value).2.size = c.size + count := by
  simp [allocate, Trailed.size]

/-- A new block holds its value, and the cells before it keep theirs. -/
theorem read_allocate (c : Cells) (count : Nat) (value : Int) (i : Nat) :
    (c.allocate count value).2.read i =
      if c.size ≤ i ∧ i < c.size + count then value else c.read i := by
  show ((c.values ++ Array.replicate count value)[i]?).getD 0 =
    if c.values.size ≤ i ∧ i < c.values.size + count then value else c.values[i]?.getD 0
  rw [Array.getElem?_append]
  split
  next old => rw [if_neg (fun new => absurd old (Nat.not_lt.2 new.1))]
  next new =>
    rw [Array.getElem?_replicate]
    split
    next inside =>
      rw [if_pos (by omega)]
      rfl
    next outside =>
      rw [if_neg (by omega), Array.getElem?_eq_none (Nat.not_lt.1 new)]

end Cells

end Stowage
