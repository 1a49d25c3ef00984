import Stowage.Trail

/-!
# Trailed tables

A trailed table is a growing table of values whose writes are logged on a trail, each with what has
to be kept of the value it replaced.  Going back to a checkpoint undoes the writes by it, newest first.
Growth is not undone: a value added after the checkpoint stays, with the contents it was added with.

* `Undo` — how a value becomes the one that it replaced.
* `Trailed.grow`, `Trailed.overwrite` — add a value, overwrite a value.
* `Trailed.set` — overwrites a value and keeps all of it.
* `Trailed.mark`, `Trailed.restore` — add a checkpoint, go back to an earlier one.
* `Trailed.revert` — the same, faulting unless the checkpoint is an earlier one.
-/

set_option autoImplicit false

namespace Stowage

/-- How a value becomes the one it replaced, by what was kept of that. -/
class Undo (α ε : Type) where
  back : α → ε → α

/-- A value that was kept itself. -/
instance (α : Type) : Undo α α := ⟨fun _ kept => kept⟩

/-- A growing table of values with the log of its writes. -/
structure Trailed (α : Type) (ε : Type := α) where
  /-- The current values. -/
  values : Array α
  /-- For every write the position and what was kept of the value that was replaced. -/
  trail : Trail (Nat × ε)
  deriving Repr

namespace Trailed

variable {α ε : Type}

/-- The table without values, at checkpoint 0. -/
def empty : Trailed α ε := ⟨#[], .empty⟩

def size (t : Trailed α ε) : Nat := t.values.size

def checkpoint (t : Trailed α ε) : Nat := t.trail.checkpoint

/-- The value at a position, if there is one. -/
def get? (t : Trailed α ε) (i : Nat) : Option α := t.values[i]?

/-- Adds a value at position `t.size`. -/
def grow (t : Trailed α ε) (a : α) : Trailed α ε := { t with values := t.values.push a }

/-- Overwrites a value and logs what is to be kept of the one it replaces.  Nothing happens outside the
table. -/
def overwrite (t : Trailed α ε) (i : Nat) (keep : α → ε) (a : α) : Trailed α ε :=
  if h : i < t.values.size then
    ⟨t.values.set i a h, t.trail.push (i, keep t.values[i])⟩
  else t

/-- Overwrites a value and keeps all of the one it replaces. -/
def set (t : Trailed α) (i : Nat) (a : α) : Trailed α := t.overwrite i id a

def mark (t : Trailed α ε) : Trailed α ε := { t with trail := t.trail.mark }

/-- Undoes writes, in the order of the list. -/
def undo [Undo α ε] (values : Array α) (undone : List (Nat × ε)) : Array α :=
  undone.foldl (fun vs w => vs.modify w.1 (Undo.back · w.2)) values

/-- Goes back to checkpoint `k`.  Nothing happens unless `k` is before the current checkpoint. -/
def restore [Undo α ε] (t : Trailed α ε) (k : Nat) : Trailed α ε :=
  let (undone, trail) := t.trail.unwind k
  ⟨undo t.values undone, trail⟩

/-- Whether everything that was overwritten since checkpoint `k` has its place. -/
def canUndo (t : Trailed α ε) (k : Nat) : Bool :=
  (t.trail.unwind k).1.all fun w => decide (w.1 < t.size)

/-- Goes back to checkpoint `k`, which has to be before the current one. -/
def revert [Undo α ε] (t : Trailed α ε) (k : Nat) : Except Fault (Trailed α ε) := do
  require (decide (k < t.checkpoint)) .precondition
  require (t.canUndo k) .outOfRange
  return t.restore k

/-! ## The values after each operation -/

@[simp] theorem size_grow (t : Trailed α ε) (a : α) : (t.grow a).size = t.size + 1 := by
  simp [size, grow]

@[simp] theorem size_overwrite (t : Trailed α ε) (i : Nat) (keep : α → ε) (a : α) :
    (t.overwrite i keep a).size = t.size := by
  unfold overwrite size; split <;> simp

@[simp] theorem size_set (t : Trailed α) (i : Nat) (a : α) : (t.set i a).size = t.size :=
  size_overwrite t i id a

@[simp] theorem size_mark (t : Trailed α ε) : t.mark.size = t.size := rfl

@[simp] theorem checkpoint_grow (t : Trailed α ε) (a : α) : (t.grow a).checkpoint = t.checkpoint :=
  rfl

@[simp] theorem checkpoint_overwrite (t : Trailed α ε) (i : Nat) (keep : α → ε) (a : α) :
    (t.overwrite i keep a).checkpoint = t.checkpoint := by
  unfold overwrite checkpoint; split <;> simp

@[simp] theorem checkpoint_set (t : Trailed α) (i : Nat) (a : α) :
    (t.set i a).checkpoint = t.checkpoint := checkpoint_overwrite t i id a

@[simp] theorem checkpoint_mark (t : Trailed α ε) : t.mark.checkpoint = t.checkpoint + 1 :=
  t.trail.checkpoint_mark

theorem get?_overwrite (t : Trailed α ε) (i j : Nat) (keep : α → ε) (a : α) :
    (t.overwrite i keep a).get? j = if i = j ∧ i < t.size then some a else t.get? j := by
  unfold overwrite get? size
  by_cases h : i < t.values.size
  · simp only [h, dif_pos, and_true, Array.getElem?_set]
  · simp [h]

theorem get?_set (t : Trailed α) (i j : Nat) (a : α) :
    (t.set i a).get? j = if i = j ∧ i < t.size then some a else t.get? j :=
  get?_overwrite t i j id a

variable [Undo α ε]

@[simp] theorem size_undo (values : Array α) (undone : List (Nat × ε)) :
    (undo values undone).size = values.size := by
  unfold undo
  induction undone generalizing values with
  | nil => rfl
  | cons w ws ih => simp [List.foldl_cons, ih]

@[simp] theorem size_restore (t : Trailed α ε) (k : Nat) : (t.restore k).size = t.size := by
  simp [restore, size]

/-- A new checkpoint alone is undone without a trace. -/
theorem restore_mark_self (t : Trailed α ε) : t.mark.restore t.checkpoint = t := by
  simp [restore, mark, checkpoint, Trail.unwind_mark_self, undo]

end Trailed

end Stowage
