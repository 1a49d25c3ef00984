import Stowage.Fault

/-!
# Trails

A trail is a log of entries divided by checkpoints.  Going back to a checkpoint removes the entries
made after it and hands them over newest first, so that whoever made them can undo them in the
right order.

The entries are kept in one array, oldest first, and for every checkpoint but the first the number of
entries that there were when it was added.  The number of these is the current checkpoint, which starts
at 0.

* `Trail.push`, `Trail.mark` — add an entry, add a checkpoint.
* `Trail.unwind` — goes back to an earlier checkpoint.
* `Trail.rewind` — the same, faulting unless the checkpoint is an earlier one.
-/

set_option autoImplicit false

namespace Stowage

/-- A log of entries divided by checkpoints. -/
structure Trail (α : Type) where
  /-- The entries, oldest first. -/
  log : Array α
  /-- For every checkpoint but the first the number of entries when it was added. -/
  starts : Array Nat
  /-- A later checkpoint was added to no fewer entries, and there are no fewer now. -/
  ascending : (starts.push log.size).toList.Pairwise (· ≤ ·)
  deriving DecidableEq, Repr

namespace Trail

variable {α : Type}

/-- The trail without entries, at checkpoint 0. -/
def empty : Trail α := ⟨#[], #[], List.pairwise_singleton _ _⟩

def checkpoint (t : Trail α) : Nat := t.starts.size

def entries (t : Trail α) : List α := t.log.toList.reverse

def size (t : Trail α) : Nat := t.log.size

theorem start_le (t : Trail α) {start : Nat} (member : start ∈ t.starts) : start ≤ t.log.size := by
  have ascending := t.ascending
  rw [Array.toList_push, List.pairwise_append] at ascending
  exact ascending.2.2 start (Array.mem_toList_iff.2 member) _ (List.mem_singleton_self _)

theorem ascending_of_le (t : Trail α) {n : Nat} (more : t.log.size ≤ n) :
    (t.starts.push n).toList.Pairwise (· ≤ ·) := by
  have ascending := t.ascending
  rw [Array.toList_push, List.pairwise_append] at ascending ⊢
  refine ⟨ascending.1, List.pairwise_singleton _ _, fun start member last single => ?_⟩
  rw [List.mem_singleton.1 single]
  exact Nat.le_trans (t.start_le (Array.mem_toList_iff.1 member)) more

def push (t : Trail α) (a : α) : Trail α where
  log := t.log.push a
  starts := t.starts
  ascending := t.ascending_of_le (by simp)

def mark (t : Trail α) : Trail α where
  log := t.log
  starts := t.starts.push t.log.size
  ascending := by
    rw [Array.toList_push, List.pairwise_append]
    refine ⟨t.ascending, List.pairwise_singleton _ _, fun start member last single => ?_⟩
    rw [List.mem_singleton.1 single]
    rcases Array.mem_push.1 (Array.mem_toList_iff.1 member) with old | rfl
    · exact t.start_le old
    · exact Nat.le_refl _

/-- The number of entries when the checkpoint after `k` was added; all of them if it was not. -/
def startAfter (t : Trail α) (k : Nat) : Nat := t.starts[k]?.getD t.log.size

theorem startAfter_le (t : Trail α) (k : Nat) : t.startAfter k ≤ t.log.size := by
  unfold startAfter
  by_cases earlier : k < t.starts.size
  · rw [Array.getElem?_eq_getElem earlier]
    exact t.start_le (Array.getElem_mem earlier)
  · rw [Array.getElem?_eq_none (Nat.not_lt.1 earlier)]
    exact Nat.le_refl _

/-- The trail at checkpoint `k`, with the entries that there were when the next one was added. -/
def upTo (t : Trail α) (k : Nat) : Trail α where
  log := t.log.extract 0 (t.startAfter k)
  starts := t.starts.extract 0 k
  ascending := by
    have size : (t.log.extract 0 (t.startAfter k)).size = t.startAfter k := by
      rw [Array.size_extract, Nat.sub_zero, Nat.min_eq_left (t.startAfter_le k)]
    have kept : ((t.starts.extract 0 k).push (t.startAfter k)).toList =
        (t.starts.push t.log.size).toList.take (k + 1) := by
      rcases Nat.lt_or_ge k t.starts.size with earlier | later
      · simp [startAfter, earlier, List.take_append_of_le_length, Nat.succ_le_of_lt earlier]
      · simp [startAfter, later, List.take_of_length_le]
    rw [size, kept]
    exact t.ascending.sublist (List.take_sublist _ _)

/-- Goes back to checkpoint `k`; returns the entries removed, newest first.  Nothing happens unless
`k` is before the current checkpoint. -/
def unwind (t : Trail α) (k : Nat) : List α × Trail α :=
  ((t.log.extract (t.startAfter k)).toList.reverse, t.upTo k)

/-- Goes back to checkpoint `k`, which has to be before the current one. -/
def rewind (t : Trail α) (k : Nat) : Except Fault (List α × Trail α) := do
  require (decide (k < t.checkpoint)) .precondition
  return t.unwind k

/-! ## Entries and checkpoint after each operation -/

theorem log_push (t : Trail α) (a : α) : (t.push a).log = t.log.push a := rfl

theorem starts_push (t : Trail α) (a : α) : (t.push a).starts = t.starts := rfl

theorem log_mark (t : Trail α) : t.mark.log = t.log := rfl

theorem starts_mark (t : Trail α) : t.mark.starts = t.starts.push t.log.size := rfl

@[simp] theorem checkpoint_empty : (empty : Trail α).checkpoint = 0 := rfl

@[simp] theorem checkpoint_push (t : Trail α) (a : α) : (t.push a).checkpoint = t.checkpoint := rfl

@[simp] theorem checkpoint_mark (t : Trail α) : t.mark.checkpoint = t.checkpoint + 1 :=
  Array.size_push _

@[simp] theorem entries_push (t : Trail α) (a : α) : (t.push a).entries = a :: t.entries := by
  simp [entries, push]

@[simp] theorem entries_mark (t : Trail α) : t.mark.entries = t.entries := rfl

/-- Going back to the checkpoint at which the last one was added removes nothing made before it. -/
theorem unwind_mark_self (t : Trail α) : t.mark.unwind t.checkpoint = ([], t) := by
  simp [unwind, upTo, startAfter, mark, checkpoint]

end Trail

end Stowage
