import Stowage.Proofs.Elements
import Stowage.Proofs.Undo

/-!
# Owners of cells

Whoever keeps something in cells owns these cells.  A change by the owner writes to no other cell, keeps the
number of cells, and can be undone.  An allocation leaves all cells of before alone.

* `Cells.Alters` — a change by an owner; `Cells.alters_write`, `BitSet.alters_insert`,
  `BitSet.alters_remove`, `BitSet.alters_clear`.
* `Cells.Grows` — an allocation; `Cells.grows_allocate`, `Cells.grows_allocateEach`, `BitSet.grows_allocate`.
* `Cells.Grows.alters` — what is allocated may be changed by its owner.
-/

set_option autoImplicit false

namespace Stowage

namespace Cells

/-- No cell but those that are owned has changed, and going back undoes the change. -/
structure Alters (owned : Nat → Prop) (c d : Cells) : Prop where
  size : d.size = c.size
  others : ∀ cell, ¬owned cell → d.read cell = c.read cell
  recovers : Trailed.Recovers d c
  lawful : Trailed.Lawful c → Trailed.Lawful d

variable {owned wider : Nat → Prop} {c d e : Cells} {i : Nat}

namespace Alters

theorem refl (owned : Nat → Prop) (c : Cells) : Alters owned c c := ⟨rfl, fun _ _ => rfl, .refl c, id⟩

theorem trans (h : Alters owned c d) (h' : Alters owned d e) : Alters owned c e :=
  ⟨h'.size.trans h.size, fun cell outside => (h'.others cell outside).trans (h.others cell outside),
    h'.recovers.trans h.recovers, fun lawful => h'.lawful (h.lawful lawful)⟩

theorem mono (h : Alters owned c d) (le : ∀ cell, owned cell → wider cell) : Alters wider c d :=
  ⟨h.size, fun cell outside => h.others cell fun own => outside (le cell own), h.recovers, h.lawful⟩

end Alters

theorem read_write_of_ne (c : Cells) {i j : Nat} (other : i ≠ j) (v : Int) :
    (c.write i v).read j = c.read j := by
  unfold write
  split
  · rfl
  · unfold read
    rw [Trailed.get?_set, if_neg fun same => other same.1]

theorem alters_write (own : owned i) (c : Cells) (v : Int) : Alters owned c (c.write i v) where
  size := c.size_write i v
  others cell outside := c.read_write_of_ne (fun same : i = cell => outside (same ▸ own)) v
  recovers := c.recovers_write i v
  lawful lawful := lawful_write lawful i v

theorem alters_add (own : owned i) (c : Cells) (v : Int) : Alters owned c (c.add i v) :=
  alters_write own c _

/-! ## More cells -/

theorem read_extend (c : Cells) (more : List Int) (i : Nat) :
    read (Trailed.extend c more) i = if i < c.size then c.read i else more[i - c.size]?.getD 0 := by
  unfold read
  rw [Trailed.get?_extend]
  split <;> rfl

/-- There may be more cells; those of before hold what they held, also at every earlier checkpoint. -/
structure Grows (c d : Cells) : Prop where
  size : c.size ≤ d.size
  old : ∀ cell < c.size, d.read cell = c.read cell
  checkpoint : d.checkpoint = c.checkpoint
  lawful : Trailed.Lawful c → Trailed.Lawful d
  views : Trailed.Lawful c → ∀ k < c.checkpoint, ∀ cell < c.size,
    read (d.restore k) cell = read (c.restore k) cell

theorem grows_extend (c : Cells) (more : List Int) : Grows c (Trailed.extend c more) where
  size := by
    rw [Trailed.size_extend]
    exact Nat.le_add_right _ _
  old cell old := by rw [read_extend, if_pos old]
  checkpoint := Trailed.checkpoint_extend c more
  lawful lawful := lawful.extend more
  views lawful k _ cell old := by
    rw [Trailed.restore_extend lawful, read_extend, Trailed.size_restore, if_pos old]

theorem grows_allocate (c : Cells) (count : Nat) (value : Int) : Grows c (c.allocate count value).2 := by
  rw [allocate_snd]
  exact c.grows_extend _

theorem grows_allocateEach (c : Cells) (values : List Int) : Grows c (c.allocateEach values).2 := by
  rw [allocateEach_snd]
  exact c.grows_extend values

namespace Grows

theorem refl (c : Cells) : Grows c c := ⟨Nat.le_refl _, fun _ _ => rfl, rfl, id, fun _ _ _ _ _ => rfl⟩

theorem trans (h : Grows c d) (h' : Grows d e) : Grows c e where
  size := h.size.trans h'.size
  old cell old := (h'.old cell (old.trans_le h.size)).trans (h.old cell old)
  checkpoint := h'.checkpoint.trans h.checkpoint
  lawful lawful := h'.lawful (h.lawful lawful)
  views lawful k earlier cell old :=
    (h'.views (h.lawful lawful) k (earlier.trans_eq h.checkpoint.symm) cell (old.trans_le h.size)).trans
      (h.views lawful k earlier cell old)

theorem alters (h : Grows c d) (h' : Alters owned d e) (new : ∀ cell, owned cell → c.size ≤ cell) :
    Grows c e where
  size := h.size.trans_eq h'.size.symm
  old cell old :=
    (h'.others cell fun own => Nat.not_lt.2 (new cell own) old).trans (h.old cell old)
  checkpoint := h'.recovers.checkpoint.trans h.checkpoint
  lawful lawful := h'.lawful (h.lawful lawful)
  views lawful k earlier cell old := by
    rw [h'.recovers.restore k (earlier.trans_eq h.checkpoint.symm)]
    exact h.views lawful k earlier cell old

end Grows

end Cells

namespace BitSet

open Cells (Alters)

theorem grows_allocate (c : Cells) (capacity : Nat) : Cells.Grows c (allocate c capacity).2 :=
  c.grows_allocate _ 0

theorem alters_storeWord (s : BitSet) (c : Cells) {i : Nat} (inside : i < s.capacity)
    (word : BitVec wordSize) (change : Int) : Alters s.Owns c (s.storeWord c i word change) :=
  (Cells.alters_write (owns_wordCell inside) c _).trans (Cells.alters_add s.owns_countCell _ _)

theorem alters_insert (s : BitSet) (c : Cells) {i : Nat} (inside : i < s.capacity) :
    Alters s.Owns c (s.insert c i).2 := by
  unfold insert
  split
  · exact .refl _ c
  · exact s.alters_storeWord c inside _ _

theorem alters_remove (s : BitSet) (c : Cells) (i : Nat) : Alters s.Owns c (s.remove c i).2 := by
  unfold remove
  split
  next present => exact s.alters_storeWord c (of_decide_eq_true (Bool.and_eq_true_iff.1 present).1) _ _
  next => exact .refl _ c

theorem alters_clear (s : BitSet) (c : Cells) : Alters s.Owns c (s.clear c) := by
  unfold clear
  generalize s.toList c = members
  induction members generalizing c with
  | nil => exact .refl _ c
  | cons i members ih => exact (s.alters_remove c i).trans (ih _)

end BitSet

end Stowage
