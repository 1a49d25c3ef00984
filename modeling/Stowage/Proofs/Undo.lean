import Mathlib
import Stowage.BitSet

/-!
# Going back undoes

What a trailed table looks like at an earlier checkpoint `k` is `restore k` of it.  Every operation
that stays above `k` leaves that view alone, so whatever happens after a checkpoint, going back to it
gives the table of then.

* `Trail.unwind_unwind` — going back in two steps is going back in one.
* `Trailed.restore_overwrite`, `Trailed.restore_mark`, `Trailed.restore_restore` — a write, a checkpoint and
  an inner return leave the view of an earlier checkpoint alone.
* `Trailed.extend`, `Trailed.restore_extend` — more values at the end show in the view of every checkpoint.
* `Trailed.Recovers` — one table looks like another at every checkpoint before its own.
-/

set_option autoImplicit false

namespace Stowage

namespace Trail

variable {α : Type}

theorem startAfter_of_le (t : Trail α) {k : Nat} (h : t.checkpoint ≤ k) :
    t.startAfter k = t.log.size := by
  rw [startAfter, Array.getElem?_eq_none h, Option.getD_none]

/-- There is nothing to remove on the way to a checkpoint that was not left. -/
theorem upTo_of_le (t : Trail α) {k : Nat} (h : t.checkpoint ≤ k) : t.upTo k = t := by
  have all : t.starts.extract 0 k = t.starts := by
    rw [Array.extract_eq_self_of_le h]
  simp only [upTo, startAfter_of_le t h, all, Array.extract_size]

theorem startAfter_push (t : Trail α) (a : α) {k : Nat} (h : k < t.checkpoint) :
    (t.push a).startAfter k = t.startAfter k := by
  have bound : k < t.starts.size := h
  simp [startAfter, push, bound]

theorem startAfter_mark (t : Trail α) {k : Nat} (h : k ≤ t.checkpoint) :
    t.mark.startAfter k = t.startAfter k := by
  rcases Nat.lt_or_eq_of_le h with earlier | rfl
  · have bound : k < t.starts.size := earlier
    simp [startAfter, mark, Array.getElem?_push, bound, bound.ne]
  · simp [startAfter, mark, checkpoint]

/-- A checkpoint was added to no fewer entries than an earlier one. -/
theorem startAfter_mono (t : Trail α) {j k : Nat} (h : j ≤ k) : t.startAfter j ≤ t.startAfter k := by
  rcases Nat.lt_or_ge k t.checkpoint with earlier | later
  · have ascending := t.ascending
    rw [Array.toList_push, List.pairwise_append] at ascending
    have bound : k < t.starts.size := earlier
    have first : j < t.starts.size := Nat.lt_of_le_of_lt h bound
    rw [startAfter, startAfter, Array.getElem?_eq_getElem first, Array.getElem?_eq_getElem bound]
    rcases Nat.lt_or_eq_of_le h with before | rfl
    · exact List.pairwise_iff_getElem.1 ascending.1 j k first bound before
    · exact Nat.le_refl _
  · rw [startAfter_of_le t later]
    exact t.startAfter_le j

/-- Going back leaves alone what was there at an earlier checkpoint. -/
theorem startAfter_upTo (t : Trail α) {j k : Nat} (h : j ≤ k) :
    (t.upTo k).startAfter j = t.startAfter j := by
  rcases Nat.lt_or_eq_of_le h with before | rfl
  · rcases Nat.lt_or_ge j t.checkpoint with earlier | later
    · have bound : j < t.starts.size := earlier
      simp [startAfter, upTo, bound, before]
    · rw [upTo_of_le t (later.trans h)]
  · have start := t.startAfter_le j
    rw [startAfter_of_le]
    · simp only [upTo, Array.size_extract, Nat.sub_zero, Nat.min_eq_left start]
    · simp only [upTo, checkpoint, Array.size_extract]
      omega

theorem unwind_fst (t : Trail α) (k : Nat) :
    (t.unwind k).1 = (t.log.toList.drop (t.startAfter k)).reverse := by
  simp [unwind, List.take_of_length_le]

/-- Going back to the current checkpoint removes nothing. -/
theorem unwind_self (t : Trail α) : t.unwind t.checkpoint = ([], t) := by
  refine Prod.ext ?_ (upTo_of_le t (Nat.le_refl _))
  rw [unwind_fst, startAfter_of_le t (Nat.le_refl _)]
  exact congrArg List.reverse (List.drop_eq_nil_of_le (Nat.le_refl t.log.size))

@[simp] theorem checkpoint_unwind (t : Trail α) (k : Nat) :
    (t.unwind k).2.checkpoint = min k t.checkpoint := by
  simp only [unwind, upTo, checkpoint, Array.size_extract, Nat.sub_zero]

/-- An entry made after checkpoint `k` is the first to be removed on the way back. -/
theorem unwind_push (t : Trail α) (a : α) {k : Nat} (h : k < t.checkpoint) :
    (t.push a).unwind k = (a :: (t.unwind k).1, (t.unwind k).2) := by
  have start := t.startAfter_le k
  have inside : t.startAfter k ≤ t.log.toList.length := start
  refine Prod.ext ?_ ?_
  · rw [unwind_fst, unwind_fst, startAfter_push t a h, log_push, Array.toList_push,
      List.drop_append_of_le_length inside, List.reverse_append]
    rfl
  · simp only [unwind, upTo, startAfter_push t a h, log_push, starts_push, mk.injEq, and_true]
    exact Array.extract_push_of_le start

theorem unwind_mark (t : Trail α) {k : Nat} (h : k ≤ t.checkpoint) :
    t.mark.unwind k = t.unwind k := by
  simp only [unwind, upTo, startAfter_mark t h, log_mark, starts_mark, Prod.mk.injEq, mk.injEq,
    true_and]
  exact Array.extract_push_of_le h

/-- Going back to `k` and from there to `j` removes the same entries, in the same order, as going
back to `j` at once. -/
theorem unwind_unwind (t : Trail α) {j k : Nat} (h : j ≤ k) :
    t.unwind j = ((t.unwind k).1 ++ ((t.unwind k).2.unwind j).1, ((t.unwind k).2.unwind j).2) := by
  have order := t.startAfter_mono h
  refine Prod.ext ?_ ?_
  · have split := List.take_append_drop (t.startAfter k - t.startAfter j)
      (t.log.toList.drop (t.startAfter j))
    rw [List.drop_drop, Nat.add_sub_cancel' order] at split
    rw [unwind_fst, unwind_fst]
    show _ = _ ++ ((t.upTo k).unwind j).1
    rw [unwind_fst, startAfter_upTo t h, ← List.reverse_append]
    simp [upTo, List.drop_take, split]
  · show t.upTo j = (t.upTo k).upTo j
    have start := startAfter_upTo t h
    unfold upTo at start ⊢
    simp only [start, Array.extract_extract, Nat.zero_add, Nat.min_eq_left order, Nat.min_eq_left h]

theorem entries_unwind (t : Trail α) (k : Nat) :
    t.entries = (t.unwind k).1 ++ (t.unwind k).2.entries := by
  have split := List.take_append_drop (t.startAfter k) t.log.toList
  rw [unwind_fst, entries, entries, ← List.reverse_append]
  simp [unwind, upTo, split]

end Trail

namespace Trailed

variable {α ε : Type}

/-- Every write on the trail is one of a value in the table. -/
def Lawful (t : Trailed α ε) : Prop := ∀ w ∈ t.trail.entries, w.1 < t.size

theorem lawful_empty : (empty : Trailed α ε).Lawful := by
  simp [Lawful, empty, Trail.empty, Trail.entries]

theorem Lawful.grow {t : Trailed α ε} (h : t.Lawful) (a : α) : (t.grow a).Lawful := by
  intro w hw
  rw [size_grow]
  exact Nat.lt_succ_of_lt (h w hw)

theorem Lawful.overwrite {t : Trailed α ε} (h : t.Lawful) (i : Nat) (keep : α → ε) (a : α) :
    (t.overwrite i keep a).Lawful := by
  intro w hw
  rw [size_overwrite]
  unfold Trailed.overwrite at hw
  split at hw
  · rename_i hi
    simp only [Trail.entries_push, List.mem_cons] at hw
    rcases hw with rfl | hw
    · exact hi
    · exact h w hw
  · exact h w hw

theorem Lawful.set {t : Trailed α} (h : t.Lawful) (i : Nat) (a : α) : (t.set i a).Lawful :=
  h.overwrite i id a

theorem Lawful.mark {t : Trailed α ε} (h : t.Lawful) : t.mark.Lawful := by
  intro w hw
  exact h w (by simpa [Trailed.mark] using hw)

/-- The table with more values at its end. -/
def extend (t : Trailed α ε) (more : List α) : Trailed α ε := more.foldl grow t

theorem grow_extend (t : Trailed α ε) (more : List α) (a : α) :
    (t.extend more).grow a = t.extend (more ++ [a]) := by
  rw [extend, extend, List.foldl_append]
  rfl

theorem extend_extend (t : Trailed α ε) (more others : List α) :
    (t.extend more).extend others = t.extend (more ++ others) := by
  rw [extend, extend, extend, List.foldl_append]

theorem get?_extend (t : Trailed α ε) (more : List α) (i : Nat) :
    (t.extend more).get? i = if i < t.size then t.get? i else more[i - t.size]? := by
  induction more generalizing t with
  | nil =>
    split
    next => rfl
    next outside => simpa [extend, get?, size] using outside
  | cons a more ih =>
    show ((t.grow a).extend more).get? i = _
    rw [ih, size_grow]
    simp only [get?, grow, size, Array.getElem?_push]
    rcases Nat.lt_trichotomy i t.values.size with inside | rfl | outside
    · simp [inside, Nat.lt_succ_of_lt inside, Nat.ne_of_lt inside]
    · simp
    · have next : i - t.values.size = i - (t.values.size + 1) + 1 := by omega
      simp [Nat.not_lt.2 outside, Nat.lt_asymm outside, next]

theorem size_extend (t : Trailed α ε) (more : List α) :
    (t.extend more).size = t.size + more.length := by
  induction more generalizing t with
  | nil => rfl
  | cons a more ih =>
    show ((t.grow a).extend more).size = _
    rw [ih, size_grow, List.length_cons]
    omega

@[simp] theorem checkpoint_extend (t : Trailed α ε) (more : List α) :
    (t.extend more).checkpoint = t.checkpoint := by
  induction more generalizing t with
  | nil => rfl
  | cons a more ih => exact ih (t.grow a)

theorem trail_extend (t : Trailed α ε) (more : List α) : (t.extend more).trail = t.trail := by
  induction more generalizing t with
  | nil => rfl
  | cons a more ih => exact ih (t.grow a)

theorem mark_extend (t : Trailed α ε) (more : List α) :
    (t.extend more).mark = t.mark.extend more := by
  induction more generalizing t with
  | nil => rfl
  | cons a more ih => exact ih (t.grow a)

theorem overwrite_grow {t : Trailed α ε} {i : Nat} (exist : i < t.size) (keep : α → ε) (a b : α) :
    (t.grow b).overwrite i keep a = (t.overwrite i keep a).grow b := by
  have bound : i < t.values.size := exist
  simp only [overwrite, grow, Array.size_push, bound, Nat.lt_succ_of_lt bound, dif_pos,
    Array.getElem_push_lt bound, Array.set_push]

theorem overwrite_extend {t : Trailed α ε} {i : Nat} (exist : i < t.size) (keep : α → ε) (a : α)
    (more : List α) : (t.extend more).overwrite i keep a = (t.overwrite i keep a).extend more := by
  induction more generalizing t with
  | nil => rfl
  | cons b more ih =>
    show ((t.grow b).extend more).overwrite i keep a = ((t.overwrite i keep a).grow b).extend more
    rw [ih (by rw [size_grow]; omega), overwrite_grow exist]

theorem Lawful.extend {t : Trailed α ε} (h : t.Lawful) (more : List α) : (t.extend more).Lawful := by
  induction more generalizing t with
  | nil => exact h
  | cons a more ih => exact ih (h.grow a)

variable [Undo α ε]

theorem Lawful.restore {t : Trailed α ε} (h : t.Lawful) (k : Nat) : (t.restore k).Lawful := by
  intro w hw
  rw [size_restore]
  refine h w ?_
  rw [Trail.entries_unwind t.trail k]
  exact List.mem_append_right _ hw

omit [Undo α ε] in
theorem Lawful.canUndo {t : Trailed α ε} (h : t.Lawful) (k : Nat) : t.canUndo k = true := by
  refine List.all_eq_true.2 fun w hw => decide_eq_true (h w ?_)
  rw [Trail.entries_unwind t.trail k]
  exact List.mem_append_left _ hw

theorem Lawful.revert {t : Trailed α ε} (h : t.Lawful) {k : Nat} (earlier : k < t.checkpoint) :
    t.revert k = .ok (t.restore k) := by
  simp only [Trailed.revert, require, decide_eq_true earlier, h.canUndo k, if_true, bind, Except.bind,
    pure, Except.pure]

@[simp] theorem checkpoint_restore (t : Trailed α ε) (k : Nat) :
    (t.restore k).checkpoint = min k t.checkpoint := by
  simp [restore, checkpoint]

/-! ## The view of an earlier checkpoint -/

theorem undo_append (values : Array α) (xs ys : List (Nat × ε)) :
    undo values (xs ++ ys) = undo (undo values xs) ys := by
  simp [undo, List.foldl_append]

/-- A write after checkpoint `k` is undone by the entry it leaves, if what was kept of the old value is
enough to get it back. -/
theorem restore_overwrite (t : Trailed α ε) (i : Nat) {keep : α → ε} {a : α}
    (back : ∀ old, t.get? i = some old → Undo.back a (keep old) = old) {k : Nat}
    (h : k < t.checkpoint) : (t.overwrite i keep a).restore k = t.restore k := by
  unfold overwrite
  split
  next hi =>
    simp only [restore]
    rw [Trail.unwind_push _ _ h]
    have old : Undo.back a (keep t.values[i]) = t.values[i] :=
      back _ (Array.getElem?_eq_getElem hi)
    have undone : (t.values.set i a hi).modify i (Undo.back · (keep t.values[i])) = t.values := by
      apply Array.ext
      · simp
      · intro j hj _
        rw [Array.getElem_modify, Array.getElem_set]
        split
        next same =>
          subst same
          exact old
        next => rfl
    simp only [undo, List.foldl_cons, undone]
  next => rfl

theorem restore_mark (t : Trailed α ε) {k : Nat} (h : k ≤ t.checkpoint) :
    t.mark.restore k = t.restore k := by
  simp only [restore, mark]
  rw [Trail.unwind_mark _ h]

/-- Going back to the current checkpoint changes nothing. -/
theorem restore_self (t : Trailed α ε) : t.restore t.checkpoint = t := by
  simp only [restore, checkpoint, t.trail.unwind_self, undo, List.foldl_nil]

theorem restore_restore (t : Trailed α ε) {j k : Nat} (h : j ≤ k) :
    (t.restore k).restore j = t.restore j := by
  simp only [restore]
  rw [Trail.unwind_unwind t.trail h, undo_append]

theorem undo_push (values : Array α) (a : α) (undone : List (Nat × ε))
    (h : ∀ w ∈ undone, w.1 < values.size) :
    undo (values.push a) undone = (undo values undone).push a := by
  induction undone generalizing values with
  | nil => rfl
  | cons w ws ih =>
    have hw : w.1 < values.size := h w List.mem_cons_self
    have step : (values.push a).modify w.1 (Undo.back · w.2) =
        (values.modify w.1 (Undo.back · w.2)).push a := by
      apply Array.ext
      · simp
      · intro j hj _
        rw [Array.getElem_modify, Array.getElem_push, Array.getElem_push]
        simp only [Array.size_modify, Array.getElem_modify]
        split
        next same =>
          subst same
          rw [dif_pos hw, dif_pos hw]
        next => rfl
    simp only [undo, List.foldl_cons] at ih ⊢
    rw [step]
    exact ih _ fun v hv => by
      rw [Array.size_modify]
      exact h v (List.mem_cons_of_mem _ hv)

/-- Growth shows in the view of every checkpoint: it is not undone. -/
theorem restore_grow {t : Trailed α ε} (lawful : t.Lawful) (a : α) (k : Nat) :
    (t.grow a).restore k = (t.restore k).grow a := by
  simp only [restore, grow]
  rw [undo_push _ _ _ fun w hw => lawful w ?_]
  rw [Trail.entries_unwind t.trail k]
  exact List.mem_append_left _ hw

theorem restore_extend {t : Trailed α ε} (lawful : t.Lawful) (more : List α) (k : Nat) :
    (t.extend more).restore k = (t.restore k).extend more := by
  induction more generalizing t with
  | nil => rfl
  | cons a more ih =>
    show ((t.grow a).extend more).restore k = ((t.restore k).grow a).extend more
    rw [ih (lawful.grow a), restore_grow lawful]

/-! ## Tables that recover one another -/

/-- Going back to a checkpoint before that of `t` gives the same from `u` as from `t`. -/
structure Recovers (u t : Trailed α ε) : Prop where
  checkpoint : u.checkpoint = t.checkpoint
  restore : ∀ k < t.checkpoint, u.restore k = t.restore k

namespace Recovers

theorem refl (t : Trailed α ε) : Recovers t t := ⟨rfl, fun _ _ => rfl⟩

theorem trans {t u v : Trailed α ε} (h : Recovers v u) (h' : Recovers u t) : Recovers v t :=
  ⟨h.checkpoint.trans h'.checkpoint, fun k hk => by
    rw [h.restore k (by rw [h'.checkpoint]; exact hk), h'.restore k hk]⟩

theorem overwrite (t : Trailed α ε) (i : Nat) {keep : α → ε} {a : α}
    (back : ∀ old, t.get? i = some old → Undo.back a (keep old) = old) :
    Recovers (t.overwrite i keep a) t :=
  ⟨checkpoint_overwrite t i keep a, fun _ hk => restore_overwrite t i back hk⟩

theorem set (t : Trailed α) (i : Nat) (a : α) : Recovers (t.set i a) t :=
  overwrite t i fun _ _ => rfl

end Recovers

end Trailed

/-! ## Cells and bit sets -/

namespace Cells

theorem revert_eq_ok {c back : Cells} {k : Nat} (h : c.revert k = .ok back) :
    k < c.checkpoint ∧ back = c.restore k := by
  simp only [revert, Trailed.revert, require, bind, Except.bind, pure, Except.pure] at h
  by_cases earlier : k < c.checkpoint
  · simp only [decide_eq_true earlier, if_true] at h
    split at h
    · cases h
    · cases h
      exact ⟨earlier, rfl⟩
  · simp only [decide_eq_false earlier, Bool.false_eq_true, if_false] at h
    cases h

theorem recovers_write (c : Cells) (i : Nat) (v : Int) : Trailed.Recovers (c.write i v) c := by
  unfold write
  split
  · exact .refl c
  · exact .set c i v

theorem recovers_add (c : Cells) (i : Nat) (v : Int) : Trailed.Recovers (c.add i v) c :=
  recovers_write c i _

theorem lawful_write {c : Cells} (lawful : Trailed.Lawful c) (i : Nat) (v : Int) :
    Trailed.Lawful (c.write i v) := by
  unfold write
  split
  · exact lawful
  · exact lawful.set i v

theorem lawful_add {c : Cells} (lawful : Trailed.Lawful c) (i : Nat) (v : Int) :
    Trailed.Lawful (c.add i v) := lawful_write lawful i _

theorem allocate_snd (c : Cells) (count : Nat) (value : Int) :
    (c.allocate count value).2 = Trailed.extend c (List.replicate count value) := by
  induction count with
  | zero => simp [allocate, Trailed.extend]
  | succ count ih =>
    rw [List.replicate_succ', ← Trailed.grow_extend, ← ih]
    simp [allocate, Trailed.grow, Array.replicate_succ]

/-- A new block is at the same place in the view of every checkpoint. -/
theorem restore_allocate {c : Cells} (lawful : Trailed.Lawful c) (count : Nat) (value : Int) (k : Nat) :
    Trailed.restore (c.allocate count value).2 k = (allocate (c.restore k) count value).2 := by
  rw [allocate_snd, allocate_snd, Trailed.restore_extend lawful]

theorem allocateEach_snd (c : Cells) (values : List Int) :
    (c.allocateEach values).2 = Trailed.extend c values := by
  induction values using List.reverseRecOn with
  | nil => simp [allocateEach, Trailed.extend]
  | append_singleton values value ih =>
    rw [← Trailed.grow_extend, ← ih]
    simp [allocateEach, Trailed.grow]

end Cells

namespace BitSet

theorem recovers_storeWord (s : BitSet) (c : Cells) (i : Nat) (word : BitVec wordSize)
    (change : Int) : Trailed.Recovers (s.storeWord c i word change) c :=
  (Cells.recovers_add _ _ _).trans (Cells.recovers_write _ _ _)

theorem recovers_insert (s : BitSet) (c : Cells) (i : Nat) :
    Trailed.Recovers (s.insert c i).2 c := by
  unfold insert
  split
  · exact .refl c
  · exact s.recovers_storeWord c i _ _

theorem recovers_remove (s : BitSet) (c : Cells) (i : Nat) :
    Trailed.Recovers (s.remove c i).2 c := by
  unfold remove
  split
  · exact s.recovers_storeWord c i _ _
  · exact .refl c

theorem lawful_storeWord (s : BitSet) {c : Cells} (lawful : Trailed.Lawful c) (i : Nat)
    (word : BitVec wordSize) (change : Int) : Trailed.Lawful (s.storeWord c i word change) :=
  Cells.lawful_add (Cells.lawful_write lawful _ _) _ _

theorem lawful_insert (s : BitSet) {c : Cells} (lawful : Trailed.Lawful c) (i : Nat) :
    Trailed.Lawful (s.insert c i).2 := by
  unfold insert
  split
  · exact lawful
  · exact s.lawful_storeWord lawful i _ _

theorem lawful_remove (s : BitSet) {c : Cells} (lawful : Trailed.Lawful c) (i : Nat) :
    Trailed.Lawful (s.remove c i).2 := by
  unfold remove
  split
  · exact s.lawful_storeWord lawful i _ _
  · exact lawful

end BitSet

end Stowage
