/-!
# Sorting by insertion

A list is sorted by inserting its elements one after the other, the last one first, each before the
first element that it may precede.  So elements that may precede each other keep their order.

* `Sorting.insert`, `Sorting.sort` — insertion and sorting, for a test whether one element may precede
  another.
* `Sorting.sort_perm` — sorting rearranges the list.
* `Sorting.pairwise_sort` — every element may precede those after it.
* `Sorting.filter_sort` — elements that may precede each other keep their order.
-/

set_option autoImplicit false

namespace Stowage

namespace Sorting

variable {α : Type}

/-- Inserts `a` before the first element that it may precede. -/
def insert (mayPrecede : α → α → Bool) (a : α) : List α → List α
  | [] => [a]
  | b :: rest => if mayPrecede a b then a :: b :: rest else b :: insert mayPrecede a rest

/-- Sorts a list; elements that may precede each other keep their order. -/
def sort (mayPrecede : α → α → Bool) (xs : List α) : List α := xs.foldr (insert mayPrecede) []

/-- Insertion keeps the elements and adds the inserted one. -/
theorem insert_perm (mayPrecede : α → α → Bool) (a : α) (xs : List α) :
    (insert mayPrecede a xs).Perm (a :: xs) := by
  induction xs with
  | nil => exact .refl _
  | cons b rest ih =>
    rw [insert]
    split
    · exact .refl _
    · exact (ih.cons b).trans (.swap a b rest)

theorem sort_perm (mayPrecede : α → α → Bool) (xs : List α) : (sort mayPrecede xs).Perm xs := by
  induction xs with
  | nil => exact .refl _
  | cons a xs ih => exact (insert_perm mayPrecede a _).trans (ih.cons a)

/-- Insertion into a sorted list gives a sorted list, since an element that is not put before `b`
may follow it. -/
theorem pairwise_insert {mayPrecede : α → α → Bool}
    (total : ∀ a b, mayPrecede a b = true ∨ mayPrecede b a = true)
    (trans : ∀ a b c, mayPrecede a b = true → mayPrecede b c = true → mayPrecede a c = true)
    (a : α) {xs : List α} (h : xs.Pairwise fun x y => mayPrecede x y = true) :
    (insert mayPrecede a xs).Pairwise fun x y => mayPrecede x y = true := by
  induction xs with
  | nil => simp [insert]
  | cons b rest ih =>
    obtain ⟨first, later⟩ := List.pairwise_cons.1 h
    rw [insert]
    split
    next before =>
      refine List.pairwise_cons.2 ⟨fun x member => ?_, h⟩
      rcases List.mem_cons.1 member with rfl | member
      · exact before
      · exact trans a b x before (first x member)
    next notBefore =>
      refine List.pairwise_cons.2 ⟨fun x member => ?_, ih later⟩
      rcases List.mem_cons.1 ((insert_perm mayPrecede a rest).mem_iff.1 member) with rfl | member
      · exact (total x b).resolve_left notBefore
      · exact first x member

/-- In a sorted list every element may precede those after it. -/
theorem pairwise_sort {mayPrecede : α → α → Bool}
    (total : ∀ a b, mayPrecede a b = true ∨ mayPrecede b a = true)
    (trans : ∀ a b c, mayPrecede a b = true → mayPrecede b c = true → mayPrecede a c = true)
    (xs : List α) : (sort mayPrecede xs).Pairwise fun x y => mayPrecede x y = true := by
  induction xs with
  | nil => exact .nil
  | cons a xs ih => exact pairwise_insert total trans a ih

theorem filter_insert {mayPrecede : α → α → Bool} {alike : α → Bool}
    (tied : ∀ a b, alike a = true → alike b = true → mayPrecede a b = true) (a : α) (xs : List α) :
    (insert mayPrecede a xs).filter alike = (a :: xs).filter alike := by
  induction xs with
  | nil => rfl
  | cons b rest ih =>
    rw [insert]
    split
    next => rfl
    next notBefore =>
      -- the element goes past `b`, so they are not alike
      rw [List.filter_cons, ih]
      by_cases first : alike a = true
      · have other : ¬alike b = true := fun second => notBefore (tied a b first second)
        simp only [List.filter_cons, first, other, if_true, Bool.false_eq_true, if_false]
      · simp only [List.filter_cons, first, Bool.false_eq_true, if_false]

/-- Elements that may precede each other keep their order. -/
theorem filter_sort {mayPrecede : α → α → Bool} {alike : α → Bool}
    (tied : ∀ a b, alike a = true → alike b = true → mayPrecede a b = true) (xs : List α) :
    (sort mayPrecede xs).filter alike = xs.filter alike := by
  induction xs with
  | nil => rfl
  | cons a xs ih =>
    show (insert mayPrecede a (sort mayPrecede xs)).filter alike = _
    rw [filter_insert tied, List.filter_cons, List.filter_cons, ih]

end Sorting

end Stowage
