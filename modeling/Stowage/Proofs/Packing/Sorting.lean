import Stowage.Constraint
import Stowage.Proofs.Packing.Weights

/-!
# Sorting the items of a packing

A packing is installed with its items sorted by size.  Sorting renames the items, and a solution does
not depend on how they are named.

* `Packing.rename` — the number that the item at a place had before.
* `Packing.solution_sort_iff` — sorting keeps the solutions.
* `Packing.wellFormed_sort`, `Packing.checkShape_of_wellFormed` — a sorted packing passes the checks.
* `Packing.single?_eq_ok`, `Packing.vector?_eq_ok` — what the builders check.
-/

set_option autoImplicit false

namespace Stowage

namespace Packing

/-! ## Rearranging -/

theorem rearrange_eq_map {α : Type} (order : List Nat) (row : Array α) (none : α)
    (inside : ∀ i ∈ order, i < row.size) :
    rearrange order row = (order.map fun i => row[i]?.getD none).toArray := by
  unfold rearrange
  congr 1
  induction order with
  | nil => rfl
  | cons i order ih =>
    have bound := inside i List.mem_cons_self
    rw [List.map_cons, ← ih fun j hj => inside j (List.mem_cons_of_mem _ hj)]
    simp [bound]

theorem size_rearrange {α : Type} (order : List Nat) (row : Array α)
    (inside : ∀ i ∈ order, i < row.size) : (rearrange order row).size = order.length := by
  induction order with
  | nil => rfl
  | cons i order ih =>
    have bound := inside i List.mem_cons_self
    have rest := ih fun j hj => inside j (List.mem_cons_of_mem _ hj)
    unfold rearrange at rest ⊢
    simpa [bound] using rest

/-- The entry at a place of a rearranged row is the one at the place it had before. -/
theorem getElem?_rearrange {α : Type} (order : List Nat) (row : Array α) (none : α)
    (inside : ∀ i ∈ order, i < row.size) {j : Nat} (hj : j < order.length) :
    (rearrange order row)[j]?.getD none = row[order[j]?.getD 0]?.getD none := by
  rw [rearrange_eq_map order row none inside]
  simp [hj]

theorem filterMap_range_length {α : Type} (l : List α) :
    (List.range l.length).filterMap (fun i => l[i]?) = l := by
  induction l with
  | nil => rfl
  | cons a l ih =>
    rw [List.length_cons, List.range_succ_eq_map, List.filterMap_cons, List.filterMap_map]
    simpa [Function.comp_def] using ih

/-- Rearranging a row by all of its positions keeps its entries. -/
theorem rearrange_perm {α : Type} {row : Array α} {order : List Nat}
    (perm : order.Perm (List.range row.size)) : (rearrange order row).toList.Perm row.toList := by
  have whole := filterMap_range_length row.toList
  simp only [Array.length_toList, Array.getElem?_toList] at whole
  unfold rearrange
  conv_rhs => rw [← whole]
  exact perm.filterMap _

theorem orderOf_perm (sizes : Array Int) : (orderOf sizes).Perm (List.range sizes.size) :=
  Sorting.sort_perm _ _

theorem pairwise_orderOf (sizes : Array Int) :
    (orderOf sizes).Pairwise fun i j => sizes[j]?.getD 0 ≤ sizes[i]?.getD 0 := by
  have sorted : (orderOf sizes).Pairwise fun i j =>
      decide (sizes[j]?.getD 0 ≤ sizes[i]?.getD 0) = true := by
    refine Sorting.pairwise_sort (fun a b => ?_) (fun a b c => ?_) _
    · simp only [decide_eq_true_eq]
      omega
    · simp only [decide_eq_true_eq]
      omega
  exact sorted.imp fun h => of_decide_eq_true h

theorem size_eq_zero {p : Packing} (rows : ∀ row ∈ p.sizes, row.size = p.numItems) {d i : Nat}
    (outside : p.numItems ≤ i) : p.size d i = 0 := by
  unfold size
  by_cases hd : d < p.sizes.size
  · have row := rows _ (Array.getElem_mem hd)
    have absent : ¬i < p.sizes[d].size := by omega
    simp [hd, absent]
  · simp [hd]

/-! ## Sorting -/

/-- The packing with its items sorted. -/
def sort (p : Packing) : Packing := sorted p.items p.sizes p.loads p.policy p.numbered

/-- The number that the item at place `j` of the sorted packing had before. -/
def rename (p : Packing) (j : Nat) : Nat := (orderOf (p.sizes[0]?.getD #[]))[j]?.getD 0

variable {p : Packing} {d j : Nat}

section

variable (shaped : p.Shaped)

include shaped

theorem size_firstRow : (p.sizes[0]?.getD #[]).size = p.numItems := by
  have bound : 0 < p.sizes.size := shaped.dims
  simp only [bound, getElem?_pos, Option.getD_some]
  exact shaped.sizeRows _ (Array.getElem_mem bound)

theorem orderOf_firstRow : (orderOf (p.sizes[0]?.getD #[])).Perm p.itemList := by
  have perm := orderOf_perm (p.sizes[0]?.getD #[])
  rwa [size_firstRow shaped] at perm

/-- The places of the sorted items are the items, in another order. -/
theorem map_rename : p.itemList.map p.rename = orderOf (p.sizes[0]?.getD #[]) := by
  have length := (orderOf_firstRow shaped).length_eq
  rw [itemList, List.length_range] at length
  refine List.ext_getElem (by simp [itemList, length]) fun j hj hj' => ?_
  simp [itemList, rename, hj']

theorem inside_orderOf : ∀ i ∈ orderOf (p.sizes[0]?.getD #[]), i < p.numItems := fun _ hi =>
  List.mem_range.1 ((orderOf_firstRow shaped).mem_iff.1 hi)

theorem rename_lt (hj : j < p.numItems) : p.rename j < p.numItems := by
  refine inside_orderOf shaped _ ?_
  rw [← map_rename shaped]
  exact List.mem_map_of_mem (List.mem_range.2 hj)

/-- Every item has a place among the sorted ones. -/
theorem exists_rename {i : Nat} (hi : i < p.numItems) : ∃ j < p.numItems, i = p.rename j := by
  have member := (orderOf_firstRow shaped).mem_iff.2 (List.mem_range.2 hi)
  rw [← map_rename shaped] at member
  obtain ⟨j, hj, same⟩ := List.mem_map.1 member
  exact ⟨j, List.mem_range.1 hj, same.symm⟩

theorem numItems_sort : p.sort.numItems = p.numItems := by
  have length := (orderOf_firstRow shaped).length_eq
  rw [itemList, List.length_range] at length
  exact (size_rearrange _ _ (inside_orderOf shaped)).trans length

theorem item_sort (hj : j < p.numItems) : p.sort.item j = p.item (p.rename j) := by
  have length := (orderOf_firstRow shaped).length_eq
  rw [itemList, List.length_range] at length
  exact getElem?_rearrange _ _ _ (inside_orderOf shaped) (length ▸ hj)

theorem size_sort (hj : j < p.numItems) (d : Nat) : p.sort.size d j = p.size d (p.rename j) := by
  have length := (orderOf_firstRow shaped).length_eq
  rw [itemList, List.length_range] at length
  unfold size
  show ((p.sizes.map (rearrange _))[d]?.getD #[])[j]?.getD 0 = _
  by_cases hd : d < p.sizes.size
  · have row := shaped.sizeRows _ (Array.getElem_mem hd)
    simp only [Array.getElem?_map, getElem?_pos, hd, Option.map_some, Option.getD_some]
    refine getElem?_rearrange _ _ _ (fun i hi => ?_) (length ▸ hj)
    rw [row]
    exact inside_orderOf shaped i hi
  · simp [hd]

/-- Sorting does not change what the items weigh that an assignment places in a bin. -/
theorem weigh_sort (assignment : Var → Int) (d b : Nat) :
    p.sort.weigh d (p.sort.placedBy assignment b) = p.weigh d (p.placedBy assignment b) := by
  have items : (p.sort.itemList.map p.rename).Perm p.itemList := by
    rw [itemList, numItems_sort shaped]
    exact (map_rename shaped).symm ▸ orderOf_firstRow shaped
  have sizes : ∀ i < p.sort.numItems, p.sort.size d i = p.size d (p.rename i) := by
    rw [numItems_sort shaped]
    exact fun i hi => size_sort shaped hi d
  refine weigh_rename items sizes fun i hi => ?_
  rw [numItems_sort shaped] at hi
  rw [placedBy, item_sort shaped hi]
  rfl

/-- **Sorting keeps the solutions.** -/
theorem solution_sort_iff {assignment : Var → Int} :
    p.sort.Solution assignment ↔ p.Solution assignment := by
  have items := numItems_sort shaped
  have dims : p.sort.numDims = p.numDims := Array.size_map
  constructor
  · intro solution
    refine ⟨fun i hi => ?_, fun d hd b hb => ?_⟩
    · obtain ⟨j, hj, rfl⟩ := exists_rename shaped hi
      rw [← item_sort shaped hj]
      exact solution.inBins j (items ▸ hj)
    · rw [← weigh_sort shaped]
      exact solution.loads d (dims ▸ hd) b hb
  · intro solution
    refine ⟨fun j hj => ?_, fun d hd b hb => ?_⟩
    · rw [items] at hj
      rw [item_sort shaped hj]
      exact solution.inBins _ (rename_lt shaped hj)
    · rw [weigh_sort shaped]
      exact solution.loads d (dims ▸ hd) b hb

/-- **A sorted packing has the form that installing it asks for.** -/
theorem wellFormed_sort : p.sort.WellFormed := by
  have items := numItems_sort shaped
  have dims : p.sort.numDims = p.numDims := Array.size_map
  have length := (orderOf_firstRow shaped).length_eq
  rw [itemList, List.length_range] at length
  have rows : ∀ row ∈ p.sort.sizes, row.size = p.sort.numItems := by
    intro row hrow
    obtain ⟨old, hold, rfl⟩ := Array.mem_map.1 hrow
    have row := shaped.sizeRows old hold
    rw [items, size_rearrange _ _ fun i hi => row ▸ inside_orderOf shaped i hi, length]
  refine ⟨⟨dims ▸ shaped.dims, rows, ⟨?_, shaped.loadRows.2⟩, fun d j => ?_,
    dims ▸ shaped.single⟩, fun i j hij hj => ?_⟩
  · rw [dims]
    exact shaped.loadRows.1
  · by_cases hj : j < p.numItems
    · rw [size_sort shaped hj]
      exact shaped.nonneg _ _
    · rw [size_eq_zero rows (items ▸ Nat.not_lt.1 hj)]
  · rw [items] at hj
    rcases Nat.eq_or_lt_of_le hij with rfl | less
    · exact Int.le_refl _
    · rw [size_sort shaped hj, size_sort shaped (less.trans hj)]
      have pairs := List.pairwise_iff_getElem.1 (pairwise_orderOf (p.sizes[0]?.getD #[]))
      have := pairs i j (by omega) (by omega) less
      simpa [rename, size, length, hj, less.trans hj] using this

end

/-! ## The checks -/

/-- **A packing of the right form can be installed at the root.** -/
theorem checkShape_of_wellFormed (wf : p.WellFormed) : p.checkShape 0 = .ok () := by
  have bound : 0 < p.sizes.size := wf.dims
  have rows : (!p.sizes.isEmpty && p.sizes.size == p.loads.size) = true := by
    have same : p.sizes.size = p.loads.size := wf.loadRows.1.symm
    simp only [Bool.and_eq_true, Bool.not_eq_true', Array.isEmpty_eq_false_iff, beq_iff_eq]
    exact ⟨Array.size_pos_iff.1 bound, same⟩
  have sizeRows : (p.sizes.all fun row => row.size == p.numItems) = true :=
    Array.all_eq_true'.2 fun row hrow => beq_iff_eq.2 (wf.sizeRows row hrow)
  have loadRows : (p.loads.all fun row => row.size == p.numBins) = true :=
    Array.all_eq_true'.2 fun row hrow => beq_iff_eq.2 (wf.loadRows.2 row hrow)
  have nonneg : (p.sizes.all fun row => row.all fun size => decide (0 ≤ size)) = true := by
    refine Array.all_eq_true.2 fun d hd => Array.all_eq_true.2 fun i hi => decide_eq_true ?_
    have := wf.nonneg d i
    simpa [size, hd, hi] using this
  have sorted : isNonIncreasing (p.sizes[0]?.getD #[]).toList = true := by
    have width := size_firstRow wf.toShaped
    refine isNonIncreasing_iff.2 (List.pairwise_iff_getElem.2 fun i j hi hj less => ?_)
    rw [Array.length_toList] at hi hj
    have := wf.antitone i j (Nat.le_of_lt less) (width ▸ hj)
    simpa [size, hi, hj] using this
  have single : (p.numDims == 1 || p.policy == .disabled) = true := by
    simpa using wf.single
  simp only [checkShape, rows, sizeRows, loadRows, nonneg, sorted, single, require, bind, Except.bind]
  rfl

theorem demand_eq_ok {c : Bool} {e : ConstraintError} : demand c e = .ok () ↔ c = true := by
  unfold demand
  split <;> simp_all

theorem demand_eq_error {c : Bool} {e e' : ConstraintError} (h : demand c e = .error e') : e' = e := by
  unfold demand at h
  split at h
  · cases h
  · cases h
    rfl

theorem nonneg_of_firstNegative? {sizes : List Int} {item : Nat}
    (h : firstNegative? item sizes = none) : ∀ size ∈ sizes, 0 ≤ size := by
  induction sizes generalizing item with
  | nil =>
    intro size hs
    cases hs
  | cons first sizes ih =>
    unfold firstNegative? at h
    split at h
    · cases h
    · rename_i nonneg
      intro size hs
      rcases List.mem_cons.1 hs with rfl | hs
      · omega
      · exact ih h size hs

/-- What the check of one dimension establishes. -/
theorem checkSizes_eq_ok {numItems : Nat} {sizes : List Int}
    (h : checkSizes numItems sizes = .ok ()) :
    sizes.length = numItems ∧ ∀ size ∈ sizes, 0 ≤ size := by
  simp only [checkSizes, bind, Except.bind] at h
  split at h
  · cases h
  · rename_i length
    rw [demand_eq_ok, beq_iff_eq] at length
    split at h
    · cases h
    · rename_i none
      exact ⟨length.symm, nonneg_of_firstNegative? none⟩

/-- The check of the sizes says nothing about feasibility. -/
theorem checkSizes_ne_infeasible (numItems : Nat) (sizes : List Int) :
    checkSizes numItems sizes ≠ .error .infeasiblePropagator := by
  intro h
  simp only [checkSizes, bind, Except.bind] at h
  split at h
  · rename_i length
    cases h
    cases demand_eq_error length
  · split at h
    · cases h
    · cases demand_eq_error h

theorem forM_eq_ok {α : Type} {f : α → Except ConstraintError Unit} {l : List α}
    (h : l.forM f = .ok ()) : ∀ a ∈ l, f a = .ok () := by
  induction l with
  | nil =>
    intro a ha
    cases ha
  | cons b l ih =>
    change (f b >>= fun _ => l.forM f) = .ok () at h
    simp only [bind, Except.bind] at h
    split at h
    · cases h
    · rename_i first
      intro a ha
      rcases List.mem_cons.1 ha with rfl | ha
      · exact first
      · exact ih h a ha

theorem forM_eq_error {α : Type} {f : α → Except ConstraintError Unit} {l : List α}
    {e : ConstraintError} (h : l.forM f = .error e) : ∃ a ∈ l, f a = .error e := by
  induction l with
  | nil => cases h
  | cons a l ih =>
    change (f a >>= fun _ => l.forM f) = .error e at h
    simp only [bind, Except.bind] at h
    split at h
    · rename_i found
      cases h
      exact ⟨a, List.mem_cons_self, found⟩
    · obtain ⟨b, member, found⟩ := ih h
      exact ⟨b, List.mem_cons_of_mem _ member, found⟩

/-- The form of a packing whose dimensions were checked. -/
theorem shaped_of_checkSizes {p : Packing} (dims : 0 < p.sizes.size)
    (rows : ∀ row ∈ p.sizes, checkSizes p.numItems row.toList = .ok ())
    (loads : p.loads.size = p.sizes.size) (bins : ∀ row ∈ p.loads, row.size = p.numBins)
    (single : p.sizes.size = 1 ∨ p.policy = .disabled) : p.Shaped := by
  refine ⟨dims, fun row hrow => ?_, ⟨loads, bins⟩, size_nonneg_of_all ?_, single⟩
  · rw [← Array.length_toList]
    exact (checkSizes_eq_ok (rows row hrow)).1
  · refine Array.all_eq_true'.2 fun row hrow => Array.all_eq_true'.2 fun size hs => ?_
    exact decide_eq_true ((checkSizes_eq_ok (rows row hrow)).2 size (Array.mem_toList_iff.2 hs))

/-- **A packing of one dimension that was checked.** -/
theorem single?_eq_ok {items : Array Var} {sizes : Array Int} {loads : Array Var}
    {policy : BigItems} {numbered : Numbered #[loads]}
    (h : single? items sizes loads policy numbered = .ok p) :
    Shaped ⟨items, #[sizes], #[loads], policy, numbered⟩ ∧
      p = sort ⟨items, #[sizes], #[loads], policy, numbered⟩ := by
  simp only [single?, bind, Except.bind] at h
  split at h
  · cases h
  · rename_i checked
    cases h
    refine ⟨shaped_of_checkSizes Nat.one_pos ?_ rfl ?_ (.inl rfl), rfl⟩
    · simpa [numItems] using checked
    · simp [numBins]

/-- **A packing of several dimensions that was checked.** -/
theorem vector?_eq_ok {items : Array Var} {sizes : Array (Array Int)} {loads : Array (Array Var)}
    {numbered : Numbered loads} (h : vector? items sizes loads numbered = .ok p) :
    Shaped ⟨items, sizes, loads, .disabled, numbered⟩ ∧
      p = sort ⟨items, sizes, loads, .disabled, numbered⟩ := by
  simp only [vector?, bind, Except.bind] at h
  split at h <;> [cases h; rename_i some]
  split at h <;> [cases h; rename_i same]
  split at h <;> [cases h; rename_i checked]
  split at h
  · cases h
  · rename_i bins
    cases h
    rw [demand_eq_ok] at some same
    refine ⟨shaped_of_checkSizes ?_ (fun row hrow => ?_) (beq_iff_eq.1 same) (fun row hrow => ?_)
      (.inr rfl), rfl⟩
    · simpa [Array.size_pos_iff] using some
    · exact forM_eq_ok checked row (Array.mem_toList_iff.2 hrow)
    · have absent := List.find?_eq_none.1 bins row (Array.mem_toList_iff.2 hrow)
      simpa [numBins] using absent

end Packing

end Stowage
