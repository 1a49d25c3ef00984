import Mathlib
import Stowage.Packing.Basic

/-!
# Sizes of sets of items, and solutions

* `Packing.Shaped`, `Packing.WellFormed` — what installing a packing checks, without and with the order
  of the items.
* `Packing.loadVars` — the load variables, one dimension after the other.
* `Packing.weigh` — the size of the items that satisfy a test.
* `Packing.Solution` — assignments that place every item in a bin and give every load the size of the
  items in its bin.
* `Packing.Solution.sum_loads` — in every dimension the loads add up to the size of all items.
-/

set_option autoImplicit false

namespace Stowage

namespace Packing

/-- What has to hold of a packing apart from the order of its items. -/
structure Shaped (p : Packing) : Prop where
  dims : 0 < p.numDims
  sizeRows : ∀ row ∈ p.sizes, row.size = p.numItems
  loadRows : p.loads.size = p.numDims ∧ ∀ row ∈ p.loads, row.size = p.numBins
  nonneg : ∀ d i, 0 ≤ p.size d i
  single : p.numDims = 1 ∨ p.policy = .disabled

/-- What installing a packing checks. -/
structure WellFormed (p : Packing) : Prop extends Shaped p where
  antitone : ∀ i j, i ≤ j → j < p.numItems → p.size 0 j ≤ p.size 0 i

theorem isNonIncreasing_iff {l : List Int} :
    isNonIncreasing l = true ↔ l.Pairwise fun a b => b ≤ a := by
  induction l with
  | nil => simp [isNonIncreasing]
  | cons a l ih =>
    cases l with
    | nil => simp [isNonIncreasing]
    | cons b l =>
      simp only [isNonIncreasing, Bool.and_eq_true, decide_eq_true_eq, ih]
      constructor
      · rintro ⟨first, rest⟩
        refine List.pairwise_cons.2 ⟨fun c hc => ?_, rest⟩
        rcases List.mem_cons.1 hc with rfl | hc
        · exact first
        · exact ((List.pairwise_cons.1 rest).1 c hc).trans first
      · intro all
        obtain ⟨first, rest⟩ := List.pairwise_cons.1 all
        exact ⟨first b List.mem_cons_self, rest⟩

theorem require_eq_ok {c : Bool} {fault : Fault} : require c fault = .ok () ↔ c = true := by
  unfold require
  split <;> simp_all

theorem size_nonneg_of_all {p : Packing}
    (h : (p.sizes.all fun row => row.all fun size => decide (0 ≤ size)) = true) (d i : Nat) :
    0 ≤ p.size d i := by
  unfold size
  by_cases hd : d < p.sizes.size
  · by_cases hi : i < p.sizes[d].size
    · have row := Array.all_eq_true.1 h d hd
      have entry := Array.all_eq_true.1 row i hi
      simpa [hd, hi] using entry
    · simp [hd, hi]
  · simp [hd]

/-- A packing that passes the checks is well-formed, and is installed at the root. -/
theorem wellFormed_of_checkShape {p : Packing} {checkpoint : Nat}
    (h : p.checkShape checkpoint = .ok ()) : p.WellFormed ∧ checkpoint = 0 := by
  simp only [checkShape, bind, Except.bind] at h
  split at h <;> [cases h; rename_i root]
  split at h <;> [cases h; rename_i rows]
  split at h <;> [cases h; rename_i sizeRows]
  split at h <;> [cases h; rename_i loadRows]
  split at h <;> [cases h; rename_i nonneg]
  split at h <;> [cases h; rename_i sorted]
  rw [require_eq_ok] at root rows sizeRows loadRows nonneg sorted h
  have dims : 0 < p.sizes.size ∧ p.sizes.size = p.loads.size := by
    simp only [Bool.and_eq_true, Bool.not_eq_true', beq_iff_eq, Array.isEmpty_eq_false_iff] at rows
    exact ⟨Array.size_pos_iff.2 rows.1, rows.2⟩
  have rowSize : ∀ row ∈ p.sizes, row.size = p.numItems := fun row hrow => by
    simpa using Array.all_eq_true'.1 sizeRows row hrow
  have loadSize : ∀ row ∈ p.loads, row.size = p.numBins := fun row hrow => by
    simpa using Array.all_eq_true'.1 loadRows row hrow
  refine ⟨⟨⟨dims.1, rowSize, ⟨dims.2.symm, loadSize⟩, size_nonneg_of_all nonneg, by simpa using h⟩,
    fun i j hij hj => ?_⟩, by simpa using root⟩
  have first : p.sizes[0].size = p.numItems := rowSize _ (Array.getElem_mem dims.1)
  have pairs := List.pairwise_iff_getElem.1 (isNonIncreasing_iff.1 sorted)
  rcases Nat.eq_or_lt_of_le hij with rfl | less
  · exact Int.le_refl _
  · have := pairs i j (by simp [dims.1]; omega) (by simp [dims.1]; omega) less
    simpa [size, dims.1, show i < p.sizes[0].size by omega, show j < p.sizes[0].size by omega]
      using this

variable {p : Packing}

/-! ## Load variables -/

/-- Entries of rows of equal length, one row after the other. -/
theorem getElem?_flatten_of_length {α : Type} {rows : List (List α)} {n : Nat}
    (h : ∀ row ∈ rows, row.length = n) {d b : Nat} (hb : b < n) :
    rows.flatten[d * n + b]? = rows[d]?.bind (·[b]?) := by
  induction rows generalizing d with
  | nil => simp
  | cons row rows ih =>
    have length := h row List.mem_cons_self
    rw [List.flatten_cons]
    cases d with
    | zero =>
      rw [List.getElem?_append_left (by rw [length, Nat.zero_mul, Nat.zero_add]; exact hb)]
      simp
    | succ d =>
      have span : row.length ≤ (d + 1) * n + b := by
        rw [length, Nat.succ_mul]
        omega
      rw [List.getElem?_append_right span, length, Nat.succ_mul,
        show d * n + n + b - n = d * n + b by omega,
        ih fun row hrow => h row (List.mem_cons_of_mem _ hrow)]
      rfl

/-- The load variables of a packing, one dimension after the other. -/
def loadVars (p : Packing) : List Var := p.loads.toList.flatMap Array.toList

theorem getElem?_loadVars (shaped : p.Shaped) {d b : Nat} (hd : d < p.numDims)
    (hb : b < p.numBins) : p.loadVars[d * p.numBins + b]? = some (p.load d b) := by
  have rows : ∀ row ∈ p.loads.toList.map Array.toList, row.length = p.numBins := by
    intro row hrow
    obtain ⟨r, hr, rfl⟩ := List.mem_map.1 hrow
    simpa using shaped.loadRows.2 r (by simpa using hr)
  have bound : d < p.loads.size := by rw [shaped.loadRows.1]; exact hd
  have width : p.loads[d].size = p.numBins := shaped.loadRows.2 _ (Array.getElem_mem bound)
  rw [loadVars, List.flatMap_def, getElem?_flatten_of_length rows hb]
  have inside : b < p.loads[d].size := by rw [width]; exact hb
  simp [Packing.load, bound, inside]

/-- The place of a load variable tells its dimension and bin. -/
theorem exists_of_getElem?_loadVars (shaped : p.Shaped) {j : Nat} {x : Var}
    (h : p.loadVars[j]? = some x) :
    ∃ d < p.numDims, ∃ b < p.numBins, j = d * p.numBins + b := by
  have length : p.loadVars.length = p.numDims * p.numBins := by
    rw [loadVars, List.length_flatMap, ← shaped.loadRows.1]
    have rows : ∀ row ∈ p.loads.toList, row.toList.length = p.numBins :=
      fun row hrow => by simpa using shaped.loadRows.2 row (by simpa using hrow)
    rw [List.map_congr_left rows, List.map_const', List.sum_replicate_nat, Array.length_toList]
  have bound : j < p.numDims * p.numBins := by
    rw [← length]
    exact (List.getElem?_eq_some_iff.1 h).1
  have positive : 0 < p.numBins := by
    by_contra zero
    rw [Nat.eq_zero_of_not_pos zero, Nat.mul_zero] at bound
    cases bound
  refine ⟨j / p.numBins, Nat.div_lt_of_lt_mul (Nat.mul_comm _ _ ▸ bound), j % p.numBins,
    Nat.mod_lt _ positive, ?_⟩
  rw [Nat.mul_comm]
  exact (Nat.div_add_mod j p.numBins).symm

/-! ## Weights -/

/-- The size of the items that satisfy a test, in dimension `d`. -/
def weigh (p : Packing) (d : Nat) (test : Nat → Bool) : Int := p.sizeOf d (p.itemList.filter test)

variable {d : Nat} {f g : Nat → Bool}

theorem sumOf_eq_sum (xs : List Int) : sumOf xs = xs.sum := rfl

theorem sum_map_filter {α : Type} (size : α → Int) (test : α → Bool) (l : List α) :
    ((l.filter test).map size).sum = (l.map fun a => if test a then size a else 0).sum := by
  induction l with
  | nil => rfl
  | cons a l ih => by_cases h : test a = true <;> simp [h, ih]

theorem sum_map_range {M : Type} [AddCommMonoid M] (h : Nat → M) (n : Nat) :
    ((List.range n).map h).sum = ∑ i ∈ Finset.range n, h i := by
  induction n with
  | zero => simp
  | succ n ih => rw [List.range_succ, Finset.sum_range_succ]; simp [ih]

theorem weigh_eq_sum (p : Packing) (d : Nat) (f : Nat → Bool) :
    p.weigh d f = ∑ i ∈ Finset.range p.numItems, if f i then p.size d i else 0 := by
  rw [weigh, sizeOf, itemList, sumOf_eq_sum, sum_map_filter, sum_map_range]

theorem weigh_congr (h : ∀ i < p.numItems, f i = g i) : p.weigh d f = p.weigh d g := by
  rw [weigh_eq_sum, weigh_eq_sum]
  exact Finset.sum_congr rfl fun i hi => by rw [h i (Finset.mem_range.1 hi)]

/-- What a test weighs does not depend on the order in which the items are listed: `rename` tells for
every item of `q` which item of `p` it is. -/
theorem weigh_rename {p q : Packing} {d d' : Nat} {rename : Nat → Nat} {f g : Nat → Bool}
    (items : (q.itemList.map rename).Perm p.itemList)
    (sizes : ∀ i < q.numItems, q.size d i = p.size d' (rename i))
    (same : ∀ i < q.numItems, g i = f (rename i)) : q.weigh d g = p.weigh d' f := by
  have weights (p : Packing) (d : Nat) (f : Nat → Bool) : p.weigh d f =
      (p.itemList.map fun i => if f i then p.size d i else 0).sum := by
    rw [weigh, sizeOf, sumOf_eq_sum, sum_map_filter]
  have renamed : (q.itemList.map fun i => if g i then q.size d i else 0) =
      (q.itemList.map rename).map fun i => if f i then p.size d' i else 0 := by
    rw [List.map_map]
    apply List.map_congr_left
    intro i hi
    have bound := List.mem_range.1 hi
    rw [same i bound, sizes i bound]
    rfl
  rw [weights, weights, renamed]
  exact (items.map _).sum_eq

theorem weigh_mono (wf : p.WellFormed) (h : ∀ i < p.numItems, f i = true → g i = true) :
    p.weigh d f ≤ p.weigh d g := by
  rw [weigh_eq_sum, weigh_eq_sum]
  refine Finset.sum_le_sum fun i hi => ?_
  have size := wf.nonneg d i
  by_cases hf : f i = true
  · simp [hf, h i (Finset.mem_range.1 hi) hf]
  · rw [if_neg hf]
    split
    · exact size
    · exact Int.le_refl _

theorem weigh_nonneg (wf : p.WellFormed) (d : Nat) (f : Nat → Bool) : 0 ≤ p.weigh d f := by
  rw [weigh_eq_sum]
  exact Finset.sum_nonneg fun i _ => by split <;> simp [wf.nonneg d i]

theorem weigh_eq_zero (h : ∀ i < p.numItems, f i = false) : p.weigh d f = 0 := by
  rw [weigh_eq_sum]
  exact Finset.sum_eq_zero fun i hi => by simp [h i (Finset.mem_range.1 hi)]

/-- The items that satisfy `f` are those that also satisfy `g` and those that do not. -/
theorem weigh_split (p : Packing) (d : Nat) (f g : Nat → Bool) :
    p.weigh d f = p.weigh d (fun i => f i && g i) + p.weigh d fun i => f i && !g i := by
  simp only [weigh_eq_sum, ← Finset.sum_add_distrib]
  refine Finset.sum_congr rfl fun i _ => ?_
  by_cases hf : f i = true <;> by_cases hg : g i = true <;> simp [hf, hg]

theorem weigh_single {i : Nat} (h : i < p.numItems) : p.weigh d (fun j => j == i) = p.size d i := by
  rw [weigh_eq_sum]
  simp [h]

/-- The item `i` apart, the items that satisfy `f` are those that satisfy `g`. -/
theorem weigh_insert {i : Nat} (h : i < p.numItems) (absent : g i = false)
    (others : ∀ j, f j = (g j || j == i)) : p.weigh d f = p.weigh d g + p.size d i := by
  rw [weigh_split p d f g, ← weigh_single h]
  congr 1
  · refine weigh_congr fun j _ => ?_
    rw [others]
    by_cases hg : g j = true <;> simp [hg]
  · refine weigh_congr fun j _ => ?_
    rw [others]
    by_cases hj : j = i
    · subst hj
      simp [absent]
    · have different : (j == i) = false := by simpa using hj
      simp [different]

/-- The items of an ascending list, taken together. -/
theorem sizeOf_eq_weigh {l : List Nat} (ascending : l.Pairwise (· < ·))
    (bounded : ∀ i ∈ l, i < p.numItems) : p.sizeOf d l = p.weigh d l.contains := by
  have same : p.itemList.filter l.contains = l := by
    refine List.Perm.eq_of_pairwise (fun a b _ _ (h : a < b) (h' : b < a) => by omega)
      (List.pairwise_lt_range.filter _) ascending ?_
    refine (List.perm_ext_iff_of_nodup (List.nodup_range.filter _)
      (ascending.imp fun h => by omega)).2 fun i => ?_
    simp only [List.mem_filter, List.mem_range, List.contains_iff_mem]
    exact ⟨And.right, fun h => ⟨bounded i h, h⟩⟩
  rw [weigh, same]

theorem totalSize_eq_weigh (p : Packing) (d : Nat) : p.totalSize d = p.weigh d fun _ => true := by
  simp [totalSize, weigh]

/-! ## Solutions -/

/-- The items that an assignment places in bin `b`. -/
def placedBy (p : Packing) (assignment : Var → Int) (b : Nat) (i : Nat) : Bool :=
  assignment (p.item i) == (b : Int)

/-- Every item is placed in a bin, and every load is the size of the items in its bin. -/
structure Solution (p : Packing) (assignment : Var → Int) : Prop where
  inBins : ∀ i < p.numItems, 0 ≤ assignment (p.item i) ∧ assignment (p.item i) < p.numBins
  loads : ∀ d < p.numDims, ∀ b < p.numBins,
    assignment (p.load d b) = p.weigh d (p.placedBy assignment b)

theorem sum_binList (p : Packing) (h : Nat → Int) :
    sumOf (p.binList.map h) = ∑ b ∈ Finset.range p.numBins, h b := sum_map_range h _

/-- In every dimension the loads add up to the size of all items. -/
theorem Solution.sum_loads {assignment : Var → Int} (solution : p.Solution assignment)
    (hd : d < p.numDims) :
    ∑ b ∈ Finset.range p.numBins, assignment (p.load d b) = p.totalSize d := by
  have loads : ∑ b ∈ Finset.range p.numBins, assignment (p.load d b) =
      ∑ b ∈ Finset.range p.numBins, ∑ i ∈ Finset.range p.numItems,
        if assignment (p.item i) = b then p.size d i else 0 := by
    refine Finset.sum_congr rfl fun b hb => ?_
    rw [solution.loads d hd b (Finset.mem_range.1 hb), weigh_eq_sum]
    simp [placedBy]
  rw [loads, Finset.sum_comm, totalSize_eq_weigh, weigh_eq_sum]
  refine Finset.sum_congr rfl fun i hi => ?_
  obtain ⟨low, high⟩ := solution.inBins i (Finset.mem_range.1 hi)
  rw [Finset.sum_eq_single (assignment (p.item i)).toNat]
  · rw [if_pos (by omega), if_pos rfl]
  · intro b _ different
    rw [if_neg (by omega)]
  · intro outside
    exact absurd (Finset.mem_range.2 (by omega)) outside

end Packing

end Stowage
