import Stowage.Proofs.Packing.Layouts

/-!
# The allocation of the cells of a packing

When a packing is installed, its sets are allocated and filled, then its integers are allocated block by
block, and then the big items are extended.  The cells it gets are new and apart, and hold the ledger of the
domains.

* `SetLayout.Blank`, `SetLayout.allocate_blank` — the sets are allocated, one block after the other.
* `SetLayout.represents_fill` — the sets are filled.
* `SetLayout.followed` — the integers come right after the sets; `Layout.getElem?_numberKeys` — in the order of
  the keys.
* `Layout.apart_followed`, `Layout.shows_followed` — no two of them share a cell, and all have their values.
* `Layout.Allocated`, `Layout.allocated_allocate` — the allocation of a packing.
-/

set_option autoImplicit false

namespace Stowage

theorem BitSet.Represents.grows {s : BitSet} {c d : Cells} {S : Finset Nat} (h : s.Represents c S)
    (grows : Cells.Grows c d) : s.Represents d S :=
  h.congr grows.size fun cell owns => grows.old cell (owns.2.trans_lt h.allocated)

/-! ## The sets -/

namespace SetLayout

/-- The sets of a packing are empty and in blocks of their own, which begin at cell `first` or later. -/
structure Blank (l : SetLayout) (p : Packing) (first : Nat) (c : Cells) : Prop where
  capacity : ∀ g ∈ p.setKeys, (l.set g).capacity = p.capacity g
  new : ∀ g ∈ p.setKeys, first ≤ (l.set g).start
  empty : ∀ g ∈ p.setKeys, (l.set g).Represents c ∅
  apart : ∀ g ∈ p.setKeys, ∀ h ∈ p.setKeys, g ≠ h →
    (l.set g).countCell < (l.set h).start ∨ (l.set h).countCell < (l.set g).start

/-- Empty sets in blocks of their own, one after the other, which begin at cell `first` or later. -/
structure Row (sets : Array BitSet) (capacity first : Nat) (c : Cells) : Prop where
  each : ∀ (b : Nat) (s : BitSet), sets[b]? = some s →
    s.capacity = capacity ∧ first ≤ s.start ∧ s.Represents c ∅
  ordered : ∀ (b b' : Nat) (s s' : BitSet), b < b' → sets[b]? = some s → sets[b']? = some s' →
    s.countCell < s'.start

theorem Row.push {sets : Array BitSet} {capacity first : Nat} {c : Cells} (row : Row sets capacity first c)
    (start : first ≤ c.size) :
    Row (sets.push (BitSet.allocate c capacity).1) capacity first (BitSet.allocate c capacity).2 := by
  have more := BitSet.grows_allocate c capacity
  refine ⟨fun b s found => ?_, fun b b' s s' before found found' => ?_⟩
  · rw [Array.getElem?_push] at found
    split at found
    · cases found
      exact ⟨rfl, start, BitSet.represents_allocate c capacity⟩
    · obtain ⟨same, new, represents⟩ := row.each b s found
      exact ⟨same, new, represents.grows more⟩
  · rw [Array.getElem?_push] at found found'
    split at found'
    next last =>
      cases found'
      rw [if_neg (by omega)] at found
      exact (row.each b s found).2.2.allocated
    next =>
      have inside : b' < sets.size := (Array.getElem?_eq_some_iff.1 found').1
      rw [if_neg (by omega)] at found
      exact row.ordered b b' s s' before found found'

theorem row_allocateMany (c : Cells) (capacity count : Nat) :
    Cells.Grows c (allocateMany c capacity count).2 ∧ (allocateMany c capacity count).1.size = count ∧
      Row (allocateMany c capacity count).1 capacity c.size (allocateMany c capacity count).2 := by
  induction count with
  | zero => exact ⟨.refl c, rfl, ⟨by simp [allocateMany], by simp [allocateMany]⟩⟩
  | succ count ih =>
    obtain ⟨grows, size, row⟩ := ih
    exact ⟨grows.trans (BitSet.grows_allocate _ _), (Array.size_push _).trans (congrArg Nat.succ size),
      row.push grows.size⟩

/-- **The sets of a packing are allocated.** -/
theorem allocate_blank (p : Packing) (c : Cells) :
    Cells.Grows c (allocate p c).2 ∧ (allocate p c).1.Blank p c.size (allocate p c).2 := by
  obtain ⟨grows, size, row⟩ := row_allocateMany c p.numItems p.numBins
  have more := BitSet.grows_allocate (allocateMany c p.numItems p.numBins).2 p.numBins
  have last := BitSet.represents_allocate (allocateMany c p.numItems p.numBins).2 p.numBins
  have split : allocate p c =
      (⟨(allocateMany c p.numItems p.numBins).1,
        (BitSet.allocate (allocateMany c p.numItems p.numBins).2 p.numBins).1⟩,
        (BitSet.allocate (allocateMany c p.numItems p.numBins).2 p.numBins).2) := rfl
  rw [split]
  generalize allocateMany c p.numItems p.numBins = before at grows size row more last
  have found {b : Nat} (inside : .candidates b ∈ p.setKeys) (available : BitSet) :
      before.1[b]? = some (set ⟨before.1, available⟩ (.candidates b)) := by
    have bound : b < before.1.size := (Packing.mem_setKeys_candidates.1 inside).trans_eq size.symm
    simp [set, bound]
  -- the block of the available bins begins where those of the candidates end
  have after {b : Nat} (inside : .candidates b ∈ p.setKeys) (available : BitSet) :
      (set ⟨before.1, available⟩ (.candidates b)).countCell < before.2.size :=
    (row.each b _ (found inside available)).2.2.allocated
  refine ⟨grows.trans more, fun g inside => ?_, fun g inside => ?_, fun g inside => ?_,
    fun g inside h inside' other => ?_⟩
  · cases g with
    | candidates b => exact (row.each b _ (found inside _)).1
    | available => rfl
  · cases g with
    | candidates b => exact (row.each b _ (found inside _)).2.1
    | available => exact grows.size
  · cases g with
    | candidates b => exact (row.each b _ (found inside _)).2.2.grows more
    | available => exact last
  · rcases g with b | _ <;> rcases h with b' | _
    · rcases Nat.lt_trichotomy b b' with lt | rfl | gt
      · exact .inl (row.ordered b b' _ _ lt (found inside _) (found inside' _))
      · exact absurd rfl other
      · exact .inr (row.ordered b' b _ _ gt (found inside' _) (found inside _))
    · exact .inl (after inside _)
    · exact .inr (after inside' _)
    · exact absurd rfl other

variable {l : SetLayout} {p : Packing} {c : Cells} {first : Nat}

theorem Blank.unique (blank : l.Blank p first c) {g h : SetKey} (inside : g ∈ p.setKeys) (inside' : h ∈ p.setKeys)
    {cell : Nat} (owns : (l.set g).Owns cell) (owns' : (l.set h).Owns cell) : g = h := by
  by_contra other
  obtain ⟨low, high⟩ := owns
  obtain ⟨low', high'⟩ := owns'
  have := blank.apart g inside h inside' other
  omega

/-- **The sets are filled.** -/
theorem represents_fill (blank : l.Blank p first c) {d : Cells} {elements : List (SetKey × Nat)}
    {S : SetKey → Finset Nat} (represents : ∀ g ∈ p.setKeys, (l.set g).Represents d (S g))
    (within : ∀ g i, (g, i) ∈ elements → g ∈ p.setKeys ∧ i < p.capacity g) :
    Cells.Alters (fun cell => ∃ g ∈ p.setKeys, (l.set g).Owns cell) d (l.fill d elements) ∧
      ∀ g ∈ p.setKeys, ∃ T, (l.set g).Represents (l.fill d elements) T ∧
        ∀ i, i ∈ T ↔ i ∈ S g ∨ (g, i) ∈ elements := by
  induction elements generalizing d S with
  | nil => exact ⟨.refl _ d, fun g inside => ⟨S g, represents g inside, by simp⟩⟩
  | cons element elements ih =>
    obtain ⟨h, j⟩ := element
    obtain ⟨member, bound⟩ := within h j List.mem_cons_self
    rw [← blank.capacity h member] at bound
    obtain ⟨-, becomes⟩ := (represents h member).insert bound
    have step : Cells.Alters (fun cell => ∃ g ∈ p.setKeys, (l.set g).Owns cell) d
        ((l.set h).insert d j).2 :=
      ((l.set h).alters_insert d bound).mono fun cell owns => ⟨h, member, owns⟩
    have inserted : ∀ g ∈ p.setKeys,
        (l.set g).Represents ((l.set h).insert d j).2 (Function.update S h (insert j (S h)) g) := by
      intro g inside
      by_cases same : g = h
      · subst same
        simp only [Function.update_self]
        exact becomes.represents
      · simp only [Function.update_of_ne same]
        exact (represents g inside).congr becomes.size.ge fun cell owns =>
          becomes.others cell fun owns' => same (blank.unique inside member owns owns')
    obtain ⟨alters, filled⟩ := ih inserted fun g i later => within g i (List.mem_cons_of_mem _ later)
    refine ⟨step.trans alters, fun g inside => ?_⟩
    obtain ⟨T, represents', mem⟩ := filled g inside
    refine ⟨T, represents', fun i => (mem i).trans ?_⟩
    by_cases same : g = h
    · subst same
      simp [or_assoc, or_left_comm]
    · simp [same]

end SetLayout

/-! ## The integers -/

namespace Cells

variable {c : Cells}

theorem size_allocateEach (c : Cells) (values : List Int) :
    (c.allocateEach values).2.size = c.size + values.length := by
  rw [allocateEach_snd, Trailed.size_extend]

theorem read_allocateEach {values : List Int} {j : Nat} {value : Int} (found : values[j]? = some value) :
    (c.allocateEach values).2.read (c.size + j) = value := by
  rw [allocateEach_snd, read_extend, if_neg (by omega), Nat.add_sub_cancel_left, found, Option.getD_some]

end Cells

namespace Packing

variable {α : Type} {p : Packing}

theorem length_matrix (p : Packing) (f : Nat → Nat → α) : (p.matrix f).length = p.numDims * p.numBins := by
  simp [matrix, dimList, binList]

theorem map_matrix {β : Type} (p : Packing) (f : Nat → Nat → α) (g : α → β) :
    (p.matrix f).map g = p.matrix fun d b => g (f d b) := by
  simp [matrix, List.map_flatMap, Function.comp_def]

theorem length_numberKeys (p : Packing) : p.numberKeys.length =
    4 * (p.numDims * p.numBins) + 2 * p.numDims + if p.policy = .disabled then 0 else 2 * p.numBins := by
  by_cases disabled : p.policy = .disabled <;>
    simp [numberKeys, length_matrix, dimList, binList, disabled] <;> omega

/-- The rows of a matrix have as many places as there are bins. -/
theorem getElem?_matrix (f : Nat → Nat → α) {d b : Nat} (hd : d < p.numDims) (hb : b < p.numBins) :
    (p.matrix f)[d * p.numBins + b]? = some (f d b) := by
  have rows : ∀ row ∈ p.dimList.map fun d => p.binList.map (f d), row.length = p.numBins := by
    simp [dimList, binList]
  rw [matrix, List.flatMap_def, getElem?_flatten_of_length rows hb]
  simp [dimList, binList, hd, hb]

end Packing

/-- The layout with the integers from cell `first` on, in the order of the keys. -/
def SetLayout.followed (sets : SetLayout) (p : Packing) (first : Nat) : Layout :=
  let cells := p.numDims * p.numBins
  { sets with
    required := first
    total := first + cells
    sumLower := first + cells + cells
    sumUpper := first + cells + cells + p.numDims
    seenLower := first + cells + cells + p.numDims + p.numDims
    seenUpper := first + cells + cells + p.numDims + p.numDims + cells
    firstSmall := first + cells + cells + p.numDims + p.numDims + cells + cells
    bigPlaced := first + cells + cells + p.numDims + p.numDims + cells + cells +
      if p.policy = .disabled then 0 else p.numBins }

namespace Layout

variable {p : Packing} {sets : SetLayout} {first : Nat}

/-- **The integers are in the order of the keys.** -/
theorem getElem?_numberKeys (sets : SetLayout) (first : Nat) {f : NumberKey} (inside : f ∈ p.numberKeys) :
    ∃ j, (sets.followed p first).cell p f = first + j ∧ p.numberKeys[j]? = some f := by
  have left {xs ys : List NumberKey} {j : Nat} (found : xs[j]? = some f) : (xs ++ ys)[j]? = some f :=
    (List.getElem?_append_left (List.getElem?_eq_some_iff.1 found).1).trans found
  have right (xs : List NumberKey) {ys : List NumberKey} {j : Nat} (found : ys[j]? = some f) :
      (xs ++ ys)[xs.length + j]? = some f := by
    rw [List.getElem?_append_right (Nat.le_add_right _ _), Nat.add_sub_cancel_left, found]
  have row (g : Nat → NumberKey) {n i : Nat} (hi : i < n) : ((List.range n).map g)[i]? = some (g i) := by
    simp [hi]
  have matrix (g : Nat → Nat → NumberKey) {d b : Nat} (inside : d < p.numDims ∧ b < p.numBins) :
      (p.matrix g)[d * p.numBins + b]? = some (g d b) := Packing.getElem?_matrix g inside.1 inside.2
  have big (enabled : p.policy ≠ .disabled) {j : Nat}
      (found : (p.binList.map NumberKey.firstSmall ++ p.binList.map .bigPlaced)[j]? = some f) :
      (if p.policy = .disabled then [] else p.binList.map NumberKey.firstSmall ++ p.binList.map .bigPlaced)[j]? =
        some f := by
    rw [if_neg enabled]
    exact found
  have inside := Packing.mem_numberKeys.1 inside
  unfold Packing.numberKeys
  cases f with
  | required d b =>
    exact ⟨_, rfl, left (left (left (left (left (left (matrix .required inside))))))⟩
  | total d b =>
    refine ⟨_, ?_, left (left (left (left (left (right _ (matrix .total inside))))))⟩
    simp [cell, SetLayout.followed, Cells.offset, Packing.length_matrix]
    omega
  | sumLower d =>
    refine ⟨_, ?_, left (left (left (left (right _ (row .sumLower inside)))))⟩
    simp [cell, SetLayout.followed, Cells.offset, Packing.length_matrix]
    omega
  | sumUpper d =>
    refine ⟨_, ?_, left (left (left (right _ (row .sumUpper inside))))⟩
    simp [cell, SetLayout.followed, Cells.offset, Packing.length_matrix, Packing.dimList]
    omega
  | seenLower d b =>
    refine ⟨_, ?_, left (left (right _ (matrix .seenLower inside)))⟩
    simp [cell, SetLayout.followed, Cells.offset, Packing.length_matrix, Packing.dimList]
    omega
  | seenUpper d b =>
    refine ⟨_, ?_, left (right _ (matrix .seenUpper inside))⟩
    simp [cell, SetLayout.followed, Cells.offset, Packing.length_matrix, Packing.dimList]
    omega
  | firstSmall b =>
    refine ⟨_, ?_, right _ (big inside.1 (left (row .firstSmall inside.2)))⟩
    simp [cell, SetLayout.followed, Cells.offset, Packing.length_matrix, Packing.dimList]
    omega
  | bigPlaced b =>
    refine ⟨_, ?_, right _ (big inside.1 (right _ (row .bigPlaced inside.2)))⟩
    simp [cell, SetLayout.followed, Cells.offset, Packing.length_matrix, Packing.dimList, Packing.binList,
      inside.1]
    omega

/-- The values of the integers, in the order of the keys. -/
theorem values_eq (p : Packing) (ds : Domains) :
    p.numberKeys.map (Ledger.plain p ds).page.numbers =
      (p.matrix fun d b => ((Ledger.plain p ds).entry d b).required) ++
      (p.matrix fun d b => ((Ledger.plain p ds).entry d b).total) ++
      (p.dimList.map fun d => ((Ledger.plain p ds).sum d).lower) ++
      (p.dimList.map fun d => ((Ledger.plain p ds).sum d).upper) ++
      (p.matrix fun d b => ((Ledger.plain p ds).entry d b).seenLower) ++
      (p.matrix fun d b => ((Ledger.plain p ds).entry d b).seenUpper) ++
      (((if p.policy = .disabled then [] else p.binList).map fun _ => 0) ++
        ((if p.policy = .disabled then [] else p.binList).map fun _ => 0)) := by
  have first (b : Nat) : (Ledger.plain p ds).page.numbers (.firstSmall b) = 0 := by
    by_cases hb : b < p.numBins <;> simp [Ledger.page, Ledger.bin_plain, hb, Ledger.plainBin, Bin.blank]
  have placed (b : Nat) : (Ledger.plain p ds).page.numbers (.bigPlaced b) = 0 := by
    by_cases hb : b < p.numBins <;> simp [Ledger.page, Ledger.bin_plain, hb, Ledger.plainBin, Bin.blank]
  unfold Packing.numberKeys
  by_cases disabled : p.policy = .disabled
  · simp only [List.map_append, Packing.map_matrix, List.map_map, if_pos disabled, List.map_nil,
      List.append_nil]
    rfl
  · simp only [List.map_append, Packing.map_matrix, List.map_map, if_neg disabled]
    simp only [Function.comp_def, first, placed]
    rfl

theorem allocate_eq (p : Packing) (ds : Domains) (c : Cells) {sets : SetLayout} {d filled : Cells}
    (blank : SetLayout.allocate p c = (sets, d)) (fill : sets.fill d (Ledger.insertions p ds) = filled) :
    allocate p ds c =
      (sets.followed p filled.size, (sets.followed p filled.size).writes p
        (filled.allocateEach (p.numberKeys.map (Ledger.plain p ds).page.numbers)).2
        (Ledger.extensions p ds)) := by
  have pair (c : Cells) (values : List Int) : c.allocateEach values = (c.size, Trailed.extend c values) :=
    Prod.ext rfl (c.allocateEach_snd values)
  have big : (if p.policy = .disabled then [] else p.binList).length =
      if p.policy = .disabled then 0 else p.numBins := by
    split <;> simp [Packing.binList]
  have dims : p.dimList.length = p.numDims := by simp [Packing.dimList]
  simp only [allocate, blank, fill, pair, Trailed.size_extend, Packing.length_matrix, List.length_map, dims,
    big]
  simp only [values_eq, Trailed.extend_extend, List.append_assoc]
  rfl

theorem le_cell_followed (sets : SetLayout) (first : Nat) {f : NumberKey} (inside : f ∈ p.numberKeys) :
    first ≤ (sets.followed p first).cell p f := by
  obtain ⟨j, place, -⟩ := getElem?_numberKeys sets first inside
  exact place ▸ Nat.le_add_right first j

/-- **No two things share a cell** where the integers begin behind the last set. -/
theorem apart_followed {start : Nat} {c : Cells} (blank : sets.Blank p start c)
    (early : ∀ g ∈ p.setKeys, (sets.set g).countCell < first) : (sets.followed p first).Apart p := by
  rintro (g | f) (h | k) cell ⟨inside, owns⟩ ⟨inside', owns'⟩
  · exact congrArg Sum.inl (blank.unique inside inside' owns owns')
  · have below := owns.2.trans_lt (early g inside)
    have above := le_cell_followed sets first inside'
    omega
  · have above := le_cell_followed sets first inside
    have below := owns'.2.trans_lt (early h inside')
    omega
  · obtain ⟨j, place, found⟩ := getElem?_numberKeys sets first inside
    obtain ⟨j', place', found'⟩ := getElem?_numberKeys sets first inside'
    have same : j = j' := by omega
    subst same
    exact congrArg Sum.inr (Option.some.inj (found.symm.trans found'))

/-- The sets stay what they are when the integers are allocated, and these have their values. -/
theorem shows_followed {c : Cells} {page : Page}
    (full : ∀ g ∈ p.setKeys, (sets.set g).Represents c (page.sets g)) :
    (sets.followed p c.size).Shows p (c.allocateEach (p.numberKeys.map page.numbers)).2 page := by
  refine ⟨fun g inside => (full g inside).grows (c.grows_allocateEach _), fun f inside => ?_⟩
  obtain ⟨j, place, found⟩ := getElem?_numberKeys sets c.size inside
  have bound := (List.getElem?_eq_some_iff.1 found).1
  have value : (p.numberKeys.map page.numbers)[j]? = some (page.numbers f) := by
    rw [List.getElem?_map, found, Option.map_some]
  rw [place, Cells.size_allocateEach, Cells.read_allocateEach value, List.length_map]
  exact ⟨Nat.add_lt_add_left bound _, rfl⟩

theorem stop_followed (p : Packing) (sets : SetLayout) (first : Nat) :
    (sets.followed p first).stop p = first + p.numberKeys.length := by
  rw [Packing.length_numberKeys]
  by_cases disabled : p.policy = .disabled <;>
    simp only [stop, SetLayout.followed, Cells.offset, disabled, if_true, if_false] <;> omega

/-- The cells of a packing have been allocated, and hold the ledger of the domains. -/
structure Allocated (l : Layout) (p : Packing) (ds : Domains) (c d : Cells) : Prop where
  grows : Cells.Grows c d
  apart : l.Apart p
  new : ∀ cell, l.Owns p cell → c.size ≤ cell
  present : l.stop p ≤ d.size
  shows' : l.Shows p d (Ledger.ofDomains p ds).page

/-- **The cells of a packing are allocated.** -/
theorem allocated_allocate (wf : p.WellFormed) (ds : Domains) (c : Cells) :
    Allocated (allocate p ds c).1 p ds c (allocate p ds c).2 := by
  obtain ⟨grows, blank⟩ := SetLayout.allocate_blank p c
  cases result : SetLayout.allocate p c with | mk sets empty => ?_
  rw [result] at grows blank
  obtain ⟨alters, filledWith⟩ := SetLayout.represents_fill blank blank.empty
    fun g i (member : (g, i) ∈ Ledger.insertions p ds) => Ledger.within_insertions member
  rw [allocate_eq p ds c result rfl]
  generalize sets.fill empty (Ledger.insertions p ds) = filled at alters filledWith ⊢
  have full : ∀ g ∈ p.setKeys, (sets.set g).Represents filled ((Ledger.plain p ds).page.sets g) := by
    intro g inside
    obtain ⟨T, represents, mem⟩ := filledWith g inside
    have same : T = (Ledger.plain p ds).page.sets g := Finset.ext fun i => by
      rw [mem i, Ledger.mem_insertions]
      simp
    exact same ▸ represents
  have growsF : Cells.Grows c filled := grows.alters alters fun cell ⟨g, inside, owns⟩ =>
    (blank.new g inside).trans owns.1
  -- the sets end where the integers begin
  have apart : (sets.followed p filled.size).Apart p :=
    apart_followed blank fun g inside => (full g inside).allocated
  have new : ∀ cell, (sets.followed p filled.size).Owns p cell → c.size ≤ cell := by
    rintro cell ⟨g | f, inside, owns⟩
    · exact (blank.new g inside).trans owns.1
    · exact owns ▸ growsF.size.trans (le_cell_followed sets _ inside)
  have within := Ledger.within_extensions wf ds
  have written := alters_writes (l := sets.followed p filled.size)
    (c := (filled.allocateEach (p.numberKeys.map (Ledger.plain p ds).page.numbers)).2) within
  refine ⟨(growsF.trans (filled.grows_allocateEach _)).alters written new, apart, new, ?_, ?_⟩
  · rw [written.size, Cells.size_allocateEach, List.length_map, stop_followed]
  · rw [Ledger.page_ofDomains wf]
    exact (shows_followed full).writes apart within

/-- The ledger that is allocated is that of the domains. -/
theorem Allocated.ledger_eq {l : Layout} {ds : Domains} {c d : Cells} (h : Allocated l p ds c d)
    (wf : p.WellFormed) : l.ledger p d = Ledger.ofDomains p ds :=
  ledger_of_shows h.shows' (Ledger.tracks_ofDomains wf ds).formed

end Layout

end Stowage
