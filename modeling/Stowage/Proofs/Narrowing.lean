import Mathlib
import Stowage.Domain

/-!
# Narrowing is intersection

A proper domain is one whose bounds are values of it.  Narrowing by a comparison keeps exactly the
values that satisfy it, and what is left is proper again or empty.

* `Domain.mem_narrow` — the values after narrowing.
* `Domain.Proper.narrow` — a narrowed domain that is not empty is proper.
* `Domain.size_narrow_lt` — a narrowing by a comparison that is not entailed removes a value.
* `Domain.mem_values`, `Domain.smallestValues_eq` — the listed values are the values.
-/

set_option autoImplicit false

namespace Stowage

namespace Domain

/-- A domain of integers of 32 bits that is not empty, with its bounds among its values and no hole listed
twice. -/
structure Proper (d : Domain) : Prop where
  lower_mem : d.lower ∈ d
  upper_mem : d.upper ∈ d
  holes_nodup : d.holes.Nodup
  minValue_le : minValue ≤ d.lower
  le_maxValue : d.upper ≤ maxValue

theorem Proper.lower_le_upper {d : Domain} (h : d.Proper) : d.lower ≤ d.upper :=
  (mem_iff.1 h.lower_mem).2.1

theorem contains_eq_true_iff {d : Domain} {v : Int} : d.contains v = true ↔ v ∈ d := Iff.rfl

theorem contains_eq_false_iff {d : Domain} {v : Int} : d.contains v = false ↔ v ∉ d := by
  rw [← contains_eq_true_iff, Bool.not_eq_true]

theorem lower_le_of_mem {d : Domain} {v : Int} (h : v ∈ d) : d.lower ≤ v := (mem_iff.1 h).1

theorem le_upper_of_mem {d : Domain} {v : Int} (h : v ∈ d) : v ≤ d.upper := (mem_iff.1 h).2.1

theorem proper_interval {lower upper : Int} (h : lower ≤ upper) (low : minValue ≤ lower)
    (high : upper ≤ maxValue) : (interval lower upper).Proper where
  lower_mem := mem_interval.2 ⟨Int.le_refl _, h⟩
  upper_mem := mem_interval.2 ⟨h, Int.le_refl _⟩
  holes_nodup := List.nodup_nil
  minValue_le := low
  le_maxValue := high

theorem Proper.proper_value {d : Domain} (h : d.Proper) {v : Int} (member : v ∈ d) :
    (interval v v).Proper :=
  proper_interval (Int.le_refl v) (h.minValue_le.trans (lower_le_of_mem member))
    ((le_upper_of_mem member).trans h.le_maxValue)

/-- Proper domains with the same values have the same bounds. -/
theorem Proper.bounds_eq {d e : Domain} (hd : d.Proper) (he : e.Proper)
    (same : ∀ v, v ∈ d ↔ v ∈ e) : d.lower = e.lower ∧ d.upper = e.upper := by
  have low := lower_le_of_mem ((same _).2 he.lower_mem)
  have low' := lower_le_of_mem ((same _).1 hd.lower_mem)
  have high := le_upper_of_mem ((same _).2 he.upper_mem)
  have high' := le_upper_of_mem ((same _).1 hd.upper_mem)
  exact ⟨by omega, by omega⟩

/-- A fixed proper domain holds its lower bound and nothing else. -/
theorem Proper.mem_iff_of_isFixed {d : Domain} (h : d.Proper) (fixed : d.isFixed = true) {v : Int} :
    v ∈ d ↔ v = d.lower := by
  have meet : d.lower = d.upper := by simpa [isFixed] using fixed
  constructor
  · intro member
    have := lower_le_of_mem member
    have := le_upper_of_mem member
    omega
  · rintro rfl
    exact h.lower_mem

/-- A proper domain whose values are all equal is fixed. -/
theorem Proper.isFixed_of_forall_eq {d : Domain} (h : d.Proper) {v : Int} (all : ∀ w ∈ d, w = v) :
    d.isFixed = true := by
  have lower := all _ h.lower_mem
  have upper := all _ h.upper_mem
  simp [isFixed, lower, upper]

theorem fixedValue?_eq_some_iff {d : Domain} {v : Int} :
    d.fixedValue? = some v ↔ d.isFixed = true ∧ d.lower = v := by
  unfold fixedValue?
  split <;> simp_all

/-! ## Settling the bounds -/

theorem climb_spec (holes : List Int) (n : Nat) (v : Int) :
    v ≤ climb holes n v ∧ climb holes n v ≤ v + n ∧
      (∀ w, v ≤ w → w < climb holes n v → w ∈ holes) ∧
      (climb holes n v ∉ holes ∨ climb holes n v = v + n) := by
  induction n generalizing v with
  | zero => simp only [climb]; exact ⟨by omega, by omega, fun w _ _ => by omega, .inr (by omega)⟩
  | succ n ih =>
    rw [climb]
    split
    · rename_i hole
      obtain ⟨low, high, between, stop⟩ := ih (v + 1)
      refine ⟨by omega, by omega, fun w hw hw' => ?_, stop.imp_right fun h => by omega⟩
      rcases (show w = v ∨ v + 1 ≤ w by omega) with rfl | later
      · exact List.contains_iff_mem.1 hole
      · exact between w later hw'
    · rename_i free
      exact ⟨by omega, by omega, fun w _ _ => by omega,
        .inl fun member => free (List.contains_iff_mem.2 member)⟩

theorem descend_spec (holes : List Int) (n : Nat) (v : Int) :
    descend holes n v ≤ v ∧ v - n ≤ descend holes n v ∧
      (∀ w, w ≤ v → descend holes n v < w → w ∈ holes) ∧
      (descend holes n v ∉ holes ∨ descend holes n v = v - n) := by
  induction n generalizing v with
  | zero => simp only [descend]; exact ⟨by omega, by omega, fun w _ _ => by omega, .inr (by omega)⟩
  | succ n ih =>
    rw [descend]
    split
    · rename_i hole
      obtain ⟨high, low, between, stop⟩ := ih (v - 1)
      refine ⟨by omega, by omega, fun w hw hw' => ?_, stop.imp_right fun h => by omega⟩
      rcases (show w = v ∨ w ≤ v - 1 by omega) with rfl | earlier
      · exact List.contains_iff_mem.1 hole
      · exact between w earlier hw'
    · rename_i free
      exact ⟨by omega, by omega, fun w _ _ => by omega,
        .inl fun member => free (List.contains_iff_mem.2 member)⟩

@[simp] theorem mem_settleLower {d : Domain} {v : Int} : v ∈ d.settleLower ↔ v ∈ d := by
  obtain ⟨low, -, between, -⟩ := climb_spec d.holes d.width d.lower
  simp only [mem_iff, settleLower]
  constructor
  · rintro ⟨h, h', free⟩
    exact ⟨by omega, h', free⟩
  · rintro ⟨h, h', free⟩
    exact ⟨Int.not_lt.1 fun before => free (between v h before), h', free⟩

@[simp] theorem mem_settleUpper {d : Domain} {v : Int} : v ∈ d.settleUpper ↔ v ∈ d := by
  obtain ⟨high, -, between, -⟩ := descend_spec d.holes d.width d.upper
  simp only [mem_iff, settleUpper]
  constructor
  · rintro ⟨h, h', free⟩
    exact ⟨h, by omega, free⟩
  · rintro ⟨h, h', free⟩
    exact ⟨h, Int.not_lt.1 fun after => free (between v h' after), free⟩

/-- After settling, the bounds are values of the domain or have crossed. -/
theorem settle_bounds_mem {d : Domain} (notEmpty : d.settleLower.settleUpper.isEmpty = false) :
    d.settleLower.settleUpper.lower ∈ d.settleLower.settleUpper ∧
      d.settleLower.settleUpper.upper ∈ d.settleLower.settleUpper := by
  obtain ⟨lowerLow, -, -, lowerStop⟩ := climb_spec d.holes d.width d.lower
  obtain ⟨upperHigh, -, -, upperStop⟩ :=
    descend_spec d.holes d.settleLower.width d.settleLower.upper
  have ordered : d.settleLower.settleUpper.lower ≤ d.settleLower.settleUpper.upper := by
    simpa only [isEmpty, decide_eq_false_iff_not, Int.not_lt] using notEmpty
  change climb d.holes d.width d.lower ≤
    descend d.holes d.settleLower.width d.settleLower.upper at ordered
  have widthEq : (d.width : Int) = max 0 (d.upper + 1 - d.lower) := by simp only [width]; omega
  have settledWidth : (d.settleLower.width : Int) =
      max 0 (d.upper + 1 - climb d.holes d.width d.lower) := by
    simp only [width, settleLower]; omega
  change descend d.holes d.settleLower.width d.settleLower.upper ≤ d.upper at upperHigh
  have lowerFree : climb d.holes d.width d.lower ∉ d.holes :=
    lowerStop.resolve_right fun beyond => by omega
  have upperFree : descend d.holes d.settleLower.width d.settleLower.upper ∉ d.holes := by
    refine upperStop.resolve_right fun beyond => ?_
    change _ = d.upper - (d.settleLower.width : Int) at beyond
    omega
  exact ⟨mem_iff.2 ⟨Int.le_refl _, ordered, lowerFree⟩, mem_iff.2 ⟨ordered, Int.le_refl _, upperFree⟩⟩

/-! ## Narrowing -/

theorem mem_cut {d : Domain} {c : Comparison} {v w : Int} (h : d.entails c v = false) :
    w ∈ d.cut c v ↔ w ∈ d ∧ c.holds w v = true := by
  cases c with
  | ge =>
    simp only [entails, decide_eq_false_iff_not] at h
    simp only [cut, mem_iff, Comparison.holds, decide_eq_true_eq]
    constructor
    · rintro ⟨a, b, free⟩
      exact ⟨⟨by omega, b, free⟩, a⟩
    · rintro ⟨⟨_, b, free⟩, a⟩
      exact ⟨a, b, free⟩
  | le =>
    simp only [entails, decide_eq_false_iff_not] at h
    simp only [cut, mem_iff, Comparison.holds, decide_eq_true_eq]
    constructor
    · rintro ⟨a, b, free⟩
      exact ⟨⟨a, by omega, free⟩, b⟩
    · rintro ⟨⟨a, _, free⟩, b⟩
      exact ⟨a, b, free⟩
  | eq =>
    simp only [cut, Comparison.holds, decide_eq_true_eq]
    split
    · rename_i present
      have member := mem_iff.1 (contains_eq_true_iff.1 present)
      simp only [mem_iff]
      constructor
      · rintro ⟨a, b, free⟩
        obtain rfl : w = v := by omega
        exact ⟨member, rfl⟩
      · rintro ⟨⟨_, _, free⟩, rfl⟩
        exact ⟨Int.le_refl _, Int.le_refl _, free⟩
    · rename_i absent
      constructor
      · intro member
        have := lower_le_of_mem member
        have := le_upper_of_mem member
        simp only at *
        omega
      · rintro ⟨member, rfl⟩
        exact absurd (contains_eq_true_iff.2 member) absent
  | ne =>
    have member := mem_iff.1 (contains_eq_true_iff.1 (by simpa [entails] using h))
    simp only [cut, Comparison.holds, decide_eq_true_eq]
    split
    · simp only [mem_iff]
      constructor
      · rintro ⟨a, b, free⟩
        exact ⟨⟨by omega, b, free⟩, by omega⟩
      · rintro ⟨⟨a, b, free⟩, different⟩
        exact ⟨by omega, b, free⟩
    · split
      · simp only [mem_iff]
        constructor
        · rintro ⟨a, b, free⟩
          exact ⟨⟨a, by omega, free⟩, by omega⟩
        · rintro ⟨⟨a, b, free⟩, different⟩
          exact ⟨a, by omega, free⟩
      · simp only [mem_iff, List.mem_cons, not_or]
        constructor
        · rintro ⟨a, b, different, free⟩
          exact ⟨⟨a, b, free⟩, different⟩
        · rintro ⟨⟨a, b, free⟩, different⟩
          exact ⟨a, b, different, free⟩

/-- **Narrowing keeps exactly the values that satisfy the comparison.** -/
theorem mem_narrow {d : Domain} {c : Comparison} {v w : Int} (h : d.entails c v = false) :
    w ∈ d.narrow c v ↔ w ∈ d ∧ c.holds w v = true := by
  simp [narrow, mem_cut h]

theorem nodup_cut {d : Domain} (nodup : d.holes.Nodup) {c : Comparison} {v : Int}
    (h : d.entails c v = false) : (d.cut c v).holes.Nodup := by
  cases c with
  | ge => exact nodup
  | le => exact nodup
  | eq => simp only [cut]; split <;> exact nodup
  | ne =>
    have free := (mem_iff.1 (contains_eq_true_iff.1 (by simpa [entails] using h))).2.2
    simp only [cut]
    split
    · exact nodup
    · split
      · exact nodup
      · exact List.nodup_cons.2 ⟨free, nodup⟩

theorem Proper.narrow {d : Domain} (proper : d.Proper) {c : Comparison} {v : Int}
    (h : d.entails c v = false) (notEmpty : (d.narrow c v).isEmpty = false) :
    (d.narrow c v).Proper := by
  obtain ⟨low, high⟩ := settle_bounds_mem notEmpty
  exact ⟨low, high, nodup_cut proper.holes_nodup h,
    proper.minValue_le.trans (lower_le_of_mem ((mem_narrow h).1 low).1),
    (le_upper_of_mem ((mem_narrow h).1 high).1).trans proper.le_maxValue⟩

theorem not_mem_of_isEmpty {d : Domain} (h : d.isEmpty = true) (v : Int) : v ∉ d := by
  intro member
  have := lower_le_of_mem member
  have := le_upper_of_mem member
  simp only [isEmpty, decide_eq_true_eq] at h
  omega

/-- A comparison is entailed when all values satisfy it. -/
theorem holds_of_entails {d : Domain} {c : Comparison} {v w : Int} (h : d.entails c v = true)
    (member : w ∈ d) : c.holds w v = true := by
  have low := lower_le_of_mem member
  have high := le_upper_of_mem member
  cases c with
  | ge => simp only [entails, Comparison.holds, decide_eq_true_eq] at h ⊢; omega
  | le => simp only [entails, Comparison.holds, decide_eq_true_eq] at h ⊢; omega
  | eq =>
    simp only [entails, Bool.and_eq_true, beq_iff_eq] at h
    simp only [Comparison.holds, decide_eq_true_eq]
    omega
  | ne =>
    simp only [entails, Bool.not_eq_true', contains_eq_false_iff] at h
    simp only [Comparison.holds, decide_eq_true_eq]
    rintro rfl
    exact h member

/-- A comparison that is not entailed fails for a value of the domain. -/
theorem exists_not_holds {d : Domain} (proper : d.Proper) {c : Comparison} {v : Int}
    (h : d.entails c v = false) : ∃ w ∈ d, c.holds w v = false := by
  cases c with
  | ge =>
    refine ⟨d.lower, proper.lower_mem, ?_⟩
    simpa [entails, Comparison.holds] using h
  | le =>
    refine ⟨d.upper, proper.upper_mem, ?_⟩
    simpa [entails, Comparison.holds] using h
  | eq =>
    by_cases low : d.lower = v
    · refine ⟨d.upper, proper.upper_mem, ?_⟩
      simpa [entails, Comparison.holds, low] using h
    · exact ⟨d.lower, proper.lower_mem, by simpa [Comparison.holds] using low⟩
  | ne =>
    refine ⟨v, contains_eq_true_iff.1 (by simpa [entails] using h), ?_⟩
    simp [Comparison.holds]

/-- A comparison evaluates to true when it is entailed. -/
theorem evaluate_eq_some_true_iff {d : Domain} (proper : d.Proper) {c : Comparison} {v : Int} :
    d.evaluate c v = some true ↔ d.entails c v = true := by
  cases c with
  | ge =>
    simp only [evaluate, entails, decide_eq_true_eq]
    split
    · simp_all
    · split <;> simp_all
  | le =>
    simp only [evaluate, entails, decide_eq_true_eq]
    split
    · simp_all
    · split <;> simp_all
  | eq =>
    simp only [evaluate, entails, Bool.and_eq_true, beq_iff_eq]
    by_cases meet : d.lower = v ∧ d.upper = v
    · have present : d.contains v = true := meet.1 ▸ proper.lower_mem
      simp [present, meet]
    · split <;> simp [meet]
  | ne =>
    simp only [evaluate, entails]
    split
    · simp_all
    · split <;> simp_all

/-! ## Leaving the range -/

/-- The bounds leave the range only where no value is left. -/
theorem Proper.isEmpty_of_overflows {d : Domain} (proper : d.Proper) {c : Comparison} {v : Int}
    (h : d.overflows c v = true) : d.entails c v = false ∧ (d.narrow c v).isEmpty = true := by
  have ordered := proper.lower_le_upper
  have high := proper.le_maxValue
  cases c with
  | ge => cases h
  | le => cases h
  | eq =>
    simp only [overflows, Bool.and_eq_true, Bool.not_eq_true', contains_eq_false_iff] at h
    have open' : d.entails .eq v = false := by
      refine Bool.eq_false_iff.2 fun fixed => h.1 ?_
      simp only [entails, Bool.and_eq_true, beq_iff_eq] at fixed
      exact fixed.1 ▸ proper.lower_mem
    refine ⟨open', ?_⟩
    by_contra notEmpty
    obtain ⟨low, -⟩ := settle_bounds_mem (Bool.eq_false_iff.2 notEmpty)
    obtain ⟨member, meets⟩ := (mem_narrow open').1 low
    simp only [Comparison.holds, decide_eq_true_eq] at meets
    exact h.1 (meets ▸ member)
  | ne =>
    simp only [overflows, Bool.and_eq_true, beq_iff_eq, decide_eq_true_eq] at h
    obtain ⟨⟨present, rfl⟩, top⟩ := h
    have open' : d.entails .ne d.lower = false := by simp [entails, present]
    refine ⟨open', ?_⟩
    by_contra notEmpty
    obtain ⟨low, -⟩ := settle_bounds_mem (Bool.eq_false_iff.2 notEmpty)
    obtain ⟨member, differs⟩ := (mem_narrow open').1 low
    have := lower_le_of_mem member
    have := le_upper_of_mem member
    simp only [Comparison.holds, decide_eq_true_eq] at differs
    omega

/-- Below the largest value nothing leaves the range. -/
theorem overflows_eq_false_of_lt {d : Domain} (h : d.upper < maxValue) (c : Comparison) (v : Int) :
    d.overflows c v = false := by
  cases c with
  | ge => rfl
  | le => rfl
  | eq => simp [overflows, Int.not_le.2 h]
  | ne =>
    refine Bool.eq_false_iff.2 fun top => ?_
    simp only [overflows, Bool.and_eq_true, beq_iff_eq, decide_eq_true_eq] at top
    have := le_upper_of_mem (contains_eq_true_iff.1 top.1.1)
    omega

/-- Only the values of a domain decide whether a narrowing leaves the range. -/
theorem Proper.overflows_eq {d e : Domain} (hd : d.Proper) (he : e.Proper)
    (same : ∀ v, v ∈ d ↔ v ∈ e) (c : Comparison) (v : Int) : d.overflows c v = e.overflows c v := by
  obtain ⟨lower, upper⟩ := hd.bounds_eq he same
  have contains : d.contains v = e.contains v := Bool.eq_iff_iff.2 (same v)
  cases c with
  | ge => rfl
  | le => rfl
  | eq => rw [overflows, overflows, contains, upper]
  | ne => rw [overflows, overflows, contains, lower]

/-- Where a value is left, nothing leaves the range. -/
theorem Proper.overflows_eq_false {d : Domain} (proper : d.Proper) {c : Comparison} {v w : Int}
    (member : w ∈ d) (holds : c.holds w v = true) : d.overflows c v = false := by
  refine Bool.eq_false_iff.2 fun top => ?_
  obtain ⟨open', empty⟩ := proper.isEmpty_of_overflows top
  exact not_mem_of_isEmpty empty w ((mem_narrow open').2 ⟨member, holds⟩)

/-! ## The number of values -/

/-- The integers from the lower to the upper bound as a finite set. -/
def span (d : Domain) : Finset Int := (Finset.range d.width).image fun k : Nat => d.lower + (k : Int)

/-- The values of a domain as a finite set. -/
def valueSet (d : Domain) : Finset Int := d.span.filter (· ∉ d.holes)

theorem mem_span {d : Domain} {v : Int} : v ∈ d.span ↔ d.lower ≤ v ∧ v ≤ d.upper := by
  simp only [span, Finset.mem_image, Finset.mem_range, width]
  constructor
  · rintro ⟨k, hk, rfl⟩
    omega
  · intro h
    exact ⟨(v - d.lower).toNat, by omega, by omega⟩

theorem card_span (d : Domain) : d.span.card = d.width := by
  have apart : Function.Injective fun k : Nat => d.lower + (k : Int) := by
    intro j k h
    exact Int.ofNat_inj.1 (Int.add_left_cancel h)
  rw [span, Finset.card_image_of_injective _ apart, Finset.card_range]

@[simp] theorem mem_valueSet {d : Domain} {v : Int} : v ∈ d.valueSet ↔ v ∈ d := by
  simp [valueSet, mem_span, mem_iff, and_assoc]

theorem size_eq_card {d : Domain} (nodup : d.holes.Nodup) : d.size = d.valueSet.card := by
  have inner : d.innerHoles.length = (d.span.filter (· ∈ d.holes)).card := by
    rw [innerHoles, ← List.toFinset_card_of_nodup (nodup.filter _)]
    congr 1
    ext v
    simp [mem_span, and_comm]
  have whole := Finset.card_filter_add_card_filter_not (s := d.span) (p := (· ∈ d.holes))
  rw [card_span] at whole
  rw [size, inner, valueSet]
  omega

theorem size_le_of_forall_mem {d e : Domain} (hd : d.holes.Nodup) (he : e.holes.Nodup)
    (h : ∀ v ∈ e, v ∈ d) : e.size ≤ d.size := by
  rw [size_eq_card hd, size_eq_card he]
  exact Finset.card_le_card fun v hv => mem_valueSet.2 (h v (mem_valueSet.1 hv))

/-- Narrowing by a comparison that is not entailed removes a value. -/
theorem size_narrow_lt {d : Domain} (proper : d.Proper) {c : Comparison} {v : Int}
    (h : d.entails c v = false) : (d.narrow c v).size < d.size := by
  obtain ⟨w, member, fails⟩ := exists_not_holds proper h
  have nodup : (d.narrow c v).holes.Nodup := nodup_cut proper.holes_nodup h
  rw [size_eq_card proper.holes_nodup, size_eq_card nodup]
  refine Finset.card_lt_card (Finset.ssubset_iff_of_subset ?_ |>.2 ⟨w, by simpa using member, ?_⟩)
  · intro u hu
    rw [mem_valueSet, mem_narrow h] at hu
    exact mem_valueSet.2 hu.1
  · rw [mem_valueSet, mem_narrow h]
    simp [fails]

/-! ## Listing the values -/

theorem mem_valuesWithin {d : Domain} {n : Nat} {v : Int} :
    v ∈ d.valuesWithin n ↔ v ∈ d ∧ v < d.lower + n := by
  simp only [valuesWithin, List.mem_filter, List.mem_map, List.mem_range, contains_eq_true_iff]
  constructor
  · rintro ⟨⟨k, hk, rfl⟩, member⟩
    exact ⟨member, by omega⟩
  · rintro ⟨member, before⟩
    have := lower_le_of_mem member
    exact ⟨⟨(v - d.lower).toNat, by omega, by omega⟩, member⟩

@[simp] theorem mem_values {d : Domain} {v : Int} : v ∈ d.values ↔ v ∈ d := by
  rw [values, mem_valuesWithin]
  refine ⟨And.left, fun member => ⟨member, ?_⟩⟩
  have := lower_le_of_mem member
  have := le_upper_of_mem member
  simp only [width]
  omega

theorem sorted_valuesWithin (d : Domain) (n : Nat) : (d.valuesWithin n).Pairwise (· < ·) := by
  refine List.Pairwise.filter _ (List.pairwise_map.2 ?_)
  exact List.pairwise_lt_range.imp fun h => by omega

theorem nodup_values (d : Domain) : d.values.Nodup :=
  (sorted_valuesWithin d _).imp fun h => by omega

theorem length_values {d : Domain} (nodup : d.holes.Nodup) : d.values.length = d.size := by
  rw [size_eq_card nodup, ← List.toFinset_card_of_nodup d.nodup_values]
  congr 1
  ext v
  simp

/-- The smallest values are all values if so many are asked for. -/
theorem smallestValues_eq {d : Domain} (nodup : d.holes.Nodup) {n : Nat} (h : d.size ≤ n) :
    d.smallestValues n = d.values := by
  have inner : d.innerHoles.length ≤ d.holes.length := List.length_filter_le _ _
  have span : d.width ≤ n + d.holes.length := by
    unfold size at h
    omega
  rw [smallestValues, Nat.min_eq_left span]
  exact List.take_of_length_le (by rw [← values, length_values nodup]; exact h)

end Domain

end Stowage
