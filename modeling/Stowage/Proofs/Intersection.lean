import Stowage.Proofs.Histories

/-!
# Posting is intersection

Bounds and holes together stand for one set of integers.  Whatever the history of the domains, a post
replaces the set of one variable by its intersection with the integers that satisfy the predicate,
and its result tells how the two sets compare.  While the set is not empty, every reading of the
domain is a reading of the set.

* `Domain.toSet`, `Predicate.solutions` — the set of a domain, and that of a predicate.
* `Domain.Describes` — all that is read off a domain describes a set.
* `Domain.toSet_narrow` — narrowing is intersection.
* `Domain.Proper.narrow_bounds_mem` — narrowing needs no integer outside the range at hand.
* `Domains.Reached.post_intersects` — posting is intersection.
-/

set_option autoImplicit false

namespace Stowage

/-- The integers that satisfy a predicate. -/
def Predicate.solutions (q : Predicate) : Set Int := {v | q.holds v = true}

namespace Domain

/-- The set that a domain stands for: the integers between the bounds that are no holes. -/
def toSet (d : Domain) : Set Int := Set.Icc d.lower d.upper \ {v | v ∈ d.holes}

@[simp] theorem mem_toSet {d : Domain} {v : Int} : v ∈ d.toSet ↔ v ∈ d := by
  simp [toSet, mem_iff, and_assoc]

/-! ## Reading a domain -/

/-- All that is read off the domain describes the set. -/
structure Describes (d : Domain) (set : Set Int) : Prop where
  lower : IsLeast set d.lower
  upper : IsGreatest set d.upper
  contains : ∀ v, d.contains v = true ↔ v ∈ set
  values : ∀ v, v ∈ d.values ↔ v ∈ set
  /-- The values are listed in increasing order, each once. -/
  ascending : d.values.Pairwise (· < ·)
  fixed : ∀ v, d.fixedValue? = some v ↔ set = {v}

section

variable {d : Domain}

theorem Proper.fixedValue?_eq_some_iff_toSet_eq (h : d.Proper) {v : Int} :
    d.fixedValue? = some v ↔ d.toSet = {v} := by
  rw [fixedValue?_eq_some_iff]
  constructor
  · rintro ⟨fixed, rfl⟩
    ext w
    simp [h.mem_iff_of_isFixed fixed]
  · intro single
    have all : ∀ w ∈ d, w = v := fun w hw => by simpa [single] using mem_toSet.2 hw
    exact ⟨h.isFixed_of_forall_eq all, all _ h.lower_mem⟩

theorem Proper.describes (h : d.Proper) : d.Describes d.toSet where
  lower := ⟨mem_toSet.2 h.lower_mem, fun _ hv => lower_le_of_mem (mem_toSet.1 hv)⟩
  upper := ⟨mem_toSet.2 h.upper_mem, fun _ hv => le_upper_of_mem (mem_toSet.1 hv)⟩
  contains _ := mem_toSet.symm
  values _ := mem_values.trans mem_toSet.symm
  ascending := sorted_valuesWithin d _
  fixed _ := h.fixedValue?_eq_some_iff_toSet_eq

theorem toSet_eq_empty (h : d.isEmpty = true) : d.toSet = ∅ :=
  Set.eq_empty_of_forall_notMem fun v hv => not_mem_of_isEmpty h v (mem_toSet.1 hv)

/-- Bounds that have crossed leave no value, so those of a domain with a value have not. -/
theorem Orderly.proper_of_nonempty (h : d.Orderly) (nonempty : d.toSet.Nonempty) : d.Proper := by
  refine h.proper (Bool.eq_false_iff.2 fun crossed => ?_)
  rw [toSet_eq_empty crossed] at nonempty
  exact Set.not_nonempty_empty nonempty

/-! ## Narrowing -/

variable {q : Predicate}

theorem toSet_inter_solutions (h : d.entails q.comparison q.value = true) :
    d.toSet ∩ q.solutions = d.toSet :=
  Set.inter_eq_left.2 fun _ hv => holds_of_entails h (mem_toSet.1 hv)

theorem toSet_narrow (open' : d.entails q.comparison q.value = false) :
    (d.narrow q.comparison q.value).toSet = d.toSet ∩ q.solutions := by
  ext v
  simp [mem_narrow open', Predicate.solutions, Predicate.holds]

/-- A predicate that is not entailed removes a value. -/
theorem Proper.toSet_inter_solutions_ne (h : d.Proper)
    (open' : d.entails q.comparison q.value = false) : d.toSet ∩ q.solutions ≠ d.toSet := by
  obtain ⟨v, member, fails⟩ := exists_not_holds h open'
  intro same
  have holds : q.holds v = true := (Set.inter_eq_left.1 same) (mem_toSet.2 member)
  exact Bool.noConfusion (fails.symm.trans holds)

/-- If the bounds and the constant lie in a range, and the upper bound not at its end, then so do the
bounds that a cut leaves. -/
theorem Proper.cut_bounds_mem (h : d.Proper) {c : Comparison} {v low high : Int}
    (open' : d.entails c v = false) (lower : low ≤ d.lower) (upper : d.upper < high)
    (value : v ∈ Set.Icc low high) :
    (d.cut c v).lower ∈ Set.Icc low high ∧ (d.cut c v).upper ∈ Set.Ico low high := by
  have ordered := h.lower_le_upper
  simp only [Set.mem_Icc, Set.mem_Ico] at value ⊢
  cases c with
  | ge => simp only [cut]; omega
  | le =>
    simp only [entails, decide_eq_false_iff_not] at open'
    simp only [cut]
    omega
  | eq =>
    simp only [cut]
    split
    · rename_i present
      have := le_upper_of_mem (contains_eq_true_iff.1 present)
      simp only
      omega
    · simp only
      omega
  | ne =>
    simp only [cut]
    split
    · simp only; omega
    · split
      · simp only; omega
      · simp only; omega

/-- Settling the bounds stays in a range that the bounds lie in, the upper one not at its end. -/
theorem settle_bounds_mem_Icc {low high : Int} (lower : d.lower ∈ Set.Icc low high)
    (upper : d.upper ∈ Set.Ico low high) :
    d.settleLower.settleUpper.lower ∈ Set.Icc low high ∧
      d.settleLower.settleUpper.upper ∈ Set.Icc low high := by
  obtain ⟨lowerLow, lowerHigh, -, lowerStop⟩ := climb_spec d.holes d.width d.lower
  obtain ⟨upperHigh, upperLow, upperBetween, -⟩ :=
    descend_spec d.holes d.settleLower.width d.upper
  have width : (d.width : Int) = max 0 (d.upper + 1 - d.lower) := by simp only [Domain.width]; omega
  have settledWidth : (d.settleLower.width : Int) =
      max 0 (d.upper + 1 - climb d.holes d.width d.lower) := by
    simp only [Domain.width, settleLower]; omega
  simp only [Set.mem_Icc, Set.mem_Ico] at lower upper ⊢
  change (low ≤ climb d.holes d.width d.lower ∧ climb d.holes d.width d.lower ≤ high) ∧
    low ≤ descend d.holes d.settleLower.width d.upper ∧
      descend d.holes d.settleLower.width d.upper ≤ high
  -- The way down of the upper bound ends at the lower one, which is no hole unless they crossed.
  have above : climb d.holes d.width d.lower ≤ d.upper →
      climb d.holes d.width d.lower ≤ descend d.holes d.settleLower.width d.upper := fun ordered => by
    by_contra passed
    have hole := upperBetween _ ordered (not_le.1 passed)
    rcases lowerStop with free | beyond
    · exact free hole
    · omega
  omega

/-- **A narrowing stays in the range** that the bounds and the constant of the predicate lie in, if the
upper bound is not its end: no addition leaves it. -/
theorem Proper.narrow_bounds_mem (h : d.Proper) {c : Comparison} {v low high : Int}
    (open' : d.entails c v = false) (lower : low ≤ d.lower) (upper : d.upper < high)
    (value : v ∈ Set.Icc low high) :
    (d.narrow c v).lower ∈ Set.Icc low high ∧ (d.narrow c v).upper ∈ Set.Icc low high := by
  obtain ⟨cutLower, cutUpper⟩ := h.cut_bounds_mem open' lower upper value
  exact settle_bounds_mem_Icc cutLower cutUpper

end

end Domain

namespace Domains

/-- Posting `q` has led from `ds` to `after` with the given result, in terms of sets. -/
structure Intersects (ds : Domains) (q : Predicate) (posting : Posting) (after : Domains) : Prop where
  count : after.count = ds.count
  self : (after.domain q.var).toSet = (ds.domain q.var).toSet ∩ q.solutions
  others : ∀ x ≠ q.var, after.domain x = ds.domain x
  unchanged : posting = .unchanged ↔ (after.domain q.var).toSet = (ds.domain q.var).toSet
  /-- A post without effect neither adds to the trail nor raises an event. -/
  idle : posting = .unchanged → after = ds
  narrowed : posting = .narrowed ↔
    (after.domain q.var).toSet ⊂ (ds.domain q.var).toSet ∧ (after.domain q.var).toSet.Nonempty
  emptied : posting = .emptied ↔ (after.domain q.var).toSet = ∅
  /-- Unless the post has emptied its domain, all domains are described by their readings. -/
  describes : posting ≠ .emptied → ∀ x < ds.count,
    (after.domain x).Describes (after.domain x).toSet
  /-- Integers of a bounded range suffice, unless the upper bound is the end of the range. -/
  range : ∀ low high, low ≤ ds.lower q.var → ds.upper q.var < high → q.value ∈ Set.Icc low high →
    after.lower q.var ∈ Set.Icc low high ∧ after.upper q.var ∈ Set.Icc low high

variable {ds : Domains} {q : Predicate}

/-- The three ways in which the values left compare with those of before. -/
inductive Outcome (before after : Set Int) : Posting → Prop
  | unchanged (same : after = before) : Outcome before after .unchanged
  | narrowed (less : after ≠ before) (left : after.Nonempty) : Outcome before after .narrowed
  | emptied (none : after = ∅) : Outcome before after .emptied

namespace Outcome

variable {before after : Set Int} {posting : Posting}

theorem unchanged_iff (h : Outcome before after posting) (some : before.Nonempty) :
    posting = .unchanged ↔ after = before := by
  cases h with
  | unchanged same => simp [same]
  | narrowed less _ => simp [less]
  | emptied none => simp [none, some.ne_empty.symm]

theorem narrowed_iff (h : Outcome before after posting) (part : after ⊆ before) :
    posting = .narrowed ↔ after ⊂ before ∧ after.Nonempty := by
  cases h with
  | unchanged same => simp [same]
  | narrowed less left => simp [part.ssubset_of_ne less, left]
  | emptied none => simp [none]

theorem emptied_iff (h : Outcome before after posting) (some : before.Nonempty) :
    posting = .emptied ↔ after = ∅ := by
  cases h with
  | unchanged same => simp [same, some.ne_empty]
  | narrowed _ left => simp [left.ne_empty]
  | emptied none => simp [none]

end Outcome

/-- A domain that is replaced by the narrower one is intersected, and the others stay. -/
theorem toSet_of_replaced {after : Domains}
    (open' : (ds.domain q.var).entails q.comparison q.value = false)
    (replaced : ∀ x, after.domain x =
      if q.var = x then (ds.domain q.var).narrow q.comparison q.value else ds.domain x) :
    (after.domain q.var).toSet = (ds.domain q.var).toSet ∩ q.solutions ∧
      ∀ x ≠ q.var, after.domain x = ds.domain x := by
  refine ⟨?_, fun x other => by rw [replaced, if_neg other.symm]⟩
  rw [replaced, if_pos rfl, Domain.toSet_narrow open']

section

variable {after : Domains} (exist : q.var < ds.count)

include exist

/-- A post intersects, and its result is the outcome of the intersection. -/
theorem post_outcome (proper : (ds.domain q.var).Proper) (fits : ds.Fits q) :
    ∃ posting after, ds.post q = .ok (posting, after) ∧ after.count = ds.count ∧
      ((after.domain q.var).toSet = (ds.domain q.var).toSet ∩ q.solutions ∧
        ∀ x ≠ q.var, after.domain x = ds.domain x) ∧
      Outcome (ds.domain q.var).toSet (after.domain q.var).toSet posting := by
  rcases post_eq exist fits with
    ⟨entailed, post⟩ | ⟨open', crossed, post⟩ | ⟨open', notCrossed, post⟩
  · have inter := (Domain.toSet_inter_solutions entailed).symm
    exact ⟨_, _, post, rfl, ⟨inter, fun _ _ => rfl⟩, .unchanged rfl⟩
  · have sets := toSet_of_replaced open' (domain_withDomain exist _ _)
    refine ⟨_, _, post, count_withDomain .., sets, .emptied ?_⟩
    rw [sets.1, ← Domain.toSet_narrow open']
    exact Domain.toSet_eq_empty crossed
  · have sets := toSet_of_replaced open' (domain_narrowed exist)
    refine ⟨_, _, post, count_withDomain ds _ _ _, sets, .narrowed ?_ ?_⟩
    · rw [sets.1]
      exact proper.toSet_inter_solutions_ne open'
    · rw [sets.1, ← Domain.toSet_narrow open']
      exact ⟨_, Domain.mem_toSet.2 (proper.narrow open' notCrossed).lower_mem⟩

/-- A post leads to no bound outside a range that the bounds and the constant lie in, if the upper bound
is not its end. -/
theorem post_bounds_mem (proper : (ds.domain q.var).Proper) {posting : Posting}
    (step : ds.post q = .ok (posting, after)) {low high : Int} (lower : low ≤ ds.lower q.var)
    (upper : ds.upper q.var < high) (value : q.value ∈ Set.Icc low high) :
    after.lower q.var ∈ Set.Icc low high ∧ after.upper q.var ∈ Set.Icc low high := by
  rcases post_eq exist (fits_of_post step) with ⟨-, post⟩ | ⟨open', -, post⟩ | ⟨open', -, post⟩
  · cases post.symm.trans step
    have ordered : ds.lower q.var ≤ ds.upper q.var := proper.lower_le_upper
    simp only [Set.mem_Icc]
    omega
  · cases post.symm.trans step
    simp only [Domains.lower, Domains.upper, domain_withDomain exist, if_true]
    exact proper.narrow_bounds_mem open' lower upper value
  · cases post.symm.trans step
    simp only [Domains.lower, Domains.upper, domain_narrowed exist, if_true]
    exact proper.narrow_bounds_mem open' lower upper value

end

/-- **Posting is set intersection**, whatever the history of the domains, as long as none is empty and
the upper bound of the variable has a successor. -/
theorem Reached.post_intersects (reached : ds.Reached)
    (nonempty : ∀ x < ds.count, (ds.domain x).toSet.Nonempty) (exist : q.var < ds.count)
    (below : ds.upper q.var < maxValue) :
    ∃ posting after, ds.post q = .ok (posting, after) ∧ Intersects ds q posting after := by
  have proper := (reached.orderly exist).proper_of_nonempty (nonempty _ exist)
  obtain ⟨posting, after, step, count, ⟨self, others⟩, outcome⟩ :=
    post_outcome exist proper (fits_of_upper_lt below)
  have some := nonempty q.var exist
  have emptied := outcome.emptied_iff some
  refine ⟨posting, after, step, count, self, others, outcome.unchanged_iff some,
    fun idle => eq_of_post_unchanged (idle ▸ step),
    outcome.narrowed_iff (self ▸ Set.inter_subset_left), emptied, fun left x existX => ?_,
    fun _ _ => post_bounds_mem exist proper step⟩
  have filled : (after.domain x).toSet.Nonempty := by
    by_cases same : x = q.var
    · rw [same]
      exact Set.nonempty_iff_ne_empty.2 (left ∘ emptied.2)
    · rw [others x same]
      exact nonempty x existX
  exact (((reached.post step).orderly (count ▸ existX)).proper_of_nonempty filled).describes

/-- Variables from 0 to 9 without 4 and from 0 to 3.  A return has brought back the values below 7 of
the first, with the hole among them, and all values of the second. -/
def reopened : Domains :=
  ⟨⟨#[⟨0, 9, [4]⟩, .interval 0 3], Trail.empty.push (0, ⟨0, 9, some 4⟩)⟩,
    Pending.empty.addAll 0 [.removal, .lowerBound]⟩

theorem reached_reopened : reopened.Reached := by
  have vars : Reached _ := .create (.create .empty (show Domains.empty.create 0 9 = .ok (0, _) from rfl))
    (show Domains.create _ 0 3 = .ok (1, _) from rfl)
  have holed : Reached _ := .post vars (show Domains.post _ (.differs 0 4) = .ok (.narrowed, _) from rfl)
  have raised : Reached _ :=
    .post holed.mark (show Domains.post _ (.atLeast 0 7) = .ok (.narrowed, _) from rfl)
  have emptied : Reached _ :=
    .post raised (show Domains.post _ (.equals 1 7) = .ok (.emptied, _) from rfl)
  exact .revert emptied (show Domains.revert _ 0 = .ok reopened by cbv)

theorem nonempty_reopened : ∀ x < reopened.count, (reopened.domain x).toSet.Nonempty := by
  intro x hx
  refine ⟨0, Domain.mem_toSet.2 ?_⟩
  obtain rfl | rfl : x = 0 ∨ x = 1 := by
    have count : reopened.count = 2 := rfl
    omega
  · decide
  · decide

/-- The hole is skipped again. -/
theorem reopened_post_intersects :
    reopened.Reached ∧ (∀ x < reopened.count, (reopened.domain x).toSet.Nonempty) ∧
      ∃ after, reopened.post (.atLeast 0 4) = .ok (.narrowed, after) ∧
        Intersects reopened (.atLeast 0 4) .narrowed after ∧ after.lower 0 = 5 := by
  obtain ⟨posting, after, step, intersects⟩ :=
    reached_reopened.post_intersects nonempty_reopened (q := .atLeast 0 4) (by decide) (by decide)
  have narrowed : reopened.post (.atLeast 0 4) = .ok (.narrowed, _) := rfl
  cases narrowed.symm.trans step
  exact ⟨reached_reopened, nonempty_reopened, _, step, intersects, rfl⟩

end Domains

end Stowage
