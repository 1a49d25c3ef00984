import Stowage.Proofs.Packing.Extending

/-!
# Which candidates are big depends on their sizes alone

Where the big items of a bin are extended, the sizes of its candidates tell how many of them are big: the
largest, as long as neighbours exclude each other.  Only whether a single candidate counts as big is left
open, and then nothing depends on it.  So the total load of a bin, and what is left of it without one of the
candidates, does not depend on which of the candidates of equal size come first.

* `Bin.numBig` — the number of big candidates.
* `Bin.Crowded`, `Bin.Crowded.unique` — how many candidates of given sizes are big.
* `Bin.counted`, `Bin.released` — the part of the candidates in the total load, and its change when one of
  them leaves.
* `Bin.Accounts.same_of_sizes` — bins whose candidates have the same sizes.
-/

set_option autoImplicit false

namespace Stowage

namespace Bin

def numBig (bin : Bin) : Nat := bin.candidates.countP bin.isBig

/-- The sizes of the candidates in the first dimension. -/
def candidateSizes (p : Packing) (bin : Bin) : List Int := bin.candidates.map (p.size 0)

/-- The size at position `j`; 0 after the last. -/
def sizeAt (sizes : List Int) (j : Nat) : Int := sizes[j]?.getD 0

/-- Of the candidates with the given sizes `k` are big: neighbours among them exclude each other, and the
first that is not big fits beside the one before it. -/
structure Crowded (free : Int) (sizes : List Int) (k : Nat) : Prop where
  bounded : k ≤ sizes.length
  clash : ∀ j, j + 1 < k → free < sizeAt sizes j + sizeAt sizes (j + 1)
  fits : max k 1 < sizes.length →
    sizeAt sizes (max k 1 - 1) + sizeAt sizes (max k 1) ≤ free

/-- What the candidates add to the total load if `k` of them are big. -/
def counted (sizes : List Int) (k : Nat) : Int :=
  (if 0 < k then sizeAt sizes 0 else 0) + (sizes.drop k).sum

/-- The change of the total load when the candidate at position `j` leaves, if `k` of them are big. -/
def released (sizes : List Int) (k j : Nat) : Int :=
  if k ≤ j then -sizeAt sizes j
  else if 0 < j then 0
  else (if 1 < k then sizeAt sizes 1 else 0) - sizeAt sizes 0

/-! ## Sizes -/

section

variable {free : Int} {sizes : List Int} {k m : Nat}

/-- **The sizes tell how many candidates are big**, whether there is one or none apart. -/
theorem Crowded.le (h : Crowded free sizes k) (h' : Crowded free sizes m) : max k 1 ≤ max m 1 := by
  by_contra more
  have inside : max m 1 < sizes.length := by
    have := h.bounded
    omega
  have fits := h'.fits inside
  have clash := h.clash (max m 1 - 1) (by omega)
  rw [Nat.sub_add_cancel (Nat.le_max_right m 1)] at clash
  omega

theorem Crowded.unique (h : Crowded free sizes k) (h' : Crowded free sizes m) :
    max k 1 = max m 1 := Nat.le_antisymm (h.le h') (h'.le h)

/-- A single big candidate counts like a small one. -/
theorem counted_zero (sizes : List Int) : counted sizes 0 = counted sizes 1 := by
  cases sizes <;> simp [counted, sizeAt]

theorem counted_max (sizes : List Int) (k : Nat) : counted sizes (max k 1) = counted sizes k := by
  rcases Nat.eq_zero_or_pos k with rfl | some
  · exact (counted_zero sizes).symm
  · rw [Nat.max_eq_left some]

theorem released_zero (sizes : List Int) (j : Nat) : released sizes 0 j = released sizes 1 j := by
  rcases Nat.eq_zero_or_pos j with rfl | some
  · simp [released]
  · simp [released, Nat.one_le_iff_ne_zero, Nat.ne_of_gt some]

theorem released_max (sizes : List Int) (k j : Nat) :
    released sizes (max k 1) j = released sizes k j := by
  rcases Nat.eq_zero_or_pos k with rfl | some
  · exact (released_zero sizes j).symm
  · rw [Nat.max_eq_left some]

end

/-! ## The candidates of a bin -/

variable {p q : Packing} {placed : Nat → Bool} {capacity : Int} {bin : Bin}

/-- In an ascending list the elements below a bound come first. -/
theorem getElem_lt_iff_lt_countP {l : List Nat} (ascending : l.Pairwise (· < ·)) (n : Nat) {j : Nat}
    (hj : j < l.length) : l[j] < n ↔ j < l.countP fun i => decide (i < n) := by
  induction l generalizing j with
  | nil => cases hj
  | cons a l ih =>
    obtain ⟨first, ascending⟩ := List.pairwise_cons.1 ascending
    by_cases below : a < n
    · rw [List.countP_cons, if_pos (decide_eq_true below)]
      cases j with
      | zero => simp [below]
      | succ j =>
        have := ih ascending (Nat.lt_of_succ_lt_succ hj)
        simp only [List.getElem_cons_succ, this]
        omega
    · have none : (a :: l).countP (fun i => decide (i < n)) = 0 := by
        rw [List.countP_eq_zero]
        intro i hi
        rcases List.mem_cons.1 hi with rfl | later
        · simpa using below
        · have := first i later
          simp only [decide_eq_true_eq]
          omega
      rw [none]
      have least : a ≤ (a :: l)[j] := by
        cases j with
        | zero => exact Nat.le_refl a
        | succ j => exact Nat.le_of_lt (first _ (List.getElem_mem _))
      omega

theorem sizeAt_candidateSizes {j : Nat} (hj : j < bin.candidates.length) :
    sizeAt (bin.candidateSizes p) j = p.size 0 bin.candidates[j] := by
  simp [sizeAt, candidateSizes, hj]

section

variable (ascending : bin.candidates.Pairwise (· < ·))

include ascending

theorem isBig_getElem_iff {j : Nat} (hj : j < bin.candidates.length) :
    bin.isBig bin.candidates[j] = true ↔ j < bin.numBig := by
  rw [isBig, decide_eq_true_eq]
  exact getElem_lt_iff_lt_countP ascending bin.firstSmall hj

theorem getElem_lt_getElem {i j : Nat} (hi : i < bin.candidates.length)
    (hj : j < bin.candidates.length) (less : i < j) : bin.candidates[i] < bin.candidates[j] :=
  List.pairwise_iff_getElem.1 ascending i j hi hj less

/-- The candidates that are not big come after the big ones. -/
theorem filter_small : bin.candidates.filter (fun i => !bin.isBig i) =
    bin.candidates.drop bin.numBig := by
  have big : ∀ i ∈ bin.candidates.take bin.numBig, bin.isBig i = true := by
    intro i hi
    obtain ⟨j, hj, rfl⟩ := List.mem_iff_getElem.1 hi
    have bound : j < bin.numBig ∧ j < bin.candidates.length := by
      simpa using hj
    rw [List.getElem_take]
    exact (isBig_getElem_iff ascending bound.2).2 bound.1
  have small : ∀ i ∈ bin.candidates.drop bin.numBig, bin.isBig i = false := by
    intro i hi
    obtain ⟨j, hj, rfl⟩ := List.mem_iff_getElem.1 hi
    rw [List.getElem_drop, Bool.eq_false_iff]
    intro isBig
    have := (isBig_getElem_iff ascending _).1 isBig
    omega
  conv_lhs => rw [← List.take_append_drop bin.numBig bin.candidates, List.filter_append]
  rw [List.filter_eq_nil_iff.2 fun i hi => by simp [big i hi], List.nil_append,
    List.filter_eq_self.2 fun i hi => by simp [small i hi]]

theorem sizeOr0_firstBig? : sizeOr0 p bin.firstBig? =
    if 0 < bin.numBig then sizeAt (bin.candidateSizes p) 0 else 0 := by
  cases shape : bin.candidates with
  | nil =>
    have none : bin.numBig = 0 := by simp [numBig, shape]
    simp [firstBig?, shape, none, sizeOr0]
  | cons c rest =>
    have bound : 0 < bin.candidates.length := by simp [shape]
    have first : bin.candidates[0] = c := by simp [shape]
    have big := isBig_getElem_iff ascending bound
    rw [first] at big
    by_cases some : 0 < bin.numBig
    · rw [if_pos some, sizeAt_candidateSizes bound, first]
      simp [firstBig?, shape, Option.filter, big.2 some, sizeOr0]
    · have none : bin.isBig c = false := Bool.eq_false_iff.2 fun h => some (big.1 h)
      rw [if_neg some]
      simp [firstBig?, shape, Option.filter, none, sizeOr0]

/-- The candidate after the first is the next big one if more than one is big. -/
theorem sizeOr0_nextBig? {c : Nat} {rest : List Nat} (shape : bin.candidates = c :: rest) :
    sizeOr0 p (bin.nextBig? c) =
      if 1 < bin.numBig then sizeAt (bin.candidateSizes p) 1 else 0 := by
  cases rest with
  | nil =>
    have few : ¬1 < bin.numBig := by
      have := List.countP_le_length (p := bin.isBig) (l := bin.candidates)
      rw [shape, List.length_singleton, ← shape] at this
      exact Nat.not_lt.2 this
    simp [nextBig?, shape, few, sizeOr0]
  | cons c' rest =>
    have second : 1 < bin.candidates.length := by simp [shape]
    have entry : bin.candidates[1] = c' := by simp [shape]
    have later : c < c' := (List.pairwise_cons.1 (shape ▸ ascending)).1 c' List.mem_cons_self
    have next : bin.nextBig? c = (some c').filter bin.isBig := by simp [nextBig?, shape, later]
    have big := isBig_getElem_iff ascending second
    rw [entry] at big
    rw [next]
    by_cases more : 1 < bin.numBig
    · rw [if_pos more, sizeAt_candidateSizes second, entry]
      simp [Option.filter, big.2 more, sizeOr0]
    · have none : bin.isBig c' = false := Bool.eq_false_iff.2 fun h => more (big.1 h)
      rw [if_neg more]
      simp [Option.filter, none, sizeOr0]

end

section

variable (acc : bin.Accounts p placed capacity)

include acc

/-- **Where the big items are extended, the sizes of the candidates tell how many are big.** -/
theorem Accounts.crowded (extended : bin.Extended p (capacity - p.weigh 0 placed)) :
    Crowded (capacity - p.weigh 0 placed) (bin.candidateSizes p) bin.numBig := by
  have length : (bin.candidateSizes p).length = bin.candidates.length := by simp [candidateSizes]
  have atMost : bin.numBig ≤ bin.candidates.length := List.countP_le_length ..
  refine ⟨length ▸ atMost, fun j less => ?_, fun more => ?_⟩
  · have bound : j + 1 < bin.candidates.length := less.trans_le atMost
    have before : j < bin.candidates.length := by omega
    have big (i : Nat) (hi : i < bin.candidates.length) (few : i < bin.numBig) :
        bin.isBigCandidate bin.candidates[i] = true := by
      rw [isBigCandidate, isCandidate_iff.2 (List.getElem_mem hi),
        (isBig_getElem_iff acc.ascending hi).2 few]
      rfl
    have different := Nat.ne_of_lt (getElem_lt_getElem acc.ascending before bound (Nat.lt_succ_self j))
    have clash := acc.exclusive _ _ (big j before (by omega)) (big (j + 1) bound less) different
    rw [sizeAt_candidateSizes before, sizeAt_candidateSizes bound]
    omega
  · rw [length] at more
    cases anchor : bin.anchor? with
    | none =>
      rw [anchor?_eq_none anchor] at more
      cases more
    | some a =>
      obtain ⟨member, last, kind⟩ := anchor?_eq_some acc.ascending anchor
      obtain ⟨i, hi, rfl⟩ := List.mem_iff_getElem.1 member
      -- the anchor is the last big candidate, or the first of all
      have place : i = max bin.numBig 1 - 1 := by
        have least : bin.numBig ≤ i + 1 := by
          by_contra more
          have bound : i + 1 < bin.candidates.length := by omega
          have := last _ (List.getElem_mem bound)
            ((isBig_getElem_iff acc.ascending bound).2 (by omega))
          have := getElem_lt_getElem acc.ascending hi bound (Nat.lt_succ_self i)
          omega
        rcases kind with big | head
        · have := (isBig_getElem_iff acc.ascending hi).1 big
          omega
        · have first : 0 < bin.candidates.length := by omega
          have same : bin.candidates[0] = bin.candidates[i] := by
            rw [List.head?_eq_getElem?, List.getElem?_eq_getElem first] at head
            exact Option.some.inj head
          have : i = 0 := by
            by_contra later
            have := getElem_lt_getElem acc.ascending first hi (Nat.pos_of_ne_zero later)
            omega
          omega
      subst place
      have after : max bin.numBig 1 - 1 < max bin.numBig 1 := by omega
      rw [sizeAt_candidateSizes hi, sizeAt_candidateSizes more]
      exact extended _ anchor _ (List.getElem_mem more)
        (getElem_lt_getElem acc.ascending hi more after)

variable (notPlaced : bin.bigPlaced = false)

include notPlaced

/-- **The total load, from the sizes of the candidates.** -/
theorem Accounts.total_eq_counted (wf : p.WellFormed) : (bin.entry 0).total =
    p.weigh 0 placed + counted (bin.candidateSizes p) bin.numBig := by
  have small : p.weigh 0 bin.isSmallCandidate = ((bin.candidateSizes p).drop bin.numBig).sum := by
    rw [acc.weigh_isSmallCandidate, filter_small acc.ascending, Packing.sizeOf, Packing.sumOf_eq_sum,
      candidateSizes, List.map_drop]
  rw [acc.total 0 wf.dims, small, bigShare, if_pos ⟨rfl, notPlaced⟩, sizeOr0_firstBig? acc.ascending,
    counted]
  omega

/-- **What a candidate releases, from the sizes.** -/
theorem Accounts.removalDelta_eq_released {j : Nat} (hj : j < bin.candidates.length) :
    bin.removalDelta p 0 bin.candidates[j] = released (bin.candidateSizes p) bin.numBig j := by
  have big := isBig_getElem_iff acc.ascending hj
  by_cases few : j < bin.numBig
  · have isBig : bin.isBig bin.candidates[j] = true := big.2 few
    have first : bin.firstBig? = some bin.candidates[j] ↔ j = 0 := by
      have bound : 0 < bin.candidates.length := by omega
      have head : bin.firstBig? = some bin.candidates[0] := by
        rw [firstBig?, List.head?_eq_getElem?, List.getElem?_eq_getElem bound]
        simp [Option.filter, (isBig_getElem_iff acc.ascending bound).2 (by omega)]
      rw [head, Option.some.injEq]
      constructor
      · intro same
        by_contra later
        have := getElem_lt_getElem acc.ascending bound hj (Nat.pos_of_ne_zero later)
        omega
      · rintro rfl
        rfl
    rw [removalDelta, released, if_neg (by simp [isBig]), if_neg (Nat.not_le.2 few)]
    rcases Nat.eq_zero_or_pos j with rfl | later
    · have shape : bin.candidates = bin.candidates[0] :: bin.candidates.drop 1 :=
        (List.getElem_cons_drop hj).symm
      rw [if_neg (by simp [notPlaced, first]), if_neg (Nat.lt_irrefl 0),
        sizeOr0_nextBig? acc.ascending shape, sizeAt_candidateSizes hj]
    · rw [if_pos (.inr fun same => absurd (first.1 same) (Nat.ne_of_gt later)), if_pos later]
  · have small : bin.isBig bin.candidates[j] = false := Bool.eq_false_iff.2 fun h => few (big.1 h)
    rw [removalDelta, released, if_pos (.inr (by simp [small])), if_pos (Nat.not_lt.1 few),
      sizeAt_candidateSizes hj]

end

/-- **Bins whose candidates have the same sizes have the same total load**, and lose the same when the
candidates at one position leave. -/
theorem Accounts.same_of_sizes {other : Bin} {placed' : Nat → Bool}
    (acc : bin.Accounts p placed capacity) (acc' : other.Accounts q placed' capacity)
    (wf : p.WellFormed) (wf' : q.WellFormed)
    (required : p.weigh 0 placed = q.weigh 0 placed')
    (sizes : bin.candidateSizes p = other.candidateSizes q)
    (extended : bin.Extended p (capacity - p.weigh 0 placed))
    (extended' : other.Extended q (capacity - q.weigh 0 placed'))
    (notPlaced : bin.bigPlaced = false) (notPlaced' : other.bigPlaced = false) :
    (bin.entry 0).total = (other.entry 0).total ∧
      ∀ j (hj : j < bin.candidates.length) (hj' : j < other.candidates.length),
        bin.removalDelta p 0 bin.candidates[j] = other.removalDelta q 0 other.candidates[j] := by
  have crowded := acc.crowded extended
  have crowded' := acc'.crowded extended'
  rw [← required, ← sizes] at crowded'
  have unique := crowded.unique crowded'
  constructor
  · rw [acc.total_eq_counted notPlaced wf, acc'.total_eq_counted notPlaced' wf', required, ← sizes,
      ← counted_max, unique, counted_max]
  · intro j hj hj'
    rw [acc.removalDelta_eq_released notPlaced hj, acc'.removalDelta_eq_released notPlaced' hj',
      ← sizes, ← released_max, unique, released_max]

end Bin

end Stowage
