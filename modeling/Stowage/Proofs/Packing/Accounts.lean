import Stowage.Packing.Ledger
import Stowage.Proofs.Packing.Weights

/-!
# The accounts of a bin

What the ledger holds about a bin is right with respect to the items placed in the bin and the
largest load it can have: the required load is the size of the placed items, the total load counts
the small candidates in full and of the big ones only the largest, and no two big candidates fit in
the bin together.

* `Bin.Accounts` — the invariant.
* `Bin.Accounts.weigh_le_total_of_apart`, `Bin.Accounts.weigh_le_total` — no choice of candidates with
  at most one big one, and so none that fits, exceeds the total load.
* `Bin.Accounts.total_le`, `Bin.Accounts.total_eq_of_disabled` — the total load beside the size of all
  candidates.
-/

set_option autoImplicit false

namespace Stowage

namespace Bin

def isBigCandidate (bin : Bin) (i : Nat) : Bool := bin.isCandidate i && bin.isBig i

/-- Item `i` is a candidate that is not big. -/
def isSmallCandidate (bin : Bin) (i : Nat) : Bool := bin.isCandidate i && !bin.isBig i

/-- What the big candidates add to the total load: the largest of them, or nothing if the bin holds a
big item. -/
def bigShare (p : Packing) (bin : Bin) (d : Nat) : Int :=
  if d = 0 ∧ bin.bigPlaced = false then sizeOr0 p bin.firstBig? else 0

theorem isCandidate_iff {bin : Bin} {i : Nat} : bin.isCandidate i = true ↔ i ∈ bin.candidates := by
  simp [isCandidate]

theorem isCandidate_eq_false_iff {bin : Bin} {i : Nat} :
    bin.isCandidate i = false ↔ i ∉ bin.candidates := by
  rw [← isCandidate_iff, Bool.not_eq_true]

theorem isBigCandidate_iff {bin : Bin} {i : Nat} :
    bin.isBigCandidate i = true ↔ i ∈ bin.candidates ∧ i < bin.firstSmall := by
  simp [isBigCandidate, isCandidate_iff, isBig]

/-- What the ledger holds about a bin with the given placed items and largest load. -/
structure Accounts (p : Packing) (placed : Nat → Bool) (capacity : Int) (bin : Bin) : Prop where
  ascending : bin.candidates.Pairwise (· < ·)
  bounded : ∀ i ∈ bin.candidates, i < p.numItems
  /-- A candidate is not placed yet. -/
  unplaced : ∀ i ∈ bin.candidates, placed i = false
  entries : bin.entries.size = p.numDims
  required : ∀ d < p.numDims, (bin.entry d).required = p.weigh d placed
  total : ∀ d < p.numDims, (bin.entry d).total =
    p.weigh d placed + p.weigh d bin.isSmallCandidate + bin.bigShare p d
  /-- No two big candidates fit in the bin together. -/
  exclusive : ∀ i j, bin.isBigCandidate i = true → bin.isBigCandidate j = true → i ≠ j →
    capacity < p.weigh 0 placed + p.size 0 i + p.size 0 j
  /-- Once a big item is placed, no big candidate fits. -/
  taken : bin.bigPlaced = true → bin.firstBig?.isSome = true ∧
    ∀ i, bin.isBigCandidate i = true → capacity < p.weigh 0 placed + p.size 0 i
  plain : p.policy = .disabled → bin.firstSmall = 0 ∧ bin.bigPlaced = false

variable {p : Packing} {placed : Nat → Bool} {capacity : Int} {bin : Bin}

/-! ## The largest big candidate -/

theorem head_le (ascending : bin.candidates.Pairwise (· < ·)) {i j : Nat}
    (head : bin.candidates.head? = some i) (hj : j ∈ bin.candidates) : i ≤ j := by
  cases shape : bin.candidates with
  | nil => simp [shape] at hj
  | cons c rest =>
    obtain rfl : c = i := by simpa [shape] using head
    rcases List.mem_cons.1 (shape ▸ hj) with rfl | later
    · exact Nat.le_refl _
    · exact Nat.le_of_lt ((List.pairwise_cons.1 (shape ▸ ascending)).1 j later)

theorem firstBig?_eq_some (ascending : bin.candidates.Pairwise (· < ·)) {i : Nat}
    (h : bin.firstBig? = some i) :
    bin.isBigCandidate i = true ∧ ∀ j ∈ bin.candidates, i ≤ j := by
  obtain ⟨head, big⟩ := Option.filter_eq_some_iff.1 h
  have candidate : bin.isCandidate i = true := isCandidate_iff.2 (List.mem_of_head? head)
  exact ⟨by simp [isBigCandidate, candidate, big], fun j hj => head_le ascending head hj⟩

theorem firstBig?_eq_none (ascending : bin.candidates.Pairwise (· < ·))
    (h : bin.firstBig? = none) (j : Nat) : bin.isBigCandidate j = false := by
  by_contra big
  obtain ⟨member, less⟩ := isBigCandidate_iff.1 (by simpa using big)
  cases head : bin.candidates.head? with
  | none => simp [List.head?_eq_none_iff.1 head] at member
  | some c =>
    have first := head_le ascending head member
    simp [firstBig?, head, isBig, Option.filter] at h
    omega

/-- The first big candidate, looked for among all candidates. -/
theorem firstBig?_eq_find? (ascending : bin.candidates.Pairwise (· < ·)) :
    bin.firstBig? = bin.candidates.find? bin.isBig := by
  cases first : bin.firstBig? with
  | none =>
    refine (List.find?_eq_none.2 fun j member big => ?_).symm
    have notBig := firstBig?_eq_none ascending first j
    rw [isBigCandidate, isCandidate_iff.2 member, big] at notBig
    cases notBig
  | some i =>
    obtain ⟨head, big⟩ := Option.filter_eq_some_iff.1 first
    obtain ⟨rest, shape⟩ := List.head?_eq_some_iff.1 head
    rw [shape, List.find?_cons_of_pos big]

theorem Accounts.bigShare_nonneg (wf : p.WellFormed) (d : Nat) : 0 ≤ bin.bigShare p d := by
  unfold bigShare sizeOr0
  split
  · cases bin.firstBig? with
    | none => simp
    | some i => simpa using wf.nonneg 0 i
  · exact Int.le_refl _

theorem Accounts.not_big_of_ne_zero (acc : bin.Accounts p placed capacity) (wf : p.WellFormed)
    {d : Nat} (hd : d < p.numDims) (h : d ≠ 0) (i : Nat) : bin.isBig i = false := by
  have several : p.numDims ≠ 1 := by omega
  simp [isBig, (acc.plain (wf.single.resolve_left several)).1]

theorem Accounts.weigh_isSmallCandidate (acc : bin.Accounts p placed capacity) (d : Nat) :
    p.weigh d bin.isSmallCandidate = p.sizeOf d (bin.candidates.filter fun i => !bin.isBig i) := by
  have bounded : ∀ i ∈ bin.candidates.filter (fun i => !bin.isBig i), i < p.numItems :=
    fun i hi => acc.bounded i (List.mem_filter.1 hi).1
  rw [p.sizeOf_eq_weigh (acc.ascending.filter _) bounded]
  refine p.weigh_congr fun i _ => ?_
  rw [Bool.eq_iff_iff, List.contains_iff_mem, List.mem_filter, isSmallCandidate, Bool.and_eq_true,
    isCandidate_iff]

/-! ## The total load bounds every choice that fits -/

/-- The weight of a choice that contains the placed items and one more. -/
theorem add_size_le_weigh (wf : p.WellFormed) {chosen : Nat → Bool}
    (chosen_placed : ∀ i < p.numItems, placed i = true → chosen i = true) {i d : Nat}
    (hi : i < p.numItems) (free : placed i = false) (h : chosen i = true) :
    p.weigh d placed + p.size d i ≤ p.weigh d chosen := by
  rw [← p.weigh_insert (f := fun j => placed j || j == i) hi free fun _ => rfl]
  refine p.weigh_mono wf fun j hj both => ?_
  rcases Bool.or_eq_true_iff.1 both with hp | hp
  · exact chosen_placed j hj hp
  · rwa [beq_iff_eq.1 hp]

section

variable (acc : bin.Accounts p placed capacity) (wf : p.WellFormed) {chosen : Nat → Bool}
  (chosen_placed : ∀ i < p.numItems, placed i = true → chosen i = true)
  (chosen_open : ∀ i < p.numItems, chosen i = true → placed i = true ∨ i ∈ bin.candidates)

include acc wf chosen_placed

/-- The weight of a choice that contains the placed items and two more. -/
theorem Accounts.add_sizes_le_weigh {i j d : Nat} (hi : i ∈ bin.candidates)
    (hj : j ∈ bin.candidates) (different : i ≠ j) (hi' : chosen i = true) (hj' : chosen j = true) :
    p.weigh d placed + p.size d i + p.size d j ≤ p.weigh d chosen := by
  have boundI := acc.bounded i hi
  have boundJ := acc.bounded j hj
  rw [← p.weigh_insert (f := fun k => placed k || k == i) boundI (acc.unplaced i hi) fun _ => rfl,
    ← p.weigh_insert (f := fun k => (placed k || k == i) || k == j) boundJ
      (by simp [acc.unplaced j hj, different.symm]) fun _ => rfl]
  refine p.weigh_mono wf fun k hk any => ?_
  simp only [Bool.or_eq_true, beq_iff_eq] at any
  rcases any with (hp | rfl) | rfl
  · exact chosen_placed k hk hp
  · exact hi'
  · exact hj'

omit chosen_placed in
/-- Of the big candidates, a choice of at most one, and of none if a big item is placed, takes no more
than counts towards the total load. -/
theorem Accounts.weigh_big_le_of_apart
    (apart : ∀ i j, bin.isBigCandidate i = true → bin.isBigCandidate j = true → chosen i = true →
      chosen j = true → i = j)
    (free : bin.bigPlaced = true → ∀ i, bin.isBigCandidate i = true → chosen i = false) :
    p.weigh 0 (fun i => bin.isBigCandidate i && chosen i) ≤ bin.bigShare p 0 := by
  by_cases none : ∀ i < p.numItems, (bin.isBigCandidate i && chosen i) = false
  · rw [p.weigh_eq_zero none]
    exact Accounts.bigShare_nonneg wf 0
  push Not at none
  obtain ⟨i, hi, picked⟩ := none
  obtain ⟨big, chosenI⟩ : bin.isBigCandidate i = true ∧ chosen i = true := by
    simpa using picked
  have member := (isBigCandidate_iff.1 big).1
  have notTaken : bin.bigPlaced = false := by
    by_contra flag
    have left := free (by simpa using flag) i big
    rw [chosenI] at left
    cases left
  have alone : ∀ j < p.numItems, (bin.isBigCandidate j && chosen j) = (j == i) := by
    intro j _
    rw [Bool.eq_iff_iff, Bool.and_eq_true, beq_iff_eq]
    exact ⟨fun both => apart j i both.1 big both.2 chosenI, fun same => same ▸ ⟨big, chosenI⟩⟩
  rw [p.weigh_congr alone, p.weigh_single hi, bigShare, if_pos ⟨rfl, notTaken⟩]
  cases first : bin.firstBig? with
  | none => rw [firstBig?_eq_none acc.ascending first] at big; cases big
  | some f => exact wf.antitone f i ((firstBig?_eq_some acc.ascending first).2 i member) hi

include chosen_open

omit chosen_placed in
/-- **The total load bounds every choice with at most one of the big candidates**, and with none if a
big item is placed. -/
theorem Accounts.weigh_le_total_of_apart
    (apart : ∀ i j, bin.isBigCandidate i = true → bin.isBigCandidate j = true → chosen i = true →
      chosen j = true → i = j)
    (free : bin.bigPlaced = true → ∀ i, bin.isBigCandidate i = true → chosen i = false) {d : Nat}
    (hd : d < p.numDims) : p.weigh d chosen ≤ (bin.entry d).total := by
  have placedPart : p.weigh d (fun i => chosen i && placed i) ≤ p.weigh d placed :=
    p.weigh_mono wf fun i _ h => ((Bool.and_eq_true _ _).mp h).2
  have smallPart :
      p.weigh d (fun i => (chosen i && !placed i) && !bin.isBig i) ≤
        p.weigh d bin.isSmallCandidate := by
    refine p.weigh_mono wf fun i hi h => ?_
    simp only [Bool.and_eq_true, Bool.not_eq_true'] at h
    obtain ⟨⟨hc, hp⟩, small⟩ := h
    have member := (chosen_open i hi hc).resolve_left (by simp [hp])
    simp [isSmallCandidate, isCandidate_iff.2 member, small]
  have bigPart :
      p.weigh d (fun i => (chosen i && !placed i) && bin.isBig i) ≤ bin.bigShare p d := by
    by_cases zero : d = 0
    · subst zero
      refine le_trans (p.weigh_mono wf fun i hi h => ?_)
        (Accounts.weigh_big_le_of_apart acc wf apart free)
      simp only [Bool.and_eq_true, Bool.not_eq_true'] at h ⊢
      obtain ⟨⟨hc, hp⟩, big⟩ := h
      have member := (chosen_open i hi hc).resolve_left (by simp [hp])
      exact ⟨by simp [isBigCandidate, isCandidate_iff.2 member, big], hc⟩
    · rw [p.weigh_eq_zero fun i _ => by simp [acc.not_big_of_ne_zero wf hd zero i]]
      exact Accounts.bigShare_nonneg wf d
  rw [acc.total d hd, p.weigh_split d chosen placed,
    p.weigh_split d (fun i => chosen i && !placed i) bin.isBig]
  omega

/-- **The total load bounds every choice of candidates that fits.** -/
theorem Accounts.weigh_le_total (fits : p.weigh 0 chosen ≤ capacity) {d : Nat}
    (hd : d < p.numDims) : p.weigh d chosen ≤ (bin.entry d).total := by
  refine Accounts.weigh_le_total_of_apart acc wf chosen_open (fun i j bigI bigJ hi hj => ?_)
    (fun flag i big => ?_) hd
  -- two big candidates together would not fit
  · by_contra different
    have clash := acc.exclusive i j bigI bigJ different
    have both := Accounts.add_sizes_le_weigh acc wf chosen_placed (d := 0)
      (isBigCandidate_iff.1 bigI).1 (isBigCandidate_iff.1 bigJ).1 different hi hj
    omega
  · by_contra picked
    have full := (acc.taken flag).2 i big
    have member := (isBigCandidate_iff.1 big).1
    have heavy := add_size_le_weigh wf chosen_placed (d := 0) (acc.bounded i member)
      (acc.unplaced i member) (by simpa using picked)
    omega

end

/-- The total load does not exceed the size of the placed items and the candidates. -/
theorem Accounts.total_le (acc : bin.Accounts p placed capacity) (wf : p.WellFormed) {d : Nat}
    (hd : d < p.numDims) :
    (bin.entry d).total ≤ p.weigh d placed + p.sizeOf d bin.candidates := by
  rw [acc.total d hd, p.sizeOf_eq_weigh acc.ascending acc.bounded,
    p.weigh_split d bin.candidates.contains bin.isBig]
  have small : (fun i => bin.candidates.contains i && !bin.isBig i) = bin.isSmallCandidate := rfl
  have share : bin.bigShare p d ≤ p.weigh d fun i => bin.candidates.contains i && bin.isBig i := by
    unfold bigShare
    split
    · rename_i h
      obtain ⟨rfl, -⟩ := h
      cases first : bin.firstBig? with
      | none => simpa [sizeOr0] using p.weigh_nonneg wf 0 _
      | some f =>
        have big := (firstBig?_eq_some acc.ascending first).1
        have bound := acc.bounded f (isBigCandidate_iff.1 big).1
        have single := p.weigh_single (d := 0) bound
        simp only [sizeOr0, Option.map_some, Option.getD_some]
        rw [← single]
        refine p.weigh_mono wf fun j _ hj => ?_
        rw [beq_iff_eq.1 hj]
        exact big
    · exact p.weigh_nonneg wf d _
  rw [small]
  omega

/-- Without big items the total load counts every candidate in full. -/
theorem Accounts.total_eq_of_disabled (acc : bin.Accounts p placed capacity)
    (disabled : p.policy = .disabled) {d : Nat} (hd : d < p.numDims) :
    (bin.entry d).total = p.weigh d placed + p.sizeOf d bin.candidates := by
  obtain ⟨noneBig, notPlaced⟩ := acc.plain disabled
  have small : p.weigh d bin.isSmallCandidate = p.weigh d bin.candidates.contains :=
    p.weigh_congr fun i _ => by simp [isSmallCandidate, isCandidate, isBig, noneBig]
  have share : bin.bigShare p d = 0 := by
    have first : bin.firstBig? = none := by
      cases h : bin.firstBig? with
      | none => rfl
      | some f =>
        have := (isBigCandidate_iff.1 (firstBig?_eq_some acc.ascending h).1).2
        omega
    simp [bigShare, first, sizeOr0]
  rw [acc.total d hd, p.sizeOf_eq_weigh acc.ascending acc.bounded, small, share, add_zero]

end Bin

end Stowage
