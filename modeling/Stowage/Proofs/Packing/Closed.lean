import Stowage.Proofs.Packing.Tracking

/-!
# Closed domains

Domains are closed under the rules of a packing when none of them removes a value.  The rules are
monotone: what they remove from larger domains, they do not find in closed domains within them.  So
closed domains stay within whatever the rules make of the domains around them, in which order they are
applied and which candidates are big there.

* `Packing.Closed` — the domains are closed, by the accounts of a ledger.
* `Bin.Covers` — the accounts of a bin in larger domains, which may lag behind.
* `Bin.Covers.required_le`, `Bin.Covers.total_le` — closed domains require no less and allow no more.
* `Bin.Covers.total_add_removalDelta_le` — without a candidate, they allow no more either.
-/

set_option autoImplicit false

namespace Stowage

namespace Packing

/-- The packing with its big items determined in another way. -/
def withPolicy (p : Packing) (policy : BigItems) : Packing := { p with policy := policy }

/-- No rule of the packing removes a value. -/
structure Closed (p : Packing) (ds : Domains) (l : Ledger) : Prop where
  healthy : ds.Healthy
  confined : ∀ i < p.numItems, ∀ v ∈ ds.domain (p.item i), 0 ≤ v ∧ v < p.numBins
  accounts : ∀ b < p.numBins,
    (l.bin b).Accounts p (p.placedIn ds (l.bin b) b) (ds.upper (p.load 0 b))
  placed : ∀ b < p.numBins, ∀ i < p.numItems, p.placedIn ds (l.bin b) b i = true →
    (ds.domain (p.item i)).isFixed = true
  candidates : ∀ b < p.numBins, ∀ i ∈ (l.bin b).candidates,
    (b : Int) ∈ ds.domain (p.item i) ∧ (ds.domain (p.item i)).isFixed = false
  tight : ∀ d < p.numDims, ∀ b < p.numBins,
    (l.entry d b).required ≤ ds.lower (p.load d b) ∧ ds.upper (p.load d b) ≤ (l.entry d b).total
  /-- The loads can add up to the size of the items. -/
  enclosed : ∀ d < p.numDims,
    ∑ b ∈ Finset.range p.numBins, ds.lower (p.load d b) ≤ p.totalSize d ∧
      p.totalSize d ≤ ∑ b ∈ Finset.range p.numBins, ds.upper (p.load d b)
  /-- No bin has to take more because of the others, and none has to leave more to them. -/
  balanced : ∀ d < p.numDims, ∀ b < p.numBins,
    p.totalSize d ≤ ds.lower (p.load d b) +
        ∑ c ∈ (Finset.range p.numBins).erase b, ds.upper (p.load d c) ∧
      ds.upper (p.load d b) + ∑ c ∈ (Finset.range p.numBins).erase b, ds.lower (p.load d c) ≤
        p.totalSize d
  fits : ∀ b < p.numBins, ∀ i ∈ (l.bin b).candidates, ∀ d < p.numDims,
    (l.entry d b).required + p.size d i ≤ ds.upper (p.load d b)
  notNeeded : ∀ b < p.numBins, ∀ i ∈ (l.bin b).candidates, ∃ d < p.numDims,
    ds.lower (p.load d b) ≤ (l.entry d b).total + (l.bin b).removalDelta p d i

/-- A big item that is placed would leave no room for a candidate that is big. -/
theorem Closed.bigPlaced_eq_false {p : Packing} {ds : Domains} {l : Ledger} {b : Nat}
    (closed : p.Closed ds l) (wf : p.WellFormed) (hb : b < p.numBins) :
    (l.bin b).bigPlaced = false := by
  by_contra flag
  have accounts := closed.accounts b hb
  obtain ⟨first, full⟩ := accounts.taken (by simpa using flag)
  obtain ⟨f, first⟩ := Option.isSome_iff_exists.1 first
  have big := (Bin.firstBig?_eq_some accounts.ascending first).1
  have tooMuch := full f big
  have fits := closed.fits b hb f (Bin.isBigCandidate_iff.1 big).1 0 wf.dims
  have required : (l.entry 0 b).required = _ := accounts.required 0 wf.dims
  omega

end Packing

namespace Bin

/-- The accounts of a bin in larger domains: `outer`, where the items that satisfy `settled` count as
placed and the load is at most `capacity`.  In the smaller domains it is `inner` with the items that
satisfy `placed`. -/
structure Covers (p : Packing) (policy : BigItems) (placed : Nat → Bool) (inner : Bin)
    (settled : Nat → Bool) (capacity : Int) (outer : Bin) : Prop where
  innerAccounts : ∃ limit, inner.Accounts (p.withPolicy policy) placed limit
  outerAccounts : outer.Accounts p settled capacity
  keeps : ∀ i < p.numItems, settled i = true → placed i = true
  reserved : ∀ i < p.numItems, placed i = true ∨ i ∈ inner.candidates →
    settled i = true ∨ i ∈ outer.candidates
  /-- What is placed, and one candidate beside it, fits in the smaller domains. -/
  room : p.weigh 0 placed ≤ capacity
  fits : ∀ i ∈ inner.candidates, p.weigh 0 placed + p.size 0 i ≤ capacity
  notPlaced : inner.bigPlaced = false
  /-- Candidates that exclude each other in the larger domains do so in the smaller ones. -/
  big : ∀ i j, outer.isBigCandidate i = true → outer.isBigCandidate j = true → i ≠ j →
    i ∈ inner.candidates → j ∈ inner.candidates → inner.isBig i = true ∧ inner.isBig j = true

variable {p : Packing} {policy : BigItems} {placed settled : Nat → Bool} {capacity : Int}
  {inner outer : Bin} {i d : Nat}

/-- The placed items, the small candidates and the largest big candidate. -/
def heaviest (placed : Nat → Bool) (bin : Bin) (i : Nat) : Bool :=
  placed i || (bin.isSmallCandidate i || bin.firstBig? == some i)

/-- The total load is what the heaviest choice weighs. -/
theorem Accounts.total_le_heaviest (acc : inner.Accounts p placed capacity) (wf : p.WellFormed)
    (hd : d < p.numDims) : (inner.entry d).total ≤ p.weigh d (inner.heaviest placed) := by
  rw [acc.total d hd, p.weigh_split d (inner.heaviest placed) placed,
    p.weigh_split d (fun i => inner.heaviest placed i && !placed i) inner.isSmallCandidate]
  have placedPart : p.weigh d placed ≤ p.weigh d fun i => inner.heaviest placed i && placed i :=
    p.weigh_mono wf fun i _ h => by simp [heaviest, h]
  have smallPart : p.weigh d inner.isSmallCandidate ≤
      p.weigh d fun i => (inner.heaviest placed i && !placed i) && inner.isSmallCandidate i := by
    refine p.weigh_mono wf fun i _ small => ?_
    have candidate : i ∈ inner.candidates :=
      isCandidate_iff.1 ((Bool.and_eq_true _ _).mp small).1
    simp [heaviest, small, acc.unplaced i candidate]
  have bigPart : inner.bigShare p d ≤
      p.weigh d fun i => (inner.heaviest placed i && !placed i) && !inner.isSmallCandidate i := by
    unfold bigShare
    split
    · rename_i zero
      obtain ⟨rfl, -⟩ := zero
      cases first : inner.firstBig? with
      | none => simpa [sizeOr0] using p.weigh_nonneg wf 0 _
      | some f =>
        have big := (firstBig?_eq_some acc.ascending first).1
        have candidate := (isBigCandidate_iff.1 big).1
        have notSmall : inner.isSmallCandidate f = false := by
          simp [isSmallCandidate, ((Bool.and_eq_true _ _).mp big).2]
        show p.size 0 f ≤ _
        rw [← p.weigh_single (acc.bounded f candidate)]
        refine p.weigh_mono wf fun j _ same => ?_
        rw [beq_iff_eq.1 same]
        simp [heaviest, first, acc.unplaced f candidate, notSmall]
    · exact p.weigh_nonneg wf d _
  omega

namespace Covers

variable (h : Covers p policy placed inner settled capacity outer) (wf : p.WellFormed)

include h wf

/-- **Closed domains require no less.** -/
theorem required_le (d : Nat) : p.weigh d settled ≤ p.weigh d placed :=
  p.weigh_mono wf h.keeps

/-- With a candidate that is placed in the smaller domains, the larger ones do not require more
either. -/
theorem required_add_le (d : Nat) (hi : i ∈ outer.candidates) (inside : placed i = true) :
    p.weigh d settled + p.size d i ≤ p.weigh d placed :=
  add_size_le_weigh wf h.keeps (h.outerAccounts.bounded i hi) (h.outerAccounts.unplaced i hi) inside

/-- A candidate in the larger domains that is placed, or could be placed, in the smaller ones fits. -/
theorem add_size_le (hi : i ∈ outer.candidates)
    (inside : placed i = true ∨ i ∈ inner.candidates) :
    p.weigh 0 settled + p.size 0 i ≤ capacity := by
  have required := h.required_le wf 0
  rcases inside with now | candidate
  · have := h.required_add_le wf 0 hi now
    have := h.room
    omega
  · have := h.fits i candidate
    omega

variable (wf' : (p.withPolicy policy).WellFormed)

include wf'

/-- **Closed domains allow no more.**  Of the candidates that are big in the larger domains, the
heaviest choice takes one at most: two of them that can be placed in the smaller domains are big there
as well. -/
theorem total_le (hd : d < p.numDims) : (inner.entry d).total ≤ (outer.entry d).total := by
  obtain ⟨limit, acc⟩ := h.innerAccounts
  have heavy : (inner.entry d).total ≤ p.weigh d (inner.heaviest placed) :=
    acc.total_le_heaviest wf' hd
  refine heavy.trans ?_
  have inside : ∀ i, inner.heaviest placed i = true → placed i = true ∨ i ∈ inner.candidates := by
    intro i chosen
    simp only [heaviest, Bool.or_eq_true, beq_iff_eq] at chosen
    refine chosen.imp_right fun open' => ?_
    rcases open' with small | first
    · exact isCandidate_iff.1 ((Bool.and_eq_true _ _).mp small).1
    · exact (isBigCandidate_iff.1 (firstBig?_eq_some acc.ascending first).1).1
  refine h.outerAccounts.weigh_le_total_of_apart wf
    (fun i hi chosen => h.reserved i hi (inside i chosen)) (fun i j bigI bigJ hi hj => ?_)
    (fun flag i big => ?_) hd
  · by_contra different
    have memI := (isBigCandidate_iff.1 bigI).1
    have memJ := (isBigCandidate_iff.1 bigJ).1
    have clash := h.outerAccounts.exclusive i j bigI bigJ different
    have unplacedJ := h.outerAccounts.unplaced j memJ
    rcases inside i hi with nowI | openI
    · have heavyI := h.required_add_le wf 0 memI nowI
      rcases inside j hj with nowJ | openJ
      · have both := h.outerAccounts.add_sizes_le_weigh wf (d := 0) h.keeps memI memJ different
          nowI nowJ
        have := h.room
        omega
      · have := h.fits j openJ
        omega
    · rcases inside j hj with nowJ | openJ
      · have := h.required_add_le wf 0 memJ nowJ
        have := h.fits i openI
        omega
      · obtain ⟨isBigI, isBigJ⟩ := h.big i j bigI bigJ different openI openJ
        -- of the big candidates only the first is chosen
        have first : ∀ k, k ∈ inner.candidates → inner.isBig k = true →
            inner.heaviest placed k = true → inner.firstBig? = some k := by
          intro k member bigK chosen
          simpa [heaviest, acc.unplaced k member, isSmallCandidate, bigK] using chosen
        exact different (Option.some.inj ((first i openI isBigI hi).symm.trans (first j openJ isBigJ hj)))
  · by_contra picked
    have member := (isBigCandidate_iff.1 big).1
    have full := (h.outerAccounts.taken flag).2 i big
    have := h.add_size_le wf member (inside i (by simpa using picked))
    omega

end Covers

/-! ## A candidate leaves -/

/-- The larger domains lose a candidate that the smaller ones do not have. -/
theorem Covers.withdraw_outer (h : Covers p policy placed inner settled capacity outer)
    (wf : p.WellFormed) (hi : i ∈ outer.candidates) (absent : i ∉ inner.candidates)
    (free : placed i = false) : Covers p policy placed inner settled capacity (outer.withdraw p i) where
  innerAccounts := h.innerAccounts
  outerAccounts := h.outerAccounts.withdraw wf hi
  keeps := h.keeps
  reserved j hj inside := by
    refine (h.reserved j hj inside).imp_right fun member => ?_
    refine (mem_without h.outerAccounts.ascending).2 ⟨member, fun same => ?_⟩
    subst same
    rcases inside with now | candidate
    · rw [free] at now
      cases now
    · exact absent candidate
  room := h.room
  fits := h.fits
  notPlaced := h.notPlaced
  big j k bigJ bigK := h.big j k (isBigCandidate_of_without h.outerAccounts.ascending bigJ).1
    (isBigCandidate_of_without h.outerAccounts.ascending bigK).1

theorem Covers.withdraw_inner (h : Covers p policy placed inner settled capacity outer)
    (wf' : (p.withPolicy policy).WellFormed) (hi : i ∈ inner.candidates) :
    Covers p policy placed (inner.withdraw (p.withPolicy policy) i) settled capacity outer := by
  obtain ⟨limit, acc⟩ := h.innerAccounts
  have fewer : ∀ j, j ∈ (inner.withdraw (p.withPolicy policy) i).candidates → j ∈ inner.candidates :=
    fun j hj => List.mem_of_mem_erase hj
  refine ⟨⟨limit, acc.withdraw wf' hi⟩, h.outerAccounts, h.keeps,
    fun j hj inside => h.reserved j hj (inside.imp_right (fewer j)), h.room,
    fun j hj => h.fits j (fewer j hj), ?_,
    fun j k bigJ bigK different hj hk => h.big j k bigJ bigK different (fewer j hj) (fewer k hk)⟩
  show (inner.bigPlaced && _) = false
  rw [h.notPlaced, Bool.false_and]

section

variable (h : Covers p policy placed inner settled capacity outer) (wf : p.WellFormed)
  (wf' : (p.withPolicy policy).WellFormed) (hi : i ∈ outer.candidates)

include h wf wf' hi

/-- **Without a candidate, closed domains allow no more.** -/
theorem Covers.total_add_removalDelta_le (candidate : i ∈ inner.candidates) (hd : d < p.numDims) :
    (inner.entry d).total + inner.removalDelta (p.withPolicy policy) d i ≤
      (outer.entry d).total + outer.removalDelta p d i := by
  obtain ⟨limit, acc⟩ := h.innerAccounts
  have absent : i ∉ (inner.withdraw (p.withPolicy policy) i).candidates :=
    fun member => ((mem_without acc.ascending).1 member).2 rfl
  have less := ((h.withdraw_inner wf' candidate).withdraw_outer wf hi absent
    (acc.unplaced i candidate)).total_le wf wf' hd
  rwa [entry_withdraw (by rw [acc.entries]; exact hd),
    entry_withdraw (by rw [h.outerAccounts.entries]; exact hd)] at less

/-- If closed domains keep a candidate out, they allow no more than the larger ones without it. -/
theorem Covers.total_le_add_removalDelta (absent : i ∉ inner.candidates) (free : placed i = false)
    (hd : d < p.numDims) : (inner.entry d).total ≤ (outer.entry d).total + outer.removalDelta p d i := by
  have less := (h.withdraw_outer wf hi absent free).total_le wf wf' hd
  rwa [entry_withdraw (by rw [h.outerAccounts.entries]; exact hd)] at less

end

end Bin

end Stowage
