import Stowage.Proofs.Packing.Recomputation
import Stowage.Proofs.Packing.Relisting
import Stowage.Proofs.Packing.Variables

/-!
# Closed families of domains

What a packing demands of domains, said of any family of domains: without a ledger, without big items
and without an order in which the rules are applied.  The domains for which the accounts of a ledger say
that no rule removes a value are those that form such a family.

* `Packing.fixedSize`, `Packing.possibleSize`, `Packing.MayTake` — what a bin holds, may hold and may
  take.
* `Packing.ClosedFamily` — the family satisfies all rules.
* `Packing.isClosed_iff` — so do the domains that are closed by the accounts of a ledger, and no others.
* `Packing.Below` — a family lies within another one.
* `Packing.ClosedFamily.exists_isClosed` — a closed family is that of some domains.
* `Packing.Solution.closedFamily` — the values of a solution form a closed family.
-/

set_option autoImplicit false

namespace Stowage

namespace Packing

variable {p : Packing} {f g h : Var → Domain} {ds : Domains} {l : Ledger} {d b i : Nat}

/-! ## Families -/

/-- The size of the items that are fixed to bin `b`. -/
def fixedSize (p : Packing) (f : Var → Domain) (d b : Nat) : Int :=
  p.weigh d fun i => (f (p.item i)).fixedValue? == some (b : Int)

/-- The size of the items whose domain contains bin `b`. -/
def possibleSize (p : Packing) (f : Var → Domain) (d b : Nat) : Int :=
  p.weigh d fun i => (f (p.item i)).contains (b : Int)

/-- Item `i` may be placed in bin `b` and is not fixed. -/
def MayTake (p : Packing) (f : Var → Domain) (b i : Nat) : Prop :=
  i < p.numItems ∧ (b : Int) ∈ f (p.item i) ∧ (f (p.item i)).isFixed = false

/-- A family of domains, none of them empty, from which no rule of the packing removes a value. -/
structure ClosedFamily (p : Packing) (f : Var → Domain) : Prop where
  items : ∀ i < p.numItems, (f (p.item i)).Proper
  loads : ∀ d < p.numDims, ∀ b < p.numBins, (f (p.load d b)).Proper
  confined : ∀ i < p.numItems, ∀ v ∈ f (p.item i), 0 ≤ v ∧ v < p.numBins
  tight : ∀ d < p.numDims, ∀ b < p.numBins,
    p.fixedSize f d b ≤ (f (p.load d b)).lower ∧ (f (p.load d b)).upper ≤ p.possibleSize f d b
  enclosed : ∀ d < p.numDims,
    ∑ b ∈ Finset.range p.numBins, (f (p.load d b)).lower ≤ p.totalSize d ∧
      p.totalSize d ≤ ∑ b ∈ Finset.range p.numBins, (f (p.load d b)).upper
  /-- A bin that may take an item takes what the others cannot, and leaves what they need. -/
  balanced : ∀ d < p.numDims, ∀ b < p.numBins, (∃ i, p.MayTake f b i) →
    p.totalSize d - ∑ c ∈ (Finset.range p.numBins).erase b, (f (p.load d c)).upper ≤
        (f (p.load d b)).lower ∧
      (f (p.load d b)).upper ≤
        p.totalSize d - ∑ c ∈ (Finset.range p.numBins).erase b, (f (p.load d c)).lower
  fits : ∀ b < p.numBins, ∀ i, p.MayTake f b i → ∀ d < p.numDims,
    p.fixedSize f d b + p.size d i ≤ (f (p.load d b)).upper
  notNeeded : ∀ b < p.numBins, ∀ i, p.MayTake f b i → ∃ d < p.numDims,
    (f (p.load d b)).lower ≤ p.possibleSize f d b - p.size d i

/-- Only the domains of the packing's variables count. -/
theorem ClosedFamily.congr (closed : p.ClosedFamily f)
    (items : ∀ i < p.numItems, g (p.item i) = f (p.item i))
    (loads : ∀ d < p.numDims, ∀ b < p.numBins, g (p.load d b) = f (p.load d b)) :
    p.ClosedFamily g := by
  have fixed : ∀ d b, p.fixedSize g d b = p.fixedSize f d b := fun d b =>
    p.weigh_congr fun i hi => by rw [items i hi]
  have possible : ∀ d b, p.possibleSize g d b = p.possibleSize f d b := fun d b =>
    p.weigh_congr fun i hi => by rw [items i hi]
  have mayTake : ∀ b i, p.MayTake g b i → p.MayTake f b i := by
    rintro b i ⟨hi, inside, open'⟩
    rw [items i hi] at inside open'
    exact ⟨hi, inside, open'⟩
  have sums : ∀ d < p.numDims, ∀ bins ⊆ Finset.range p.numBins,
      ∑ b ∈ bins, (g (p.load d b)).lower = ∑ b ∈ bins, (f (p.load d b)).lower ∧
        ∑ b ∈ bins, (g (p.load d b)).upper = ∑ b ∈ bins, (f (p.load d b)).upper := by
    intro d hd bins within
    constructor
    · exact Finset.sum_congr rfl fun b hb => by rw [loads d hd b (Finset.mem_range.1 (within hb))]
    · exact Finset.sum_congr rfl fun b hb => by rw [loads d hd b (Finset.mem_range.1 (within hb))]
  refine ⟨fun i hi => ?_, fun d hd b hb => ?_, fun i hi => ?_, fun d hd b hb => ?_, fun d hd => ?_,
    fun d hd b hb some => ?_, fun b hb i may d hd => ?_, fun b hb i may => ?_⟩
  · rw [items i hi]
    exact closed.items i hi
  · rw [loads d hd b hb]
    exact closed.loads d hd b hb
  · rw [items i hi]
    exact closed.confined i hi
  · rw [fixed, possible, loads d hd b hb]
    exact closed.tight d hd b hb
  · obtain ⟨lower, upper⟩ := sums d hd _ (Finset.Subset.refl _)
    rw [lower, upper]
    exact closed.enclosed d hd
  · obtain ⟨lower, upper⟩ := sums d hd _ (Finset.erase_subset b _)
    rw [lower, upper, loads d hd b hb]
    exact closed.balanced d hd b hb (some.imp (mayTake b))
  · rw [fixed, loads d hd b hb]
    exact closed.fits b hb i (mayTake b i may) d hd
  · obtain ⟨d, hd, enough⟩ := closed.notNeeded b hb i (mayTake b i may)
    refine ⟨d, hd, ?_⟩
    rw [possible, loads d hd b hb]
    exact enough

/-! ## Domains closed by the accounts of a ledger -/

/-- An item fixed to a bin is an item that may be placed there and is fixed. -/
theorem fixedSize_eq (proper : ∀ i < p.numItems, (f (p.item i)).Proper) (d b : Nat) :
    p.fixedSize f d b =
      p.weigh d fun i => (f (p.item i)).contains (b : Int) && (f (p.item i)).isFixed := by
  refine p.weigh_congr fun i hi => ?_
  rw [Bool.eq_iff_iff, beq_iff_eq, Domain.fixedValue?_eq_some_iff, Bool.and_eq_true,
    Domain.contains_eq_true_iff, and_comm]
  refine and_congr_left fun fixed => ?_
  rw [(proper i hi).mem_iff_of_isFixed fixed]
  exact eq_comm

theorem sizeOf_erase {items : List Nat} (member : i ∈ items) (d : Nat) :
    p.sizeOf d (items.erase i) = p.sizeOf d items - p.size d i := by
  have whole := ((List.perm_cons_erase member).map (p.size d)).sum_eq
  rw [List.map_cons, List.sum_cons] at whole
  rw [sizeOf, sizeOf, sumOf_eq_sum, sumOf_eq_sum]
  omega

section

variable (closed : p.Closed ds l) (hb : b < p.numBins)

include closed hb

theorem Closed.mem_candidates_iff : i ∈ (l.bin b).candidates ↔ p.MayTake ds.domain b i :=
  closed.reads b hb i

/-- What the ledger counts as placed is the size of the fixed items. -/
theorem Closed.weigh_placedIn (d : Nat) :
    p.weigh d (p.placedIn ds (l.bin b) b) = p.fixedSize ds.domain d b := by
  rw [fixedSize_eq fun i _ => closed.healthy (p.item i)]
  refine p.weigh_congr fun i hi => ?_
  rw [Bool.eq_iff_iff, closed.reads.placedIn_iff hb hi, Bool.and_eq_true,
    Domain.contains_eq_true_iff]

/-- With its candidates a bin holds all items that may be placed in it. -/
theorem Closed.weigh_add_sizeOf (d : Nat) :
    p.weigh d (p.placedIn ds (l.bin b) b) + p.sizeOf d (l.bin b).candidates =
      p.possibleSize ds.domain d b := by
  have accounts := closed.accounts b hb
  have candidates : p.weigh d (l.bin b).candidates.contains = p.weigh d fun i =>
      (ds.domain (p.item i)).contains (b : Int) && !(ds.domain (p.item i)).isFixed := by
    refine p.weigh_congr fun i hi => ?_
    rw [Bool.eq_iff_iff, List.contains_iff_mem, closed.reads b hb, Bool.and_eq_true,
      Domain.contains_eq_true_iff, Bool.not_eq_true']
    exact and_iff_right hi
  rw [closed.weigh_placedIn hb, fixedSize_eq fun i _ => closed.healthy (p.item i),
    p.sizeOf_eq_weigh accounts.ascending accounts.bounded, candidates, possibleSize]
  exact (p.weigh_split d _ fun i => (ds.domain (p.item i)).isFixed).symm

/-- The total load counts no more than the items that may be placed in the bin. -/
theorem Closed.total_le_possibleSize (wf : p.WellFormed) (hd : d < p.numDims) :
    (l.entry d b).total ≤ p.possibleSize ds.domain d b := by
  rw [← closed.weigh_add_sizeOf hb]
  exact (closed.accounts b hb).total_le wf hd

theorem Closed.total_add_removalDelta_le (wf : p.WellFormed) (hd : d < p.numDims)
    (candidate : i ∈ (l.bin b).candidates) :
    (l.entry d b).total + (l.bin b).removalDelta p d i ≤
      p.possibleSize ds.domain d b - p.size d i := by
  have accounts := closed.accounts b hb
  have total : (((l.bin b).withdraw p i).entry d).total =
      (l.entry d b).total + (l.bin b).removalDelta p d i := by
    rw [Bin.entry_withdraw (by rw [accounts.entries]; exact hd)]
    rfl
  have less := (accounts.withdraw wf candidate).total_le wf hd
  have fewer : p.sizeOf d ((l.bin b).withdraw p i).candidates = _ := sizeOf_erase candidate d
  rw [← closed.weigh_add_sizeOf hb]
  omega

end

/-- **Closed domains form a closed family**: a rule that counts every candidate in full finds nothing
that the accounts do not find. -/
theorem Closed.closedFamily (closed : p.Closed ds l) (wf : p.WellFormed) :
    p.ClosedFamily ds.domain where
  items i _ := closed.healthy (p.item i)
  loads d _ b _ := closed.healthy (p.load d b)
  confined := closed.confined
  tight d hd b hb := by
    have required : (l.entry d b).required = _ := (closed.accounts b hb).required d hd
    rw [closed.weigh_placedIn hb] at required
    obtain ⟨least, greatest⟩ := closed.tight d hd b hb
    exact ⟨required ▸ least, greatest.trans (closed.total_le_possibleSize hb wf hd)⟩
  enclosed := closed.enclosed
  balanced d hd b hb _ := by
    obtain ⟨least, greatest⟩ := closed.balanced d hd b hb
    exact ⟨sub_le_iff_le_add.2 least, le_sub_iff_add_le.2 greatest⟩
  fits b hb i may d hd := by
    have required : (l.entry d b).required = _ := (closed.accounts b hb).required d hd
    rw [closed.weigh_placedIn hb] at required
    exact required ▸ closed.fits b hb i ((closed.mem_candidates_iff hb).2 may) d hd
  notNeeded b hb i may := by
    have candidate := (closed.mem_candidates_iff hb).2 may
    obtain ⟨d, hd, enough⟩ := closed.notNeeded b hb i candidate
    exact ⟨d, hd, enough.trans (closed.total_add_removalDelta_le hb wf hd candidate)⟩

/-! ## The other direction -/

theorem requiredIn_eq_fixedSize (healthy : ds.Healthy) (hd : d < p.numDims) (b : Nat) :
    (p.tally ds b).requiredIn d = p.fixedSize ds.domain d b := by
  rw [Ledger.requiredIn_tally hd, fixedSize_eq fun i _ => healthy (p.item i)]
  rfl

theorem totalIn_eq_possibleSize (ds : Domains) (hd : d < p.numDims) (b : Nat) :
    (p.tally ds b).totalIn d = p.possibleSize ds.domain d b := Ledger.totalIn_tally hd

/-- What the loads of the other bins add up to. -/
theorem sum_erase_load (p : Packing) (bound : Var → Int) (d : Nat) (hb : b < p.numBins) :
    ∑ c ∈ (Finset.range p.numBins).erase b, bound (p.load d c) =
      p.sumLoads bound d - bound (p.load d b) := by
  rw [sumLoads, sum_binList, Finset.sum_erase_eq_sub (Finset.mem_range.2 hb)]

/-- **Domains that form a closed family are closed.** -/
theorem ClosedFamily.closed_ofDomains (plain : p.policy = .disabled) (wf : p.WellFormed)
    (inv : (recomputing p).inv ds) (closed : p.ClosedFamily ds.domain) :
    p.Closed ds (Ledger.ofDomains p ds) := by
  have mayTake : ∀ b, ∀ i ∈ (p.tally ds b).candidates, p.MayTake ds.domain b i :=
    fun b i hi => Ledger.mem_candidates_plainBin.1 hi
  refine closed_of_tested plain wf inv closed.confined (fun b hb d hd => ?_) (fun d hd => ⟨?_, ?_⟩)
    fun b hb i hi _ _ => ⟨?_, ?_⟩
  · rw [requiredIn_eq_fixedSize inv.1 hd, totalIn_eq_possibleSize ds hd]
    exact closed.tight d hd b hb
  · rw [sumLoads, sumLoads, sum_binList, sum_binList]
    exact closed.enclosed d hd
  · intro b hb some
    obtain ⟨i, hi⟩ := List.exists_mem_of_ne_nil _ some
    rw [← p.sum_erase_load ds.lower d hb, ← p.sum_erase_load ds.upper d hb]
    exact closed.balanced d hd b hb ⟨i, mayTake b i hi⟩
  · rw [fits_scratch plain hb, List.all_eq_true]
    intro d hd
    rw [requiredIn_eq_fixedSize inv.1 (List.mem_range.1 hd)]
    exact decide_eq_true (closed.fits b hb i (mayTake b i hi) d (List.mem_range.1 hd))
  · obtain ⟨d, hd, enough⟩ := closed.notNeeded b hb i (mayTake b i hi)
    rw [isNeeded_scratch plain hb, List.all_eq_false]
    refine ⟨d, List.mem_range.2 hd, ?_⟩
    rw [totalIn_eq_possibleSize ds hd, decide_eq_true_eq]
    exact Int.not_lt.2 enough

/-- How the big items are determined does not count. -/
theorem closedFamily_withPolicy (p : Packing) (policy : BigItems) (f : Var → Domain) :
    (p.withPolicy policy).ClosedFamily f ↔ p.ClosedFamily f := by
  constructor
  · intro h
    exact ⟨h.items, h.loads, h.confined, h.tight, h.enclosed, h.balanced, h.fits, h.notNeeded⟩
  · intro h
    exact ⟨h.items, h.loads, h.confined, h.tight, h.enclosed, h.balanced, h.fits, h.notNeeded⟩

/-- **The domains that are closed by the accounts of some ledger are those that form a closed
family.** -/
theorem isClosed_iff (wf : p.WellFormed) (healthy : ds.Healthy) (known : p.Known ds) :
    p.IsClosed ds ↔ p.ClosedFamily ds.domain := by
  constructor
  · rintro ⟨policy, l, wf', closed⟩
    exact (p.closedFamily_withPolicy policy _).1 (closed.closedFamily wf')
  · intro family
    have plain : (p.withPolicy .disabled).WellFormed := wf.withPolicy (.inr rfl)
    have same := (p.closedFamily_withPolicy .disabled _).2 family
    exact ⟨.disabled, _, plain, same.closed_ofDomains rfl plain ⟨healthy, known.items, known.loads⟩⟩

/-! ## Families within one another -/

/-- For the variables of the packing, the values of the family `f` are values of `g`. -/
def Below (p : Packing) (f g : Var → Domain) : Prop := ∀ x ∈ p.vars, ∀ v ∈ f x, v ∈ g x

theorem Below.trans (below : p.Below f g) (below' : p.Below g h) : p.Below f h :=
  fun x inside v member => below' x inside v (below x inside v member)

end Packing

/-! ## Domains for a family -/

namespace Domains

/-- The domains with those of some variables replaced. -/
def patch (ds : Domains) (vars : List Var) (f : Var → Domain) : Domains :=
  ⟨⟨(Array.range ds.count).map fun x => if x ∈ vars then f x else ds.domain x, .empty⟩, .empty⟩

theorem count_patch (ds : Domains) (vars : List Var) (f : Var → Domain) :
    (ds.patch vars f).count = ds.count := by
  simp [patch, count, Trailed.size]

theorem domain_patch (ds : Domains) (vars : List Var) (f : Var → Domain) {x : Var}
    (hx : x < ds.count) :
    (ds.patch vars f).domain x = if x ∈ vars then f x else ds.domain x := by
  simp [patch, domain, Trailed.get?, hx]

/-- A variable that does not exist counts as 0. -/
theorem domain_of_count_le {ds : Domains} {x : Var} (hx : ds.count ≤ x) :
    ds.domain x = .interval 0 0 := by
  have outside : ds.table.values[x]? = none := Array.getElem?_eq_none hx
  rw [domain, Trailed.get?, outside]
  rfl

end Domains

namespace Packing

variable {p : Packing} {f g : Var → Domain} {ds : Domains} {d b i : Nat}

/-- **A closed family is that of some domains**, which are within all domains it is within. -/
theorem ClosedFamily.exists_isClosed (closed : p.ClosedFamily f) (wf : p.WellFormed)
    (healthy : ds.Healthy) (known : p.Known ds) (below : p.Below f ds.domain) :
    ∃ inner : Domains, p.IsClosed inner ∧ inner.Within ds ∧ ∀ x ∈ p.vars, inner.domain x = f x := by
  have exist : ∀ x ∈ p.vars, x < ds.count :=
    (forall_mem_vars_iff wf.toShaped).2 ⟨known.items, known.loads⟩
  have proper : ∀ x ∈ p.vars, (f x).Proper :=
    (forall_mem_vars_iff wf.toShaped).2 ⟨closed.items, closed.loads⟩
  have inside : ∀ x ∈ p.vars, (ds.patch p.vars f).domain x = f x := by
    intro x member
    rw [Domains.domain_patch ds _ _ (exist x member), if_pos member]
  have outside : ∀ x, x ∉ p.vars → (ds.patch p.vars f).domain x = ds.domain x := by
    intro x absent
    by_cases hx : x < ds.count
    · rw [Domains.domain_patch ds _ _ hx, if_neg absent]
    · rw [Domains.domain_of_count_le (Nat.le_of_not_lt hx),
        Domains.domain_of_count_le (by rw [Domains.count_patch]; exact Nat.le_of_not_lt hx)]
  have healthy' : (ds.patch p.vars f).Healthy := by
    intro x
    by_cases member : x ∈ p.vars
    · rw [inside x member]
      exact proper x member
    · rw [outside x member]
      exact healthy x
  have known' : p.Known (ds.patch p.vars f) := by
    constructor
    · rw [Domains.count_patch]
      exact known.items
    · rw [Domains.count_patch]
      exact known.loads
  obtain ⟨items, loads⟩ := (forall_mem_vars_iff wf.toShaped).1 inside
  refine ⟨ds.patch p.vars f, (isClosed_iff wf healthy' known').2 (closed.congr items loads), ?_,
    inside⟩
  intro x v
  by_cases member : x ∈ p.vars
  · rw [inside x member]
    exact below x member v
  · rw [outside x member]
    exact id

/-! ## Solutions -/

/-- **The values of a solution form a closed family**: no item is left to be placed. -/
theorem Solution.closedFamily {a : Var → Int} (solution : p.Solution a) (shaped : p.Shaped)
    (values : ∀ x ∈ p.vars, (Domain.interval (a x) (a x)).Proper) :
    p.ClosedFamily fun x => .interval (a x) (a x) := by
  have settled : ∀ x, (Domain.interval (a x) (a x)).isFixed = true := fun x => beq_self_eq_true (a x)
  have none : ∀ b i, ¬p.MayTake (fun x => .interval (a x) (a x)) b i := by
    rintro b i ⟨-, -, open'⟩
    exact absurd ((settled _).symm.trans open') (by decide)
  have fixed : ∀ d b, p.fixedSize (fun x => .interval (a x) (a x)) d b =
      p.weigh d (p.placedBy a b) := by
    refine fun d b => p.weigh_congr fun i _ => ?_
    rw [Bool.eq_iff_iff, beq_iff_eq, Domain.fixedValue?_eq_some_iff, placedBy, beq_iff_eq]
    exact and_iff_right (settled _)
  have possible : ∀ d b, p.possibleSize (fun x => .interval (a x) (a x)) d b =
      p.weigh d (p.placedBy a b) := by
    refine fun d b => p.weigh_congr fun i _ => ?_
    rw [Bool.eq_iff_iff, Domain.contains_eq_true_iff, Domain.mem_interval, placedBy, beq_iff_eq]
    omega
  obtain ⟨items, loads⟩ := (forall_mem_vars_iff shaped).1 values
  refine ⟨items, loads, fun i hi v member => ?_, fun d hd b hb => ?_, fun d hd => ?_,
    fun d _ b _ some => absurd some ?_, fun b _ i may => absurd may (none b i),
    fun b _ i may => absurd may (none b i)⟩
  · obtain rfl : v = a (p.item i) := Int.le_antisymm (Domain.mem_interval.1 member).2
      (Domain.mem_interval.1 member).1
    exact solution.inBins i hi
  · rw [fixed, possible, ← solution.loads d hd b hb]
    exact ⟨Int.le_refl _, Int.le_refl _⟩
  · have sum := solution.sum_loads hd
    exact ⟨sum.le, sum.ge⟩
  · rintro ⟨i, may⟩
    exact none b i may

end Packing

end Stowage
