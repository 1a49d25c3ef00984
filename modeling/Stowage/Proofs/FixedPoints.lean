import Stowage.Proofs.Reachability

/-!
# The ledger at a fixed point

After a propagation, and after a return to an earlier checkpoint, the ledger of every packing says
what the domains say.

* `Ledger.Matches` — what the ledger and the domains have to agree on.
* `Desk.Revised.matches` — they agree when a packing has nothing left to do.
* `State.settled_ledger_matches` — so they agree at every fixed point.
-/

set_option autoImplicit false

namespace Stowage

/-- The ledger of a packing says what the domains say. -/
structure Ledger.Matches (p : Packing) (ds : Domains) (l : Ledger) : Prop where
  inBins : ∀ i < p.numItems, ∀ v ∈ ds.domain (p.item i), 0 ≤ v ∧ v < p.numBins
  /-- The candidates of a bin are the items that may be placed in it but need not. -/
  candidates : ∀ b < p.numBins, ∀ i, i ∈ (l.bin b).candidates ↔
    i < p.numItems ∧ (ds.domain (p.item i)).isFixed = false ∧ (b : Int) ∈ ds.domain (p.item i)
  ascending : ∀ b < p.numBins, (l.bin b).candidates.Pairwise (· < ·)
  available : ∀ b < p.numBins, l.isAvailable b = true ↔ (l.bin b).candidates ≠ []
  /-- The required load of a bin is the size of the items fixed to it. -/
  required : ∀ d < p.numDims, ∀ b < p.numBins, (l.entry d b).required =
    p.weigh d fun i => (ds.domain (p.item i)).fixedValue? == some (b : Int)
  required_le : ∀ d < p.numDims, ∀ b < p.numBins,
    (l.entry d b).required ≤ ds.lower (p.load d b)
  lower_le_upper : ∀ d < p.numDims, ∀ b < p.numBins, ds.lower (p.load d b) ≤ ds.upper (p.load d b)
  upper_le_total : ∀ d < p.numDims, ∀ b < p.numBins,
    ds.upper (p.load d b) ≤ (l.entry d b).total
  total_le : ∀ d < p.numDims, ∀ b < p.numBins,
    (l.entry d b).total ≤ (l.entry d b).required + p.sizeOf d (l.bin b).candidates
  seen : ∀ d < p.numDims, ∀ b < p.numBins,
    (l.entry d b).seenLower = ds.lower (p.load d b) ∧
      (l.entry d b).seenUpper = ds.upper (p.load d b)
  sums : ∀ d < p.numDims,
    (l.sum d).lower = sumOf (p.binList.map fun b => ds.lower (p.load d b)) ∧
      (l.sum d).upper = sumOf (p.binList.map fun b => ds.upper (p.load d b))

namespace Desk

variable {p : Packing} {desk : Desk} {b d i : Nat}

section

variable (revised : desk.Revised p) (quiet : desk.domains.pending = .empty)

include revised quiet

theorem Revised.isSynchronised (hi : i < p.numItems) :
    p.isSynchronised desk.ledger desk.domains i = true := by
  rcases revised.items i hi with listed | known | ⟨e, waits⟩
  · rw [revised.noItems] at listed
    cases listed
  · exact known
  · rw [quiet] at waits
    exact absurd waits (Pending.not_has_empty e _)

theorem Revised.seen_eq (hd : d < p.numDims) (hb : b < p.numBins) :
    (desk.ledger.entry d b).seenLower = desk.domains.lower (p.load d b) ∧
      (desk.ledger.entry d b).seenUpper = desk.domains.upper (p.load d b) := by
  rcases revised.loads d hd b hb with moved | known
  · rw [revised.noLoads] at moved
    cases moved
  · exact known.seen_eq quiet

/-- A candidate may be placed in the bin but need not, and every such item is a candidate. -/
theorem Revised.mem_candidates_iff (hb : b < p.numBins) : i ∈ (desk.ledger.bin b).candidates ↔
    i < p.numItems ∧ (desk.domains.domain (p.item i)).isFixed = false ∧
      (b : Int) ∈ desk.domains.domain (p.item i) := by
  constructor
  · intro candidate
    have hi := (revised.tracks.accounts b hb).bounded i candidate
    have known := revised.isSynchronised quiet hi
    simp only [Packing.isSynchronised, List.all_eq_true, Bool.or_eq_true, Bool.not_eq_true',
      Bool.and_eq_true, bne_iff_ne] at known
    obtain ⟨member, open'⟩ := (known b (List.mem_range.2 hb)).resolve_left
      (by rw [Bin.isCandidate_iff.2 candidate]; exact (fun h => by cases h))
    refine ⟨hi, Bool.eq_false_iff.2 fun fixed => open' ?_, member⟩
    exact Domain.fixedValue?_eq_some_iff.2
      ⟨fixed, (((revised.healthy _).mem_iff_of_isFixed fixed).1 member).symm⟩
  · rintro ⟨hi, open', member⟩
    by_contra closed
    have fixed := revised.tracks.placed b hb i hi (Packing.placedIn_eq_true_iff.2 ⟨member, closed⟩)
    rw [open'] at fixed
    cases fixed

/-- An item counts as placed in a bin if it is fixed to it. -/
theorem Revised.placedIn_eq (hb : b < p.numBins) (hi : i < p.numItems) :
    p.placedIn desk.domains (desk.ledger.bin b) b i =
      ((desk.domains.domain (p.item i)).fixedValue? == some (b : Int)) := by
  rw [Bool.eq_iff_iff, Packing.placedIn_eq_true_iff, beq_iff_eq, Domain.fixedValue?_eq_some_iff,
    revised.mem_candidates_iff quiet hb]
  constructor
  · rintro ⟨member, closed⟩
    have fixed : (desk.domains.domain (p.item i)).isFixed = true := by
      by_contra open'
      exact closed ⟨hi, Bool.eq_false_iff.2 open', member⟩
    exact ⟨fixed, (((revised.healthy _).mem_iff_of_isFixed fixed).1 member).symm⟩
  · rintro ⟨fixed, value⟩
    refine ⟨value ▸ (revised.healthy _).lower_mem, fun ⟨_, open', _⟩ => ?_⟩
    rw [fixed] at open'
    cases open'

/-- **A packing that has nothing left to do has a ledger that matches the domains.** -/
theorem Revised.matches (wf : p.WellFormed) : desk.ledger.Matches p desk.domains := by
  have tracks := revised.tracks
  have seen := fun d hd b hb => revised.seen_eq (d := d) (b := b) quiet hd hb
  refine ⟨revised.confined revised.started, fun b hb i => revised.mem_candidates_iff quiet hb,
    fun b hb => (tracks.accounts b hb).ascending, fun b hb => ?_, fun d hd b hb => ?_,
    fun d hd b hb => (revised.tight revised.started d hd b hb).1,
    fun d hd b hb => Domain.lower_le_of_mem (revised.healthy _).upper_mem,
    fun d hd b hb => (revised.tight revised.started d hd b hb).2, fun d hd b hb => ?_, seen,
    fun d hd => ⟨?_, ?_⟩⟩
  · rw [Ledger.isAvailable, List.contains_iff_mem, tracks.available]
    exact ⟨fun h => h.2, fun h => ⟨hb, h⟩⟩
  · rw [Ledger.entry, (tracks.accounts b hb).required d hd]
    exact p.weigh_congr fun i hi => revised.placedIn_eq quiet hb hi
  · have account := tracks.accounts b hb
    rw [Ledger.entry, account.required d hd]
    exact account.total_le wf hd
  · rw [tracks.sumLower d hd, p.sum_binList]
    exact Finset.sum_congr rfl fun b hb => (seen d hd b (Finset.mem_range.1 hb)).1
  · rw [tracks.sumUpper d hd, p.sum_binList]
    exact Finset.sum_congr rfl fun b hb => (seen d hd b (Finset.mem_range.1 hb)).2

end

/-- Without big items the total load counts every candidate in full. -/
theorem Valid.total_eq (valid : desk.Valid p) (disabled : p.policy = .disabled)
    (hd : d < p.numDims) (hb : b < p.numBins) : (desk.ledger.entry d b).total =
      (desk.ledger.entry d b).required + p.sizeOf d (desk.ledger.bin b).candidates := by
  have account := valid.tracks.accounts b hb
  rw [Ledger.entry, account.total_eq_of_disabled disabled hd, account.required d hd]

end Desk

namespace State

/-- **The ledger of every packing matches the domains at every fixed point.**  The total load counts
every candidate in full if the packing was given as a list of dimensions, or without big items. -/
theorem settled_ledger_matches {s : State} {id : Nat} {p : Packer} (settled : Settled s)
    (runs : s.Runs id p) :
    (s.store.ledger p).Matches p.packing s.domains ∧
      (p.kind = .vector ∨ p.packing.policy = .disabled →
        ∀ d < p.packing.numDims, ∀ b < p.packing.numBins,
          ((s.store.ledger p).entry d b).total =
            ((s.store.ledger p).entry d b).required +
              p.packing.sizeOf d ((s.store.ledger p).bin b).candidates) := by
  obtain ⟨cons, quiet⟩ := settled.invariant
  have installed := cons.installed id p runs
  have revised := cons.revised quiet runs
  refine ⟨revised.matches quiet.pending installed.wf, fun plain d hd b hb => ?_⟩
  exact revised.toValid.total_eq (plain.elim installed.kind fun disabled => disabled) hd hb

/-- The ledger of the small packing after its propagation. -/
theorem smallSettled_ledger_matches :
    ∃ p, Settled smallSettled ∧ smallSettled.Runs 0 p ∧
      (smallSettled.store.ledger p).Matches p.packing smallSettled.domains := by
  have settled : Settled smallSettled := .propagate reached_smallPacked propagate_smallPacked
  have runs : smallSettled.Runs 0 { small.installedAs .single smallPacking with
      agenda := ⟨[], [], [], false, true⟩, counters := ⟨1, 0, 0, 2, 2, 0⟩ } := by
    unfold Runs
    cbv
  exact ⟨_, settled, runs, (settled_ledger_matches settled runs).1⟩

end State

end Stowage
