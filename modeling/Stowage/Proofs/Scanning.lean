import Stowage.Proofs.BigItems
import Stowage.Proofs.Rooted

/-!
# Ending a visit early misses no candidate

With a single dimension the visit of a bin ends at the first candidate that is not big and passes both
tests, and what the visit of one item changes can concern the candidates that were visited before.  At a
fixed point nothing has been missed: every candidate of every bin passes the tests, visited or not.

* `Packing.Closed.visitItems_quiet` — in closed domains a visit changes nothing, whatever items it is
  about.
* `State.settled_candidates_pass` — every candidate passes both tests at a fixed point.
-/

set_option autoImplicit false

namespace Stowage

/-- **In closed domains a visit of candidates changes nothing**, in whichever order it is made and
wherever it ends. -/
theorem Packing.Closed.visitItems_quiet {p : Packing} {s : Desk} {b : Nat}
    (closed : p.Closed s.domains s.ledger) (wf : p.WellFormed) (valid : s.Valid p)
    (hb : b < p.numBins) {items : List Nat} (inside : ∀ i ∈ items, i ∈ (s.ledger.bin b).candidates) :
    p.visitItems b items s = .ok false s := by
  induction items with
  | nil => rfl
  | cons i rest ih =>
    have later := ih fun j member => inside j (List.mem_cons_of_mem i member)
    have member := inside i List.mem_cons_self
    have bound := (valid.tracks.accounts b hb).bounded i member
    have fits : p.fits s b i = true := by
      rw [Packing.fits, List.all_eq_true]
      exact fun d hd => decide_eq_true (closed.fits b hb i member d (List.mem_range.1 hd))
    have needless : p.isNeeded s b i = false := by
      obtain ⟨d, hd, enough⟩ := closed.notNeeded b hb i member
      rw [Packing.isNeeded, List.all_eq_false]
      refine ⟨d, List.mem_range.2 hd, ?_⟩
      rw [decide_eq_true_eq]
      exact Int.not_lt.2 enough
    refine (Call.ensure_bind (s := s) (valid.hasItem wf bound)).trans
      ((Call.ensure_bind (s := s) (valid.hasBin wf hb)).trans ?_)
    show (if _ then _ else _ : Call Desk Bool) s = _
    rw [if_neg (by simp [Bin.isCandidate_iff.2 member]), if_neg (by simp [fits]),
      if_neg (by simp [needless])]
    split
    · rfl
    · exact later

namespace State

/-- **Every candidate passes both tests at a fixed point**, whether it was visited last or not: it fits
beside the items that are placed in its bin, and without it the bin reaches its smallest load in some
dimension.  So visiting more of the candidates would change nothing. -/
theorem settled_candidates_pass {s : State} {id : Nat} {p : Packer} (settled : Settled s)
    (runs : s.Runs id p) {b : Nat} (hb : b < p.packing.numBins) :
    (∀ i ∈ ((s.store.ledger p).bin b).candidates,
      (∀ d < p.packing.numDims, ((s.store.ledger p).entry d b).required + p.packing.size d i ≤
        s.domains.upper (p.packing.load d b)) ∧
      ∃ d < p.packing.numDims, s.domains.lower (p.packing.load d b) ≤
        ((s.store.ledger p).entry d b).total +
          ((s.store.ledger p).bin b).removalDelta p.packing d i) ∧
    ∀ items : List Nat, (∀ i ∈ items, i ∈ ((s.store.ledger p).bin b).candidates) →
      p.packing.visitItems b items (p.desk s.store) = .ok false (p.desk s.store) := by
  obtain ⟨cons, quiet⟩ := settled.invariant
  obtain ⟨⟨wf, -, -⟩, ready⟩ := cons.ready_of_found runs p rfl
  have closed := settled.reached.closed quiet runs
  refine ⟨fun i member => ⟨closed.fits b hb i member, closed.notNeeded b hb i member⟩, ?_⟩
  exact fun items inside => closed.visitItems_quiet wf ready.toValid hb inside

/-- The crowded bins, where the smallest item is not big. -/
theorem crowdedSettled_candidates_pass :
    Settled crowdedSettled ∧ crowdedSettled.Runs 0 crowdedPacker ∧
      ((crowdedSettled.store.ledger crowdedPacker).bin 0).candidates = [0, 1, 2] ∧
      ((crowdedSettled.store.ledger crowdedPacker).bin 0).isBig 2 = false ∧
      ∀ i ∈ ((crowdedSettled.store.ledger crowdedPacker).bin 0).candidates, ∃ d < 1,
        crowdedSettled.domains.lower (crowdedPacking.load d 0) ≤
          ((crowdedSettled.store.ledger crowdedPacker).entry d 0).total +
            ((crowdedSettled.store.ledger crowdedPacker).bin 0).removalDelta crowdedPacking d i := by
  have candidates : ((crowdedSettled.store.ledger crowdedPacker).bin 0).candidates = [0, 1, 2] := by cbv
  have small : ((crowdedSettled.store.ledger crowdedPacker).bin 0).isBig 2 = false := by cbv
  have passes := (settled_candidates_pass settled_crowdedSettled runs_crowdedSettled
    (show 0 < crowdedPacking.numBins by decide)).1
  exact ⟨settled_crowdedSettled, runs_crowdedSettled, candidates, small,
    fun i member => (passes i member).2⟩

end State

end Stowage
