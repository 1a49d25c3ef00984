import Stowage.Proofs.BigItems
import Stowage.Proofs.Packing.Relisting
import Stowage.Proofs.Rooted

/-!
# The walk over the big items ends where a fresh one does

A packing with dynamic big items extends them bin by bin, whenever the free space of a bin shrinks or a
candidate leaves it, and from the last big candidate only.  At a fixed point that has led as far as a
walk over all candidates from the first one would: past every candidate that does not fit beside the one
before it.

* `Packing.Walks` — a walk comes past so many candidates.
* `Bin.Crowded.isGreatest_walks`, `Bin.counted_eq` — how far it comes, and what that leaves to count.
* `State.dynamic_walk_is_fresh` — the total load at a fixed point is what a fresh walk makes of it.
-/

set_option autoImplicit false

namespace Stowage

/-- A walk comes past the first `k` candidates to the next: none of them fits beside the one after
it. -/
def Packing.Walks (p : Packing) (free : Int) (candidates : List Nat) (k : Nat) : Prop :=
  ∀ j < k, ∃ a c, candidates[j]? = some a ∧ candidates[j + 1]? = some c ∧
    free < p.size 0 a + p.size 0 c

namespace Bin

variable {p : Packing} {bin : Bin} {free : Int} {m : Nat}

/-- **The walk comes to the last big candidate**, or stays at the first candidate if none is big. -/
theorem Crowded.isGreatest_walks (h : Crowded free (bin.candidateSizes p) m) :
    IsGreatest {k | p.Walks free bin.candidates k} (max m 1 - 1) := by
  have length : (bin.candidateSizes p).length = bin.candidates.length := List.length_map ..
  constructor
  · intro j less
    have bounded := h.bounded
    have hj : j + 1 < bin.candidates.length := by omega
    have clash := h.clash j (by omega)
    rw [sizeAt_candidateSizes (Nat.lt_of_succ_lt hj), sizeAt_candidateSizes hj] at clash
    exact ⟨_, _, List.getElem?_eq_getElem _, List.getElem?_eq_getElem hj, clash⟩
  · intro k walks
    by_contra further
    obtain ⟨a, c, here, next, clash⟩ := walks (max m 1 - 1) (by omega)
    have one : max m 1 - 1 + 1 = max m 1 := Nat.sub_add_cancel (Nat.le_max_right m 1)
    obtain ⟨bound, rfl⟩ := List.getElem?_eq_some_iff.1 here
    obtain ⟨bound', rfl⟩ := List.getElem?_eq_some_iff.1 next
    have fits := h.fits (by omega)
    simp only [one] at clash bound'
    rw [sizeAt_candidateSizes bound, sizeAt_candidateSizes bound'] at fits
    omega

/-- The candidates that the walk came to do not count. -/
theorem counted_eq (sizes : List Int) (m : Nat) :
    counted sizes m = sizes.sum - ((sizes.drop 1).take (max m 1 - 1)).sum := by
  rw [← counted_max]
  obtain ⟨k, shift⟩ : ∃ k, max m 1 = k + 1 := ⟨max m 1 - 1, by omega⟩
  rw [shift, Nat.add_sub_cancel]
  cases sizes with
  | nil => simp [counted, sizeAt]
  | cons a rest =>
    have split := List.sum_take_add_sum_drop rest k
    simp only [counted, sizeAt, Nat.zero_lt_succ, if_true, List.getElem?_cons_zero, Option.getD_some,
      List.drop_succ_cons, List.drop_zero, List.sum_cons]
    omega

/-- **The total load, from a walk over the candidates.** -/
theorem Accounts.total_eq_walked {placed : Nat → Bool} {capacity : Int}
    (acc : bin.Accounts p placed capacity) (wf : p.WellFormed) (notPlaced : bin.bigPlaced = false) :
    (bin.entry 0).total = p.weigh 0 placed + p.sizeOf 0 bin.candidates -
      p.sizeOf 0 ((bin.candidates.drop 1).take (max bin.numBig 1 - 1)) := by
  rw [acc.total_eq_counted notPlaced wf, counted_eq, candidateSizes, ← List.map_drop, ← List.map_take,
    Packing.sizeOf, Packing.sizeOf, Packing.sumOf_eq_sum, Packing.sumOf_eq_sum]
  omega

end Bin

namespace State

/-- **The dynamic walk equals a fresh walk.**  At a fixed point no bin holds a big item beside others,
and its total load counts all candidates but those that a walk from the first one comes to.  It is the
total load that the packing would be installed with, so the domains alone decide it. -/
theorem dynamic_walk_is_fresh {s : State} {id : Nat} {p : Packer} (settled : Settled s)
    (runs : s.Runs id p) (dynamic : p.packing.policy = .dynamic) (distinct : p.packing.vars.Nodup)
    {b : Nat} (hb : b < p.packing.numBins) :
    (∃ k, IsGreatest {k | p.packing.Walks (p.packing.freeSpace (s.store.ledger p) s.domains 0 b)
        ((s.store.ledger p).bin b).candidates k} k ∧
      ((s.store.ledger p).entry 0 b).total = ((s.store.ledger p).entry 0 b).required +
        p.packing.sizeOf 0 ((s.store.ledger p).bin b).candidates -
        p.packing.sizeOf 0 ((((s.store.ledger p).bin b).candidates.drop 1).take k)) ∧
    ((s.store.ledger p).bin b).bigPlaced = false ∧
    ((s.store.ledger p).entry 0 b).total =
      ((Ledger.ofDomains p.packing s.domains).entry 0 b).total := by
  obtain ⟨cons, quiet⟩ := settled.invariant
  have reached := settled.reached
  have wf := (cons.installed id p runs).wf
  have closed := reached.closed quiet runs
  have extended := fun b hb => reached.extended quiet runs dynamic distinct (b := b) hb
  have accounts := closed.accounts b hb
  have notPlaced := closed.bigPlaced_eq_false wf hb
  have required := accounts.required 0 wf.dims
  have mirrors := (Packing.Relists.refl p.packing).mirrors_of_extended closed wf wf dynamic extended
  have free : p.packing.freeSpace (s.store.ledger p) s.domains 0 b = _ - _ :=
    congrArg (s.domains.upper (p.packing.load 0 b) - ·) required
  have crowded := accounts.crowded (free ▸ extended b hb)
  rw [← free] at crowded
  refine ⟨⟨_, crowded.isGreatest_walks, ?_⟩, notPlaced, (mirrors.total b hb 0 wf.dims).symm⟩
  rw [Ledger.entry, required]
  exact accounts.total_eq_walked wf notPlaced

/-- In the crowded bins the items of sizes 5 and 4 exclude each other, so 5 + 1 is the total load. -/
theorem crowdedSettled_walk_is_fresh :
    Settled crowdedSettled ∧ crowdedSettled.Runs 0 crowdedPacker ∧
      crowdedPacking.policy = .dynamic ∧ crowdedPacking.vars.Nodup ∧
      ((crowdedSettled.store.ledger crowdedPacker).entry 0 0).total = 6 ∧
      ((crowdedSettled.store.ledger crowdedPacker).bin 0).candidates = [0, 1, 2] ∧
      ∃ k, IsGreatest {k | crowdedPacking.Walks
          (crowdedPacking.freeSpace (crowdedSettled.store.ledger crowdedPacker) crowdedSettled.domains 0 0)
          ((crowdedSettled.store.ledger crowdedPacker).bin 0).candidates k} k ∧
        ((crowdedSettled.store.ledger crowdedPacker).entry 0 0).total =
          ((crowdedSettled.store.ledger crowdedPacker).entry 0 0).required +
            crowdedPacking.sizeOf 0 ((crowdedSettled.store.ledger crowdedPacker).bin 0).candidates -
            crowdedPacking.sizeOf 0
              ((((crowdedSettled.store.ledger crowdedPacker).bin 0).candidates.drop 1).take k) := by
  have total : ((crowdedSettled.store.ledger crowdedPacker).entry 0 0).total = 6 := by cbv
  have candidates : ((crowdedSettled.store.ledger crowdedPacker).bin 0).candidates = [0, 1, 2] := by cbv
  have distinct : crowdedPacking.vars.Nodup := by decide
  exact ⟨settled_crowdedSettled, runs_crowdedSettled, rfl, distinct, total, candidates,
    (dynamic_walk_is_fresh settled_crowdedSettled runs_crowdedSettled rfl distinct
      (show 0 < crowdedPacking.numBins by decide)).1⟩

end State

end Stowage
