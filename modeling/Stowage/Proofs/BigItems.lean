import Stowage.Proofs.Packing.Journal
import Stowage.Proofs.Reachability

/-!
# Big items exclude each other

The candidates of a bin below a limit are its big items.  Whatever a packing has done with the bin, the
room in the bin does not hold two of them, and none beside a big item that is placed there.  The total
load counts the small candidates, and of the big ones only the largest.

* `Ledger.KeepsApart` — what the ledger says about the big items of a bin.
* `Desk.Valid.keepsApart` — the accounts of the bin imply it.
* `State.big_items_stay_apart` — so it holds in every state that can be reached, and during every call
  after each item that was placed or removed and each extension of the big items.
-/

set_option autoImplicit false

namespace Stowage

/-- What the ledger says about the big items of bin `b`, the candidates below `firstSmall`. -/
structure Ledger.KeepsApart (p : Packing) (ds : Domains) (l : Ledger) (b : Nat) : Prop where
  /-- No two of them fit in the bin together. -/
  apart : ∀ i ∈ (l.bin b).candidates, ∀ j ∈ (l.bin b).candidates, i < (l.bin b).firstSmall →
    j < (l.bin b).firstSmall → i ≠ j → p.freeSpace l ds 0 b < p.size 0 i + p.size 0 j
  /-- While one is placed in the bin there are others, and none of them fits beside it. -/
  placed : (l.bin b).bigPlaced = true →
    (∃ i ∈ (l.bin b).candidates, i < (l.bin b).firstSmall) ∧
      ∀ i ∈ (l.bin b).candidates, i < (l.bin b).firstSmall → p.freeSpace l ds 0 b < p.size 0 i
  /-- Only the largest counts, and none while one is placed. -/
  total : (l.entry 0 b).total = (l.entry 0 b).required +
    p.sizeOf 0 ((l.bin b).candidates.filter fun i => decide ((l.bin b).firstSmall ≤ i)) +
      if (l.bin b).bigPlaced then 0
      else ((l.bin b).candidates.find? fun i => decide (i < (l.bin b).firstSmall)).elim 0 (p.size 0)

/-- **The accounts of a bin keep the big items apart.** -/
theorem Bin.Accounts.keepsApart {p : Packing} {ds : Domains} {l : Ledger} {b : Nat}
    {placed : Nat → Bool} (acc : (l.bin b).Accounts p placed (ds.upper (p.load 0 b)))
    (wf : p.WellFormed) : l.KeepsApart p ds b := by
  have required : (l.entry 0 b).required = p.weigh 0 placed := acc.required 0 wf.dims
  have big : ∀ i ∈ (l.bin b).candidates, i < (l.bin b).firstSmall →
      (l.bin b).isBigCandidate i = true := fun i member less => isBigCandidate_iff.2 ⟨member, less⟩
  constructor
  · intro i hi j hj bigI bigJ different
    have clash := acc.exclusive i j (big i hi bigI) (big j hj bigJ) different
    rw [Packing.freeSpace, required]
    omega
  · intro flag
    obtain ⟨first, full⟩ := acc.taken flag
    obtain ⟨f, first⟩ := Option.isSome_iff_exists.1 first
    refine ⟨⟨f, isBigCandidate_iff.1 (firstBig?_eq_some acc.ascending first).1⟩, fun i hi less => ?_⟩
    have tooMuch := full i (big i hi less)
    rw [Packing.freeSpace, required]
    omega
  · have small : (fun i => !(l.bin b).isBig i) = fun i => decide ((l.bin b).firstSmall ≤ i) := by
      funext i
      rw [isBig, ← decide_not, decide_eq_decide]
      exact Nat.not_lt
    have total : (l.entry 0 b).total = _ := acc.total 0 wf.dims
    rw [total, required, acc.weigh_isSmallCandidate, small, bigShare,
      firstBig?_eq_find? acc.ascending]
    cases (l.bin b).bigPlaced with
    | true => simp
    | false =>
      simp only [and_self, if_true, Bool.false_eq_true, if_false, sizeOr0]
      show _ + _ + (((l.bin b).candidates.find? fun i => decide _).map _).getD 0 = _
      cases (l.bin b).candidates.find? fun i => decide (i < (l.bin b).firstSmall) <;> rfl

theorem Desk.Valid.keepsApart {p : Packing} {desk : Desk} {b : Nat} (valid : desk.Valid p)
    (wf : p.WellFormed) (hb : b < p.numBins) : desk.ledger.KeepsApart p desk.domains b :=
  (valid.tracks.accounts b hb).keepsApart wf

namespace State

/-- **Big items exclude each other, at every moment.**  In every state that can be reached they do in
all bins of all packings.  When a propagation calls a packing, they do after every item that was placed
in a bin or removed from its candidates, and after every extension of the big items of a bin: these are
noted in the journal of the call, and apart from the journal that call is the one that is made. -/
theorem big_items_stay_apart {s : State} (reached : Reached false s) :
    (∀ id p, s.Runs id p → ∀ b < p.packing.numBins,
      (s.store.ledger p).KeepsApart p.packing s.domains b) ∧
    ∀ t id p, Underway s t → t.Runs id p →
      Packing.Noted.call p.packing ⟨p.desk t.store, []⟩ = Journaled.outcome
          (p.packing.journal (p.desk t.store)) (p.packing.call (p.desk t.store)) ∧
        ∀ n ∈ p.packing.journal (p.desk t.store), ∀ b < p.packing.numBins,
          n.desk.ledger.KeepsApart p.packing n.desk.domains b := by
  have cons := reached.consistent
  refine ⟨fun id p runs b hb => ?_, fun t id p underway runs => ?_⟩
  · obtain ⟨regular, ready⟩ := cons.ready_of_found runs p rfl
    exact ready.toValid.keepsApart regular.wf hb
  · obtain ⟨consT, -⟩ := underway.invariant cons
    obtain ⟨⟨wf, -, -⟩, ready⟩ := consT.ready_of_found runs p rfl
    exact ⟨Packing.call_with_journal wf ready.toValid, fun n member b hb =>
      (Packing.journal_valid wf ready.toValid member).keepsApart wf hb⟩

/-! ## An example with big items -/

/-- No bin holds the two larger items. -/
def crowded : State := after (crowdedVars.install (.packing .single crowdedPacking))

theorem reached_crowded : Reached false crowded :=
  .install reached_crowdedVars (show (Blueprint.packing .single crowdedPacking).Typed from trivial)
    (show crowdedVars.install _ = .ok (0, crowded) by cbv)

/-- The crowded bins after a propagation. -/
def crowdedSettled : State := after crowded.propagate

/-- The largest item is placed in the first bin. -/
def crowdedPlaced : State := after (crowdedSettled.post (.equals 0 0))

/-- The packing has heard of that. -/
def crowdedHeard : State := crowdedPlaced.announce.toOption.getD .empty

/-- The packing of the crowded bins after the propagation. -/
def crowdedPacker : Packer :=
  { crowdedVars.installedAs .single crowdedPacking with
    agenda := ⟨[], [], [], false, true⟩, counters := ⟨1, 0, 0, 2, 2, 0⟩ }

/-- The packing once it has heard of the item. -/
def crowdedHearer : Packer := { crowdedPacker with agenda := ⟨[0], [0], [], false, true⟩ }

theorem settled_crowdedSettled : Settled crowdedSettled :=
  .propagate reached_crowded (show crowded.propagate = .ok (none, crowdedSettled) by cbv)

theorem runs_crowdedSettled : crowdedSettled.Runs 0 crowdedPacker := by
  unfold Runs
  cbv

theorem reached_crowdedPlaced : Reached false crowdedPlaced :=
  .post settled_crowdedSettled.reached
    (show crowdedSettled.post (.equals 0 0) = .ok (.narrowed, crowdedPlaced) by cbv)

theorem crowded_big_items_stay_apart :
    Reached false crowdedPlaced ∧ Underway crowdedPlaced crowdedHeard ∧
      crowdedHeard.Runs 0 crowdedHearer ∧
      (crowdedPacking.journal (crowdedHearer.desk crowdedHeard.store)).length = 17 ∧
      ∀ n ∈ crowdedPacking.journal (crowdedHearer.desk crowdedHeard.store), ∀ b < 2,
        n.desk.ledger.KeepsApart crowdedPacking n.desk.domains b := by
  have underway : Underway crowdedPlaced crowdedHeard :=
    .announced (show crowdedPlaced.announce = .ok crowdedHeard by cbv)
  have runs : crowdedHeard.Runs 0 crowdedHearer := by
    unfold Runs
    cbv
  have moments : (crowdedPacking.journal (crowdedHearer.desk crowdedHeard.store)).length = 17 := by
    cbv
  exact ⟨reached_crowdedPlaced, underway, runs, moments,
    ((big_items_stay_apart reached_crowdedPlaced).2 _ _ _ underway runs).2⟩

end State

end Stowage
