import Stowage.Packing.Basic

/-!
# Recomputing a packing

The same rules as a revision, applied without a ledger: every round reads the tallies of all bins off
the domains, and every candidate counts in full.

* `Packing.tallies` — the tallies of all bins.
* `Packing.recompute` — narrows the domains until a round changes nothing.
-/

set_option autoImplicit false

namespace Stowage

namespace Packing

/-- Whether the domain of item `i` is empty or lies within the bins. -/
def isConfined (p : Packing) (ds : Domains) (i : Nat) : Bool :=
  let d := ds.domain (p.item i)
  d.isEmpty || (decide (0 ≤ d.lower) && decide (d.upper < (p.numBins : Int)))

/-- The tallies of all bins; every item has to be confined to the bins. -/
def tallies (p : Packing) (ds : Domains) : Except Fault (List (Nat × Tally)) := do
  require (p.isComplete ds) .outOfRange
  require (p.itemList.all (p.isConfined ds)) .outOfRange
  return p.binList.map fun b => (b, p.tally ds b)

/-- Tightens the load of bin `b` to its tally; returns whether it changed. -/
def tightenToTally (p : Packing) (b : Nat) (t : Tally) (d : Nat) : Call Domains Bool := do
  let raised ← Domains.raise (p.load d b) (t.requiredIn d)
  let sunk ← Domains.sink (p.load d b) (t.totalIn d)
  return raised || sunk

/-- The sum of a bound of the loads of dimension `d`. -/
def sumLoads (p : Packing) (bound : Var → Int) (d : Nat) : Int :=
  sumOf (p.binList.map fun b => bound (p.load d b))

/-- Tightens the load of bin `b` to what the other bins leave to it, given the sums of the bounds;
returns whether it changed. -/
def rebalanceLoad (p : Packing) (d : Nat) (sumLower sumUpper : Int) (b : Nat) (t : Tally) :
    Call Domains Bool := do
  let ds ← get
  let load := p.load d b
  let least := max (t.requiredIn d) (p.totalSize d - (sumUpper - ds.upper load))
  let greatest := min (t.totalIn d) (p.totalSize d - (sumLower - ds.lower load))
  let raised ← Domains.raise load least
  let sunk ← Domains.sink load greatest
  return raised || sunk

/-- Tightens the loads of the bins with candidates in dimension `d`; returns whether one changed.
Declares a conflict if the loads cannot add up to the size of the items. -/
def rebalance (p : Packing) (tallies : List (Nat × Tally)) (d : Nat) : Call Domains Bool := do
  let ds ← get
  let sumLower := p.sumLoads ds.lower d
  let sumUpper := p.sumLoads ds.upper d
  if sumUpper < p.totalSize d ∨ p.totalSize d < sumLower then Call.conflict .unbalanced
  else
    Call.sweep (fun (b, t) => p.rebalanceLoad d sumLower sumUpper b t)
      (tallies.filter fun (_, t) => !t.candidates.isEmpty)

/-- Visits candidates of bin `b` in the given order; returns whether a domain changed. -/
def revisitItems (p : Packing) (b : Nat) (t : Tally) : List Nat → Call Domains Bool
  | [] => pure false
  | i :: rest => do
    let ds ← get
    let fits := p.dimList.all fun d =>
      decide (t.requiredIn d + p.size d i ≤ ds.upper (p.load d b))
    let isNeeded := p.dimList.all fun d =>
      decide (t.totalIn d - p.size d i < ds.lower (p.load d b))
    if !fits then
      let excluded ← Domains.imposeNew (.differs (p.item i) (b : Int))
      let later ← p.revisitItems b t rest
      return excluded || later
    else if isNeeded then
      let forced ← Domains.imposeNew (.equals (p.item i) (b : Int))
      let later ← p.revisitItems b t rest
      return forced || later
    else if p.numDims == 1 then return false
    else p.revisitItems b t rest

/-- One round: reads the tallies, tightens the loads and visits the candidates; returns whether a
domain changed. -/
def recomputeRound (p : Packing) : Call Domains Bool := do
  let ds ← get
  match p.tallies ds with
  | .error fault => throw (.fault fault)
  | .ok tallies =>
    let tightened ←
      Call.sweep (fun (b, t) => Call.sweep (p.tightenToTally b t) p.dimList) tallies
    let balanced ← Call.sweep (p.rebalance tallies) p.dimList
    let fitted ← Call.sweep (fun (b, t) => p.revisitItems b t t.candidates) tallies
    return tightened || balanced || fitted

/-- Restricts the items to the bins, and narrows the domains until nothing changes. -/
def recompute (p : Packing) : Call Domains Unit := do
  p.itemList.forM fun i => do
    Domains.impose (.atLeast (p.item i) 0)
    Domains.impose (.atMost (p.item i) p.lastBin)
  let ds ← get
  Call.untilStable p.recomputeRound ds.roundLimit

end Packing

end Stowage
