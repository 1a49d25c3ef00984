import Stowage.Packing.Bookkeeping

/-!
# Balancing the loads

In every dimension the loads of all bins add up to the size of all items.  So a bin has to take what
the other bins cannot take, and can take at most what the other bins do not need.

* `Packing.checkSums` — the sums of the load bounds enclose the size of the items.
* `Packing.balance` — tightens the loads of the available bins until nothing changes.
-/

set_option autoImplicit false

namespace Stowage

namespace Packing

/-- Declares a conflict unless the loads of dimension `d` can add up to the size of the items. -/
def checkSum (p : Packing) (d : Nat) : Call Desk Unit := do
  Call.ensure fun desk => decide (d < desk.ledger.sums.size)
  let desk ← get
  let sums := desk.ledger.sum d
  if sums.upper < p.totalSize d then Call.conflict .overfull
  else if p.totalSize d < sums.lower then Call.conflict .underfull

/-- Declares a conflict unless the loads can add up to the size of the items. -/
def checkSums (p : Packing) : Call Desk Unit := p.dimList.forM p.checkSum

/-- What bin `b` has to take: the items placed in it, and what the other bins cannot take. -/
def leastLoad (p : Packing) (desk : Desk) (d b : Nat) : Int :=
  max (desk.ledger.entry d b).required
    (p.totalSize d - ((desk.ledger.sum d).upper - desk.domains.upper (p.load d b)))

/-- What bin `b` can take: its total load, and what the other bins do not need. -/
def greatestLoad (p : Packing) (desk : Desk) (d b : Nat) : Int :=
  min (desk.ledger.entry d b).total
    (p.totalSize d - ((desk.ledger.sum d).lower - desk.domains.lower (p.load d b)))

/-- Tightens the load of bin `b` in dimension `d`; returns whether it changed. -/
def balanceLoad (p : Packing) (b d : Nat) : Call Desk Bool := do
  let desk ← get
  let raised ← p.raiseLoad d b (p.leastLoad desk d b)
  let desk ← get
  let sunk ← p.sinkLoad d b (p.greatestLoad desk d b)
  return raised || sunk

/-- Tightens the loads of the available bins once; returns whether one changed. -/
def balanceRound (p : Packing) : Call Desk Bool := do
  p.checkSums
  let desk ← get
  Call.sweep (fun b => Call.sweep (p.balanceLoad b) p.dimList) desk.ledger.available

/-- Tightens the loads of the available bins until nothing changes. -/
def balance (p : Packing) : Call Desk Unit := do
  let desk ← get
  Call.untilStable p.balanceRound desk.domains.roundLimit

end Packing

end Stowage
