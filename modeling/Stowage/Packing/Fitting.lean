import Stowage.Packing.Bookkeeping

/-!
# Fitting items into bins

A candidate of a bin loses the bin if it does not fit beside the items placed there, and is placed in
the bin if the bin cannot reach its smallest load without it.

The candidates are visited from large to small.  With a single dimension, the first candidate that is
not big and passes both tests ends the visit: no smaller one can fail them.

* `Packing.fits`, `Packing.isNeeded` — the two tests.
* `Packing.fitBin` — visits the candidates of a bin.
* `Packing.fitRound` — visits all available bins, after extending the big items where due.
-/

set_option autoImplicit false

namespace Stowage

namespace Packing

/-- Whether item `i` fits beside the items placed in bin `b`, in every dimension. -/
def fits (p : Packing) (desk : Desk) (b i : Nat) : Bool :=
  p.dimList.all fun d =>
    decide ((desk.ledger.entry d b).required + p.size d i ≤ desk.domains.upper (p.load d b))

/-- Whether bin `b` cannot reach its smallest load without item `i`, in every dimension. -/
def isNeeded (p : Packing) (desk : Desk) (b i : Nat) : Bool :=
  p.dimList.all fun d =>
    decide ((desk.ledger.entry d b).total + (desk.ledger.bin b).removalDelta p d i
      < desk.domains.lower (p.load d b))

/-- Takes the bin away from an item that does not fit. -/
def excludeItem (p : Packing) (b i : Nat) : Call Desk Unit := do
  Desk.onDomains (Domains.impose (.differs (p.item i) (b : Int)))
  Desk.count fun c => { c with removals := c.removals + 1 }
  p.synchroniseItem i

/-- Places an item in the bin that needs it. -/
def forceItem (p : Packing) (b i : Nat) : Call Desk Unit := do
  Desk.onDomains (Domains.impose (.equals (p.item i) (b : Int)))
  Desk.count fun c => { c with forcedAssignments := c.forcedAssignments + 1 }
  p.synchroniseItem i

/-- Visits items in the given order, those that are still candidates of bin `b`; returns whether one
of them failed a test. -/
def visitItems (p : Packing) (b : Nat) : List Nat → Call Desk Bool
  | [] => pure false
  | i :: rest => do
    p.ensureItem i
    p.ensureBin b
    let desk ← get
    if !(desk.ledger.bin b).isCandidate i then p.visitItems b rest
    else if !p.fits desk b i then
      p.excludeItem b i
      let _ ← p.visitItems b rest
      return true
    else if p.isNeeded desk b i then
      p.forceItem b i
      let _ ← p.visitItems b rest
      return true
    else if p.numDims == 1 && !(desk.ledger.bin b).isBig i then return false
    else p.visitItems b rest

/-- Visits the candidates of bin `b`; returns whether one of them failed a test. -/
def fitBin (p : Packing) (b : Nat) : Call Desk Bool := do
  p.ensureBin b
  let desk ← get
  p.visitItems b (desk.ledger.bin b).candidates

/-- The room left in bin `b` in dimension `d`. -/
def freeSpace (p : Packing) (ledger : Ledger) (ds : Domains) (d b : Nat) : Int :=
  ds.upper (p.load d b) - (ledger.entry d b).required

/-- Extends the big items of bin `b` and sinks its load to the new total load; returns whether the
load changed. -/
def extendBin (p : Packing) (b : Nat) : Call Desk Bool := do
  p.ensureBin b
  Desk.count fun c => { c with bigItemExtensions := c.bigItemExtensions + 1 }
  let desk ← get
  let free := p.freeSpace desk.ledger desk.domains 0 b
  let (decrease, bin) := (desk.ledger.bin b).extendBig p free
  set (desk.enter p (desk.ledger.put b bin) (Ledger.extension p free b (desk.ledger.bin b)))
  if decrease = 0 then return false else p.sinkToTotal 0 b

/-- Extends the big items of bin `b` if it is marked; returns whether its load changed. -/
def extendIfMarked (p : Packing) (b : Nat) : Call Desk Bool := do
  let desk ← get
  if desk.agenda.marked.contains b then
    Desk.plan fun a => a.unmark b
    p.extendBin b
  else return false

/-- Extends the big items of bin `b` if due and visits its candidates, if it is still available. -/
def visitBin (p : Packing) (b : Nat) : Call Desk Bool := do
  let desk ← get
  if desk.ledger.isAvailable b then
    let extended ← p.extendIfMarked b
    let fitted ← p.fitBin b
    return extended || fitted
  else return false

/-- Visits the bins that are available now; returns whether something changed. -/
def fitRound (p : Packing) : Call Desk Bool := do
  let desk ← get
  Call.sweep p.visitBin desk.ledger.available

end Packing

end Stowage
