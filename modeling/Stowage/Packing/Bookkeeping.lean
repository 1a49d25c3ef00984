import Stowage.Packing.Layout

/-!
# Bookkeeping

Operations that keep the ledger of a packing in line with the domains, and the load domains in line
with the ledger.  They run on the `Desk` of the packing: the domains, the ledger with the cells that
hold it, the list of things to do and the counters.  Whatever changes the ledger is written to the cells.

* `Packing.raiseLoad`, `Packing.sinkLoad` — tighten a load and take note of its bounds.
* `Packing.assignItem`, `Packing.removeItem` — an item is, or can no longer be, placed in a bin.
* `Packing.synchroniseItem` — both, for all bins, as the domain of the item demands.
-/

set_option autoImplicit false

namespace Stowage

/-- What a packing has to look at on its next call.  It is not restored on backtracking but
discarded. -/
structure Agenda where
  /-- The items whose domain changed, the last one noticed first. -/
  items : List Nat
  /-- The items whose flag is set, which keeps an item from being listed twice. -/
  flagged : List Nat
  /-- The bins whose big items may have to be extended. -/
  marked : List Nat
  /-- Whether the bounds of a load changed. -/
  loadsMoved : Bool
  /-- Whether the first call is over. -/
  started : Bool
  deriving DecidableEq, Repr

namespace Agenda

/-- The agenda of a packing that has just been installed. -/
def initial : Agenda := ⟨[], [], [], false, false⟩

def discard (a : Agenda) : Agenda := ⟨[], [], [], false, a.started⟩

/-- Sets the flag of an item, and puts the item on top unless its flag was set already. -/
def addItem (a : Agenda) (i : Nat) : Agenda :=
  if a.flagged.contains i then a
  else { a with items := i :: a.items, flagged := i :: a.flagged }

/-- Leaves `rest` of the items, and resets the flag of item `i`, which was on top of them. -/
def dropItem (a : Agenda) (i : Nat) (rest : List Nat) : Agenda :=
  { a with items := rest, flagged := a.flagged.erase i }

def mark (a : Agenda) (b : Nat) : Agenda :=
  if a.marked.contains b then a else { a with marked := b :: a.marked }

def unmark (a : Agenda) (b : Nat) : Agenda := { a with marked := a.marked.erase b }

end Agenda

/-- What a packing counts for its statistics. -/
structure Counters where
  /-- Calls. -/
  calls : Nat
  /-- Bins removed from the domain of an item because the item does not fit. -/
  removals : Nat
  /-- Items placed in a bin because it cannot reach its smallest load without them. -/
  forcedAssignments : Nat
  /-- Load bounds tightened. -/
  boundTightenings : Nat
  /-- Extensions of the big items of a bin. -/
  bigItemExtensions : Nat
  /-- Calls that ended with an inconsistency. -/
  conflicts : Nat
  deriving DecidableEq, Repr

namespace Counters

def zero : Counters := ⟨0, 0, 0, 0, 0, 0⟩

/-- The counters with the names under which they are logged, in order. -/
def named (c : Counters) : List (String × Nat) :=
  [("num_calls", c.calls), ("num_removals", c.removals),
    ("num_forced_assignments", c.forcedAssignments),
    ("num_bound_tightenings", c.boundTightenings),
    ("num_big_item_extensions", c.bigItemExtensions), ("num_conflicts", c.conflicts)]

end Counters

/-- What a packing works on during a call. -/
structure Desk where
  domains : Domains
  /-- The cells of all propagators. -/
  cells : Cells
  /-- Where the ledger is in the cells. -/
  layout : Layout
  ledger : Ledger
  agenda : Agenda
  counters : Counters
  deriving Repr

namespace Desk

/-- Runs a computation on the domains. -/
def onDomains {α : Type} (call : Call Domains α) : Call Desk α :=
  Call.focus Desk.domains (fun domains desk => { desk with domains }) call

/-- Changes the ledger, and writes to the cells what has changed. -/
def enter (p : Packing) (ledger : Ledger) (ws : List Write) (desk : Desk) : Desk :=
  { desk with ledger, cells := desk.layout.writes p desk.cells ws }

section

variable (p : Packing) (ledger : Ledger) (ws : List Write) (desk : Desk)

@[simp] theorem domains_enter : (desk.enter p ledger ws).domains = desk.domains := rfl

@[simp] theorem ledger_enter : (desk.enter p ledger ws).ledger = ledger := rfl

@[simp] theorem agenda_enter : (desk.enter p ledger ws).agenda = desk.agenda := rfl

end

def plan (change : Agenda → Agenda) : Call Desk Unit :=
  modify fun desk => { desk with agenda := change desk.agenda }

def count (change : Counters → Counters) : Call Desk Unit :=
  modify fun desk => { desk with counters := change desk.counters }

end Desk

namespace Packing

/-! ## What can be accessed -/

/-- Whether there is a load of bin `b`, and an entry of the bin in the ledger, in dimension `d`. -/
def hasEntry (p : Packing) (ds : Domains) (ledger : Ledger) (d b : Nat) : Bool :=
  p.hasLoad ds d b && decide (b < ledger.bins.size) &&
    decide (d < (ledger.bin b).entries.size) && decide (d < ledger.sums.size)

/-- Whether there is a bin `b` in every dimension, and there are its candidates. -/
def hasBin (p : Packing) (ds : Domains) (ledger : Ledger) (b : Nat) : Bool :=
  decide (b < p.numBins) && (p.dimList.all fun d => p.hasEntry ds ledger d b) &&
    (ledger.bin b).candidates.all (p.hasItem ds)

/-- Faults unless there is an item `i`. -/
def ensureItem (p : Packing) (i : Nat) : Call Desk Unit :=
  Call.ensure fun desk => p.hasItem desk.domains i

/-- Faults unless there is an entry of bin `b` in dimension `d`. -/
def ensureEntry (p : Packing) (d b : Nat) : Call Desk Unit :=
  Call.ensure fun desk => p.hasEntry desk.domains desk.ledger d b

/-- Faults unless there is a bin `b` with its candidates. -/
def ensureBin (p : Packing) (b : Nat) : Call Desk Unit :=
  Call.ensure fun desk => p.hasBin desk.domains desk.ledger b

/-! ## Loads -/

/-- Marks bin `b` for an extension of its big items, if they are extended after installation. -/
def markBin (p : Packing) (b : Nat) (agenda : Agenda) : Agenda :=
  if p.policy = .dynamic then agenda.mark b else agenda

/-- The desk with the bounds of the load of bin `b` noted. -/
def recorded (p : Packing) (d b : Nat) (desk : Desk) : Desk :=
  let lower := desk.domains.lower (p.load d b)
  let upper := desk.domains.upper (p.load d b)
  desk.enter p (desk.ledger.record d b lower upper) (desk.ledger.noting d b lower upper)

@[simp] theorem ledger_recorded (p : Packing) (d b : Nat) (desk : Desk) :
    (p.recorded d b desk).ledger = desk.ledger.record d b (desk.domains.lower (p.load d b))
      (desk.domains.upper (p.load d b)) := rfl

/-- Takes note of the bounds of the load of bin `b`. -/
def recordLoad (p : Packing) (d b : Nat) : Call Desk Unit := do
  p.ensureEntry d b
  modify (p.recorded d b)

/-- Takes note of the bounds of all loads. -/
def recordLoads (p : Packing) : Call Desk Unit :=
  p.dimList.forM fun d => p.binList.forM fun b => p.recordLoad d b

/-- Takes note of a load that was tightened. -/
def noteTightening (p : Packing) (d b : Nat) : Call Desk Unit := do
  p.recordLoad d b
  Desk.count fun c => { c with boundTightenings := c.boundTightenings + 1 }

/-- Raises the lower bound of the load of bin `b`; returns whether it changed. -/
def raiseLoad (p : Packing) (d b : Nat) (bound : Int) : Call Desk Bool := do
  p.ensureEntry d b
  if ← Desk.onDomains (Domains.raise (p.load d b) bound) then
    p.noteTightening d b
    return true
  else return false

/-- Sinks the upper bound of the load of bin `b`; returns whether it changed. -/
def sinkLoad (p : Packing) (d b : Nat) (bound : Int) : Call Desk Bool := do
  p.ensureEntry d b
  if ← Desk.onDomains (Domains.sink (p.load d b) bound) then
    p.noteTightening d b
    if d = 0 then Desk.plan (p.markBin b)
    return true
  else return false

/-- Raises the load of bin `b` to the required load; returns whether it changed. -/
def raiseToRequired (p : Packing) (d b : Nat) : Call Desk Bool := do
  let desk ← get
  p.raiseLoad d b (desk.ledger.entry d b).required

/-- Sinks the load of bin `b` to the total load; returns whether it changed. -/
def sinkToTotal (p : Packing) (d b : Nat) : Call Desk Bool := do
  let desk ← get
  p.sinkLoad d b (desk.ledger.entry d b).total

/-- Tightens the load of bin `b` to its entry in the ledger. -/
def tightenToEntry (p : Packing) (d b : Nat) : Call Desk Unit := do
  let _ ← p.raiseToRequired d b
  let _ ← p.sinkToTotal d b

/-! ## Items -/

/-- Moves item `i` from the candidates of bin `b` to the items placed in it, and tightens the loads
of the bin.  Nothing happens if `i` is no candidate of the bin. -/
def assignItem (p : Packing) (i b : Nat) : Call Desk Unit := do
  p.ensureItem i
  p.ensureBin b
  let desk ← get
  let bin := desk.ledger.bin b
  if bin.isCandidate i then
    match bin.place p i with
    | none => Call.conflict .exclusive
    | some bin =>
      set (Desk.enter p (desk.ledger.update b bin) (desk.ledger.placement p b i)
        { desk with agenda := p.markBin b desk.agenda })
      p.dimList.forM fun d => p.tightenToEntry d b

/-- Removes item `i` from the candidates of bin `b`, and sinks the loads of the bin.  Nothing happens
if `i` is no candidate of the bin. -/
def removeItem (p : Packing) (i b : Nat) : Call Desk Unit := do
  p.ensureItem i
  p.ensureBin b
  let desk ← get
  let bin := desk.ledger.bin b
  if bin.isCandidate i then
    set (Desk.enter p (desk.ledger.update b (bin.withdraw p i)) (desk.ledger.withdrawal p b i)
      { desk with agenda := p.markBin b desk.agenda })
    p.dimList.forM fun d => do
      let _ ← p.sinkToTotal d b

/-- The bin to which the domain of an item is reduced, if there is one. -/
def placement? (p : Packing) (ds : Domains) (i : Nat) : Option Nat :=
  ((ds.domain (p.item i)).fixedValue?.filter fun v =>
    decide (0 ≤ v) && decide (v < (p.numBins : Int))).map Int.toNat

/-- Brings the ledger in line with the domain of item `i`. -/
def synchroniseItem (p : Packing) (i : Nat) : Call Desk Unit := do
  p.ensureItem i
  p.binList.forM fun b => do
    p.ensureBin b
    let desk ← get
    if (desk.ledger.bin b).isCandidate i && !(desk.domains.domain (p.item i)).contains (b : Int) then
      p.removeItem i b
  let desk ← get
  match p.placement? desk.domains i with
  | none => pure ()
  | some b => p.assignItem i b

/-- Whether the ledger is in line with the domain of item `i`. -/
def isSynchronised (p : Packing) (ledger : Ledger) (ds : Domains) (i : Nat) : Bool :=
  let d := ds.domain (p.item i)
  p.binList.all fun b =>
    !(ledger.bin b).isCandidate i || (d.contains (b : Int) && d.fixedValue? != some (b : Int))

end Packing

end Stowage
