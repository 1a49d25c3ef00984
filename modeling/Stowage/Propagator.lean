import Stowage.Packing.Recomputation
import Stowage.Packing.Revision
import Stowage.Precedence
import Stowage.Probe

/-!
# Propagators

A propagator hears of changes of the variables it watches and, when called, narrows domains.

* `Store` — everything that is restored on backtracking.
* `Propagator` — packings, precedences and probes, each with what it keeps between calls.
* `Propagator.notify`, `Propagator.call`, `Propagator.discard`, `Propagator.recompute` — a
  notification, a call, the return to an earlier checkpoint, and the rules applied from nothing.
-/

set_option autoImplicit false

namespace Stowage

/-- Everything that is restored on backtracking. -/
structure Store where
  domains : Domains
  /-- The integers and sets of all propagators. -/
  cells : Cells
  deriving Repr

namespace Store

def empty : Store := ⟨.empty, .empty⟩

def checkpoint (s : Store) : Nat := s.domains.checkpoint

def mark (s : Store) : Store := ⟨s.domains.mark, s.cells.mark⟩

/-- Goes back to an earlier checkpoint. -/
def restore (s : Store) (k : Nat) : Store := ⟨s.domains.restore k, s.cells.restore k⟩

/-- Goes back to checkpoint `k`, which has to be before the current one of both tables. -/
def revert (s : Store) (k : Nat) : Except Fault Store := do
  let domains ← s.domains.revert k
  let cells ← s.cells.revert k
  return ⟨domains, cells⟩

end Store

/-- Whether a packing was given as one dimension or as a list of dimensions. -/
inductive PackingKind where
  | single
  | vector
  deriving DecidableEq, Repr

/-- A packing that has been installed. -/
structure Packer where
  kind : PackingKind
  packing : Packing
  /-- Where its ledger is. -/
  layout : Layout
  agenda : Agenda
  counters : Counters
  deriving Repr

def Store.ledger (s : Store) (p : Packer) : Ledger := p.layout.ledger p.packing s.cells

namespace Packer

/-- Whether all cells of a packing exist. -/
def isPresent (p : Packer) (s : Store) : Bool := decide (p.layout.stop p.packing ≤ s.cells.size)

/-- The desk of a packing at the start of a call. -/
def desk (p : Packer) (s : Store) : Desk :=
  ⟨s.domains, s.cells, p.layout, s.ledger p, p.agenda, p.counters⟩

def afterCall (p : Packer) (desk : Desk) : Packer :=
  { p with agenda := desk.agenda, counters := desk.counters }

end Packer

def Desk.store (desk : Desk) : Store := ⟨desk.domains, desk.cells⟩

/-- A propagator with what it keeps between calls. -/
inductive Propagator where
  | packing (p : Packer)
  | precedence (p : Precedence)
  | probe (p : Probe)
  deriving Repr

/-- What is left after a propagator has heard of an event. -/
structure Heard where
  propagator : Propagator
  cells : Cells
  notes : List Note
  /-- Whether the propagator has to be called. -/
  wake : Bool
  deriving Repr

/-- What is left after a propagator has been called. -/
structure Called where
  propagator : Propagator
  store : Store
  notes : List Note
  /-- What it has found out about the domains, if they admit no solution. -/
  inconsistency : Option Inconsistency
  deriving Repr

namespace Propagator

/-- The name of the kind of a propagator. -/
def name : Propagator → String
  | .packing p =>
    match p.kind with
    | .single => "BinPacking"
    | .vector => "VectorBinPacking"
  | .precedence _ => "LessThan"
  | .probe _ => "Probe"

/-- How urgent the calls of a propagator are. -/
def priority : Propagator → Priority
  | .packing _ => .low
  | .precedence _ => .veryLow
  | .probe p => p.priority

/-- The counters of a propagator with their names, in the order in which they are logged. -/
def counters : Propagator → List (String × Nat)
  | .packing p => p.counters.named
  | .precedence _ => []
  | .probe _ => []

/-- Hears that the variable at a place has changed. -/
def notify (prop : Propagator) (id : Nat) (s : Store) (place : Nat) (event : Event) :
    Except Fault Heard :=
  match prop with
  | .packing p => do
    require (p.isPresent s) .outOfRange
    match ← p.packing.notify (s.ledger p) s.domains p.agenda place with
    | none => return ⟨.packing p, s.cells, [], false⟩
    | some agenda => return ⟨.packing { p with agenda := agenda }, s.cells, [], true⟩
  | .precedence p => .ok ⟨.precedence p, s.cells, [], true⟩
  | .probe p =>
    let (cells, note, wake) := p.hear id s.cells place event
    .ok ⟨.probe p, cells, [note], wake⟩

/-- What is left after a call on the domains alone. -/
def afterCall (prop : Propagator) (s : Store) (notes : List Note) :
    EStateM.Result Halt Domains Unit → Except Fault Called
  | .ok _ ds => .ok ⟨prop, { s with domains := ds }, notes, none⟩
  | .error (.inconsistent cause) ds => .ok ⟨prop, { s with domains := ds }, notes, some cause⟩
  | .error (.fault fault) _ => .error fault

/-- What is left after a call of a packing. -/
def afterPacking (p : Packer) : EStateM.Result Halt Desk Unit → Except Fault Called
  | .ok _ desk => .ok ⟨.packing (p.afterCall desk), desk.store, [], none⟩
  | .error (.inconsistent cause) desk =>
    .ok ⟨.packing (p.afterCall desk), desk.store, [], some cause⟩
  | .error (.fault fault) _ => .error fault

def call (prop : Propagator) (id : Nat) (s : Store) : Except Fault Called :=
  match prop with
  | .packing p => do
    require (p.isPresent s) .outOfRange
    afterPacking p (p.packing.call (p.desk s))
  | .precedence p => afterCall prop s [] (p.revise s.domains)
  | .probe p =>
    let (cells, note) := p.begin id s.cells
    afterCall prop { s with cells := cells } [note] (p.revise s.domains)

/-- Discards what a propagator had planned, after the store went back to an earlier checkpoint. -/
def discard (prop : Propagator) (id : Nat) (s : Store) : Propagator × List Note :=
  match prop with
  | .packing p => (.packing { p with agenda := p.agenda.discard }, [])
  | .precedence p => (.precedence p, [])
  | .probe p => (.probe p, [p.noteRestored id s.cells])

/-- Applies the rules of a propagator to the domains alone, without what it keeps between calls. -/
def recompute : Propagator → Call Domains Unit
  | .packing p => p.packing.recompute
  | .precedence p => p.revise
  | .probe p => p.revise

end Propagator

end Stowage
