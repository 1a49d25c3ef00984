import Stowage.Packing.Balance
import Stowage.Packing.Fitting

/-!
# Revising a packing

A revision brings the ledger in line with the domains, starting from what is on the agenda, and
narrows the domains until balancing and fitting change nothing more.

* `Packing.start` — the first revision restricts every item to the bins.
* `Packing.revise` — a revision.
* `Packing.call` — a revision that is counted.
* `Packing.notify` — puts a changed variable on the agenda, unless the ledger is in line with it.
-/

set_option autoImplicit false

namespace Stowage

namespace Packing

def confineItem (p : Packing) (i : Nat) : Call Desk Unit := do
  Desk.onDomains (Domains.impose (.atLeast (p.item i) 0))
  Desk.onDomains (Domains.impose (.atMost (p.item i) p.lastBin))
  p.synchroniseItem i

/-- Restricts the items to the bins and tightens all loads to the ledger. -/
def start (p : Packing) : Call Desk Unit := do
  Desk.plan fun a => p.binList.foldl (fun a b => p.markBin b a) a
  p.itemList.forM p.confineItem
  p.binList.forM fun b => p.dimList.forM fun d => p.tightenToEntry d b

/-- Takes the given items off the agenda, one after the other, and brings the ledger in line with
each. -/
def workOff (p : Packing) : List Nat → Call Desk Unit
  | [] => pure ()
  | i :: rest => do
    Desk.plan fun a => a.dropItem i rest
    p.synchroniseItem i
    p.workOff rest

/-- Balances the loads and fits the items; returns whether fitting changed something. -/
def settleRound (p : Packing) : Call Desk Bool := do
  p.balance
  p.fitRound

/-- The number of rounds after which nothing can change any more: every round but the last removes a
value from a domain or a candidate from a bin. -/
def settleLimit (desk : Desk) : Nat := desk.domains.volume + desk.ledger.candidateCount + 1

/-- Brings the ledger in line with the domains, and narrows them until nothing changes. -/
def revise (p : Packing) : Call Desk Unit := do
  let desk ← get
  if desk.agenda.loadsMoved then
    p.recordLoads
    Desk.plan fun a => { a with loadsMoved := false }
  if !desk.agenda.started then
    p.start
    Desk.plan fun a => { a with started := true }
  let desk ← get
  p.workOff desk.agenda.items
  let desk ← get
  Call.untilStable p.settleRound (settleLimit desk)

/-- Counts a call that ends with an inconsistency. -/
def countConflict (call : Call Desk Unit) : Call Desk Unit := fun desk =>
  match call desk with
  | .error (.inconsistent cause) desk =>
    .error (.inconsistent cause)
      { desk with counters := { desk.counters with conflicts := desk.counters.conflicts + 1 } }
  | result => result

def call (p : Packing) : Call Desk Unit := do
  Desk.count fun c => { c with calls := c.calls + 1 }
  countConflict p.revise

/-! ## Notification -/

/-- The place of the load of bin `b` in dimension `d` among the variables of a packing.  Item `i` has
place `i`; the loads follow, one dimension after the other. -/
def loadPlace (p : Packing) (d b : Nat) : Nat := p.numItems + (d * p.numBins + b)

/-- The dimension and the bin of a load, from its place. -/
def loadOfPlace (p : Packing) (place : Nat) : Except Fault (Nat × Nat) := do
  let offset := place - p.numItems
  require (decide (0 < p.numBins) && decide (offset / p.numBins < p.numDims)) .outOfRange
  return (offset / p.numBins, offset % p.numBins)

theorem loadOfPlace_loadPlace (p : Packing) {d b : Nat} (hd : d < p.numDims) (hb : b < p.numBins) :
    p.loadOfPlace (p.loadPlace d b) = .ok (d, b) := by
  have positive : 0 < p.numBins := Nat.lt_of_le_of_lt (Nat.zero_le b) hb
  have quotient : (d * p.numBins + b) / p.numBins = d := by
    rw [Nat.mul_comm, Nat.mul_add_div positive, Nat.div_eq_of_lt hb, Nat.add_zero]
  have remainder : (d * p.numBins + b) % p.numBins = b := by
    rw [Nat.mul_comm, Nat.mul_add_mod, Nat.mod_eq_of_lt hb]
  simp [loadOfPlace, loadPlace, quotient, remainder, positive, hd, require, bind, Except.bind, pure,
    Except.pure]

/-- Hears that the variable at a place has changed; returns the new agenda, or `none` if the ledger
is in line with the variable and there is nothing to do. -/
def notify (p : Packing) (ledger : Ledger) (ds : Domains) (agenda : Agenda) (place : Nat) :
    Except Fault (Option Agenda) := do
  if place < p.numItems then
    require (p.hasItem ds place && p.binList.all fun b => p.hasBin ds ledger b) .outOfRange
    return if p.isSynchronised ledger ds place then none else some (agenda.addItem place)
  else
    let (d, b) ← p.loadOfPlace place
    require (p.hasEntry ds ledger d b) .outOfRange
    let load := p.load d b
    if ledger.isRecorded d b (ds.lower load) (ds.upper load) then return none
    else
      let agenda := { agenda with loadsMoved := true }
      return some (if d = 0 then p.markBin b agenda else agenda)

end Packing

end Stowage
