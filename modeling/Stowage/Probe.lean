import Stowage.BitSet
import Stowage.Call
import Stowage.Queue

/-!
# Probes

A probe watches variables and notes down everything it hears.  It keeps two things that are restored
on backtracking: how often it was called, and which of its variables have changed since the last
call.  It can also carry rules, each of which posts a predicate or declares a conflict when a
condition has become true or false.

* `Rule.apply` — a rule.
* `Probe.hear`, `Probe.begin`, `Probe.revise` — a notification, and the two parts of a call.
* `Note` — what a probe notes down, with its text.
-/

set_option autoImplicit false

namespace Stowage

/-- What happens when a condition has a given truth value. -/
structure Rule where
  /-- The truth value of the condition for which the rule fires. -/
  trigger : Bool
  condition : Predicate
  /-- The predicate to be posted; `none` declares a conflict. -/
  consequence : Option Predicate
  deriving DecidableEq, Repr

/-- Fires the rule if its condition has the truth value that triggers it. -/
def Rule.apply (rule : Rule) : Call Domains Unit := fun ds =>
  match ds.evaluate rule.condition with
  | .error fault => .error (.fault fault) ds
  | .ok truth =>
    if truth = some rule.trigger then
      match rule.consequence with
      | some q => Domains.impose q ds
      | none => .error (.inconsistent (.conflict .ruleFired)) ds
    else .ok () ds

/-- What a probe notes down. -/
inductive Note where
  /-- The variable at a place changed, for the first time since the last call or again. -/
  | notified (propagator place : Nat) (event : Event) (first : Bool)
  /-- The state went back; the counts are those restored. -/
  | synchronised (propagator : Nat) (calls seen : Int)
  /-- The probe was called; `seen` lists the places that changed since the last call. -/
  | called (propagator : Nat) (calls : Int) (seen : List Nat)
  deriving DecidableEq, Repr

def Note.render : Note → String
  | .notified propagator place event first =>
    s!"notify {propagator} {place} " ++ event.render ++ (if first then " new" else " again")
  | .synchronised propagator calls seen => s!"synchronise {propagator} calls={calls} seen={seen}"
  | .called propagator calls seen =>
    s!"propagate {propagator} calls={calls} seen=[" ++ ", ".intercalate (seen.map toString) ++ "]"

/-- A propagator that notes down what it hears and applies rules. -/
structure Probe where
  /-- The variables, in the order of their places. -/
  vars : List Var
  priority : Priority
  /-- The events that do not cause a call. -/
  skipped : List Event
  rules : List Rule
  /-- The cell that counts the calls. -/
  callCell : Nat
  /-- The places of the variables that changed since the last call. -/
  seen : BitSet
  deriving Repr

namespace Probe

/-- Hears of an event; returns the cells, the note, and whether the probe has to be called. -/
def hear (p : Probe) (id : Nat) (cells : Cells) (place : Nat) (event : Event) :
    Cells × Note × Bool :=
  let (first, cells) := p.seen.insert cells place
  (cells, .notified id place event first, !p.skipped.contains event)

/-- The first part of a call: counts it, notes down what has changed, and forgets it. -/
def begin (p : Probe) (id : Nat) (cells : Cells) : Cells × Note :=
  let cells := cells.add p.callCell 1
  (p.seen.clear cells, .called id (cells.read p.callCell) (p.seen.toList cells))

/-- The second part of a call: applies the rules in order. -/
def revise (p : Probe) : Call Domains Unit := p.rules.forM Rule.apply

def noteRestored (p : Probe) (id : Nat) (cells : Cells) : Note :=
  .synchronised id (cells.read p.callCell) (p.seen.card cells)

end Probe

end Stowage
