import Stowage.Domains

/-!
# Calls of a propagator

While a propagator runs it narrows domains until it is done or finds that the domains admit no
solution.  A call is a computation on some state that stops early with a `Halt`; the changes made
until then stay.

* `Inconsistency` — what a propagator finds out about domains without a solution.
* `Call` — computations that may stop early.
* `Call.ensure`, `Call.value` — the tests that an access is possible and that an integer is a value.
* `Call.sweep`, `Call.untilStable` — repetition over a list, and until nothing changes.
* `Domains.impose`, `Domains.raise`, `Domains.sink` — the ways to narrow a domain.
-/

set_option autoImplicit false

namespace Stowage

/-- What a propagator has found when it declares the domains contradictory. -/
inductive Reason where
  /-- The loads cannot become large enough together. -/
  | overfull
  /-- The loads cannot become small enough together. -/
  | underfull
  /-- Two items that exclude each other are in one bin. -/
  | exclusive
  /-- The loads cannot add up to the size of the items. -/
  | unbalanced
  /-- A rule that forbids the current domains applies. -/
  | ruleFired
  deriving DecidableEq, Repr

def Reason.text : Reason → String
  | .overfull => "the bins cannot hold the total size of the items"
  | .underfull => "the bins require more than the total size of the items"
  | .exclusive => "two mutually exclusive items are placed in the same bin"
  | .unbalanced => "the loads cannot add up to the total size of the items"
  | .ruleFired => "a rule of the probe fired"

/-- Why the domains admit no solution. -/
inductive Inconsistency where
  /-- A domain became empty. -/
  | emptyDomain
  /-- The propagator declared a conflict. -/
  | conflict (reason : Reason)
  deriving DecidableEq, Repr

/-- Why a call stopped early. -/
inductive Halt where
  | fault (fault : Fault)
  | inconsistent (cause : Inconsistency)
  deriving DecidableEq, Repr

/-- Computations on a state `σ` that may stop early, keeping the changes made until then. -/
abbrev Call (σ : Type) := EStateM Halt σ

namespace Call

variable {σ τ α : Type}

def conflict (reason : Reason) : Call σ α := throw (.inconsistent (.conflict reason))

/-- Stops because a domain would become empty. -/
def emptyDomain : Call σ α := throw (.inconsistent .emptyDomain)

/-- Faults, as an access outside a table does, unless a condition holds of the state. -/
def ensure (condition : σ → Bool) : Call σ Unit := fun s =>
  if condition s then .ok () s else .error (.fault .outOfRange) s

/-- Where the access is possible, the test does nothing. -/
theorem ensure_bind {c : σ → Bool} {f : Unit → Call σ α} {s : σ} (h : c s = true) :
    (ensure c >>= f) s = f () s := by
  simp only [bind, EStateM.bind, ensure, h, if_true]

/-- The result of a computation with values; faults if it is none. -/
def value (v : Int) : Call σ Int :=
  if minValue ≤ v ∧ v ≤ maxValue then pure v else throw (.fault .overflow)

/-- Runs a computation on a part of the state. -/
def focus (part : σ → τ) (replace : τ → σ → σ) (call : Call τ α) : Call σ α := fun s =>
  match call (part s) with
  | .ok a t => .ok a (replace t s)
  | .error e t => .error e (replace t s)

/-- Runs a round for every element of a list; returns whether one of them changed something. -/
def sweep (round : α → Call σ Bool) : List α → Call σ Bool
  | [] => pure false
  | a :: rest => do
    let changed ← round a
    let changedLater ← sweep round rest
    return changed || changedLater

/-- Repeats a round until it changes nothing, at most `limit` times. -/
def untilStable (round : Call σ Bool) : Nat → Call σ Unit
  | 0 => throw (.fault .exhausted)
  | limit + 1 => do
    if ← round then untilStable round limit

end Call

namespace Domains

/-- Narrows a domain to the values that satisfy a predicate; stops if none is left. -/
def impose (q : Predicate) : Call Domains Unit := fun ds =>
  match ds.post q with
  | .error fault => .error (.fault fault) ds
  | .ok (.emptied, ds) => .error (.inconsistent .emptyDomain) ds
  | .ok (_, ds) => .ok () ds

/-- Raises the lower bound of `x` to `bound`; returns whether it was smaller.  Stops, without a
change, if `bound` is beyond the upper bound. -/
def raise (x : Var) (bound : Int) : Call Domains Bool := do
  Call.ensure fun ds => ds.has x
  let ds ← get
  if bound ≤ ds.lower x then return false
  else if ds.upper x < bound then Call.emptyDomain
  else
    impose (.atLeast x bound)
    return true

/-- Sinks the upper bound of `x` to `bound`; returns whether it was larger.  Stops, without a
change, if `bound` is beyond the lower bound. -/
def sink (x : Var) (bound : Int) : Call Domains Bool := do
  Call.ensure fun ds => ds.has x
  let ds ← get
  if ds.upper x ≤ bound then return false
  else if bound < ds.lower x then Call.emptyDomain
  else
    impose (.atMost x bound)
    return true

/-- Imposes a predicate unless it holds; returns whether it did not. -/
def imposeNew (q : Predicate) : Call Domains Bool := do
  Call.ensure fun ds => ds.has q.var
  let ds ← get
  if (ds.domain q.var).evaluate q.comparison q.value = some true then return false
  else
    impose q
    return true

/-- The number of rounds after which nothing can change any more if every round but the last removes
a value. -/
def roundLimit (ds : Domains) : Nat := ds.volume + 1

end Domains

end Stowage
