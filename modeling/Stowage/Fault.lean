/-!
# Faults

A fault is a use of the library that has no answer: an argument that breaks a precondition, or an
index of something that does not exist.  An operation that faults has no result and no state after
it.  Contradictory domains are not faults; they are the answer of a propagation.

* `Fault` — the causes.
* `Fault.message?` — the text of a cause that is explained to the caller.
-/

set_option autoImplicit false

namespace Stowage

/-- Why an operation cannot be carried out. -/
inductive Fault where
  /-- A new variable was given the interval `[lower, upper]`, which holds no value. -/
  | emptyInterval (lower upper : Int)
  /-- A checkpoint was requested while changes wait to be propagated. -/
  | propagationPending
  /-- A packing was installed after the first checkpoint. -/
  | packingBelowRoot
  /-- The first row of sizes of a packing increases somewhere. -/
  | sizesNotSorted
  /-- Big items were requested for a packing of several dimensions. -/
  | bigItemsInSeveralDimensions
  /-- The domains were to be restored to `wanted`, which is not before `current`. -/
  | checkpointNotEarlier (wanted current : Nat)
  /-- A precondition without an explanation of its own does not hold. -/
  | precondition
  /-- A variable, propagator, cell, key or priority level does not exist. -/
  | outOfRange
  /-- The result of an operation does not fit in the integers of the machine. -/
  | overflow
  /-- A loop used up the number of rounds that its measure allows. -/
  | exhausted
  deriving DecidableEq, Repr

/-- The explanation of a fault, for the causes that have one. -/
def Fault.message? : Fault → Option String
  | .emptyInterval lower upper => some s!"cannot create an empty domain [{lower}, {upper}]"
  | .propagationPending =>
    some "Can only create a new checkpoint when all propagation has occurred"
  | .packingBelowRoot => some "bin-packing propagators can only be installed at the root"
  | .sizesNotSorted => some "items should be sorted by non-increasing size"
  | .bigItemsInSeveralDimensions => some "big items are only supported with a single dimension"
  | .checkpointNotEarlier wanted current =>
    some s!"Expected the new checkpoint {wanted} to be smaller than the current checkpoint {current}"
  | .precondition => none
  | .outOfRange => none
  | .overflow => none
  | .exhausted => none

/-- Faults with `fault` unless `condition` holds. -/
def require (condition : Bool) (fault : Fault) : Except Fault Unit :=
  if condition then .ok () else .error fault

end Stowage
