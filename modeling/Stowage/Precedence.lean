import Stowage.Call

/-!
# Precedence

A precedence demands that one variable is smaller than another.  It reasons on the bounds alone.
-/

set_option autoImplicit false

namespace Stowage

/-- The constraint `left < right`. -/
structure Precedence where
  left : Var
  right : Var
  deriving DecidableEq, Repr

namespace Precedence

/-- The variables, in the order of their places. -/
def vars (p : Precedence) : List Var := [p.left, p.right]

/-- Keeps `left` below the upper bound of `right`, then `right` above the lower bound of `left`. -/
def revise (p : Precedence) : Call Domains Unit := do
  let ds ← get
  Domains.impose (.atMost p.left (← Call.value (ds.upper p.right - 1)))
  let ds ← get
  Domains.impose (.atLeast p.right (← Call.value (ds.lower p.left + 1)))

end Precedence

end Stowage
