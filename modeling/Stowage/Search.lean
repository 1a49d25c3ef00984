import Stowage.State

/-!
# Depth-first search

The search fixes the given variables one after the other, tries their values in increasing order,
propagates after each choice and goes back to where it was.  Where all variables are fixed it has
found a solution.

* `SearchRule`, `SearchPlan` — what is searched, in which order and within which limits.
* `Findings` — what the search has found so far.
* `State.search` — the search.
-/

set_option autoImplicit false

namespace Stowage

/-- Which variable is fixed next, given the state and the variables to be fixed; `none` if all of them
are fixed. -/
abbrev SearchRule := State → List Var → Except Fault (Option Var)

/-- What is searched and within which limits. -/
structure SearchPlan where
  /-- The variables to be fixed. -/
  vars : List Var
  /-- Which of them is fixed next. -/
  rule : SearchRule
  /-- No choice is made once this many have been made. -/
  maxNodes : Nat
  /-- No choice is made once this many solutions have been found. -/
  maxSolutions : Nat
  /-- Whether to check at every node that recomputing the propagators changes nothing. -/
  check : Bool

/-- What a search has found. -/
structure Findings where
  /-- The number of choices made. -/
  nodes : Nat
  /-- The values of the variables in every solution, in the order of discovery. -/
  solutions : Array (List Int)
  /-- The first conflicts that followed a choice. -/
  conflicts : Array Conflict
  /-- The number of nodes at which recomputing the propagators changed nothing. -/
  stableNodes : Nat
  deriving Repr

namespace Findings

def none : Findings := ⟨0, #[], #[], 0⟩

/-- The number of conflicts that are kept. -/
def keptConflicts : Nat := 20

/-- Adds a conflict, unless enough are kept already. -/
def addConflict (f : Findings) (c : Conflict) : Findings :=
  if f.conflicts.size < keptConflicts then { f with conflicts := f.conflicts.push c } else f

end Findings

def SearchPlan.isExhausted (plan : SearchPlan) (f : Findings) : Bool :=
  decide (plan.maxNodes ≤ f.nodes) || decide (plan.maxSolutions ≤ f.solutions.size)

namespace SearchRule

/-- Fixes the first variable that is not fixed. -/
def first : SearchRule
  | _, [] => return none
  | s, x :: xs => do
    if (← s.domains.fetch x).isFixed then first s xs else return some x

/-- Of the variables that are not fixed, the first with the fewest values; `best` is the best one
found before, with the number of its values. -/
def fewestAfter (ds : Domains) (best : Option (Var × Nat)) : List Var → Except Fault (Option Var)
  | [] => return best.map (·.1)
  | x :: xs => do
    let d ← ds.fetch x
    let isBetter := !d.isFixed && best.all fun (_, size) => decide (d.size < size)
    fewestAfter ds (if isBetter then some (x, d.size) else best) xs

/-- Fixes the first of the variables with the fewest values among those that are not fixed. -/
def fewestValues : SearchRule := fun s xs => fewestAfter s.domains none xs

end SearchRule

namespace State

/-- Fixes `x` to a value after a new checkpoint and propagates. -/
def branch (s : State) (x : Var) (value : Int) : Except Fault (Option Conflict × State) := do
  let s ← s.checkpointed
  let (_, s) ← s.post (.equals x value)
  s.propagate

/-- Tries one value of `x`: fixes it, searches `below` unless there is a conflict, and goes back to
checkpoint `k`.  Nothing happens once a limit has been reached. -/
def tryValue (plan : SearchPlan) (below : Findings × State → Except Fault (Findings × State))
    (x : Var) (k : Nat) (found : Findings × State) (value : Int) :
    Except Fault (Findings × State) := do
  let (f, s) := found
  if plan.isExhausted f then return (f, s)
  else
    let (conflict, s) ← s.branch x value
    let f := { f with nodes := f.nodes + 1 }
    let (f, s) ←
      match conflict with
      | none => below (f, s)
      | some c => .ok (f.addConflict c, s)
    return (f, ← s.restore k)

/-- Counts a node at which recomputing the propagators changes nothing, if the plan asks for it. -/
def checkNode (plan : SearchPlan) (s : State) (f : Findings) : Except Fault Findings := do
  let stable ← if plan.check then s.isStable else .ok false
  return if stable then { f with stableNodes := f.stableNodes + 1 } else f

/-- Searches below a node; at most `depth` variables can still be fixed one after the other.  No more
values are tried than there are choices left. -/
def searchNode (plan : SearchPlan) : Nat → Findings × State → Except Fault (Findings × State)
  | 0, _ => .error .exhausted
  | depth + 1, (f, s) => do
    let f ← checkNode plan s f
    match ← plan.rule s plan.vars with
    | none => return ({ f with solutions := f.solutions.push (plan.vars.map s.domains.lower) }, s)
    | some x =>
      ((s.domains.domain x).smallestValues (plan.maxNodes - f.nodes)).foldlM
        (tryValue plan (searchNode plan depth) x s.checkpoint) (f, s)

/-- Searches from the current state, to which it returns. -/
def search (s : State) (plan : SearchPlan) : Except Fault (Findings × State) :=
  searchNode plan (plan.vars.length + 1) (.none, s)

end State

end Stowage
