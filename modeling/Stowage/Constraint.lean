import Stowage.Sorting
import Stowage.State

/-!
# Adding packings as constraints

A packing is given by items, sizes and loads in any order of the items.  The input is checked before
anything is installed, the items are sorted by size, and the new packing is propagated at once.

* `ConstraintError` — why a constraint is refused, with its text.
* `Packing.single?`, `Packing.vector?` — the checked and sorted packing of one, or of several,
  dimensions.
* `State.addPacking` — installs a checked packing and propagates.
-/

set_option autoImplicit false

namespace Stowage

/-- Why a constraint is refused. -/
inductive ConstraintError where
  /-- Two lists that belong together differ in length. -/
  | mismatchedLengths (expected actual : Nat)
  /-- An item was given a negative size. -/
  | negativeSize (item : Nat) (size : Int)
  /-- A packing was given without a dimension. -/
  | noDimensions
  /-- The size of all items exceeds the largest load. -/
  | sizeOverflow
  /-- The constraint was added after the first checkpoint. -/
  | notAtRoot
  /-- Propagating the constraint found an inconsistency. -/
  | infeasiblePropagator
  deriving DecidableEq, Repr

namespace ConstraintError

def name : ConstraintError → String
  | .mismatchedLengths .. => "MismatchedLengths"
  | .negativeSize .. => "NegativeSize"
  | .noDimensions => "NoDimensions"
  | .sizeOverflow => "SizeOverflow"
  | .notAtRoot => "NotAtRoot"
  | .infeasiblePropagator => "InfeasiblePropagator"

def message : ConstraintError → String
  | .mismatchedLengths expected actual => s!"expected {expected} sizes but {actual} were given"
  | .negativeSize item size => s!"item {item} has negative size {size}"
  | .noDimensions => "at least one dimension is required"
  | .sizeOverflow => "the total item size overflows"
  | .notAtRoot => "constraints can only be added at the root checkpoint"
  | .infeasiblePropagator =>
    "Adding the constraint failed because it is infeasible at the root"

end ConstraintError

/-- Refuses with `error` unless `condition` holds. -/
def demand (condition : Bool) (error : ConstraintError) : Except ConstraintError Unit :=
  if condition then .ok () else .error error

namespace Packing

/-! ## Checking the input -/

/-- The first negative size in a list whose positions count up from `item`. -/
def firstNegative? : Nat → List Int → Option (Nat × Int)
  | _, [] => none
  | item, size :: rest => if size < 0 then some (item, size) else firstNegative? (item + 1) rest

/-- Checks the sizes of one dimension. -/
def checkSizes (numItems : Nat) (sizes : List Int) : Except ConstraintError Unit := do
  demand (numItems == sizes.length) (.mismatchedLengths numItems sizes.length)
  match firstNegative? 0 sizes with
  | some (item, size) => throw (.negativeSize item size)
  | none => demand (decide (sumOf sizes ≤ maxValue)) .sizeOverflow

/-- The positions of a row of sizes by non-increasing size; equal sizes keep their order. -/
def orderOf (sizes : Array Int) : List Nat :=
  Sorting.sort (fun i j => decide (sizes[j]?.getD 0 ≤ sizes[i]?.getD 0)) (List.range sizes.size)

/-- The entries at the given positions. -/
def rearrange {α : Type} (order : List Nat) (row : Array α) : Array α :=
  (order.filterMap fun i => row[i]?).toArray

/-- The packing with its items sorted by non-increasing size in the first dimension. -/
def sorted (items : Array Var) (sizes : Array (Array Int)) (loads : Array (Array Var))
    (policy : BigItems) (numbered : Numbered loads) : Packing :=
  let order := orderOf (sizes[0]?.getD #[])
  ⟨rearrange order items, sizes.map (rearrange order), loads, policy, numbered⟩

/-- The packing of items of one dimension. -/
def single? (items : Array Var) (sizes : Array Int) (loads : Array Var) (policy : BigItems)
    (numbered : Numbered #[loads]) : Except ConstraintError Packing := do
  checkSizes items.size sizes.toList
  return sorted items #[sizes] #[loads] policy numbered

/-- The packing of items of several dimensions; every row of sizes and of loads belongs to one. -/
def vector? (items : Array Var) (sizes : Array (Array Int)) (loads : Array (Array Var))
    (numbered : Numbered loads) : Except ConstraintError Packing := do
  demand (!sizes.isEmpty) .noDimensions
  demand (loads.size == sizes.size) (.mismatchedLengths sizes.size loads.size)
  sizes.toList.forM fun row => checkSizes items.size row.toList
  let numBins := (loads[0]?.getD #[]).size
  match loads.toList.find? fun row => row.size != numBins with
  | some row => throw (.mismatchedLengths numBins row.size)
  | none => return sorted items sizes loads .disabled numbered

end Packing

namespace State

/-! ## Installing -/

/-- Installs a packing and propagates.  A refused constraint leaves the state as it was, unless the
propagation found an inconsistency. -/
def addPacking (s : State) (kind : PackingKind) (checked : Except ConstraintError Packing) :
    Except Fault (Except ConstraintError Nat × State) :=
  match checked with
  | .error e => .ok (.error e, s)
  | .ok p =>
    if s.checkpoint ≠ 0 then .ok (.error .notAtRoot, s)
    else do
      let (id, s) ← s.install (.packing kind p)
      let (conflict, s) ← s.propagate
      match conflict with
      | none => return (.ok id, s)
      | some _ => return (.error .infeasiblePropagator, s)

def addBinPacking (s : State) (items : Array Var) (sizes : Array Int) (loads : Array Var)
    (policy : BigItems) (numbered : Numbered #[loads]) :
    Except Fault (Except ConstraintError Nat × State) :=
  s.addPacking .single (Packing.single? items sizes loads policy numbered)

/-- Adds a packing of several dimensions. -/
def addVectorBinPacking (s : State) (items : Array Var) (sizes : Array (Array Int))
    (loads : Array (Array Var)) (numbered : Numbered loads) :
    Except Fault (Except ConstraintError Nat × State) :=
  s.addPacking .vector (Packing.vector? items sizes loads numbered)

end State

end Stowage
