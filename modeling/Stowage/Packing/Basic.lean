import Stowage.Call

/-!
# Packings

A packing places items in bins.  The value of an item variable is the number of its bin; in every
dimension an item has a size, and the value of the load variable of a bin is the sum of the sizes of
the items placed in it.  There are no more bins than values to number them.

* `Packing` — the constraint.
* `Packing.checkShape` — what has to hold when a packing is installed.
* `Packing.tally` — the candidates and loads of a bin, read off the domains.
-/

set_option autoImplicit false

namespace Stowage

/-- How candidates that exclude each other sharpen the largest possible load of a bin. -/
inductive BigItems where
  /-- Every candidate counts. -/
  | disabled
  /-- The excluding candidates are determined when the packing is installed. -/
  | static
  /-- They are extended whenever the free space of a bin shrinks. -/
  | dynamic
  deriving DecidableEq, Repr

/-- The bins of every row can be numbered by values. -/
abbrev Numbered (loads : Array (Array Var)) : Prop := ∀ row ∈ loads.toList, (row.size : Int) ≤ maxValue

/-- The placement of items in bins; every row of `sizes` and of `loads` belongs to one dimension. -/
structure Packing where
  /-- The variable of every item. -/
  items : Array Var
  /-- For every dimension the size of every item. -/
  sizes : Array (Array Int)
  /-- For every dimension the load variable of every bin. -/
  loads : Array (Array Var)
  /-- How the largest possible load of a bin is determined. -/
  policy : BigItems
  numbered : Numbered loads
  deriving DecidableEq, Repr

/-- What a bin holds and may hold according to the domains. -/
structure Tally where
  /-- The items that may be placed in the bin but need not, ascending. -/
  candidates : List Nat
  /-- For every dimension the size of the items that are placed in the bin. -/
  required : Array Int
  /-- For every dimension the size of the items that are or may be placed in the bin. -/
  total : Array Int
  deriving DecidableEq, Repr

namespace Tally

/-- The size of the items that are placed in the bin, in one dimension. -/
def requiredIn (t : Tally) (d : Nat) : Int := t.required[d]?.getD 0

/-- The size of the items that are or may be placed in the bin, in one dimension. -/
def totalIn (t : Tally) (d : Nat) : Int := t.total[d]?.getD 0

end Tally

namespace Packing

def numItems (p : Packing) : Nat := p.items.size

def numBins (p : Packing) : Nat := (p.loads[0]?.getD #[]).size

theorem numBins_le (p : Packing) : (p.numBins : Int) ≤ maxValue := by
  unfold numBins
  cases first : p.loads[0]? with
  | none => decide
  | some row => exact p.numbered row (Array.mem_toList_iff.2 (Array.mem_of_getElem? first))

def numDims (p : Packing) : Nat := p.sizes.size

def itemList (p : Packing) : List Nat := List.range p.numItems

def binList (p : Packing) : List Nat := List.range p.numBins

def dimList (p : Packing) : List Nat := List.range p.numDims

def item (p : Packing) (i : Nat) : Var := p.items[i]?.getD 0

/-- The size of an item in a dimension. -/
def size (p : Packing) (d i : Nat) : Int := (p.sizes[d]?.getD #[])[i]?.getD 0

/-- The load variable of a bin in a dimension. -/
def load (p : Packing) (d b : Nat) : Var := (p.loads[d]?.getD #[])[b]?.getD 0

/-- The size of the given items in a dimension. -/
def sizeOf (p : Packing) (d : Nat) (items : List Nat) : Int := sumOf (items.map (p.size d))

/-- The size of all items in a dimension. -/
def totalSize (p : Packing) (d : Nat) : Int := p.sizeOf d p.itemList

/-- The number of the last bin; -1 if there is none. -/
def lastBin (p : Packing) : Int := (p.numBins : Int) - 1

/-- Whether no size is larger than the one before it. -/
def isNonIncreasing : List Int → Bool
  | a :: b :: rest => decide (b ≤ a) && isNonIncreasing (b :: rest)
  | _ => true

/-- The preconditions of installing a packing at a checkpoint, in the order in which they are
checked. -/
def checkShape (p : Packing) (checkpoint : Nat) : Except Fault Unit := do
  require (checkpoint == 0) .packingBelowRoot
  require (!p.sizes.isEmpty && p.sizes.size == p.loads.size) .precondition
  require (p.sizes.all fun row => row.size == p.numItems) .precondition
  require (p.loads.all fun row => row.size == p.numBins) .precondition
  require (p.sizes.all fun row => row.all fun size => decide (0 ≤ size)) .precondition
  require (isNonIncreasing (p.sizes[0]?.getD #[]).toList) .sizesNotSorted
  require (p.numDims == 1 || p.policy == .disabled) .bigItemsInSeveralDimensions

/-! ## Reading the domains -/

/-- The items whose domain contains bin `b`, ascending. -/
def itemsOf (p : Packing) (ds : Domains) (b : Nat) : List Nat :=
  p.itemList.filter fun i => (ds.domain (p.item i)).contains (b : Int)

/-- Whether the domain of an item is a single value. -/
def isPlaced (p : Packing) (ds : Domains) (i : Nat) : Bool := (ds.domain (p.item i)).isFixed

/-- Whether there is an item `i`, with a variable, and with a size in every dimension. -/
def hasItem (p : Packing) (ds : Domains) (i : Nat) : Bool :=
  decide (i < p.numItems) && ds.has (p.item i) && p.sizes.all fun row => decide (i < row.size)

/-- Whether there is a load of bin `b` in dimension `d`. -/
def hasLoad (p : Packing) (ds : Domains) (d b : Nat) : Bool :=
  decide (d < p.loads.size) && decide (b < (p.loads[d]?.getD #[]).size) && ds.has (p.load d b)

/-- Whether there are all items and all loads. -/
def isComplete (p : Packing) (ds : Domains) : Bool :=
  (p.itemList.all fun i => p.hasItem ds i) &&
    p.dimList.all fun d => p.binList.all fun b => p.hasLoad ds d b

def tally (p : Packing) (ds : Domains) (b : Nat) : Tally :=
  let items := p.itemsOf ds b
  let placed := items.filter (p.isPlaced ds)
  { candidates := items.filter fun i => !p.isPlaced ds i
    required := (p.dimList.map fun d => p.sizeOf d placed).toArray
    total := (p.dimList.map fun d => p.sizeOf d items).toArray }

end Packing

end Stowage
