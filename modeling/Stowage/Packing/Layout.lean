import Stowage.BitSet
import Stowage.Packing.Ledger

/-!
# Where a packing keeps its ledger

What a packing remembers is kept in cells of the one table that all propagators share: for every bin the
set of its candidates, the set of the available bins, and integers.  Of the integers there is one for every
dimension and bin, row by row, one for every dimension, or one for every bin.

* `SetKey`, `NumberKey` — the sets and integers of a packing.
* `Layout` — where they are; `Layout.ledger` — the ledger that the cells hold.
* `Write`, `Layout.writes` — changes of them, at their places in the table.
* `Ledger.withdrawal`, `Ledger.placement`, `Ledger.noting`, `Ledger.extension` — what a change of the
  ledger writes, in order.
* `Layout.allocate` — allocates the sets and integers of a packing, filled as the domains demand.
-/

set_option autoImplicit false

namespace Stowage

/-- A set that a packing keeps. -/
inductive SetKey where
  | candidates (b : Nat)
  | available
  deriving DecidableEq, Repr

/-- An integer that a packing keeps. -/
inductive NumberKey where
  | required (d b : Nat)
  | total (d b : Nat)
  | sumLower (d : Nat)
  | sumUpper (d : Nat)
  | seenLower (d b : Nat)
  | seenUpper (d b : Nat)
  | firstSmall (b : Nat)
  /-- 1 while a big item is placed and big candidates remain, else 0. -/
  | bigPlaced (b : Nat)
  deriving DecidableEq, Repr

/-- A change of a set or of an integer. -/
inductive Write where
  | remove (g : SetKey) (i : Nat)
  | assign (f : NumberKey) (value : Int)
  | increase (f : NumberKey) (amount : Int)
  deriving DecidableEq, Repr

/-- One value for every dimension and bin, row by row. -/
def Packing.matrix {α : Type} (p : Packing) (f : Nat → Nat → α) : List α :=
  p.dimList.flatMap fun d => p.binList.map (f d)

/-! ## What is written -/

namespace Ledger

/-- A candidate has left bin `b`, after which `rest` remains of it: no big item counts as placed if no big
candidate remains, and the bin is no longer available if no candidate does. -/
def leaving (b : Nat) (bigPlaced : Bool) (rest : Bin) : List Write :=
  (if bigPlaced && rest.firstBig?.isNone then [.assign (.bigPlaced b) 0] else []) ++
    if rest.candidates.isEmpty then [.remove .available b] else []

/-- Candidate `i` leaves bin `b` without being placed in it. -/
def withdrawal (p : Packing) (l : Ledger) (b i : Nat) : List Write :=
  let bin := l.bin b
  (p.dimList.map fun d => .increase (.total d b) (bin.removalDelta p d i)) ++
    .remove (.candidates b) i :: leaving b bin.bigPlaced (bin.without i)

def placement (p : Packing) (l : Ledger) (b i : Nat) : List Write :=
  let bin := l.bin b
  .remove (.candidates b) i :: (p.dimList.map fun d => .increase (.required d b) (p.size d i)) ++
    .increase (.total 0 b) (if bin.isBig i then p.size 0 i - Bin.sizeOr0 p bin.firstBig? else 0) ::
      (if bin.isBig i then [.assign (.bigPlaced b) 1] else []) ++
        leaving b (bin.bigPlaced || bin.isBig i) (bin.without i)

/-- The bounds of the load of bin `b` are taken note of. -/
def noting (l : Ledger) (d b : Nat) (lower upper : Int) : List Write :=
  [.increase (.sumLower d) (lower - (l.entry d b).seenLower), .assign (.seenLower d b) lower,
    .increase (.sumUpper d) (upper - (l.entry d b).seenUpper), .assign (.seenUpper d b) upper]

/-- Candidates of bin `b` become big, one after the other. -/
def enlargement (p : Packing) (b : Nat) (added : List Nat) : List Write :=
  added.flatMap fun c =>
    [.assign (.firstSmall b) (c + 1 : Nat), .increase (.total 0 b) (-p.size 0 c)]

/-- The big items of bin `b`, where `free` is the free space, are extended. -/
def extension (p : Packing) (free : Int) (b : Nat) (bin : Bin) : List Write :=
  if bin.bigPlaced ∧ bin.firstBig?.isSome then []
  else
    (if bin.bigPlaced then [.assign (.bigPlaced b) 0] else []) ++
      bin.anchor?.elim [] fun a => enlargement p b (bin.added p free a)

/-- The elements with which the sets are filled when a packing is installed. -/
def insertions (p : Packing) (ds : Domains) : List (SetKey × Nat) :=
  ((p.itemList.filter fun i => !p.isPlaced ds i).flatMap fun i =>
      (p.binList.filter fun b : Nat => (ds.domain (p.item i)).contains b).map fun b =>
        (.candidates b, i)) ++
    (p.binList.filter fun b => !(plainBin p ds b).candidates.isEmpty).map (.available, ·)

/-- The big items of every bin are extended when a packing is installed, if that is enabled. -/
def extensions (p : Packing) (ds : Domains) : List Write :=
  if p.policy = .disabled then []
  else
    p.binList.flatMap fun b =>
      let bin := plainBin p ds b
      extension p (ds.upper (p.load 0 b) - (bin.entry 0).required) b bin

end Ledger

/-! ## The places -/

/-- Where the sets of a packing are. -/
structure SetLayout where
  /-- For every bin the set of its candidates. -/
  candidates : Array BitSet
  /-- The set of the bins with at least one candidate. -/
  available : BitSet
  deriving DecidableEq, Repr

/-- Where the sets and integers of a packing are; of the integers of one kind, the first cell. -/
structure Layout extends SetLayout where
  required : Nat
  total : Nat
  sumLower : Nat
  sumUpper : Nat
  seenLower : Nat
  seenUpper : Nat
  firstSmall : Nat
  bigPlaced : Nat
  deriving DecidableEq, Repr

namespace SetLayout

def set (l : SetLayout) : SetKey → BitSet
  | .candidates b => l.candidates[b]?.getD ⟨0, 0⟩
  | .available => l.available

def fill (l : SetLayout) (c : Cells) (elements : List (SetKey × Nat)) : Cells :=
  elements.foldl (fun c (g, i) => ((l.set g).insert c i).2) c

/-- Allocates sets of elements below `capacity`. -/
def allocateMany (c : Cells) (capacity : Nat) : Nat → Array BitSet × Cells
  | 0 => (#[], c)
  | count + 1 =>
    let (sets, c) := allocateMany c capacity count
    let (s, c) := BitSet.allocate c capacity
    (sets.push s, c)

def allocate (p : Packing) (c : Cells) : SetLayout × Cells :=
  let (candidates, c) := allocateMany c p.numItems p.numBins
  let (available, c) := BitSet.allocate c p.numBins
  (⟨candidates, available⟩, c)

end SetLayout

namespace Layout

/-- The cell of an integer: in a matrix the rows have as many cells as there are bins. -/
def cell (l : Layout) (p : Packing) : NumberKey → Nat
  | .required d b => Cells.offset l.required (d * p.numBins + b)
  | .total d b => Cells.offset l.total (d * p.numBins + b)
  | .sumLower d => Cells.offset l.sumLower d
  | .sumUpper d => Cells.offset l.sumUpper d
  | .seenLower d b => Cells.offset l.seenLower (d * p.numBins + b)
  | .seenUpper d b => Cells.offset l.seenUpper (d * p.numBins + b)
  | .firstSmall b => Cells.offset l.firstSmall b
  | .bigPlaced b => Cells.offset l.bigPlaced b

/-- The cell after the last one of a packing. -/
def stop (l : Layout) (p : Packing) : Nat :=
  if p.policy = .disabled then l.bigPlaced else Cells.offset l.bigPlaced p.numBins

def number (l : Layout) (p : Packing) (c : Cells) (f : NumberKey) : Int := c.read (l.cell p f)

/-! ## Reading the ledger -/

/-- What the cells hold about bin `b`. -/
def bin (l : Layout) (p : Packing) (c : Cells) (b : Nat) : Bin :=
  { candidates := p.itemList.filter ((l.set (.candidates b)).contains c)
    entries := (p.dimList.map fun d =>
      { required := l.number p c (.required d b)
        total := l.number p c (.total d b)
        seenLower := l.number p c (.seenLower d b)
        seenUpper := l.number p c (.seenUpper d b) }).toArray
    firstSmall := if p.policy = .disabled then 0 else (l.number p c (.firstSmall b)).toNat
    bigPlaced := if p.policy = .disabled then false else l.number p c (.bigPlaced b) != 0 }

def ledger (l : Layout) (p : Packing) (c : Cells) : Ledger :=
  { bins := (p.binList.map (l.bin p c)).toArray
    available := p.binList.filter (l.available.contains c)
    sums := (p.dimList.map fun d =>
      ⟨l.number p c (.sumLower d), l.number p c (.sumUpper d)⟩).toArray }

/-! ## Writing -/

def write (l : Layout) (p : Packing) (c : Cells) : Write → Cells
  | .remove g i => ((l.set g).remove c i).2
  | .assign f value => c.write (l.cell p f) value
  | .increase f amount => c.add (l.cell p f) amount

/-- Changes sets and integers one after the other. -/
def writes (l : Layout) (p : Packing) (c : Cells) (ws : List Write) : Cells := ws.foldl (l.write p) c

/-! ## Allocation -/

/-- Allocates the sets and integers of a packing, filled as the domains demand: first the sets, then the
integers, and then the big items are extended. -/
def allocate (p : Packing) (ds : Domains) (c : Cells) : Layout × Cells :=
  let (sets, c) := SetLayout.allocate p c
  let c := sets.fill c (Ledger.insertions p ds)
  let plain := Ledger.plain p ds
  let big := if p.policy = .disabled then [] else p.binList
  let (required, c) := c.allocateEach (p.matrix fun d b => (plain.entry d b).required)
  let (total, c) := c.allocateEach (p.matrix fun d b => (plain.entry d b).total)
  let (sumLower, c) := c.allocateEach (p.dimList.map fun d => (plain.sum d).lower)
  let (sumUpper, c) := c.allocateEach (p.dimList.map fun d => (plain.sum d).upper)
  let (seenLower, c) := c.allocateEach (p.matrix fun d b => (plain.entry d b).seenLower)
  let (seenUpper, c) := c.allocateEach (p.matrix fun d b => (plain.entry d b).seenUpper)
  let (firstSmall, c) := c.allocateEach (big.map fun _ => 0)
  let (bigPlaced, c) := c.allocateEach (big.map fun _ => 0)
  let l : Layout :=
    { sets with required, total, sumLower, sumUpper, seenLower, seenUpper, firstSmall, bigPlaced }
  (l, l.writes p c (Ledger.extensions p ds))

end Layout

end Stowage
