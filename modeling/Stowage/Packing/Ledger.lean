import Stowage.Packing.Basic

/-!
# The ledger of a packing

The ledger is what a packing remembers about the domains between two calls.  It is restored on
backtracking.  For every bin it holds the candidates (items that may still be placed in the bin and
are not), and in every dimension the required load (the size of the items placed in the bin), the
total load (what the bin can hold at most) and the bounds of the load variable as last seen.

The candidates of a bin below `firstSmall` are its big items; no two of them fit in the bin
together.  At most one of them ends up in the bin, so only the largest counts towards the total load
of the first dimension, and none does once a big item is placed.

* `Bin.place`, `Bin.withdraw`, `Bin.extendBig` — an item is placed in a bin, an item can no longer be
  placed in it, and further candidates become big.
* `Ledger.ofDomains`, `Ledger.update`, `Ledger.record` — the ledger of the current domains, a change of a
  bin, and the bounds of a load as they are now.
-/

set_option autoImplicit false

namespace Stowage

/-- One dimension of a bin. -/
structure Entry where
  /-- The size of the items placed in the bin. -/
  required : Int
  /-- What the bin can hold at most. -/
  total : Int
  /-- The lower bound of the load as last seen. -/
  seenLower : Int
  /-- The upper bound of the load as last seen. -/
  seenUpper : Int
  deriving DecidableEq, Repr

/-- What the ledger holds about one bin. -/
structure Bin where
  /-- The items that may still be placed in the bin and are not, ascending. -/
  candidates : List Nat
  /-- One entry per dimension. -/
  entries : Array Entry
  /-- The candidates below this position are big. -/
  firstSmall : Nat
  /-- Whether a big item is placed in the bin while big candidates remain. -/
  bigPlaced : Bool
  deriving DecidableEq, Repr

namespace Bin

/-- A bin without candidates and entries. -/
def blank : Bin := ⟨[], #[], 0, false⟩

def entry (bin : Bin) (d : Nat) : Entry := bin.entries[d]?.getD ⟨0, 0, 0, 0⟩

def isCandidate (bin : Bin) (i : Nat) : Bool := bin.candidates.contains i

/-- Whether item `i` counts as big in this bin. -/
def isBig (bin : Bin) (i : Nat) : Bool := decide (i < bin.firstSmall)

def firstBig? (bin : Bin) : Option Nat := bin.candidates.head?.filter bin.isBig

/-- The largest big candidate after item `i`. -/
def nextBig? (bin : Bin) (i : Nat) : Option Nat :=
  (bin.candidates.find? fun c => decide (i < c)).filter bin.isBig

/-- The size of an item in the first dimension; 0 for no item. -/
def sizeOr0 (p : Packing) (i? : Option Nat) : Int := (i?.map (p.size 0)).getD 0

/-- The change of the total load when candidate `i` leaves the bin without being placed in it.  If
it is the largest big candidate the next one takes its place; the other big candidates do not
count. -/
def removalDelta (p : Packing) (bin : Bin) (d i : Nat) : Int :=
  if d ≠ 0 ∨ ¬bin.isBig i then -p.size d i
  else if bin.bigPlaced ∨ bin.firstBig? ≠ some i then 0
  else sizeOr0 p (bin.nextBig? i) - p.size d i

/-- The change of the total load in the first dimension when candidate `i` is placed in the bin, or
`none` if `i` is big and the bin holds a big item already. -/
def placementDelta? (p : Packing) (bin : Bin) (i : Nat) : Option Int :=
  if ¬bin.isBig i then some 0
  else if bin.bigPlaced then none
  else some (p.size 0 i - sizeOr0 p bin.firstBig?)

/-- Forgets that a big item is placed once no big candidate remains. -/
def settleBig (bin : Bin) : Bin := { bin with bigPlaced := bin.bigPlaced && bin.firstBig?.isSome }

/-- The bin with candidate `i` struck out and its accounts left as they are. -/
def without (bin : Bin) (i : Nat) : Bin := { bin with candidates := bin.candidates.erase i }

/-- Removes candidate `i`, which can no longer be placed in the bin. -/
def withdraw (p : Packing) (bin : Bin) (i : Nat) : Bin :=
  settleBig
    { bin with
      candidates := bin.candidates.erase i
      entries := bin.entries.mapIdx fun d e => { e with total := e.total + bin.removalDelta p d i } }

/-- Moves candidate `i` into the bin; `none` if it excludes an item of the bin. -/
def place (p : Packing) (bin : Bin) (i : Nat) : Option Bin :=
  (bin.placementDelta? p i).map fun delta =>
    settleBig
      { bin with
        candidates := bin.candidates.erase i
        bigPlaced := bin.bigPlaced || bin.isBig i
        entries := bin.entries.mapIdx fun d e =>
          { e with
            required := e.required + p.size d i
            total := if d = 0 then e.total + delta else e.total } }

/-! ## Big items -/

/-- The longest chain of candidates from the front of a list, each of which does not fit beside its
predecessor; the first is compared with `anchor`. -/
def chain (size : Nat → Int) (free : Int) : Nat → List Nat → List Nat
  | _, [] => []
  | anchor, c :: rest =>
    if size anchor + size c ≤ free then [] else c :: chain size free c rest

/-- The smallest big candidate, or the largest candidate if none is big. -/
def anchor? (bin : Bin) : Option Nat :=
  (bin.candidates.filter bin.isBig).getLast? <|> bin.candidates.head?

/-- The candidates that become big when `a` is the anchor and `free` the free space of the bin. -/
def added (p : Packing) (free : Int) (bin : Bin) (a : Nat) : List Nat :=
  chain (p.size 0) free a (bin.candidates.filter fun c => decide (a < c))

/-- Makes the candidates big that follow the big ones and do not fit beside their predecessor, where
`free` is the free space of the bin; returns by how much the total load decreased.  Nothing changes
while a big item is placed and big candidates remain. -/
def extendBig (p : Packing) (free : Int) (bin : Bin) : Int × Bin :=
  if bin.bigPlaced ∧ bin.firstBig?.isSome then (0, bin)
  else
    let bin := { bin with bigPlaced := false }
    match bin.anchor? with
    | none => (0, bin)
    | some anchor =>
      let added := bin.added p free anchor
      let decrease := p.sizeOf 0 added
      (decrease,
        { bin with
          firstSmall := (added.getLast?.map (· + 1)).getD bin.firstSmall
          entries := bin.entries.modify 0 fun e => { e with total := e.total - decrease } })

end Bin

/-- The sums over all bins of the load bounds as last seen. -/
structure Sums where
  lower : Int
  upper : Int
  deriving DecidableEq, Repr

/-- What a packing remembers about the domains. -/
structure Ledger where
  bins : Array Bin
  /-- The bins with at least one candidate, ascending. -/
  available : List Nat
  /-- One pair of sums per dimension. -/
  sums : Array Sums
  deriving DecidableEq, Repr

namespace Ledger

def blank : Ledger := ⟨#[], [], #[]⟩

/-- What the ledger holds about bin `b`. -/
def bin (l : Ledger) (b : Nat) : Bin := l.bins[b]?.getD .blank

/-- The entry of bin `b` in dimension `d`. -/
def entry (l : Ledger) (d b : Nat) : Entry := (l.bin b).entry d

def sum (l : Ledger) (d : Nat) : Sums := l.sums[d]?.getD ⟨0, 0⟩

def isAvailable (l : Ledger) (b : Nat) : Bool := l.available.contains b

/-- The number of candidates of all bins together. -/
def candidateCount (l : Ledger) : Nat :=
  sumOf (l.bins.toList.map fun bin => bin.candidates.length)

/-- Replaces what the ledger holds about bin `b`. -/
def put (l : Ledger) (b : Nat) (bin : Bin) : Ledger :=
  { l with bins := l.bins.setIfInBounds b bin }

/-- Replaces what the ledger holds about bin `b`, which leaves the available bins if it has no
candidate left. -/
def update (l : Ledger) (b : Nat) (bin : Bin) : Ledger :=
  { l.put b bin with
    available := if bin.candidates.isEmpty then l.available.erase b else l.available }

/-- Whether the given bounds of the load of bin `b` are those last seen. -/
def isRecorded (l : Ledger) (d b : Nat) (lower upper : Int) : Bool :=
  lower == (l.entry d b).seenLower && upper == (l.entry d b).seenUpper

/-- Takes note of the bounds of the load of bin `b`, and updates the sums by the difference to those
last seen. -/
def record (l : Ledger) (d b : Nat) (lower upper : Int) : Ledger :=
  let e := l.entry d b
  { l with
    bins := l.bins.modify b fun bin =>
      { bin with
        entries := bin.entries.modify d fun e => { e with seenLower := lower, seenUpper := upper } }
    sums := l.sums.modify d fun s =>
      ⟨s.lower + (lower - e.seenLower), s.upper + (upper - e.seenUpper)⟩ }

/-! ## The ledger of the current domains -/

/-- What the domains say about bin `b` when no candidate is big. -/
def plainBin (p : Packing) (ds : Domains) (b : Nat) : Bin :=
  let t := p.tally ds b
  { candidates := t.candidates
    entries := (p.dimList.map fun d =>
      { required := t.requiredIn d
        total := t.totalIn d
        seenLower := ds.lower (p.load d b)
        seenUpper := ds.upper (p.load d b) }).toArray
    firstSmall := 0
    bigPlaced := false }

/-- What the domains say about bin `b` when a packing is installed. -/
def firstBin (p : Packing) (ds : Domains) (b : Nat) : Bin :=
  let bin := plainBin p ds b
  if p.policy = .disabled then bin
  else (bin.extendBig p (ds.upper (p.load 0 b) - (bin.entry 0).required)).2

/-- The ledger before any candidate is big. -/
def plain (p : Packing) (ds : Domains) : Ledger :=
  { bins := (p.binList.map (plainBin p ds)).toArray
    available := p.binList.filter fun b => !(plainBin p ds b).candidates.isEmpty
    sums := (p.dimList.map fun d =>
      { lower := sumOf (p.binList.map fun b => ds.lower (p.load d b))
        upper := sumOf (p.binList.map fun b => ds.upper (p.load d b)) }).toArray }

/-- The ledger with which a packing is installed. -/
def ofDomains (p : Packing) (ds : Domains) : Ledger :=
  { plain p ds with bins := (p.binList.map (firstBin p ds)).toArray }

end Ledger

end Stowage
