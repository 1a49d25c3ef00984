import Stowage.Cells

/-!
# Bit sets

A bit set is a set of positions below a fixed capacity that is restored on backtracking.  It
occupies a block of cells: one cell for every 64 positions, which holds their bits as a signed
64-bit integer, and one cell for the number of elements.  Positions are integers of 64 bits without a
sign; the largest one has no successor.

* `BitSet.allocate` — a new empty set.
* `BitSet.contains`, `BitSet.insert`, `BitSet.remove` — one element.
* `BitSet.first?`, `BitSet.nextAfter?`, `BitSet.lastBefore?` — looked for word by word.
* `BitSet.toList` — the elements in increasing order.
-/

set_option autoImplicit false

namespace Stowage

/-- A set of positions below `capacity`, kept in the cells from `start` on. -/
structure BitSet where
  /-- The first cell of the block. -/
  start : Nat
  /-- Elements are smaller than this. -/
  capacity : Nat
  deriving DecidableEq, Repr

namespace BitSet

/-- The number of positions that share a cell. -/
def wordSize : Nat := 64

/-- The number of cells that hold bits. -/
def wordCount (s : BitSet) : Nat := (s.capacity + (wordSize - 1)) / wordSize

/-- The cell that holds the number of elements. -/
def countCell (s : BitSet) : Nat := s.start + s.wordCount

/-- The cell that holds the bit of a position. -/
def wordCell (s : BitSet) (i : Nat) : Nat := s.start + i / wordSize

/-- An empty set in a new block of cells. -/
def allocate (cells : Cells) (capacity : Nat) : BitSet × Cells :=
  let s : BitSet := ⟨cells.size, capacity⟩
  (s, (cells.allocate (s.wordCount + 1) 0).2)

def bits (cells : Cells) (cell : Nat) : BitVec wordSize := (Int64.ofInt (cells.read cell)).toBitVec

/-- The cells that hold bits, as signed 64-bit integers. -/
def words (s : BitSet) (cells : Cells) : List Int :=
  (List.range s.wordCount).map fun k => cells.read (s.start + k)

def card (s : BitSet) (cells : Cells) : Int := cells.read s.countCell

def isEmpty (s : BitSet) (cells : Cells) : Bool := s.card cells == 0

def contains (s : BitSet) (cells : Cells) (i : Nat) : Bool :=
  decide (i < s.capacity) && (bits cells (s.wordCell i)).getLsbD (i % wordSize)

/-- Writes the bits of the cell of position `i` and changes the number of elements. -/
def storeWord (s : BitSet) (cells : Cells) (i : Nat) (word : BitVec wordSize) (change : Int) :
    Cells :=
  (cells.write (s.wordCell i) word.toInt).add s.countCell change

/-- Adds `i`, which has to be below the capacity; returns whether the set changed. -/
def insert (s : BitSet) (cells : Cells) (i : Nat) : Bool × Cells :=
  if s.contains cells i then (false, cells)
  else
    (true, s.storeWord cells i
      (bits cells (s.wordCell i) ||| BitVec.twoPow wordSize (i % wordSize)) 1)

/-- Removes `i`; returns whether the set changed. -/
def remove (s : BitSet) (cells : Cells) (i : Nat) : Bool × Cells :=
  if s.contains cells i then
    (true, s.storeWord cells i
      (bits cells (s.wordCell i) &&& ~~~BitVec.twoPow wordSize (i % wordSize)) (-1))
  else (false, cells)

/-- The bits of the positions from `k * 64` on that share a cell. -/
def word (s : BitSet) (cells : Cells) (k : Nat) : BitVec wordSize := bits cells (s.start + k)

/-- The position of the lowest bit in the `k`-th word, which is given, or in the `rest` words after it. -/
def scanUp (s : BitSet) (cells : Cells) (rest k : Nat) (word : BitVec wordSize) : Option Nat :=
  if word ≠ 0 then some (k * wordSize + word.ctz.toNat)
  else
    match rest with
    | 0 => none
    | rest + 1 => s.scanUp cells rest (k + 1) (s.word cells (k + 1))

/-- The position of the highest bit in the `k`-th word, which is given, or in the words before it. -/
def scanDown (s : BitSet) (cells : Cells) (k : Nat) (word : BitVec wordSize) : Option Nat :=
  if word ≠ 0 then some (k * wordSize + (wordSize - 1 - word.clz.toNat))
  else
    match k with
    | 0 => none
    | k + 1 => s.scanDown cells k (s.word cells k)

/-- The smallest element that is not below `i`. -/
def firstFrom? (s : BitSet) (cells : Cells) (i : Nat) : Option Nat :=
  if s.capacity ≤ i then none
  else
    s.scanUp cells (s.wordCount - (i / wordSize + 1)) (i / wordSize)
      (s.word cells (i / wordSize) &&& (BitVec.allOnes wordSize <<< (i % wordSize)))

def first? (s : BitSet) (cells : Cells) : Option Nat := s.firstFrom? cells 0

/-- The largest position that can be asked for, an integer of 64 bits without a sign. -/
def maxPosition : Nat := 18446744073709551615

/-- The smallest element after `i`; faults at the largest position, which has no successor. -/
def nextAfter? (s : BitSet) (cells : Cells) (i : Nat) : Except Fault (Option Nat) := do
  require (decide (i < maxPosition)) .overflow
  return s.firstFrom? cells (i + 1)

/-- The largest element before `i`, which may lie beyond the capacity. -/
def lastBefore? (s : BitSet) (cells : Cells) (i : Nat) : Option Nat :=
  match min i s.capacity with
  | 0 => none
  | last + 1 =>
    let shift := wordSize - 1 - last % wordSize
    s.scanDown cells (last / wordSize) ((s.word cells (last / wordSize) <<< shift) >>> shift)

theorem le_ctz {word : BitVec wordSize} {r : Nat} (set : word ≠ 0)
    (clear : ∀ j < r, word.getLsbD j = false) : r ≤ word.ctz.toNat := by
  refine Nat.le_of_not_lt fun below => ?_
  have lowest := BitVec.getLsbD_true_ctz_of_ne_zero set
  rw [clear _ below] at lowest
  cases lowest

/-- What is found is not below the `k`-th word, nor below bit `r` of it if no bit before that is set. -/
theorem le_of_scanUp {s : BitSet} {cells : Cells} {rest k found r : Nat} {word : BitVec wordSize}
    (inside : r ≤ wordSize) (clear : ∀ j < r, word.getLsbD j = false)
    (h : s.scanUp cells rest k word = some found) : k * wordSize + r ≤ found := by
  induction rest generalizing k r word with
  | zero =>
    unfold scanUp at h
    split at h
    next set =>
      cases h
      exact Nat.add_le_add_left (le_ctz set clear) _
    next => cases h
  | succ rest ih =>
    unfold scanUp at h
    split at h
    next set =>
      cases h
      exact Nat.add_le_add_left (le_ctz set clear) _
    next =>
      have later := ih (Nat.zero_le _) (fun _ below => (nomatch below)) h
      rw [Nat.succ_mul] at later
      omega

/-- What is found from `i` on is not below `i`. -/
theorem le_of_firstFrom? {s : BitSet} {cells : Cells} {i found : Nat}
    (h : s.firstFrom? cells i = some found) : i < s.capacity ∧ i ≤ found := by
  unfold firstFrom? at h
  split at h
  · cases h
  next inside =>
    refine ⟨Nat.lt_of_not_le inside, ?_⟩
    have below : i % wordSize < wordSize := Nat.mod_lt _ (by decide)
    have later := le_of_scanUp (Nat.le_of_lt below) (fun j small => by
      rw [BitVec.getLsbD_and, BitVec.getLsbD_shiftLeft]
      simp [small]) h
    have := Nat.div_add_mod' i wordSize
    omega

/-- The elements that are not below `i`, in increasing order: each leads to the next one after it. -/
def elementsFrom (s : BitSet) (cells : Cells) (i : Nat) : List Nat :=
  match found : s.firstFrom? cells i with
  | none => []
  | some j => j :: s.elementsFrom cells (j + 1)
termination_by s.capacity - i
decreasing_by
  have := le_of_firstFrom? found
  omega

def toList (s : BitSet) (cells : Cells) : List Nat := s.elementsFrom cells 0

def clear (s : BitSet) (cells : Cells) : Cells :=
  (s.toList cells).foldl (fun c i => (s.remove c i).2) cells

end BitSet

end Stowage
