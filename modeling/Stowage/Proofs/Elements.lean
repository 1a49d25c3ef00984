import Mathlib
import Stowage.BitSet

/-!
# What is in a bit set

The cells of a bit set represent a finite set if every bit tells whether its position is an element, also
the bits beyond the capacity, and the last cell holds the number of elements.  Then all questions have
the answers that the finite set gives.

* `BitSet.Represents` — the cells of a bit set represent a finite set.
* `BitSet.Represents.congr` — that depends on no other cells.
* `BitSet.Represents.insert`, `BitSet.Represents.remove` — one element.
* `BitSet.Represents.reads` — all questions at once.
-/

set_option autoImplicit false

namespace Stowage

namespace BitSet

variable {s : BitSet} {c d : Cells} {S T : Finset Nat}

def Owns (s : BitSet) (cell : Nat) : Prop := s.start ≤ cell ∧ cell ≤ s.countCell

/-- The cells of a bit set represent a finite set. -/
structure Represents (s : BitSet) (c : Cells) (S : Finset Nat) : Prop where
  allocated : s.countCell < c.size
  below : ∀ i ∈ S, i < s.capacity
  /-- Bits beyond the capacity are not set. -/
  tells : ∀ k < s.wordCount, ∀ j < wordSize,
    (s.word c k).getLsbD j = decide (k * wordSize + j ∈ S)
  card : c.read s.countCell = S.card

theorem wordSize_pos : 0 < wordSize := by decide

theorem div_lt_wordCount {i : Nat} (h : i < s.capacity) : i / wordSize < s.wordCount := by
  unfold wordCount wordSize
  omega

theorem wordCell_lt {i : Nat} (h : i < s.capacity) : s.wordCell i < s.countCell :=
  Nat.add_lt_add_left (div_lt_wordCount h) _

theorem owns_wordCell {i : Nat} (h : i < s.capacity) : s.Owns (s.wordCell i) :=
  ⟨Nat.le_add_right _ _, (wordCell_lt h).le⟩

theorem owns_countCell (s : BitSet) : s.Owns s.countCell := ⟨Nat.le_add_right _ _, Nat.le_refl _⟩

/-- The bits of an integer that stands for a word. -/
theorem bits_of_read {cell : Nat} {word : BitVec wordSize} (h : c.read cell = word.toInt) :
    bits c cell = word := by
  rw [bits, h, Int64.toBitVec_ofInt]
  exact BitVec.ofInt_toInt

/-- Whether there is an element depends on the cells of the block only. -/
theorem contains_congr (same : ∀ cell, s.Owns cell → d.read cell = c.read cell) (i : Nat) :
    s.contains d i = s.contains c i := by
  unfold contains bits
  by_cases inside : i < s.capacity
  · rw [same _ (owns_wordCell inside)]
  · simp only [inside, decide_false, Bool.false_and]

namespace Represents

theorem bit (h : s.Represents c S) {i : Nat} (inside : i < s.capacity) :
    (bits c (s.wordCell i)).getLsbD (i % wordSize) = decide (i ∈ S) := by
  have told := h.tells _ (div_lt_wordCount inside) _ (Nat.mod_lt i wordSize_pos)
  rwa [Nat.div_add_mod'] at told

theorem contains (h : s.Represents c S) (i : Nat) : s.contains c i = decide (i ∈ S) := by
  unfold BitSet.contains
  by_cases inside : i < s.capacity
  · rw [decide_eq_true inside, Bool.true_and, h.bit inside]
  · have absent : i ∉ S := fun member => inside (h.below i member)
    rw [decide_eq_false inside, Bool.false_and, decide_eq_false absent]

theorem isEmpty (h : s.Represents c S) : s.isEmpty c = decide (S = ∅) := by
  unfold BitSet.isEmpty BitSet.card
  rw [h.card, Bool.beq_eq_decide_eq]
  exact decide_eq_decide.2 (Int.natCast_eq_zero.trans Finset.card_eq_zero)

/-- What a bit set holds is in the cells of its own block only. -/
theorem congr (h : s.Represents c S) (size : c.size ≤ d.size)
    (same : ∀ cell, s.Owns cell → d.read cell = c.read cell) : s.Represents d S where
  allocated := h.allocated.trans_le size
  below := h.below
  tells k inside j small := by
    have owned : s.Owns (s.start + k) := ⟨Nat.le_add_right _ _, Nat.add_le_add_left inside.le _⟩
    have word : s.word d k = s.word c k := by
      unfold BitSet.word BitSet.bits
      rw [same _ owned]
    rw [word]
    exact h.tells k inside j small
  card := by rw [same _ s.owns_countCell, h.card]

end Represents

theorem represents_allocate (c : Cells) (capacity : Nat) :
    (allocate c capacity).1.Represents (allocate c capacity).2 ∅ := by
  -- all cells of the new block hold 0
  have zero (cell : Nat) (owned : (allocate c capacity).1.Owns cell) :
      (allocate c capacity).2.read cell = 0 := by
    have block : c.size ≤ cell ∧ cell < c.size + ((allocate c capacity).1.wordCount + 1) := by
      refine ⟨owned.1, owned.2.trans_lt ?_⟩
      exact Nat.lt_succ_self _
    exact (Cells.read_allocate c _ 0 cell).trans (if_pos block)
  refine ⟨?_, fun _ member => absurd member (Finset.notMem_empty _), fun k inside j small => ?_, ?_⟩
  · rw [show (allocate c capacity).2.size = _ from Cells.size_allocate c _ 0]
    exact Nat.lt_succ_self _
  · have owned : (allocate c capacity).1.Owns ((allocate c capacity).1.start + k) :=
      ⟨Nat.le_add_right _ _, Nat.add_le_add_left inside.le _⟩
    have word : (allocate c capacity).1.word (allocate c capacity).2 k = (0 : BitVec wordSize) :=
      bits_of_read (zero _ owned)
    rw [word, decide_eq_false (Finset.notMem_empty _)]
    exact BitVec.getLsbD_zero
  · rw [zero _ (owns_countCell _), Finset.card_empty]
    rfl

/-! ## Changing one element -/

theorem size_storeWord (s : BitSet) (c : Cells) (i : Nat) (word : BitVec wordSize) (change : Int) :
    (s.storeWord c i word change).size = c.size := by
  rw [storeWord, Cells.add, Cells.size_write, Cells.size_write]

theorem read_storeWord {i : Nat} (inside : i < s.capacity) (allocated : s.countCell < c.size)
    (word : BitVec wordSize) (change : Int) (cell : Nat) :
    (s.storeWord c i word change).read cell =
      if s.countCell = cell then c.read s.countCell + change
      else if s.wordCell i = cell then word.toInt else c.read cell := by
  have order := wordCell_lt inside
  unfold storeWord Cells.add
  rw [Cells.read_write _ (by rwa [Cells.size_write]), Cells.read_write _ (order.trans allocated),
    Cells.read_write _ (order.trans allocated), if_neg order.ne]

theorem read_storeWord_of_not_owns {i : Nat} (inside : i < s.capacity)
    (allocated : s.countCell < c.size) (word : BitVec wordSize) (change : Int) {cell : Nat}
    (outside : ¬s.Owns cell) : (s.storeWord c i word change).read cell = c.read cell := by
  have counted : s.countCell ≠ cell := fun same => outside (same ▸ s.owns_countCell)
  have stored : s.wordCell i ≠ cell := fun same => outside (same ▸ owns_wordCell inside)
  rw [read_storeWord inside allocated, if_neg counted, if_neg stored]

/-- A stored word in which the bit of `i` alone has changed makes `i` an element, or no longer one. -/
theorem Represents.storeWord (h : s.Represents c S) {i : Nat} (inside : i < s.capacity)
    {word : BitVec wordSize} {change : Int}
    (set : ∀ j < wordSize, word.getLsbD j =
      if j = i % wordSize then decide (i ∈ T) else (bits c (s.wordCell i)).getLsbD j)
    (others : ∀ x, x ≠ i → (x ∈ T ↔ x ∈ S)) (card : (S.card : Int) + change = T.card) :
    s.Represents (s.storeWord c i word change) T where
  allocated := by
    rw [size_storeWord]
    exact h.allocated
  below x member := by
    by_cases same : x = i
    · exact same ▸ inside
    · exact h.below x ((others x same).1 member)
  tells k bound j small := by
    have place := Nat.div_add_mod' i wordSize
    have counted : s.countCell ≠ s.start + k := (Nat.add_lt_add_left bound _).ne'
    by_cases here : k = i / wordSize
    · subst here
      have word' : s.word (s.storeWord c i word change) (i / wordSize) = word :=
        bits_of_read ((read_storeWord inside h.allocated word change _).trans
          ((if_neg counted).trans (if_pos rfl)))
      rw [word', set j small]
      split
      next same => rw [same, place]
      next other =>
        rw [show bits c (s.wordCell i) = s.word c (i / wordSize) from rfl, h.tells _ bound j small]
        exact decide_eq_decide.2 (others _ (by omega)).symm
    · have elsewhere : s.wordCell i ≠ s.start + k := fun same => here (Nat.add_left_cancel same).symm
      have word' : s.word (s.storeWord c i word change) k = s.word c k := by
        unfold BitSet.word BitSet.bits
        rw [read_storeWord inside h.allocated, if_neg counted, if_neg elsewhere]
      rw [word', h.tells k bound j small]
      refine decide_eq_decide.2 (others _ fun same => here ?_).symm
      rw [← same, Nat.mul_comm, Nat.mul_add_div wordSize_pos, Nat.div_eq_of_lt small, Nat.add_zero]
  card := by
    rw [read_storeWord inside h.allocated, if_pos rfl, h.card, card]

/-- The cells have changed from `c` to `d` so that the bit set represents another set; no cell outside the
block has changed. -/
structure Becomes (s : BitSet) (c d : Cells) (T : Finset Nat) : Prop where
  represents : s.Represents d T
  size : d.size = c.size
  others : ∀ cell, ¬s.Owns cell → d.read cell = c.read cell

theorem Represents.becomes_self (h : s.Represents c S) : s.Becomes c c S := ⟨h, rfl, fun _ _ => rfl⟩

theorem Represents.becomes_storeWord (h : s.Represents c S) {i : Nat} (inside : i < s.capacity)
    {word : BitVec wordSize} {change : Int}
    (set : ∀ j < wordSize, word.getLsbD j =
      if j = i % wordSize then decide (i ∈ T) else (bits c (s.wordCell i)).getLsbD j)
    (others : ∀ x, x ≠ i → (x ∈ T ↔ x ∈ S)) (card : (S.card : Int) + change = T.card) :
    s.Becomes c (s.storeWord c i word change) T :=
  ⟨h.storeWord inside set others card, size_storeWord .., fun _ outside =>
    read_storeWord_of_not_owns inside h.allocated _ _ outside⟩

theorem Represents.insert (h : s.Represents c S) {i : Nat} (inside : i < s.capacity) :
    (s.insert c i).1 = decide (i ∉ S) ∧ s.Becomes c (s.insert c i).2 (Insert.insert i S) := by
  unfold BitSet.insert
  rw [h.contains]
  by_cases member : i ∈ S
  · rw [decide_eq_true member, if_pos rfl, Finset.insert_eq_of_mem member]
    exact ⟨(decide_eq_false (not_not_intro member)).symm, h.becomes_self⟩
  · rw [decide_eq_false member, if_neg Bool.false_ne_true]
    refine ⟨(decide_eq_true member).symm, h.becomes_storeWord inside (fun j small => ?_)
      (fun x other => by simp [other]) ?_⟩
    · rw [BitVec.getLsbD_or, BitVec.getLsbD_twoPow]
      split
      next same => simp [← same, small]
      next other => simp [Ne.symm other]
    · rw [Finset.card_insert_of_notMem member, Nat.cast_succ]

theorem Represents.remove (h : s.Represents c S) (i : Nat) :
    (s.remove c i).1 = decide (i ∈ S) ∧ s.Becomes c (s.remove c i).2 (S.erase i) := by
  unfold BitSet.remove
  rw [h.contains]
  by_cases member : i ∈ S
  · rw [decide_eq_true member, if_pos rfl]
    refine ⟨rfl, h.becomes_storeWord (h.below i member) (fun j small => ?_)
      (fun x other => by simp [other]) ?_⟩
    · rw [BitVec.getLsbD_and, BitVec.getLsbD_not, BitVec.getLsbD_twoPow]
      split
      next same => simp [← same, small]
      next other => simp [Ne.symm other, small]
    · have counted := Finset.card_erase_add_one member
      omega
  · rw [decide_eq_false member, if_neg Bool.false_ne_true, Finset.erase_eq_of_notMem member]
    exact ⟨rfl, h.becomes_self⟩

/-! ## Looking for elements -/

/-- The smallest element of a finite set, none if it is empty. -/
def Smallest (T : Finset Nat) : Option Nat → Prop
  | none => T = ∅
  | some i => IsLeast (T : Set Nat) i

/-- The largest element of a finite set, none if it is empty. -/
def Largest (T : Finset Nat) : Option Nat → Prop
  | none => T = ∅
  | some i => IsGreatest (T : Set Nat) i

theorem lt_wordSize_of_getLsbD {word : BitVec wordSize} {j : Nat} (h : word.getLsbD j = true) :
    j < wordSize := BitVec.lt_of_getLsbD h

theorem getLsbD_eq_false_of_clz {word : BitVec wordSize} {j : Nat} (small : j < wordSize)
    (above : wordSize - 1 - word.clz.toNat < j) : word.getLsbD j = false := by
  have low : wordSize - 1 - j < word.reverse.ctz.toNat := by
    rw [← BitVec.clz_eq_reverse_ctz]
    omega
  have clear := BitVec.getLsbD_false_of_lt_ctz low
  rw [BitVec.getLsbD_reverse, BitVec.getMsbD_eq_getLsbD] at clear
  have back : wordSize - 1 - (wordSize - 1 - j) = j := by omega
  have inside : wordSize - 1 - j < wordSize := by omega
  simpa [inside, back] using clear

/-- No position of a word without bits is an element. -/
theorem not_mem_of_zero {word : BitVec wordSize} {k x : Nat} (zero : ¬word ≠ 0)
    (tells : ∀ j < wordSize, word.getLsbD j = decide (k * wordSize + j ∈ T))
    (low : k * wordSize ≤ x) (high : x < (k + 1) * wordSize) : x ∉ T := by
  have small : x - k * wordSize < wordSize := by
    rw [Nat.succ_mul] at high
    omega
  have told := tells _ small
  rw [Nat.add_sub_cancel' low, not_not.1 zero] at told
  exact of_decide_eq_false (told.symm.trans BitVec.getLsbD_zero)

/-- The scan up from a word finds the smallest element, if the words tell the elements. -/
theorem smallest_scanUp {rest k : Nat} {word : BitVec wordSize}
    (tells : ∀ j < wordSize, word.getLsbD j = decide (k * wordSize + j ∈ T))
    (later : ∀ n, k < n → n ≤ k + rest → ∀ j < wordSize,
      (s.word c n).getLsbD j = decide (n * wordSize + j ∈ T))
    (inside : ∀ x ∈ T, k * wordSize ≤ x ∧ x < (k + rest + 1) * wordSize) :
    Smallest T (s.scanUp c rest k word) := by
  -- the lowest bit of the first word that has one is the smallest element
  have found (k : Nat) (word : BitVec wordSize)
      (tells : ∀ j < wordSize, word.getLsbD j = decide (k * wordSize + j ∈ T)) (set : word ≠ 0)
      (low : ∀ x ∈ T, k * wordSize ≤ x) : Smallest T (some (k * wordSize + word.ctz.toNat)) := by
    have lowest := BitVec.getLsbD_true_ctz_of_ne_zero set
    have small := lt_wordSize_of_getLsbD lowest
    refine ⟨of_decide_eq_true ((tells _ small).symm.trans lowest), fun x member => ?_⟩
    by_contra before
    have start := low x member
    have early : x - k * wordSize < word.ctz.toNat := by omega
    have clear := (tells _ (early.trans small)).symm.trans (BitVec.getLsbD_false_of_lt_ctz early)
    rw [Nat.add_sub_cancel' start] at clear
    exact of_decide_eq_false clear member
  induction rest generalizing k word with
  | zero =>
    unfold scanUp
    split
    next set => exact found k word tells set fun x member => (inside x member).1
    next zero =>
      exact Finset.eq_empty_of_forall_notMem fun x member =>
        not_mem_of_zero zero tells (inside x member).1 (inside x member).2 member
  | succ rest ih =>
    unfold scanUp
    split
    next set => exact found k word tells set fun x member => (inside x member).1
    next zero =>
      refine ih (later (k + 1) (Nat.lt_succ_self k) (by omega))
        (fun n above bound => later n (Nat.lt_of_succ_lt above) (by omega)) fun x member => ?_
      obtain ⟨low, high⟩ := inside x member
      refine ⟨Nat.le_of_not_lt fun early => not_mem_of_zero zero tells low early member, ?_⟩
      rwa [Nat.add_right_comm k 1 rest, Nat.add_assoc k rest 1]

/-- The scan down from a word finds the largest element, if the words tell the elements. -/
theorem largest_scanDown {k : Nat} {word : BitVec wordSize}
    (tells : ∀ j < wordSize, word.getLsbD j = decide (k * wordSize + j ∈ T))
    (earlier : ∀ n < k, ∀ j < wordSize, (s.word c n).getLsbD j = decide (n * wordSize + j ∈ T))
    (inside : ∀ x ∈ T, x < (k + 1) * wordSize) : Largest T (s.scanDown c k word) := by
  -- the highest bit of the last word that has one is the largest element
  have found (k : Nat) (word : BitVec wordSize)
      (tells : ∀ j < wordSize, word.getLsbD j = decide (k * wordSize + j ∈ T)) (set : word ≠ 0)
      (high : ∀ x ∈ T, x < (k + 1) * wordSize) :
      Largest T (some (k * wordSize + (wordSize - 1 - word.clz.toNat))) := by
    have highest := BitVec.getLsbD_true_clz_of_ne_zero wordSize_pos set
    have small := lt_wordSize_of_getLsbD highest
    refine ⟨of_decide_eq_true ((tells _ small).symm.trans highest), fun x member => ?_⟩
    by_contra after
    have bound := high x member
    rw [Nat.succ_mul] at bound
    have late : wordSize - 1 - word.clz.toNat < x - k * wordSize := by omega
    have inside : x - k * wordSize < wordSize := by omega
    have clear := (tells _ inside).symm.trans (getLsbD_eq_false_of_clz inside late)
    rw [Nat.add_sub_cancel' (by omega)] at clear
    exact of_decide_eq_false clear member
  induction k generalizing word with
  | zero =>
    unfold scanDown
    split
    next set => exact found 0 word tells set inside
    next zero =>
      exact Finset.eq_empty_of_forall_notMem fun x member =>
        not_mem_of_zero zero tells (by omega) (inside x member) member
  | succ k ih =>
    unfold scanDown
    split
    next set => exact found (k + 1) word tells set inside
    next zero =>
      refine ih (earlier k (Nat.lt_succ_self k)) (fun n below => earlier n (Nat.lt_succ_of_lt below))
        fun x member => ?_
      exact Nat.lt_of_not_le fun late => not_mem_of_zero zero tells late (inside x member) member

theorem Represents.firstFrom? (h : s.Represents c S) (i : Nat) :
    Smallest (S.filter (i ≤ ·)) (s.firstFrom? c i) := by
  unfold BitSet.firstFrom?
  split
  next beyond =>
    exact Finset.filter_eq_empty_iff.2 fun x member late =>
      absurd (h.below x member) (Nat.not_lt.2 (beyond.trans late))
  next early =>
    have inside := Nat.lt_of_not_le early
    have bound := div_lt_wordCount inside
    have place := Nat.div_add_mod' i wordSize
    refine smallest_scanUp (fun j small => ?_) (fun n after last j small => ?_) fun x member => ?_
    · rw [BitVec.getLsbD_and, h.tells _ bound j small, BitVec.getLsbD_shiftLeft,
        BitVec.getLsbD_allOnes]
      have shifted : j - i % wordSize < wordSize := by omega
      simp only [small, shifted, decide_true, Bool.true_and, Bool.and_true, Finset.mem_filter,
        Bool.decide_and]
      congr 1
      rw [← decide_not]
      exact decide_eq_decide.2 (by omega)
    · have later : i ≤ n * wordSize + j := by
        have := Nat.mul_le_mul_right wordSize (Nat.succ_le_of_lt after)
        have remainder := Nat.mod_lt i wordSize_pos
        rw [Nat.succ_mul] at this
        omega
      rw [h.tells n (by omega) j small]
      exact decide_eq_decide.2 ⟨fun member => Finset.mem_filter.2 ⟨member, later⟩, fun member =>
        (Finset.mem_filter.1 member).1⟩
    · obtain ⟨member, late⟩ := Finset.mem_filter.1 member
      have word := div_lt_wordCount (h.below x member)
      have end' : i / wordSize + (s.wordCount - (i / wordSize + 1)) + 1 = s.wordCount := by omega
      rw [end']
      exact ⟨by omega, (Nat.div_lt_iff_lt_mul wordSize_pos).1 word⟩

theorem Represents.lastBefore? (h : s.Represents c S) (i : Nat) :
    Largest (S.filter (· < i)) (s.lastBefore? c i) := by
  -- elements are below the capacity, wherever the search begins
  have bounded : S.filter (· < i) = S.filter (· < min i s.capacity) :=
    Finset.filter_congr fun x member => by
      have := h.below x member
      omega
  unfold BitSet.lastBefore?
  rw [bounded]
  split
  next none_before =>
    rw [none_before]
    exact Finset.filter_eq_empty_iff.2 fun x _ => Nat.not_lt_zero x
  next last end' =>
    rw [end']
    have inside : last < s.capacity := by omega
    have bound := div_lt_wordCount inside
    have place := Nat.div_add_mod' last wordSize
    have remainder := Nat.mod_lt last wordSize_pos
    refine largest_scanDown (fun j small => ?_) (fun n before j small => ?_) fun x member => ?_
    · rw [BitVec.getLsbD_ushiftRight, BitVec.getLsbD_shiftLeft, Nat.add_sub_cancel_left,
        h.tells _ bound j small]
      simp only [Finset.mem_filter, Bool.decide_and]
      rw [Bool.and_comm]
      congr 1
      by_cases kept : j ≤ last % wordSize
      · have low : wordSize - 1 - last % wordSize + j < wordSize := by omega
        have early : last / wordSize * wordSize + j < last + 1 := by omega
        simp [low, early]
      · have high : ¬wordSize - 1 - last % wordSize + j < wordSize := by omega
        have late : ¬last / wordSize * wordSize + j < last + 1 := by omega
        simp [high, late]
    · have early : n * wordSize + j < last + 1 := by
        have := Nat.mul_le_mul_right wordSize (Nat.succ_le_of_lt before)
        rw [Nat.succ_mul] at this
        omega
      rw [h.tells n (before.trans bound) j small]
      exact decide_eq_decide.2 ⟨fun member => Finset.mem_filter.2 ⟨member, early⟩, fun member =>
        (Finset.mem_filter.1 member).1⟩
    · have early := (Finset.mem_filter.1 member).2
      rw [Nat.succ_mul]
      omega

/-- The elements from `i` on are listed in increasing order. -/
theorem Represents.elementsFrom (h : s.Represents c S) (i : Nat) :
    (s.elementsFrom c i).Pairwise (· < ·) ∧ ∀ x, x ∈ s.elementsFrom c i ↔ i ≤ x ∧ x ∈ S := by
  induction i using BitSet.elementsFrom.induct s c with
  | case1 i none_left =>
    have empty := h.firstFrom? i
    rw [none_left] at empty
    unfold BitSet.elementsFrom
    split
    next =>
      refine ⟨.nil, fun x => ⟨fun member => (nomatch member), fun ⟨late, member⟩ => ?_⟩⟩
      exact absurd late (Finset.filter_eq_empty_iff.1 empty member)
    next found => cases none_left.symm.trans found
  | case2 i j found ih =>
    have least := h.firstFrom? i
    rw [found] at least
    unfold BitSet.elementsFrom
    split
    next none_left => cases found.symm.trans none_left
    next j' found' =>
      cases found.symm.trans found'
      obtain ⟨ascending, lists⟩ := ih
      obtain ⟨member, late⟩ := Finset.mem_filter.1 (Finset.mem_coe.1 least.1)
      refine ⟨List.pairwise_cons.2 ⟨fun x after => ((lists x).1 after).1, ascending⟩, fun x => ?_⟩
      rw [List.mem_cons, lists]
      constructor
      · rintro (rfl | ⟨after, other⟩)
        · exact ⟨late, member⟩
        · exact ⟨late.trans (Nat.le_of_succ_le after), other⟩
      · rintro ⟨later, other⟩
        have bound : j ≤ x := least.2 (Finset.mem_coe.2 (Finset.mem_filter.2 ⟨other, later⟩))
        rcases Nat.eq_or_lt_of_le bound with same | after
        · exact .inl same.symm
        · exact .inr ⟨after, other⟩

/-- All questions have the answers that a finite set gives. -/
structure Reads (s : BitSet) (c : Cells) (S : Finset Nat) : Prop where
  contains : ∀ i, s.contains c i = decide (i ∈ S)
  beyond : ∀ i, s.capacity ≤ i → i ∉ S
  card : s.card c = S.card
  isEmpty : s.isEmpty c = decide (S = ∅)
  first : Smallest S (s.first? c)
  next : ∀ i < maxPosition, ∃ found, s.nextAfter? c i = .ok found ∧ Smallest (S.filter (i < ·)) found
  last : ∀ i, Largest (S.filter (· < i)) (s.lastBefore? c i)
  ascending : (s.toList c).Pairwise (· < ·)
  mem_toList : ∀ i, i ∈ s.toList c ↔ i ∈ S

theorem Represents.reads (h : s.Represents c S) : s.Reads c S where
  contains := h.contains
  beyond i outside member := Nat.not_lt.2 outside (h.below i member)
  card := h.card
  isEmpty := h.isEmpty
  first := by
    have all := h.firstFrom? 0
    rwa [Finset.filter_true_of_mem fun x _ => Nat.zero_le x] at all
  next i before := by
    refine ⟨s.firstFrom? c (i + 1), ?_, h.firstFrom? (i + 1)⟩
    rw [nextAfter?, decide_eq_true before]
    rfl
  last := h.lastBefore?
  ascending := (h.elementsFrom 0).1
  mem_toList i := ((h.elementsFrom 0).2 i).trans (and_iff_right (Nat.zero_le i))

end BitSet

end Stowage
