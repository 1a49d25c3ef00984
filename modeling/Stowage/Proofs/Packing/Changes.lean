import Stowage.Proofs.Packing.Accounts

/-!
# Changes of a bin

The operations on a bin keep its accounts: a candidate leaves the bin or moves into it, and candidates
become big.

* `Bin.Accounts.withdraw` — a candidate leaves.
* `Bin.Accounts.place`, `Bin.Accounts.lt_of_place_eq_none` — a candidate moves into the bin, or does not
  fit beside a big item that is placed there.
* `Bin.Accounts.extendBig` — candidates become big.
-/

set_option autoImplicit false

namespace Stowage

namespace Bin

variable {p : Packing} {placed : Nat → Bool} {capacity : Int} {bin : Bin} {i j d : Nat}

/-! ## The parts of a bin that a removal touches -/

theorem entry_mapIdx {entries : Array Entry} (f : Nat → Entry → Entry) (h : d < entries.size) :
    (entries.mapIdx f)[d]?.getD ⟨0, 0, 0, 0⟩ = f d (entries[d]?.getD ⟨0, 0, 0, 0⟩) := by
  simp [h]

/-- The largest big candidate depends on the candidates and the first small position alone. -/
theorem firstBig?_congr {a b : Bin} (candidates : a.candidates = b.candidates)
    (firstSmall : a.firstSmall = b.firstSmall) : a.firstBig? = b.firstBig? := by
  cases a
  cases b
  cases candidates
  cases firstSmall
  rfl

theorem isSmallCandidate_congr {a b : Bin} (candidates : a.candidates = b.candidates)
    (firstSmall : a.firstSmall = b.firstSmall) : a.isSmallCandidate = b.isSmallCandidate := by
  cases a
  cases b
  cases candidates
  cases firstSmall
  rfl

theorem mem_without (ascending : bin.candidates.Pairwise (· < ·)) :
    j ∈ (bin.without i).candidates ↔ j ∈ bin.candidates ∧ j ≠ i := by
  have nodup : bin.candidates.Nodup := ascending.imp fun h => Nat.ne_of_lt h
  simp only [without, nodup.mem_erase_iff]
  exact and_comm

theorem isCandidate_without (ascending : bin.candidates.Pairwise (· < ·)) :
    (bin.without i).isCandidate j = (bin.isCandidate j && !(j == i)) := by
  rw [Bool.eq_iff_iff, isCandidate_iff, mem_without ascending]
  simp [isCandidate]

theorem isSmallCandidate_without (ascending : bin.candidates.Pairwise (· < ·)) :
    (bin.without i).isSmallCandidate j = (bin.isSmallCandidate j && !(j == i)) := by
  rw [isSmallCandidate, isCandidate_without ascending, isSmallCandidate, Bool.and_right_comm]
  rfl

theorem isBigCandidate_of_without (ascending : bin.candidates.Pairwise (· < ·))
    (h : (bin.without i).isBigCandidate j = true) : bin.isBigCandidate j = true ∧ j ≠ i := by
  obtain ⟨member, less⟩ := isBigCandidate_iff.1 h
  have old := (mem_without ascending).1 member
  exact ⟨isBigCandidate_iff.2 ⟨old.1, less⟩, old.2⟩

/-- The largest big candidate is replaced by the next one, if it is struck out. -/
theorem firstBig?_without (ascending : bin.candidates.Pairwise (· < ·)) :
    (bin.without i).firstBig? =
      if bin.candidates.head? = some i then bin.nextBig? i else bin.firstBig? := by
  cases shape : bin.candidates with
  | nil => simp [firstBig?, without, shape]
  | cons c rest =>
    rw [shape] at ascending
    by_cases same : c = i
    · subst same
      have later : rest.find? (fun k => decide (c < k)) = rest.head? := by
        cases rest with
        | nil => rfl
        | cons k rest =>
          have : c < k := (List.pairwise_cons.1 ascending).1 k List.mem_cons_self
          simp [this]
      simp only [firstBig?, without, shape, nextBig?, List.erase_cons_head, List.head?_cons, if_true,
        List.find?_cons, Nat.lt_irrefl, decide_false, later]
      rfl
    · have kept : (c :: rest).erase i = c :: rest.erase i :=
        List.erase_cons_tail (by simpa using same)
      simp only [firstBig?, without, shape, kept, List.head?_cons, Option.some.injEq, same, if_false]
      rfl

theorem nextBig?_eq_none (small : bin.isBig i = false) : bin.nextBig? i = none := by
  unfold nextBig?
  cases found : bin.candidates.find? (fun c => decide (i < c)) with
  | none => rfl
  | some c =>
    have after : i < c := by simpa using List.find?_some found
    have bound : bin.firstSmall ≤ i := by simpa [isBig] using small
    have smallToo : bin.isBig c = false := by
      simp only [isBig, decide_eq_false_iff_not]
      omega
    simp [Option.filter, smallToo]

/-- Striking out a small candidate leaves the largest big candidate. -/
theorem firstBig?_without_small (ascending : bin.candidates.Pairwise (· < ·))
    (small : bin.isBig i = false) : (bin.without i).firstBig? = bin.firstBig? := by
  rw [firstBig?_without ascending]
  split
  · rename_i head
    simp [nextBig?_eq_none small, firstBig?, head, Option.filter, small]
  · rfl

@[simp] theorem bigShare_settleBig (bin : Bin) (d : Nat) :
    (settleBig bin).bigShare p d = bin.bigShare p d := by
  have first : (settleBig bin).firstBig? = bin.firstBig? := rfl
  have flag : (settleBig bin).bigPlaced = (bin.bigPlaced && bin.firstBig?.isSome) := rfl
  rw [bigShare, bigShare, first, flag]
  cases h : bin.firstBig? with
  | none => simp [sizeOr0]
  | some f => simp

/-- The size of the small candidates after candidate `i` was struck out. -/
theorem weigh_small_without (ascending : bin.candidates.Pairwise (· < ·)) (bound : i < p.numItems)
    (d : Nat) :
    p.weigh d (bin.without i).isSmallCandidate =
      p.weigh d bin.isSmallCandidate - if bin.isSmallCandidate i then p.size d i else 0 := by
  split
  · rename_i small
    have whole := p.weigh_insert (d := d) (f := bin.isSmallCandidate)
      (g := (bin.without i).isSmallCandidate) bound
      (by rw [isSmallCandidate_without ascending]; simp) fun j => by
        rw [isSmallCandidate_without ascending]
        by_cases same : j = i
        · subst same
          simp [small]
        · simp [beq_false_of_ne same]
    omega
  · rename_i large
    rw [sub_zero]
    refine p.weigh_congr fun j _ => ?_
    rw [isSmallCandidate_without ascending]
    by_cases same : j = i
    · subst same
      simp [large]
    · simp [beq_false_of_ne same]

/-! ## A candidate leaves the bin -/

theorem entry_withdraw (h : d < bin.entries.size) :
    (bin.withdraw p i).entry d =
      { bin.entry d with total := (bin.entry d).total + bin.removalDelta p d i } :=
  entry_mapIdx (fun d e => { e with total := e.total + bin.removalDelta p d i }) h

theorem bigShare_withdraw :
    (bin.withdraw p i).bigShare p d =
      if d = 0 ∧ bin.bigPlaced = false then sizeOr0 p (bin.without i).firstBig? else 0 :=
  bigShare_settleBig _ d

/-- The change of the total load is what the small and the big candidates lose. -/
theorem Accounts.removalDelta_eq (acc : bin.Accounts p placed capacity) (wf : p.WellFormed)
    (hi : i ∈ bin.candidates) (hd : d < p.numDims) :
    bin.removalDelta p d i =
      (bin.withdraw p i).bigShare p d - bin.bigShare p d -
        if bin.isSmallCandidate i then p.size d i else 0 := by
  have candidate : bin.isCandidate i = true := isCandidate_iff.2 hi
  rw [bigShare_withdraw, removalDelta]
  by_cases small : bin.isBig i = true
  · have zero : d = 0 := by
      by_contra h
      rw [acc.not_big_of_ne_zero wf hd h i] at small
      cases small
    subst zero
    simp only [ne_eq, not_true_eq_false, small, false_or, if_false, isSmallCandidate, candidate,
      Bool.not_true, Bool.and_false, Bool.false_eq_true, sub_zero, bigShare, true_and]
    by_cases flag : bin.bigPlaced = true
    · simp [flag]
    · have notPlaced : bin.bigPlaced = false := by simpa using flag
      simp only [notPlaced, Bool.false_eq_true, false_or, if_true]
      rw [firstBig?_without acc.ascending]
      by_cases head : bin.candidates.head? = some i
      · have first : bin.firstBig? = some i := by simp [firstBig?, head, Option.filter, small]
        simp [head, first, sizeOr0]
      · have other : bin.firstBig? ≠ some i := by
          intro h
          exact head (Option.filter_eq_some_iff.1 h).1
        simp [head, other]
  · have notBig : bin.isBig i = false := by simpa using small
    rw [if_pos (.inr small), firstBig?_without_small acc.ascending notBig, isSmallCandidate,
      candidate, notBig, bigShare]
    simp

/-- **A candidate leaves the bin without being placed in it.** -/
theorem Accounts.withdraw (acc : bin.Accounts p placed capacity) (wf : p.WellFormed)
    (hi : i ∈ bin.candidates) : (bin.withdraw p i).Accounts p placed capacity where
  ascending := acc.ascending.sublist List.erase_sublist
  bounded j hj := acc.bounded j (List.mem_of_mem_erase hj)
  unplaced j hj := acc.unplaced j (List.mem_of_mem_erase hj)
  entries := by
    rw [← acc.entries]
    exact Array.size_mapIdx
  required d hd := by
    rw [entry_withdraw (by rw [acc.entries]; exact hd)]
    exact acc.required d hd
  total d hd := by
    have bound := acc.bounded i hi
    have small : p.weigh d (bin.withdraw p i).isSmallCandidate =
        p.weigh d bin.isSmallCandidate - if bin.isSmallCandidate i then p.size d i else 0 :=
      weigh_small_without acc.ascending bound d
    have old := acc.total d hd
    have change := acc.removalDelta_eq wf hi hd
    rw [entry_withdraw (by rw [acc.entries]; exact hd)]
    simp only
    omega
  exclusive j k hj hk := acc.exclusive j k (isBigCandidate_of_without acc.ascending hj).1
    (isBigCandidate_of_without acc.ascending hk).1
  taken flag := by
    obtain ⟨flag, remains⟩ := (Bool.and_eq_true _ _).mp flag
    exact ⟨remains, fun j hj =>
      (acc.taken flag).2 j (isBigCandidate_of_without acc.ascending hj).1⟩
  plain disabled := by
    obtain ⟨noneBig, notPlaced⟩ := acc.plain disabled
    refine ⟨noneBig, ?_⟩
    show (bin.bigPlaced && _) = false
    rw [notPlaced, Bool.false_and]

/-! ## A candidate moves into the bin -/

/-- A big candidate does not fit beside a big item that is placed. -/
theorem Accounts.lt_of_place_eq_none (acc : bin.Accounts p placed capacity)
    (hi : i ∈ bin.candidates) (h : bin.place p i = none) :
    capacity < p.weigh 0 placed + p.size 0 i := by
  simp only [Bin.place, Option.map_eq_none_iff, placementDelta?] at h
  split at h
  · cases h
  · rename_i big
    split at h
    · rename_i flag
      have big' : i < bin.firstSmall := by simpa [isBig] using big
      exact (acc.taken flag).2 i (isBigCandidate_iff.2 ⟨hi, big'⟩)
    · cases h

/-- What a bin looks like after candidate `i` was moved into it. -/
structure Placement (p : Packing) (bin : Bin) (i : Nat) (after : Bin) : Prop where
  candidates : after.candidates = bin.candidates.erase i
  firstSmall : after.firstSmall = bin.firstSmall
  size : after.entries.size = bin.entries.size
  required : ∀ d < bin.entries.size,
    (after.entry d).required = (bin.entry d).required + p.size d i
  seen : ∀ d < bin.entries.size, (after.entry d).seenLower = (bin.entry d).seenLower ∧
    (after.entry d).seenUpper = (bin.entry d).seenUpper
  flag : after.bigPlaced = ((bin.bigPlaced || bin.isBig i) && (bin.without i).firstBig?.isSome)
  free : bin.isBig i = true → bin.bigPlaced = false
  total : ∀ d < bin.entries.size, (after.entry d).total = (bin.entry d).total +
    if d = 0 ∧ bin.isBig i = true then p.size 0 i - sizeOr0 p bin.firstBig? else 0

theorem placement_of_place {after : Bin} (h : bin.place p i = some after) :
    Placement p bin i after := by
  obtain ⟨delta, hdelta, rfl⟩ := Option.map_eq_some_iff.1 h
  have free : bin.isBig i = true → bin.bigPlaced = false := by
    intro big
    by_contra flag
    simp [placementDelta?, big, flag] at hdelta
  have amount : delta = if bin.isBig i = true then p.size 0 i - sizeOr0 p bin.firstBig? else 0 := by
    by_cases big : bin.isBig i = true
    · simp [placementDelta?, big, free big] at hdelta
      simp [big, hdelta]
    · simp [placementDelta?, big] at hdelta
      simp [big, hdelta]
  refine ⟨rfl, rfl, Array.size_mapIdx, fun d hd => ?_, fun d hd => ?_, rfl, free, fun d hd => ?_⟩
  · exact congrArg Entry.required (entry_mapIdx _ hd)
  · exact ⟨(congrArg Entry.seenLower (entry_mapIdx _ hd)).trans rfl,
      (congrArg Entry.seenUpper (entry_mapIdx _ hd)).trans rfl⟩
  · refine (congrArg Entry.total (entry_mapIdx _ hd)).trans ?_
    by_cases zero : d = 0 <;> simp [zero, amount, entry]

theorem bigShare_of_placement {after : Bin} (h : Placement p bin i after) :
    after.bigShare p d =
      if d = 0 ∧ (bin.bigPlaced || bin.isBig i) = false then sizeOr0 p (bin.without i).firstBig?
      else 0 := by
  have first : after.firstBig? = (bin.without i).firstBig? :=
    firstBig?_congr h.candidates h.firstSmall
  rw [bigShare, first, h.flag]
  cases (bin.without i).firstBig? with
  | none => simp [sizeOr0]
  | some f => simp

/-- **A candidate moves into the bin.** -/
theorem Accounts.place (acc : bin.Accounts p placed capacity) (wf : p.WellFormed)
    (hi : i ∈ bin.candidates) {after : Bin} (h : Placement p bin i after) :
    after.Accounts p (fun j => placed j || j == i) capacity := by
  have bound := acc.bounded i hi
  have candidate : bin.isCandidate i = true := isCandidate_iff.2 hi
  have size : after.entries.size = p.numDims := h.size.trans acc.entries
  have heavier : ∀ d, p.weigh d (fun j => placed j || j == i) = p.weigh d placed + p.size d i :=
    fun d => p.weigh_insert bound (acc.unplaced i hi) fun _ => rfl
  have stillBig : ∀ j, after.isBigCandidate j = true → bin.isBigCandidate j = true ∧ j ≠ i := by
    intro j hj
    obtain ⟨member, less⟩ := isBigCandidate_iff.1 hj
    rw [h.candidates] at member
    rw [h.firstSmall] at less
    exact isBigCandidate_of_without acc.ascending (isBigCandidate_iff.2 ⟨member, less⟩)
  have positive := wf.nonneg 0 i
  refine ⟨?_, fun j hj => ?_, fun j hj => ?_, size, fun d hd => ?_, fun d hd => ?_,
    fun j k hj hk different => ?_, fun flag => ?_, fun disabled => ?_⟩
  · rw [h.candidates]
    exact acc.ascending.sublist List.erase_sublist
  · rw [h.candidates] at hj
    exact acc.bounded j (List.mem_of_mem_erase hj)
  · rw [h.candidates] at hj
    obtain ⟨member, different⟩ := (mem_without acc.ascending).1 hj
    simp [acc.unplaced j member, different]
  · rw [h.required d (by rw [acc.entries]; exact hd), acc.required d hd, heavier]
  · have small : p.weigh d after.isSmallCandidate =
        p.weigh d bin.isSmallCandidate - if bin.isSmallCandidate i then p.size d i else 0 := by
      rw [isSmallCandidate_congr (b := bin.without i) h.candidates h.firstSmall]
      exact weigh_small_without acc.ascending bound d
    have old := acc.total d hd
    rw [h.total d (by rw [acc.entries]; exact hd), old, small, heavier, bigShare_of_placement h,
      isSmallCandidate, candidate]
    by_cases big : bin.isBig i = true
    · have zero : d = 0 := by
        by_contra nonzero
        rw [acc.not_big_of_ne_zero wf hd nonzero i] at big
        cases big
      subst zero
      simp only [big, bigShare, h.free big, Bool.or_true, Bool.true_eq_false, Bool.not_true,
        Bool.and_false, Bool.false_eq_true, and_false, and_self, if_true, if_false]
      omega
    · have notBig : bin.isBig i = false := by simpa using big
      simp only [notBig, firstBig?_without_small acc.ascending notBig, bigShare, Bool.or_false,
        Bool.false_eq_true, and_false, if_false, Bool.not_false, Bool.and_self, if_true]
      omega
  · have apart := acc.exclusive j k (stillBig j hj).1 (stillBig k hk).1 different
    have := heavier 0
    omega
  · rw [h.flag] at flag
    obtain ⟨origin, remains⟩ := (Bool.and_eq_true _ _).mp flag
    have first : after.firstBig? = (bin.without i).firstBig? :=
      firstBig?_congr h.candidates h.firstSmall
    refine ⟨by rw [first]; exact remains, fun j hj => ?_⟩
    obtain ⟨old, different⟩ := stillBig j hj
    have := heavier 0
    rcases (Bool.or_eq_true _ _).mp origin with before | now
    · have := (acc.taken before).2 j old
      omega
    · have member : i < bin.firstSmall := by simpa [isBig] using now
      have := acc.exclusive i j (isBigCandidate_iff.2 ⟨hi, member⟩) old different.symm
      omega
  · obtain ⟨noneBig, notPlaced⟩ := acc.plain disabled
    refine ⟨h.firstSmall.trans noneBig, ?_⟩
    rw [h.flag, notPlaced]
    simp [isBig, noneBig]

/-! ## Candidates become big -/

theorem chain_startsWith (size : Nat → Int) (free : Int) (anchor : Nat) (rest : List Nat) :
    chain size free anchor rest <+: rest := by
  induction rest generalizing anchor with
  | nil => exact List.prefix_refl []
  | cons c rest ih =>
    rw [chain]
    split
    · exact List.nil_prefix
    · exact (List.prefix_cons_inj c).2 (ih c)

/-- A member of a chain does not fit beside its predecessor, and so not beside any larger item. -/
theorem lt_of_mem_chain {size : Nat → Int} {free : Int} {bound : Nat}
    (antitone : ∀ i j, i ≤ j → j < bound → size j ≤ size i) {anchor : Nat} {rest : List Nat}
    (ascending : (anchor :: rest).Pairwise (· < ·)) (bounded : ∀ c ∈ anchor :: rest, c < bound)
    (hj : j ∈ chain size free anchor rest) (less : i < j) (hi : i ≤ anchor ∨ i ∈ rest) :
    free < size i + size j := by
  induction rest generalizing anchor with
  | nil => simp [chain] at hj
  | cons c rest ih =>
    rw [chain] at hj
    split at hj
    · cases hj
    · rename_i clash
      obtain ⟨first, tail⟩ := List.pairwise_cons.1 ascending
      have anchorLess := first c List.mem_cons_self
      rcases List.mem_cons.1 hj with rfl | later
      · have before : i ≤ anchor := by
          rcases hi with hi | hi
          · exact hi
          · rcases List.mem_cons.1 hi with rfl | hi
            · omega
            · have := (List.pairwise_cons.1 tail).1 i hi
              omega
        have := antitone i anchor before (bounded anchor List.mem_cons_self)
        omega
      · refine ih tail (fun k hk => bounded k (List.mem_cons_of_mem _ hk)) later ?_
        rcases hi with hi | hi
        · exact .inl (by omega)
        · rcases List.mem_cons.1 hi with rfl | hi
          · exact .inl (Nat.le_refl _)
          · exact .inr hi

/-- No big candidate comes after the anchor, which is big itself or the first candidate. -/
theorem anchor?_eq_some (ascending : bin.candidates.Pairwise (· < ·)) {a : Nat}
    (h : bin.anchor? = some a) :
    a ∈ bin.candidates ∧ (∀ c ∈ bin.candidates, bin.isBig c = true → c ≤ a) ∧
      (bin.isBig a = true ∨ bin.candidates.head? = some a) := by
  unfold anchor? at h
  cases last : (bin.candidates.filter bin.isBig).getLast? with
  | none =>
    have empty : bin.candidates.filter bin.isBig = [] := List.getLast?_eq_none_iff.1 last
    rw [last] at h
    have head : bin.candidates.head? = some a := h
    refine ⟨List.mem_of_head? head, fun c hc big => ?_, .inr head⟩
    have : c ∈ bin.candidates.filter bin.isBig := List.mem_filter.2 ⟨hc, big⟩
    rw [empty] at this
    cases this
  | some b =>
    rw [last] at h
    obtain rfl : b = a := by simpa using h
    obtain ⟨init, shape⟩ := List.getLast?_eq_some_iff.1 last
    have member : b ∈ bin.candidates.filter bin.isBig := by
      rw [shape]
      simp
    obtain ⟨candidate, big⟩ := List.mem_filter.1 member
    refine ⟨candidate, fun c hc bigC => ?_, .inl big⟩
    have sorted : (init ++ [b]).Pairwise (· < ·) := shape ▸ ascending.filter _
    have inside : c ∈ init ++ [b] := shape ▸ List.mem_filter.2 ⟨hc, bigC⟩
    rcases List.mem_append.1 inside with before | same
    · exact Nat.le_of_lt ((List.pairwise_append.1 sorted).2.2 c before b (by simp))
    · exact Nat.le_of_eq (by simpa using same)

theorem anchor?_eq_none (h : bin.anchor? = none) : bin.candidates = [] := by
  unfold anchor? at h
  cases last : (bin.candidates.filter bin.isBig).getLast? with
  | none =>
    rw [last] at h
    exact List.head?_eq_none_iff.1 h
  | some b =>
    rw [last] at h
    cases h

/-- The bin in which the given candidates are big too. -/
def enlarge (p : Packing) (bin : Bin) (added : List Nat) : Bin :=
  { bin with
    firstSmall := (added.getLast?.map (· + 1)).getD bin.firstSmall
    bigPlaced := false
    entries := bin.entries.modify 0 fun e => { e with total := e.total - p.sizeOf 0 added } }

/-- `extendBig` enlarges the bin by some candidates, none if a big item is placed. -/
theorem extendBig_eq (acc : bin.Accounts p placed capacity) (free : Int) :
    bin.extendBig p free = (0, bin) ∨
      ∃ a, bin.bigPlaced = false ∧ bin.anchor? = some a ∧
        bin.extendBig p free = (p.sizeOf 0 (bin.added p free a), bin.enlarge p (bin.added p free a)) := by
  by_cases flag : bin.bigPlaced = true
  · left
    rw [Bin.extendBig, if_pos ⟨flag, (acc.taken flag).1⟩]
  · have notPlaced : bin.bigPlaced = false := by simpa using flag
    have same : { bin with bigPlaced := false } = bin := by
      cases bin
      cases notPlaced
      rfl
    rw [Bin.extendBig, if_neg fun h => flag h.1]
    simp only [same]
    cases anchor : bin.anchor? with
    | none => exact .inl rfl
    | some a => exact .inr ⟨a, notPlaced, rfl, rfl⟩

theorem entry_enlarge (added : List Nat) (h : d < bin.entries.size) :
    (bin.enlarge p added).entry d =
      { bin.entry d with
        total := (bin.entry d).total - if d = 0 then p.sizeOf 0 added else 0 } := by
  simp only [entry, enlarge, Array.getElem?_modify]
  by_cases zero : d = 0
  · subst zero
    simp [h]
  · simp [Ne.symm zero, zero]

/-- Of the entries, making candidates big changes the total load of the first dimension alone. -/
theorem Accounts.entry_extendBig (acc : bin.Accounts p placed capacity) (free : Int)
    (hd : d < p.numDims) :
    (bin.extendBig p free).2.entry d =
      { bin.entry d with
        total := (bin.entry d).total - if d = 0 then (bin.extendBig p free).1 else 0 } := by
  rcases extendBig_eq acc free with same | ⟨a, -, -, same⟩
  · rw [same]
    simp
  · rw [same]
    exact entry_enlarge _ (by rw [acc.entries]; exact hd)

theorem enlarge_nil (notPlaced : bin.bigPlaced = false) : bin.enlarge p [] = bin := by
  have unchanged : bin.entries.modify 0 (fun e => { e with total := e.total - p.sizeOf 0 [] }) =
      bin.entries := by
    apply Array.ext
    · simp
    · intro k hk _
      rw [Array.getElem_modify]
      split <;> simp [Packing.sizeOf, Packing.sumOf_eq_sum]
  cases bin
  cases notPlaced
  simp only [enlarge, unchanged]
  rfl

section

variable {free : Int} {a : Nat}

theorem mem_of_mem_added (h : i ∈ bin.added p free a) : i ∈ bin.candidates ∧ a < i := by
  have member := (chain_startsWith _ _ _ _).subset h
  simpa using member

/-- After candidates became big, the big ones are those up to the anchor and those added. -/
theorem isBig_enlarge (ascending : bin.candidates.Pairwise (· < ·))
    (some : bin.added p free a ≠ []) (hi : i ∈ bin.candidates) :
    (bin.enlarge p (bin.added p free a)).isBig i = true ↔ i ≤ a ∨ i ∈ bin.added p free a := by
  obtain ⟨tail, shape⟩ := chain_startsWith (p.size 0) free a
    (bin.candidates.filter fun c => decide (a < c))
  have sorted : (bin.added p free a ++ tail).Pairwise (· < ·) := by
    rw [added, shape]
    exact ascending.filter _
  obtain ⟨init, last, split⟩ := (List.eq_nil_or_concat' (bin.added p free a)).resolve_left some
  have lastIn : last ∈ bin.added p free a := by simp [split]
  have bound : (bin.enlarge p (bin.added p free a)).firstSmall = last + 1 := by
    simp [enlarge, split]
  rw [isBig, bound, decide_eq_true_eq]
  constructor
  · intro less
    by_cases before : i ≤ a
    · exact .inl before
    · have later : i ∈ bin.added p free a ++ tail := by
        rw [added, shape]
        simpa using ⟨hi, Nat.lt_of_not_le before⟩
      rcases List.mem_append.1 later with inside | after
      · exact .inr inside
      · have := (List.pairwise_append.1 sorted).2.2 last lastIn i after
        omega
  · rintro (before | inside)
    · have := (mem_of_mem_added lastIn).2
      omega
    · rcases List.mem_append.1 (split ▸ inside) with first | same
      · have := (List.pairwise_append.1 (split ▸ (List.pairwise_append.1 sorted).1)).2.2 i first
          last (by simp)
        omega
      · have : i = last := by simpa using same
        omega

/-- Before: the small candidates together with the share of the big ones are the candidates after
the anchor and the first candidate. -/
theorem weigh_small_add_bigShare (acc : bin.Accounts p placed capacity)
    (notPlaced : bin.bigPlaced = false) (anchor : bin.anchor? = some a) :
    p.weigh 0 bin.isSmallCandidate + bin.bigShare p 0 =
      p.weigh 0 (fun c => bin.isCandidate c && decide (a < c)) + sizeOr0 p bin.candidates.head? := by
  obtain ⟨member, last, kind⟩ := anchor?_eq_some acc.ascending anchor
  have share : bin.bigShare p 0 = sizeOr0 p bin.firstBig? := by simp [bigShare, notPlaced]
  rw [share]
  by_cases big : bin.isBig a = true
  · have first : bin.firstBig? = bin.candidates.head? := by
      cases shape : bin.candidates with
      | nil => simp [shape] at member
      | cons c rest =>
        have least : c ≤ a := by
          rcases List.mem_cons.1 (shape ▸ member) with rfl | later
          · exact Nat.le_refl _
          · exact Nat.le_of_lt ((List.pairwise_cons.1 (shape ▸ acc.ascending)).1 a later)
        have headBig : bin.isBig c = true := by
          simp only [isBig, decide_eq_true_eq] at big ⊢
          omega
        simp [firstBig?, shape, Option.filter, headBig]
    rw [first]
    congr 1
    refine p.weigh_congr fun c _ => ?_
    rw [Bool.eq_iff_iff]
    simp only [isSmallCandidate, isCandidate_iff, Bool.and_eq_true, Bool.not_eq_true',
      decide_eq_true_eq, and_congr_right_iff]
    intro candidate
    constructor
    · intro small
      simp only [isBig, decide_eq_false_iff_not, decide_eq_true_eq] at small big
      omega
    · intro after
      by_contra notSmall
      have := last c candidate (by simpa using notSmall)
      omega
  · have head := kind.resolve_left big
    have noneBig : ∀ c ∈ bin.candidates, bin.isBig c = false := by
      intro c hc
      by_contra bigC
      have before := last c hc (by simpa using bigC)
      simp only [isBig, Bool.not_eq_false, decide_eq_true_eq] at bigC big
      have after := head_le acc.ascending head hc
      omega
    have first : bin.firstBig? = none := by
      simp [firstBig?, head, Option.filter, noneBig a member]
    rw [first, head]
    simp only [sizeOr0, Option.map_none, Option.map_some, Option.getD_none, Option.getD_some,
      add_zero]
    refine p.weigh_insert (acc.bounded a member) (by simp) fun c => ?_
    rw [Bool.eq_iff_iff]
    simp only [isSmallCandidate, isCandidate_iff, Bool.and_eq_true, Bool.not_eq_true',
      Bool.or_eq_true, decide_eq_true_eq, beq_iff_eq]
    constructor
    · rintro ⟨candidate, -⟩
      have after := head_le acc.ascending head candidate
      by_cases same : c = a
      · exact .inr same
      · exact .inl ⟨candidate, by omega⟩
    · rintro (⟨candidate, -⟩ | rfl)
      · exact ⟨candidate, noneBig c candidate⟩
      · exact ⟨member, noneBig _ member⟩

/-- Afterwards the small candidates are those after the anchor that were not added. -/
theorem weigh_small_enlarge (acc : bin.Accounts p placed capacity)
    (some : bin.added p free a ≠ []) :
    p.weigh 0 (bin.enlarge p (bin.added p free a)).isSmallCandidate =
      p.weigh 0 (fun c => bin.isCandidate c && decide (a < c)) -
        p.sizeOf 0 (bin.added p free a) := by
  have sorted : (bin.added p free a).Pairwise (· < ·) :=
    (acc.ascending.filter _).sublist (chain_startsWith _ _ _ _).sublist
  rw [p.sizeOf_eq_weigh sorted fun i hi => acc.bounded i (mem_of_mem_added hi).1,
    p.weigh_split 0 (fun c => bin.isCandidate c && decide (a < c)) (bin.added p free a).contains]
  have inside : p.weigh 0 (fun c => (bin.isCandidate c && decide (a < c)) &&
      (bin.added p free a).contains c) = p.weigh 0 (bin.added p free a).contains := by
    refine p.weigh_congr fun c _ => ?_
    rw [Bool.eq_iff_iff]
    simp only [isCandidate_iff, Bool.and_eq_true, decide_eq_true_eq, List.contains_iff_mem,
      and_iff_right_iff_imp]
    exact mem_of_mem_added
  have outside : p.weigh 0 (bin.enlarge p (bin.added p free a)).isSmallCandidate =
      p.weigh 0 fun c => (bin.isCandidate c && decide (a < c)) &&
        !(bin.added p free a).contains c := by
    refine p.weigh_congr fun c _ => ?_
    have same : (bin.enlarge p (bin.added p free a)).isCandidate c = bin.isCandidate c := rfl
    rw [isSmallCandidate, same]
    by_cases candidate : bin.isCandidate c = true
    · have big := isBig_enlarge acc.ascending some (isCandidate_iff.1 candidate)
      rw [Bool.eq_iff_iff]
      simp only [candidate, Bool.true_and, Bool.not_eq_true', Bool.and_eq_true, decide_eq_true_eq,
        List.contains_eq_mem, ← Bool.not_eq_true, big, not_or, Nat.not_le]
    · simp [candidate]
  rw [inside, outside]
  omega

end

/-- **Candidates become big**: all that follow the big ones and do not fit beside their
predecessor. -/
theorem Accounts.extendBig (acc : bin.Accounts p placed capacity) (wf : p.WellFormed)
    (enabled : p.policy ≠ .disabled) :
    (bin.extendBig p (capacity - (bin.entry 0).required)).2.Accounts p placed capacity := by
  rcases extendBig_eq acc (capacity - (bin.entry 0).required) with same | ⟨a, notPlaced, anchor, same⟩
  · rw [same]
    exact acc
  rw [same]
  simp only
  have single : p.numDims = 1 := wf.single.resolve_right enabled
  by_cases nothing : bin.added p (capacity - (bin.entry 0).required) a = []
  · rw [nothing, enlarge_nil notPlaced]
    exact acc
  obtain ⟨member, last, kind⟩ := anchor?_eq_some acc.ascending anchor
  have required := acc.required 0 wf.dims
  -- no two big candidates fit in the bin together; a pair up to the anchor was big before
  have apart : ∀ i j, i < j →
      (bin.enlarge p (bin.added p (capacity - (bin.entry 0).required) a)).isBigCandidate i = true →
      (bin.enlarge p (bin.added p (capacity - (bin.entry 0).required) a)).isBigCandidate j = true →
      capacity < p.weigh 0 placed + p.size 0 i + p.size 0 j := by
    intro i j less hi hj
    obtain ⟨candI, bigI⟩ := (Bool.and_eq_true _ _).mp hi
    obtain ⟨candJ, bigJ⟩ := (Bool.and_eq_true _ _).mp hj
    have memI : i ∈ bin.candidates := isCandidate_iff.1 candI
    have memJ : j ∈ bin.candidates := isCandidate_iff.1 candJ
    rw [isBig_enlarge acc.ascending nothing memI] at bigI
    rw [isBig_enlarge acc.ascending nothing memJ] at bigJ
    rcases bigJ with before | inside
    · have old : bin.isBig a = true := by
        refine kind.resolve_right fun head => ?_
        have := head_le acc.ascending head memI
        omega
      simp only [isBig, decide_eq_true_eq] at old
      exact acc.exclusive i j (isBigCandidate_iff.2 ⟨memI, by omega⟩)
        (isBigCandidate_iff.2 ⟨memJ, by omega⟩) (Nat.ne_of_lt less)
    · have ascending : (a :: bin.candidates.filter fun c => decide (a < c)).Pairwise (· < ·) :=
        List.pairwise_cons.2 ⟨fun c hc => by simpa using (List.mem_filter.1 hc).2,
          acc.ascending.filter _⟩
      have bounded : ∀ c ∈ a :: bin.candidates.filter (fun c => decide (a < c)), c < p.numItems := by
        intro c hc
        rcases List.mem_cons.1 hc with rfl | hc
        · exact acc.bounded _ member
        · exact acc.bounded c (List.mem_filter.1 hc).1
      have := lt_of_mem_chain wf.antitone ascending bounded inside less
        (bigI.imp id fun h => (chain_startsWith _ _ _ _).subset h)
      omega
  have head : (bin.enlarge p (bin.added p (capacity - (bin.entry 0).required) a)).firstBig? =
      bin.candidates.head? := by
    have candidates : (bin.enlarge p (bin.added p (capacity - (bin.entry 0).required) a)).candidates =
        bin.candidates := rfl
    rw [firstBig?, candidates]
    cases first : bin.candidates.head? with
    | none => rfl
    | some k =>
      have least := head_le acc.ascending first member
      have big := (isBig_enlarge acc.ascending nothing (List.mem_of_head? first)).2 (.inl least)
      simp [Option.filter, big]
  refine ⟨acc.ascending, acc.bounded, acc.unplaced, ?_, fun d hd => ?_, fun d hd => ?_,
    fun i j hi hj different => ?_, fun flag => ?_, fun disabled => absurd disabled enabled⟩
  · rw [← acc.entries]
    exact Array.size_modify
  · rw [entry_enlarge _ (by rw [acc.entries]; exact hd)]
    exact acc.required d hd
  · obtain rfl : d = 0 := by omega
    have before := weigh_small_add_bigShare acc notPlaced anchor
    have after := weigh_small_enlarge acc nothing
    have share : (bin.enlarge p (bin.added p (capacity - (bin.entry 0).required) a)).bigShare p 0 =
        sizeOr0 p bin.candidates.head? := by
      rw [bigShare, if_pos ⟨rfl, rfl⟩, head]
    have old := acc.total 0 hd
    rw [entry_enlarge _ (by rw [acc.entries]; exact hd), share, after]
    simp only [if_true]
    omega
  · rcases Nat.lt_or_gt_of_ne different with less | less
    · exact apart i j less hi hj
    · have := apart j i less hj hi
      omega
  · cases flag

/-! ## Changes around the bin -/

/-- The accounts stay right when the largest load shrinks. -/
theorem Accounts.shrink (acc : bin.Accounts p placed capacity) {smaller : Int}
    (h : smaller ≤ capacity) : bin.Accounts p placed smaller :=
  { acc with
    exclusive := fun i j hi hj different => by
      have := acc.exclusive i j hi hj different
      omega
    taken := fun flag => ⟨(acc.taken flag).1, fun i hi => by
      have := (acc.taken flag).2 i hi
      omega⟩ }

/-- The accounts depend on the placed items alone. -/
theorem Accounts.congr (acc : bin.Accounts p placed capacity) {other : Nat → Bool}
    (h : ∀ i < p.numItems, other i = placed i) : bin.Accounts p other capacity := by
  have same : ∀ d, p.weigh d other = p.weigh d placed := fun d => p.weigh_congr h
  refine ⟨acc.ascending, acc.bounded, fun i hi => ?_, acc.entries, fun d hd => ?_, fun d hd => ?_,
    fun i j hi hj different => ?_, fun flag => ⟨(acc.taken flag).1, fun i hi => ?_⟩, acc.plain⟩
  · rw [h i (acc.bounded i hi)]
    exact acc.unplaced i hi
  · rw [same]
    exact acc.required d hd
  · rw [same]
    exact acc.total d hd
  · rw [same]
    exact acc.exclusive i j hi hj different
  · rw [same]
    exact (acc.taken flag).2 i hi

end Bin

end Stowage
