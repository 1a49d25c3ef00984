import Stowage.Proofs.Elements
import Stowage.Proofs.Undoing

/-!
# Bit sets that share their cells

Any number of bit sets and integers may share one table of cells.  They answer as finite sets and
integers of their own do: a change to one of them is none to the others, and going back gives each the
contents that it had.

* `Pool.run` — what can be done to bit sets and integers that share their cells.
* `Collection.run` — the same for finite sets and integers, with what they were at every checkpoint.
* `Handles.Apart`, `Handles.Shows` — the blocks have no cell in common, and what their cells show.
* `Pool.Refines` — the invariant; one lemma for each operation.
* `Pool.answers_as_collection` — all operations are answered as by the collection.
-/

set_option autoImplicit false

namespace Stowage

/-- Where bit sets and integers are. -/
structure Handles where
  sets : List BitSet
  /-- The cells of the integers. -/
  numbers : List Nat
  deriving DecidableEq, Repr

/-- Bit sets and integers that share one table of cells. -/
structure Pool extends Handles where
  cells : Cells

/-- What can be done to sets and integers, which are numbered in the order in which they were added. -/
inductive Pool.Operation where
  /-- Adds a set of elements below a capacity. -/
  | addSet (capacity : Nat)
  /-- Adds integers. -/
  | addNumbers (count : Nat) (value : Int)
  /-- Adds `i`, which has to be below the capacity, to the `j`-th set. -/
  | insert (j i : Nat)
  /-- Removes `i` from the `j`-th set. -/
  | remove (j i : Nat)
  | assign (n : Nat) (value : Int)
  | increase (n : Nat) (amount : Int)
  /-- Adds a checkpoint. -/
  | mark
  /-- Goes back to checkpoint `k`. -/
  | revert (k : Nat)
  deriving DecidableEq, Repr

open Pool (Operation)

namespace Pool

def empty : Pool := ⟨⟨[], []⟩, .empty⟩

/-- Whether the set changed by an operation, if it is about a set, and the pool afterwards. -/
def perform (p : Pool) : Operation → Except Fault (Option Bool × Pool)
  | .addSet capacity =>
    let (s, cells) := BitSet.allocate p.cells capacity
    return (none, { p with sets := p.sets ++ [s], cells := cells })
  | .addNumbers count value =>
    let (first, cells) := p.cells.allocate count value
    let added := (List.range count).map (Cells.offset first)
    return (none, { p with numbers := p.numbers ++ added, cells := cells })
  | .insert j i =>
    match p.sets[j]? with
    | none => throw .outOfRange
    | some s => do
      require (decide (i < s.capacity)) .precondition
      let (changed, cells) := s.insert p.cells i
      return (some changed, { p with cells := cells })
  | .remove j i =>
    match p.sets[j]? with
    | none => throw .outOfRange
    | some s =>
      let (changed, cells) := s.remove p.cells i
      return (some changed, { p with cells := cells })
  | .assign n value =>
    match p.numbers[n]? with
    | none => throw .outOfRange
    | some cell => do
      let cells ← p.cells.assign cell value
      return (none, { p with cells := cells })
  | .increase n amount =>
    match p.numbers[n]? with
    | none => throw .outOfRange
    | some cell => do
      let cells ← p.cells.increase cell amount
      return (none, { p with cells := cells })
  | .mark => return (none, { p with cells := Trailed.mark p.cells })
  | .revert k => do
    let cells ← p.cells.revert k
    return (none, { p with cells := cells })

/-- The answers to operations performed one after the other, and the pool afterwards. -/
def run (p : Pool) (script : List Operation) : Except Fault (List (Option Bool) × Pool) :=
  inTurn perform p script

end Pool

/-- Finite sets and integers. -/
structure Contents where
  sets : List (Finset Nat)
  numbers : List Int
  deriving DecidableEq

/-- Finite sets and integers, with what they were. -/
structure Collection where
  /-- Elements of the sets are smaller than these. -/
  capacities : List Nat
  /-- The values with which the integers were added. -/
  initials : List Int
  now : Contents
  /-- For every checkpoint but the first the contents when it was created. -/
  past : List Contents
  deriving DecidableEq

namespace Collection

def empty : Collection := ⟨[], [], ⟨[], []⟩, []⟩

/-- Earlier contents, with the sets and integers that have been added since as they were added. -/
def grown (q : Collection) (earlier : Contents) : Contents where
  sets := earlier.sets ++ List.replicate (q.capacities.length - earlier.sets.length) ∅
  numbers := earlier.numbers ++ q.initials.drop earlier.numbers.length

/-- Whether the set changed by an operation, if it is about a set, and the collection afterwards. -/
def perform (q : Collection) : Operation → Except Fault (Option Bool × Collection)
  | .addSet capacity =>
    return (none,
      { q with capacities := q.capacities ++ [capacity], now.sets := q.now.sets ++ [∅] })
  | .addNumbers count value =>
    let added := List.replicate count value
    return (none,
      { q with initials := q.initials ++ added, now.numbers := q.now.numbers ++ added })
  | .insert j i =>
    match q.capacities[j]?, q.now.sets[j]? with
    | some capacity, some S => do
      require (decide (i < capacity)) .precondition
      return (some (decide (i ∉ S)), { q with now.sets := q.now.sets.set j (insert i S) })
    | _, _ => throw .outOfRange
  | .remove j i =>
    match q.now.sets[j]? with
    | some S => return (some (decide (i ∈ S)), { q with now.sets := q.now.sets.set j (S.erase i) })
    | none => throw .outOfRange
  | .assign n value =>
    match q.now.numbers[n]? with
    | some _ => return (none, { q with now.numbers := q.now.numbers.set n value })
    | none => throw .outOfRange
  | .increase n amount =>
    match q.now.numbers[n]? with
    | some old => return (none, { q with now.numbers := q.now.numbers.set n (old + amount) })
    | none => throw .outOfRange
  | .mark => return (none, { q with past := q.past ++ [q.now] })
  | .revert k =>
    match q.past[k]? with
    | some earlier => return (none, { q with now := q.grown earlier, past := q.past.take k })
    | none => throw .precondition

/-- The answers to operations performed one after the other, and the collection afterwards. -/
def run (q : Collection) (script : List Operation) :
    Except Fault (List (Option Bool) × Collection) := inTurn perform q script

end Collection

theorem Collection.grown_addSet (q : Collection) {earlier : Contents} {capacity : Nat}
    {now : Contents} (fewer : earlier.sets.length ≤ q.capacities.length) :
    grown { q with capacities := q.capacities ++ [capacity], now := now } earlier =
      { q.grown earlier with sets := (q.grown earlier).sets ++ [∅] } := by
  simp only [grown, List.length_append, List.length_singleton, Nat.sub_add_comm fewer,
    List.replicate_succ', List.append_assoc]

theorem Collection.grown_addNumbers (q : Collection) {earlier : Contents} {added : List Int}
    {now : Contents} (fewer : earlier.numbers.length ≤ q.initials.length) :
    grown { q with initials := q.initials ++ added, now := now } earlier =
      { q.grown earlier with numbers := (q.grown earlier).numbers ++ added } := by
  simp only [grown, List.drop_append_of_le_length fewer, List.append_assoc]

/-- Nothing is added to contents that are complete. -/
theorem Collection.grown_eq_self (q : Collection) {earlier : Contents}
    (sets : earlier.sets.length = q.capacities.length)
    (numbers : earlier.numbers.length = q.initials.length) : q.grown earlier = earlier := by
  simp only [grown, sets, numbers, Nat.sub_self, List.replicate_zero, List.append_nil, List.drop_length]

/-- A new block is at the same place in the view of every checkpoint. -/
theorem BitSet.allocate_restore {c : Cells} (lawful : c.Lawful) (capacity k : Nat) :
    allocate (c.restore k) capacity =
      ((allocate c capacity).1, Trailed.restore (allocate c capacity).2 k) := by
  simp only [allocate, Trailed.size_restore, Cells.restore_allocate lawful]

namespace Handles

variable {h : Handles} {c d : Cells} {now : Contents}

/-- The blocks of the sets and the cells of the integers have no cell in common. -/
structure Apart (h : Handles) : Prop where
  sets : h.sets.Pairwise fun s s' : BitSet => ∀ cell, s.Owns cell → ¬s'.Owns cell
  numbers : h.numbers.Nodup
  across : ∀ s : BitSet, s ∈ h.sets → ∀ cell ∈ h.numbers, ¬s.Owns cell

/-- The cells show finite sets and integers. -/
structure Shows (h : Handles) (c : Cells) (now : Contents) : Prop where
  length : now.sets.length = h.sets.length
  sets : ∀ (j : Nat) (s : BitSet), h.sets[j]? = some s → ∃ S, now.sets[j]? = some S ∧ s.Represents c S
  allocated : ∀ cell ∈ h.numbers, cell < c.size
  numbers : now.numbers = h.numbers.map c.read

theorem Apart.not_owns (apart : h.Apart) {j j' : Nat} {s s' : BitSet} (found : h.sets[j]? = some s)
    (found' : h.sets[j']? = some s') (other : j ≠ j') {cell : Nat} (owned : s.Owns cell) :
    ¬s'.Owns cell := by
  obtain ⟨bound, rfl⟩ := List.getElem?_eq_some_iff.1 found
  obtain ⟨bound', rfl⟩ := List.getElem?_eq_some_iff.1 found'
  rcases Nat.lt_or_gt_of_ne other with before | after
  · exact List.pairwise_iff_getElem.1 apart.sets j j' bound bound' before cell owned
  · exact fun shared => List.pairwise_iff_getElem.1 apart.sets j' j bound' bound after cell shared owned

/-- What is shown is in the cells of the blocks and in those of the integers only. -/
theorem Shows.congr (shows' : h.Shows c now) (size : c.size ≤ d.size)
    (same : ∀ cell < c.size, d.read cell = c.read cell) : h.Shows d now where
  length := shows'.length
  sets j s found := by
    obtain ⟨S, contents, represents⟩ := shows'.sets j s found
    exact ⟨S, contents, represents.congr size fun cell owned =>
      same cell (owned.2.trans_lt represents.allocated)⟩
  allocated cell member := (shows'.allocated cell member).trans_le size
  numbers := by
    rw [shows'.numbers]
    exact List.map_congr_left fun cell member => (same cell (shows'.allocated cell member)).symm

/-- A change of one set is none of the others, nor of an integer. -/
theorem Shows.becomes (shows' : h.Shows c now) (apart : h.Apart) {j : Nat} {s : BitSet}
    {T : Finset Nat} (found : h.sets[j]? = some s) (becomes : s.Becomes c d T) :
    h.Shows d { now with sets := now.sets.set j T } where
  length := by rw [List.length_set, shows'.length]
  sets j' s' found' := by
    have exist : j' < now.sets.length :=
      shows'.length ▸ (List.getElem?_eq_some_iff.1 found').1
    by_cases same : j = j'
    · subst same
      cases found.symm.trans found'
      exact ⟨T, List.getElem?_set_self exist, becomes.represents⟩
    · obtain ⟨S, contents, represents⟩ := shows'.sets j' s' found'
      refine ⟨S, (List.getElem?_set_ne same).trans contents, ?_⟩
      exact represents.congr becomes.size.ge fun cell owned =>
        becomes.others cell (apart.not_owns found' found (Ne.symm same) owned)
  allocated cell member := (shows'.allocated cell member).trans_eq becomes.size.symm
  numbers := by
    rw [shows'.numbers]
    exact List.map_congr_left fun cell member =>
      (becomes.others cell (apart.across s (List.mem_of_getElem? found) cell member)).symm

/-- A change of one integer is none of the others, nor of a set. -/
theorem Shows.write (shows' : h.Shows c now) (apart : h.Apart) {n cell : Nat}
    (found : h.numbers[n]? = some cell) (value : Int) :
    h.Shows (c.write cell value) { now with numbers := now.numbers.set n value } where
  length := shows'.length
  sets j s there := by
    obtain ⟨S, contents, represents⟩ := shows'.sets j s there
    have allocated := shows'.allocated cell (List.mem_of_getElem? found)
    refine ⟨S, contents, represents.congr (Cells.size_write c cell value).ge fun other owned => ?_⟩
    have apart' : cell ≠ other := fun same =>
      apart.across s (List.mem_of_getElem? there) cell (List.mem_of_getElem? found) (same ▸ owned)
    rw [Cells.read_write c allocated, if_neg apart']
  allocated other member := (shows'.allocated other member).trans_eq (Cells.size_write ..).symm
  numbers := by
    have allocated := shows'.allocated cell (List.mem_of_getElem? found)
    rw [shows'.numbers]
    refine List.ext_getElem? fun m => ?_
    rw [List.getElem?_set, List.getElem?_map, List.getElem?_map]
    split
    next same =>
      subst same
      rw [found, Option.map_some, Cells.read_write c allocated, if_pos rfl, List.length_map,
        if_pos (List.getElem?_eq_some_iff.1 found).1]
    next other =>
      cases there : h.numbers[m]? with
      | none => rfl
      | some cell' =>
        have apart' : cell ≠ cell' := by
          rintro rfl
          obtain ⟨bound, rfl⟩ := List.getElem?_eq_some_iff.1 found
          obtain ⟨bound', same⟩ := List.getElem?_eq_some_iff.1 there
          exact other ((apart.numbers.getElem_inj_iff).1 same.symm)
        rw [Option.map_some, Option.map_some, Cells.read_write c allocated, if_neg apart']

/-- A new set is empty and takes nothing from the others. -/
theorem Shows.addSet (shows' : h.Shows c now) (capacity : Nat) :
    Shows { h with sets := h.sets ++ [(BitSet.allocate c capacity).1] }
      (BitSet.allocate c capacity).2 { now with sets := now.sets ++ [∅] } := by
  have grown : c.size ≤ (BitSet.allocate c capacity).2.size :=
    (Nat.le_add_right _ _).trans_eq (Cells.size_allocate c _ 0).symm
  have kept : h.Shows (BitSet.allocate c capacity).2 now :=
    shows'.congr grown fun cell old =>
      (Cells.read_allocate c _ 0 cell).trans (if_neg fun new => absurd old (Nat.not_lt.2 new.1))
  refine ⟨by simp [shows'.length], fun j s found => ?_, kept.allocated, kept.numbers⟩
  rcases Nat.lt_trichotomy j h.sets.length with old | rfl | beyond
  · rw [List.getElem?_append_left old] at found
    rw [List.getElem?_append_left (shows'.length ▸ old)]
    exact kept.sets j s found
  · rw [List.getElem?_append_right (Nat.le_refl _), Nat.sub_self] at found
    cases found
    refine ⟨∅, ?_, BitSet.represents_allocate c capacity⟩
    rw [← shows'.length, List.getElem?_append_right (Nat.le_refl _), Nat.sub_self]
    rfl
  · rw [List.getElem?_append_right beyond.le] at found
    have missing : [(BitSet.allocate c capacity).1][j - h.sets.length]? = none :=
      List.getElem?_eq_none (Nat.sub_pos_of_lt beyond)
    cases missing.symm.trans found

theorem Shows.addNumbers (shows' : h.Shows c now) (count : Nat) (value : Int) :
    Shows { h with numbers := h.numbers ++ (List.range count).map (Cells.offset c.size) }
      (c.allocate count value).2
      { now with numbers := now.numbers ++ List.replicate count value } := by
  have grown : c.size ≤ (c.allocate count value).2.size :=
    (Nat.le_add_right _ _).trans_eq (Cells.size_allocate c count value).symm
  have kept : h.Shows (c.allocate count value).2 now :=
    shows'.congr grown fun cell old =>
      (Cells.read_allocate c count value cell).trans
        (if_neg fun new => absurd old (Nat.not_lt.2 new.1))
  refine ⟨kept.length, kept.sets, fun cell member => ?_, ?_⟩
  · rcases List.mem_append.1 member with old | new
    · exact kept.allocated cell old
    · obtain ⟨n, inside, rfl⟩ := List.mem_map.1 new
      rw [Cells.size_allocate]
      exact Nat.add_lt_add_left (List.mem_range.1 inside) _
  · rw [List.map_append, ← kept.numbers, List.map_map]
    refine congrArg _ (List.eq_replicate_iff.2 ⟨by simp, fun v member => ?_⟩).symm
    obtain ⟨n, inside, rfl⟩ := List.mem_map.1 member
    exact (Cells.read_allocate c count value _).trans
      (if_pos ⟨Nat.le_add_right _ _, Nat.add_lt_add_left (List.mem_range.1 inside) _⟩)

/-- A new block has no cell in common with the others. -/
theorem Apart.addSet (apart : h.Apart) (shows' : h.Shows c now) (capacity : Nat) :
    Apart { h with sets := h.sets ++ [(BitSet.allocate c capacity).1] } where
  sets := by
    refine List.pairwise_append.2 ⟨apart.sets, List.pairwise_singleton _ _, fun s member new single cell
      owned shared => ?_⟩
    obtain rfl := List.mem_singleton.1 single
    obtain ⟨j, found⟩ := List.mem_iff_getElem?.1 member
    obtain ⟨S, -, represents⟩ := shows'.sets j s found
    exact Nat.not_lt.2 shared.1 (owned.2.trans_lt represents.allocated)
  numbers := apart.numbers
  across s member cell number := by
    rcases List.mem_append.1 member with old | new
    · exact apart.across s old cell number
    · obtain rfl := List.mem_singleton.1 new
      exact fun owned => Nat.not_lt.2 owned.1 (shows'.allocated cell number)

/-- New integers have no cell in common with the others. -/
theorem Apart.addNumbers (apart : h.Apart) (shows' : h.Shows c now) (count : Nat) :
    Apart { h with numbers := h.numbers ++ (List.range count).map (Cells.offset c.size) } where
  sets := apart.sets
  numbers := by
    refine List.nodup_append.2 ⟨apart.numbers, List.nodup_range.map fun m n same => ?_,
      fun cell old other new => ?_⟩
    · exact Nat.add_left_cancel same
    · obtain ⟨n, -, rfl⟩ := List.mem_map.1 new
      exact ((shows'.allocated cell old).trans_le (Nat.le_add_right _ _)).ne
  across s member cell number := by
    rcases List.mem_append.1 number with old | new
    · exact apart.across s member cell old
    · obtain ⟨n, -, rfl⟩ := List.mem_map.1 new
      obtain ⟨j, found⟩ := List.mem_iff_getElem?.1 member
      obtain ⟨S, -, represents⟩ := shows'.sets j s found
      exact fun owned =>
        Nat.not_lt.2 (Nat.le_add_right _ _) (owned.2.trans_lt represents.allocated)

end Handles

/-! ## The pool against the collection -/

namespace Pool

/-- The pool holds what the collection holds, now and when each checkpoint was created. -/
structure Refines (p : Pool) (q : Collection) : Prop where
  lawful : p.cells.Lawful
  apart : p.Apart
  capacities : q.capacities = p.sets.map BitSet.capacity
  initials : q.initials.length = p.numbers.length
  now : p.Shows p.cells q.now
  checkpoint : p.cells.checkpoint = q.past.length
  past : ∀ k earlier, q.past[k]? = some earlier → p.Shows (p.cells.restore k) (q.grown earlier)
  older : ∀ earlier ∈ q.past, earlier.sets.length ≤ q.capacities.length ∧
    earlier.numbers.length ≤ q.initials.length

variable {p : Pool} {q : Collection}

theorem refines_empty : empty.Refines .empty where
  lawful := Trailed.lawful_empty
  apart := ⟨.nil, .nil, fun _ member => (nomatch member)⟩
  capacities := rfl
  initials := rfl
  now := ⟨rfl, fun _ _ found => (nomatch found), fun _ member => (nomatch member), rfl⟩
  checkpoint := rfl
  past _ _ found := nomatch found
  older _ member := nomatch member

namespace Refines

/-- Writes after the last checkpoint change what is shown now. -/
theorem write (h : p.Refines q) {cells : Cells} {now : Contents} (lawful : cells.Lawful)
    (recovers : Trailed.Recovers cells p.cells) (shows' : p.Shows cells now) :
    Refines { p with cells := cells } { q with now := now } where
  lawful := lawful
  apart := h.apart
  capacities := h.capacities
  initials := h.initials
  now := shows'
  checkpoint := recovers.checkpoint.trans h.checkpoint
  past k earlier found := by
    have inside : k < p.cells.checkpoint := h.checkpoint ▸ (List.getElem?_eq_some_iff.1 found).1
    have view : cells.restore k = p.cells.restore k := recovers.restore k inside
    have then' := h.past k earlier found
    exact view ▸ then'
  older := h.older

theorem addSet (h : p.Refines q) (capacity : Nat) :
    Refines { p with sets := p.sets ++ [(BitSet.allocate p.cells capacity).1]
                     cells := (BitSet.allocate p.cells capacity).2 }
      { q with capacities := q.capacities ++ [capacity], now.sets := q.now.sets ++ [∅] } where
  lawful := (Cells.allocate_snd p.cells _ 0).symm ▸ h.lawful.extend _
  apart := h.apart.addSet h.now capacity
  capacities := by
    rw [h.capacities, List.map_append]
    rfl
  initials := h.initials
  now := h.now.addSet capacity
  checkpoint := h.checkpoint
  past k earlier found := by
    have place := BitSet.allocate_restore h.lawful capacity k
    have new := (h.past k earlier found).addSet capacity
    rw [place] at new
    have fewer := (h.older earlier (List.mem_of_getElem? found)).1
    rw [Collection.grown_addSet q fewer]
    exact new
  older earlier member := by
    obtain ⟨sets, numbers⟩ := h.older earlier member
    exact ⟨sets.trans (by simp), numbers⟩

theorem addNumbers (h : p.Refines q) (count : Nat) (value : Int) :
    Refines
      { p with numbers := p.numbers ++ (List.range count).map (Cells.offset p.cells.size)
               cells := (p.cells.allocate count value).2 }
      { q with initials := q.initials ++ List.replicate count value
               now.numbers := q.now.numbers ++ List.replicate count value } where
  lawful := (Cells.allocate_snd p.cells count value).symm ▸ h.lawful.extend _
  apart := h.apart.addNumbers h.now count
  capacities := h.capacities
  initials := by simp [h.initials]
  now := h.now.addNumbers count value
  checkpoint := h.checkpoint
  past k earlier found := by
    have new := (h.past k earlier found).addNumbers count value
    rw [Trailed.size_restore, ← Cells.restore_allocate h.lawful] at new
    have fewer := (h.older earlier (List.mem_of_getElem? found)).2
    rw [Collection.grown_addNumbers q fewer]
    exact new
  older earlier member := by
    obtain ⟨sets, numbers⟩ := h.older earlier member
    exact ⟨sets, numbers.trans (by simp)⟩

theorem mark (h : p.Refines q) :
    Refines { p with cells := Trailed.mark p.cells } { q with past := q.past ++ [q.now] } where
  lawful := h.lawful.mark
  apart := h.apart
  capacities := h.capacities
  initials := h.initials
  now := h.now.congr (Nat.le_refl _) fun _ _ => rfl
  checkpoint := by
    rw [Trailed.checkpoint_mark, h.checkpoint, List.length_append, List.length_singleton]
  past k earlier found := by
    rcases Nat.lt_trichotomy k q.past.length with old | rfl | beyond
    · rw [List.getElem?_append_left old] at found
      have view : Trailed.restore (Trailed.mark p.cells) k = p.cells.restore k :=
        Trailed.restore_mark p.cells (h.checkpoint ▸ old.le)
      have shown := h.past k earlier found
      exact view ▸ shown
    · rw [List.getElem?_append_right (Nat.le_refl _), Nat.sub_self] at found
      obtain rfl : q.now = earlier := Option.some.inj found
      have view : Trailed.restore (Trailed.mark p.cells) q.past.length = p.cells := by
        rw [← h.checkpoint]
        exact Trailed.restore_mark_self p.cells
      have complete : Collection.grown { q with past := q.past ++ [q.now] } q.now = q.now :=
        Collection.grown_eq_self _ (by simp [h.now.length, h.capacities])
          (by simp [h.now.numbers, h.initials])
      rw [complete, view]
      exact h.now
    · rw [List.getElem?_append_right beyond.le] at found
      have missing : [q.now][k - q.past.length]? = none :=
        List.getElem?_eq_none (Nat.sub_pos_of_lt beyond)
      cases missing.symm.trans found
  older earlier member := by
    rcases List.mem_append.1 member with old | new
    · exact h.older earlier old
    · obtain rfl := List.mem_singleton.1 new
      exact ⟨by simp [h.now.length, h.capacities], by simp [h.now.numbers, h.initials]⟩

theorem revert (h : p.Refines q) {k : Nat} {earlier : Contents} (found : q.past[k]? = some earlier) :
    Refines { p with cells := p.cells.restore k }
      { q with now := q.grown earlier, past := q.past.take k } where
  lawful := h.lawful.restore k
  apart := h.apart
  capacities := h.capacities
  initials := h.initials
  now := h.past k earlier found
  checkpoint := by rw [Trailed.checkpoint_restore, h.checkpoint, List.length_take]
  past j other found' := by
    have before : j < k := by
      obtain ⟨inside, -⟩ := List.getElem?_eq_some_iff.1 found'
      exact lt_of_lt_of_le inside (List.length_take_le _ _)
    rw [List.getElem?_take_of_lt before] at found'
    have view : Trailed.restore (p.cells.restore k) j = p.cells.restore j :=
      Trailed.restore_restore p.cells before.le
    have shown := h.past j other found'
    exact view ▸ shown
  older other member := h.older other (List.mem_of_mem_take member)

/-- A set exists in the pool and in the collection, or in neither. -/
theorem set_cases (h : p.Refines q) (j : Nat) :
    (∃ s S, p.sets[j]? = some s ∧ q.now.sets[j]? = some S ∧ q.capacities[j]? = some s.capacity ∧
      s.Represents p.cells S) ∨
      p.sets[j]? = none ∧ q.now.sets[j]? = none ∧ q.capacities[j]? = none := by
  rw [h.capacities, List.getElem?_map]
  cases found : p.sets[j]? with
  | none =>
    have outside := List.getElem?_eq_none_iff.1 found
    exact .inr ⟨rfl, List.getElem?_eq_none (h.now.length.trans_le outside), rfl⟩
  | some s =>
    obtain ⟨S, contents, represents⟩ := h.now.sets j s found
    exact .inl ⟨s, S, rfl, contents, rfl, represents⟩

/-- An integer exists in the pool and in the collection, or in neither. -/
theorem number_cases (h : p.Refines q) (n : Nat) :
    (∃ cell, p.numbers[n]? = some cell ∧ cell < p.cells.size ∧
      q.now.numbers[n]? = some (p.cells.read cell)) ∨
      p.numbers[n]? = none ∧ q.now.numbers[n]? = none := by
  rw [h.now.numbers, List.getElem?_map]
  cases found : p.numbers[n]? with
  | none => exact .inr ⟨rfl, rfl⟩
  | some cell => exact .inl ⟨cell, rfl, h.now.allocated cell (List.mem_of_getElem? found), rfl⟩

/-- One operation is answered as by the collection. -/
theorem perform (h : p.Refines q) (op : Operation) :
    Parallel (Same Refines) (p.perform op) (q.perform op) := by
  cases op with
  | addSet capacity => exact .ok ⟨rfl, h.addSet capacity⟩
  | addNumbers count value => exact .ok ⟨rfl, h.addNumbers count value⟩
  | insert j i =>
    rcases h.set_cases j with ⟨s, S, found, contents, capacity, represents⟩ | ⟨missing, absent, none'⟩
    · simp only [Pool.perform, Collection.perform, found, contents, capacity, require]
      by_cases inside : i < s.capacity
      · obtain ⟨changed, becomes⟩ := represents.insert inside
        rw [decide_eq_true inside]
        refine .ok ⟨congrArg some changed, ?_⟩
        exact h.write (s.lawful_insert h.lawful i) (s.recovers_insert p.cells i)
          (h.now.becomes h.apart found becomes)
      · rw [decide_eq_false inside]
        exact .error .precondition
    · simp only [Pool.perform, Collection.perform, missing, absent, none']
      exact .error .outOfRange
  | remove j i =>
    rcases h.set_cases j with ⟨s, S, found, contents, -, represents⟩ | ⟨missing, absent, -⟩
    · simp only [Pool.perform, Collection.perform, found, contents]
      obtain ⟨changed, becomes⟩ := represents.remove i
      refine .ok ⟨congrArg some changed, ?_⟩
      exact h.write (s.lawful_remove h.lawful i) (s.recovers_remove p.cells i)
        (h.now.becomes h.apart found becomes)
    · simp only [Pool.perform, Collection.perform, missing, absent]
      exact .error .outOfRange
  | assign n value =>
    rcases h.number_cases n with ⟨cell, found, exist, contents⟩ | ⟨missing, absent⟩
    · simp only [Pool.perform, Collection.perform, found, contents, Cells.assign_eq exist]
      refine .ok ⟨rfl, ?_⟩
      exact h.write (Cells.lawful_write h.lawful _ _) (Cells.recovers_write _ _ _)
        (h.now.write h.apart found value)
    · simp only [Pool.perform, Collection.perform, missing, absent]
      exact .error .outOfRange
  | increase n amount =>
    rcases h.number_cases n with ⟨cell, found, exist, contents⟩ | ⟨missing, absent⟩
    · simp only [Pool.perform, Collection.perform, found, contents, Cells.increase_eq exist]
      refine .ok ⟨rfl, ?_⟩
      exact h.write (Cells.lawful_write h.lawful _ _) (Cells.recovers_write _ _ _)
        (h.now.write h.apart found _)
    · simp only [Pool.perform, Collection.perform, missing, absent]
      exact .error .outOfRange
  | mark => exact .ok ⟨rfl, h.mark⟩
  | revert k =>
    cases found : q.past[k]? with
    | none =>
      have late : p.cells.checkpoint ≤ k := h.checkpoint.trans_le (List.getElem?_eq_none_iff.1 found)
      simp only [Pool.perform, Collection.perform, found, Cells.revert_eq_error late]
      exact .error .precondition
    | some earlier =>
      have early : k < p.cells.checkpoint := h.checkpoint ▸ (List.getElem?_eq_some_iff.1 found).1
      have back : p.cells.revert k = .ok (p.cells.restore k) := h.lawful.revert early
      simp only [Pool.perform, Collection.perform, found, back]
      exact .ok ⟨rfl, h.revert found⟩

end Refines

/-- All questions to the sets and integers of a pool have the answers that a collection gives. -/
structure Tells (p : Pool) (q : Collection) : Prop where
  capacities : q.capacities = p.sets.map BitSet.capacity
  sets : List.Forall₂ (fun (s : BitSet) S => s.Reads p.cells S) p.sets q.now.sets
  numbers : p.numbers.map p.cells.fetch = q.now.numbers.map .ok
  checkpoint : p.cells.checkpoint = q.past.length

theorem Refines.tells (h : p.Refines q) : p.Tells q where
  capacities := h.capacities
  sets := by
    refine List.forall₂_iff_get.2 ⟨h.now.length.symm, fun j inside inside' => ?_⟩
    obtain ⟨S, contents, represents⟩ := h.now.sets j _ (List.getElem?_eq_getElem inside)
    obtain ⟨_, rfl⟩ := List.getElem?_eq_some_iff.1 contents
    exact represents.reads
  numbers := by
    rw [h.now.numbers, List.map_map]
    exact List.map_congr_left fun cell member => Cells.fetch_eq (h.now.allocated cell member)
  checkpoint := h.checkpoint

/-- **Bit sets that share their cells are finite sets**: whatever is done to them and to the integers
beside them, they answer as sets and integers of their own do, and going back gives all of them the
contents that they had. -/
theorem answers_as_collection (script : List Operation) :
    Parallel (Same Tells) (empty.run script) (Collection.empty.run script) :=
  (Parallel.inTurn (fun _ _ op refines => Refines.perform refines op) refines_empty script).mono
    fun _ _ same => ⟨same.1, same.2.tells⟩

/-- A set of two words, one without elements and one of a full word, with integers between them; some of
what is done after the checkpoint is left behind. -/
def mixedScript : List Operation :=
  [.addSet 70, .addNumbers 2 5, .addSet 0, .insert 0 63, .insert 0 64, .insert 0 63, .mark,
    .addSet 64, .insert 2 63, .remove 0 63, .remove 0 900, .assign 1 (-3), .mark, .insert 0 69,
    .increase 0 4, .revert 1, .insert 0 0, .revert 0]

theorem mixed_answers_as_collection :
    ∃ p, empty.run mixedScript =
        .ok ([none, none, none, some true, some true, some false, none, none, some true, some true,
          some false, none, none, some true, none, none, some true, none], p) ∧
      p.Tells ⟨[70, 0, 64], [5, 5], ⟨[{64, 63}, ∅, ∅], [5, 5]⟩, []⟩ := by
  have told := answers_as_collection mixedScript
  have collected : Collection.empty.run mixedScript =
      .ok ([none, none, none, some true, some true, some false, none, none, some true, some true,
        some false, none, none, some true, none, none, some true, none],
        ⟨[70, 0, 64], [5, 5], ⟨[{64, 63}, ∅, ∅], [5, 5]⟩, []⟩) := by
    rfl
  rw [collected] at told
  obtain ⟨⟨answers, p⟩, done, same, tells⟩ := told.exists_eq_ok
  obtain rfl := same
  exact ⟨p, done, tells⟩

end Pool

end Stowage
