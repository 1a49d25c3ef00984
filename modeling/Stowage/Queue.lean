import Stowage.Fault
import Stowage.Sorting

/-!
# The queue of propagators

The queue holds the propagators that wait to be called, each at most once.  It has one line for
every priority level; the next propagator is the first of the most urgent line that is not empty.
Beside the lines it keeps what would take long to read off them: who waits, how many wait, and which
lines are not empty.

* `Queue.Tables`, `Queue.Tables.Agree` — what a queue keeps, and that it agrees with the lines.
* `Queue.enqueue`, `Queue.pop`, `Queue.clear` — the operations.
* `Queue.contains`, `Queue.isEmpty` — whether a propagator, or any, waits.
-/

set_option autoImplicit false

namespace Stowage

/-- How urgent the calls of a propagator are. -/
inductive Priority where
  | high
  | medium
  | low
  | veryLow
  deriving DecidableEq, Repr

/-- The number of the level of a priority; the most urgent level is 0. -/
def Priority.level : Priority → Nat
  | .high => 0
  | .medium => 1
  | .low => 2
  | .veryLow => 3

/-- What a queue keeps. -/
structure Queue.Tables where
  /-- The lines, most urgent first; each in the order of arrival. -/
  lines : List (List Nat)
  /-- The propagators marked as waiting. -/
  marked : List Nat
  /-- The number of propagators that wait. -/
  count : Nat
  /-- The levels whose lines are not empty, most urgent first. -/
  levels : List Nat
  deriving DecidableEq, Repr

namespace Queue.Tables

/-- Puts propagator `p`, which does not wait, at the end of the line of a level.  The level of an empty
line is added to those that are not empty. -/
def enter (t : Tables) (p level : Nat) : Tables where
  lines := t.lines.modify level (· ++ [p])
  marked := p :: t.marked
  count := t.count + 1
  levels :=
    if (t.lines[level]?.getD []).isEmpty then
      Sorting.insert (fun a b => decide (a ≤ b)) level t.levels
    else t.levels

/-- Takes the first propagator of the line of the most urgent level.  The level is dropped when its line
becomes empty. -/
def take (t : Tables) : Option (Nat × Tables) :=
  match t.levels with
  | [] => none
  | level :: later =>
    match t.lines[level]?.getD [] with
    | [] => none
    | p :: line =>
      some (p,
        { lines := t.lines.set level line
          marked := t.marked.erase p
          count := t.count - 1
          levels := if line.isEmpty then later else level :: later })

def clear (t : Tables) : Tables := ⟨t.lines.map fun _ => [], [], 0, []⟩

/-- Everything beside the lines agrees with them. -/
structure Agree (t : Tables) : Prop where
  nodup : t.lines.flatten.Nodup
  marked : t.marked.Perm t.lines.flatten
  count : t.count = t.lines.flatten.length
  ascending : t.levels.Pairwise (· < ·)
  levels : ∀ level, level ∈ t.levels ↔ t.lines[level]?.getD [] ≠ []

end Queue.Tables

/-- The propagators that wait, in one line per priority level. -/
structure Queue extends Queue.Tables where
  agree : toTables.Agree
  deriving DecidableEq, Repr

namespace Queue

/-! ## The tables after each operation -/

theorem flatten_modify {α : Type} (lines : List (List α)) (a : α) {level : Nat}
    (h : level < lines.length) : (lines.modify level (· ++ [a])).flatten.Perm (a :: lines.flatten) := by
  induction lines generalizing level with
  | nil => simp at h
  | cons line lines ih =>
    cases level with
    | zero =>
      simp only [List.modify_zero_cons, List.flatten_cons, List.append_assoc, List.singleton_append]
      exact List.perm_middle
    | succ level =>
      simp only [List.modify_succ_cons, List.flatten_cons]
      exact ((ih (by simpa using h)).append_left line).trans List.perm_middle

/-- Where all earlier lines are empty, the first element of a line is the first of all. -/
theorem flatten_set {α : Type} (lines : List (List α)) (a : α) (line : List α) {level : Nat}
    (here : lines[level]?.getD [] = a :: line) (before : ∀ i < level, lines[i]?.getD [] = []) :
    lines.flatten = a :: (lines.set level line).flatten := by
  induction lines generalizing level with
  | nil => simp at here
  | cons first lines ih =>
    cases level with
    | zero =>
      simp only [List.getElem?_cons_zero, Option.getD_some] at here
      simp [here]
    | succ level =>
      have empty : first = [] := by simpa using before 0 (Nat.succ_pos level)
      simp only [List.getElem?_cons_succ] at here
      simpa [empty] using ih here fun i hi => by simpa using before (i + 1) (Nat.succ_lt_succ hi)

/-- A number that is not in a strictly ascending list is inserted at its place. -/
theorem ascending_insert {level : Nat} {levels : List Nat} (h : levels.Pairwise (· < ·))
    (new : level ∉ levels) :
    (Sorting.insert (fun a b => decide (a ≤ b)) level levels).Pairwise (· < ·) := by
  induction levels with
  | nil => simp [Sorting.insert]
  | cons first later ih =>
    obtain ⟨least, rest⟩ := List.pairwise_cons.1 h
    obtain ⟨other, absent⟩ := not_or.1 (mt List.mem_cons.2 new)
    rw [Sorting.insert]
    split
    next before =>
      have less : level < first := Nat.lt_of_le_of_ne (of_decide_eq_true before) other
      refine List.pairwise_cons.2 ⟨fun l member => ?_, h⟩
      rcases List.mem_cons.1 member with rfl | member
      · exact less
      · exact Nat.lt_trans less (least l member)
    next after =>
      have less : first < level := Nat.lt_of_not_le fun le => after (decide_eq_true le)
      refine List.pairwise_cons.2 ⟨fun l member => ?_, ih rest absent⟩
      rcases List.mem_cons.1 ((Sorting.insert_perm _ _ _).mem_iff.1 member) with rfl | member
      · exact less
      · exact least l member

namespace Tables.Agree

variable {t : Tables}

theorem mem_marked (h : t.Agree) {p : Nat} : p ∈ t.marked ↔ p ∈ t.lines.flatten := h.marked.mem_iff

theorem ofLevels (levels : Nat) : Agree ⟨List.replicate levels [], [], 0, []⟩ := by
  have empty : (List.replicate levels ([] : List Nat)).flatten = [] := by simp
  refine ⟨?_, ?_, ?_, .nil, fun level => ?_⟩
  · simp [empty]
  · simp [empty]
  · simp [empty]
  · simp only [List.not_mem_nil, List.getElem?_replicate, false_iff, ne_eq, Decidable.not_not]
    split <;> rfl

theorem clear (t : Tables) : t.clear.Agree := by
  have empty : t.clear.lines.flatten = [] := by
    simp [Tables.clear]
  refine ⟨?_, ?_, ?_, .nil, fun level => ?_⟩
  · rw [empty]
    exact .nil
  · rw [empty]
    exact .refl _
  · rw [empty]
    rfl
  · simp only [Tables.clear, List.not_mem_nil, List.getElem?_map, false_iff, ne_eq,
      Decidable.not_not]
    cases t.lines[level]? <;> rfl

theorem enter (h : t.Agree) {p level : Nat} (new : p ∉ t.marked) (exist : level < t.lines.length) :
    (t.enter p level).Agree := by
  have perm := flatten_modify t.lines p exist
  have line (l : Nat) : (t.lines.modify level (· ++ [p]))[l]?.getD [] ≠ [] ↔
      l = level ∨ t.lines[l]?.getD [] ≠ [] := by
    rw [List.getElem?_modify]
    by_cases same : level = l
    · subst same
      simp [exist]
    · simp [same, Ne.symm same]
  refine ⟨?_, ?_, ?_, ?_, fun l => ?_⟩
  · exact perm.nodup_iff.2 (List.nodup_cons.2 ⟨fun member => new (h.mem_marked.2 member), h.nodup⟩)
  · exact (h.marked.cons p).trans perm.symm
  · rw [Tables.enter, perm.length_eq, List.length_cons, h.count]
  · simp only [Tables.enter]
    split
    next empty =>
      exact ascending_insert h.ascending fun member =>
        (h.levels level).1 member (List.isEmpty_iff.1 empty)
    next => exact h.ascending
  · simp only [Tables.enter, line]
    split
    next =>
      rw [(Sorting.insert_perm _ _ _).mem_iff, List.mem_cons, h.levels]
    next filled =>
      rw [h.levels]
      refine ⟨.inr, ?_⟩
      rintro (rfl | other)
      · exact fun empty => filled (List.isEmpty_iff.2 empty)
      · exact other

/-- No level is listed if no line has anybody in it. -/
theorem levels_eq_nil_iff (h : t.Agree) : t.levels = [] ↔ t.lines.flatten = [] := by
  rw [List.flatten_eq_nil_iff]
  constructor
  · intro none line member
    obtain ⟨level, exist, rfl⟩ := List.mem_iff_getElem.1 member
    apply Decidable.byContradiction
    intro filled
    have listed := (h.levels level).2 (by simpa [exist] using filled)
    rw [none] at listed
    cases listed
  · intro empty
    refine List.eq_nil_iff_forall_not_mem.2 fun level listed => (h.levels level).1 listed ?_
    cases found : t.lines[level]? with
    | none => rfl
    | some line => exact empty line (List.mem_of_getElem? found)

/-- The line of the most urgent level is not empty, and all lines before it are. -/
theorem take_eq (h : t.Agree) {level : Nat} {later : List Nat} (levels : t.levels = level :: later) :
    ∃ p line, t.lines[level]?.getD [] = p :: line ∧ t.take = some (p,
        { lines := t.lines.set level line
          marked := t.marked.erase p
          count := t.count - 1
          levels := if line.isEmpty then later else level :: later }) ∧
      t.lines.flatten = p :: (t.lines.set level line).flatten := by
  have filled : t.lines[level]?.getD [] ≠ [] := (h.levels level).1 (levels ▸ List.mem_cons_self)
  obtain ⟨least, -⟩ := List.pairwise_cons.1 (levels ▸ h.ascending)
  have before : ∀ i < level, t.lines[i]?.getD [] = [] := by
    intro i hi
    apply Decidable.byContradiction
    intro other
    have member := (h.levels i).2 other
    rw [levels] at member
    rcases List.mem_cons.1 member with rfl | member
    · exact absurd hi (Nat.lt_irrefl _)
    · exact absurd (least i member) (Nat.lt_asymm hi)
  cases here : t.lines[level]?.getD [] with
  | nil => exact absurd here filled
  | cons p line =>
    exact ⟨p, line, rfl, by simp only [take, levels, here], flatten_set _ p line here before⟩

theorem take (h : t.Agree) {p : Nat} {rest : Tables} (taken : t.take = some (p, rest)) :
    rest.Agree ∧ t.lines.flatten = p :: rest.lines.flatten := by
  cases levels : t.levels with
  | nil => simp [Tables.take, levels] at taken
  | cons level later =>
    obtain ⟨p', line, here, taken', flat⟩ := h.take_eq levels
    cases taken.symm.trans taken'
    obtain ⟨least, ascending⟩ := List.pairwise_cons.1 (levels ▸ h.ascending)
    have nodup := List.nodup_cons.1 (flat ▸ h.nodup)
    have exist : level < t.lines.length := by
      apply Nat.lt_of_not_le
      intro outside
      simp [List.getElem?_eq_none outside] at here
    refine ⟨⟨nodup.2, ?_, ?_, ?_, fun l => ?_⟩, flat⟩
    · exact (List.cons_perm_iff_perm_erase.1 ((h.marked.trans (flat ▸ .refl _)).symm)).2.symm
    · simp only [h.count, flat, List.length_cons, Nat.add_sub_cancel]
    · simp only
      split
      · exact ascending
      · exact levels ▸ h.ascending
    · simp only [List.getElem?_set]
      have old := h.levels l
      rw [levels, List.mem_cons] at old
      have notLater : level ∉ later := fun member => Nat.lt_irrefl _ (least level member)
      by_cases same : level = l
      · subst same
        simp only [exist, if_true, Option.getD_some]
        split
        next empty => simp [notLater, List.isEmpty_iff.1 empty]
        next filled => simpa [List.isEmpty_iff] using filled
      · simp only [same, if_false]
        rw [← old]
        split <;> simp [Ne.symm same]

end Tables.Agree

/-! ## The operations -/

/-- An empty queue with the given number of priority levels. -/
def ofLevels (levels : Nat) : Queue := ⟨⟨List.replicate levels [], [], 0, []⟩, .ofLevels levels⟩

/-- An empty queue with a level for every `Priority`. -/
def empty : Queue := ofLevels 4

/-- The propagators that wait, in the order in which they will be called. -/
def toList (q : Queue) : List Nat := q.lines.flatten

def isEmpty (q : Queue) : Bool := q.count == 0

def contains (q : Queue) (p : Nat) : Bool := q.marked.contains p

/-- Puts propagator `p` at the end of the line of a level.  Nothing happens if it waits already,
in whatever line; otherwise the level has to exist. -/
def enqueue (q : Queue) (p : Nat) (level : Nat) : Except Fault Queue :=
  if waits : p ∈ q.marked then .ok q
  else if exist : level < q.lines.length then .ok ⟨q.enter p level, q.agree.enter waits exist⟩
  else .error .outOfRange

/-- The propagator to be called next and the queue without it. -/
def pop (q : Queue) : Option (Nat × Queue) :=
  q.take.pmap (fun (p, rest) agree => (p, ⟨rest, agree⟩)) fun _ taken => (q.agree.take taken).1

def clear (q : Queue) : Queue := ⟨q.toTables.clear, .clear _⟩

/-! ## The order of the calls -/

theorem pop_eq_some_iff {q rest : Queue} {p : Nat} :
    q.pop = some (p, rest) ↔ q.take = some (p, rest.toTables) := by
  unfold pop
  constructor
  · intro h
    obtain ⟨⟨p', tables⟩, taken, same⟩ := Option.pmap_eq_some_iff.1 h
    obtain ⟨taken', same⟩ := same
    cases same
    exact taken'
  · intro h
    exact Option.pmap_eq_some_iff.2 ⟨_, _, h, rfl⟩

/-- The propagator taken is the first of those that wait, and the others keep their order. -/
theorem toList_of_pop {q rest : Queue} {p : Nat} (h : q.pop = some (p, rest)) :
    q.toList = p :: rest.toList := (q.agree.take (pop_eq_some_iff.1 h)).2

theorem pop_eq_none_iff {q : Queue} : q.pop = none ↔ q.toList = [] := by
  rw [toList, ← q.agree.levels_eq_nil_iff]
  unfold pop
  rw [Option.pmap_eq_none_iff]
  cases levels : q.levels with
  | nil => simp [Tables.take, levels]
  | cons level later =>
    obtain ⟨p, line, -, taken, -⟩ := q.agree.take_eq levels
    simp [taken]

end Queue

end Stowage
