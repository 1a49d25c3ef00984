import Stowage.Proofs.Waiting

/-!
# Who is called next

The queue answers as if it kept one list of those that wait, in the order of their arrival, each with
its level, and looked through all of it for whom to call next.  This roster has no lines, marks, counter
or levels that could get out of step.

* `Roster.next?` — the first to arrive of those with the smallest level.
* `Queue.Holds` — the lines of a queue are those of a roster.
* `Queue.Holds.enqueue`, `Queue.Holds.pop`, `Queue.holds_clear` — one lemma for each operation.
* `Roster.balance` — whoever enters is taken once, unless the roster is cleared before.
* `Queue.answers_as_roster` — all requests are answered as by a roster.
-/

set_option autoImplicit false

namespace Stowage

/-- What is asked of a queue. -/
inductive Queue.Request where
  /-- Propagator `p` is to wait at a level. -/
  | enqueue (p level : Nat)
  /-- The propagator to be called next is to be taken. -/
  | pop
  /-- Nobody is to wait any longer. -/
  | clear
  deriving DecidableEq, Repr

open Queue (Request)

/-- Those that wait, in the order of their arrival, each with its level. -/
abbrev Roster := List (Nat × Nat)

namespace Roster

/-- Those that wait, without their levels. -/
def ids (w : Roster) : List Nat := w.map Prod.fst

/-- The first to arrive of those whose level is the smallest. -/
def next? (w : Roster) : Option (Nat × Nat) :=
  w.find? fun e => w.all fun other => decide (e.2 ≤ other.2)

/-- The answer to a request, which is who was taken, and the roster afterwards. -/
def answer (w : Roster) : Request → Option Nat × Roster
  | .enqueue p level => (none, if p ∈ w.ids then w else w ++ [(p, level)])
  | .pop =>
    match w.next? with
    | none => (none, w)
    | some e => (some e.1, w.erase e)
  | .clear => (none, [])

/-- The answers to requests made one after the other, and the roster afterwards. -/
def answers (w : Roster) : List Request → List (Option Nat) × Roster
  | [] => ([], w)
  | r :: requests =>
    let (taken, w) := w.answer r
    let (later, w) := w.answers requests
    (taken :: later, w)

/-- Every request with the roster that it meets. -/
def meets (w : Roster) : List Request → List (Request × Roster)
  | [] => []
  | r :: requests => (r, w) :: (w.answer r).2.meets requests

/-- Propagator `p`, which does not wait, enters by the request. -/
def Enters (p : Nat) : Request × Roster → Bool
  | (.enqueue q _, w) => decide (q = p ∧ p ∉ w.ids)
  | (.pop, _) => false
  | (.clear, _) => false

/-- Propagator `p`, which waits, is dropped by the request. -/
def Drops (p : Nat) : Request × Roster → Bool
  | (.enqueue _ _, _) => false
  | (.pop, _) => false
  | (.clear, w) => decide (p ∈ w.ids)

/-! ## Who leaves the roster -/

variable {w : Roster}

@[simp] theorem ids_nil : ids [] = [] := rfl

theorem ids_append (w : Roster) (p level : Nat) : ids (w ++ [(p, level)]) = w.ids ++ [p] := by
  simp [ids]

theorem answer_pop_of_none (h : w.next? = none) : w.answer .pop = (none, w) := by
  simp only [answer, h]

theorem answer_pop_of_some {e : Nat × Nat} (h : w.next? = some e) :
    w.answer .pop = (some e.1, w.erase e) := by
  simp only [answer, h]

theorem mem_of_next? {e : Nat × Nat} (h : w.next? = some e) : e ∈ w := List.mem_of_find?_eq_some h

theorem perm_erase {e : Nat × Nat} (member : e ∈ w) : w.ids.Perm (e.1 :: ids (w.erase e)) :=
  (List.perm_cons_erase member).map Prod.fst

theorem nodup_answer (nodup : w.ids.Nodup) (r : Request) : (w.answer r).2.ids.Nodup := by
  cases r with
  | enqueue p level =>
    simp only [answer]
    split
    next => exact nodup
    next absent =>
      rw [ids_append]
      exact (List.perm_append_singleton _ _).nodup_iff.2 (List.nodup_cons.2 ⟨absent, nodup⟩)
  | pop =>
    cases found : w.next? with
    | none =>
      rw [answer_pop_of_none found]
      exact nodup
    | some e =>
      rw [answer_pop_of_some found]
      exact (List.nodup_cons.1 ((perm_erase (mem_of_next? found)).nodup_iff.1 nodup)).2
  | clear => exact List.nodup_nil

/-- One request: whoever waits or enters is taken, dropped or waits afterwards. -/
theorem balance_answer (nodup : w.ids.Nodup) (p : Nat) (r : Request) :
    w.ids.count p + (if Enters p (r, w) then 1 else 0) =
      (if (w.answer r).1 == some p then 1 else 0) + (if Drops p (r, w) then 1 else 0) +
        (w.answer r).2.ids.count p := by
  cases r with
  | enqueue q level =>
    simp only [answer, Enters, Drops]
    by_cases waits : q ∈ w.ids
    · by_cases same : q = p
      · subst same
        simp [waits]
      · simp [waits, same]
    · by_cases same : q = p
      · subst same
        simp [waits, ids_append, List.count_append]
      · simp [waits, same, ids_append, List.count_append]
  | pop =>
    simp only [Enters, Drops]
    cases found : w.next? with
    | none => simp [answer_pop_of_none found]
    | some e =>
      rw [answer_pop_of_some found, (perm_erase (mem_of_next? found)).count_eq p, List.count_cons]
      by_cases same : e.1 = p
      · simp [same, Nat.add_comm]
      · simp [same]
  | clear =>
    simp only [answer, Enters, Drops]
    by_cases waits : p ∈ w.ids
    · rw [List.count_eq_one_of_mem nodup waits]
      simp [waits]
    · rw [List.count_eq_zero_of_not_mem waits]
      simp [waits]

/-- **Whoever enters is taken once**, unless dropped before or still waiting: the times that propagator
`p` waited at first or entered are those that it was taken, was dropped or waits at last. -/
theorem balance (nodup : w.ids.Nodup) (p : Nat) (requests : List Request) :
    w.ids.count p + (w.meets requests).countP (Enters p) =
      (w.answers requests).1.count (some p) + (w.meets requests).countP (Drops p) +
        (w.answers requests).2.ids.count p := by
  induction requests generalizing w with
  | nil => simp [meets, answers]
  | cons r requests ih =>
    have first := balance_answer nodup p r
    have later := ih (nodup_answer nodup r)
    simp only [meets, answers, List.countP_cons, List.count_cons]
    omega

end Roster

namespace Queue

/-- The answer to a request, which is who was taken, and the queue afterwards. -/
def answer (q : Queue) : Request → Except Fault (Option Nat × Queue)
  | .enqueue p level => do
    let after ← q.enqueue p level
    return (none, after)
  | .pop =>
    match q.pop with
    | none => return (none, q)
    | some (p, rest) => return (some p, rest)
  | .clear => return (none, q.clear)

/-- The answers to requests made one after the other, and the queue afterwards. -/
def answers (q : Queue) : List Request → Except Fault (List (Option Nat) × Queue)
  | [] => return ([], q)
  | r :: requests => do
    let (taken, q) ← q.answer r
    let (later, q) ← q.answers requests
    return (taken :: later, q)

/-- Every line consists of those in the roster that wait at its level, in the same order. -/
structure Holds (q : Queue) (w : Roster) : Prop where
  line : ∀ level, q.lines[level]?.getD [] = Roster.ids (w.filter fun e => decide (e.2 = level))
  levels : ∀ e ∈ w, e.2 < q.lines.length
  nodup : w.ids.Nodup

variable {q : Queue} {w : Roster}

theorem holds_ofLevels (n : Nat) : (ofLevels n).Holds [] := by
  refine ⟨fun level => ?_, fun e member => (nomatch member), List.nodup_nil⟩
  show (List.replicate n ([] : List Nat))[level]?.getD [] = []
  rw [List.getElem?_replicate]
  split
  · rfl
  · rfl

namespace Holds

theorem mem_toList_iff (h : q.Holds w) (p : Nat) : p ∈ q.toList ↔ p ∈ w.ids := by
  have inLine (level : Nat) : p ∈ q.lines[level]?.getD [] ↔ (p, level) ∈ w := by
    rw [h.line]
    simp [Roster.ids]
  constructor
  · intro member
    obtain ⟨line, found, waits⟩ := List.mem_flatten.1 member
    obtain ⟨level, exist, rfl⟩ := List.mem_iff_getElem.1 found
    have waits : (p, level) ∈ w := (inLine level).1 (by simpa [exist] using waits)
    exact List.mem_map.2 ⟨_, waits, rfl⟩
  · intro member
    obtain ⟨⟨_, level⟩, waits, rfl⟩ := List.mem_map.1 member
    have exist : level < q.lines.length := h.levels _ waits
    have waits := (inLine level).2 waits
    rw [List.getElem?_eq_getElem exist] at waits
    exact List.mem_flatten.2 ⟨_, List.getElem_mem exist, waits⟩

theorem toList_eq_nil_iff (h : q.Holds w) : q.toList = [] ↔ w = [] := by
  have none : q.toList = [] ↔ w.ids = [] := by
    simp only [List.eq_nil_iff_forall_not_mem, h.mem_toList_iff]
  rw [none, Roster.ids, List.map_eq_nil_iff]

/-- Whoever waits is left alone; anybody else is put at the end of the line and of the roster. -/
theorem enqueue (h : q.Holds w) (p : Nat) {level : Nat} (exist : level < q.lines.length) :
    ∃ after, q.enqueue p level = .ok after ∧ after.lines.length = q.lines.length ∧
      after.Holds (w.answer (.enqueue p level)).2 := by
  have waits : p ∈ q.marked ↔ p ∈ w.ids := q.agree.mem_marked.trans (h.mem_toList_iff p)
  have nodup := Roster.nodup_answer h.nodup (.enqueue p level)
  simp only [Queue.enqueue, waits, exist, dite_true, Roster.answer] at nodup ⊢
  split
  next present => exact ⟨q, rfl, rfl, h⟩
  next absent =>
    rw [if_neg absent] at nodup
    refine ⟨_, rfl, List.length_modify .., fun l => ?_, fun e member => ?_, nodup⟩
    · simp only [Tables.enter, List.getElem?_modify, List.filter_append]
      have old := h.line l
      by_cases same : level = l
      · subst same
        rw [List.getElem?_eq_getElem exist] at old ⊢
        simp only [Option.getD_some] at old
        simp [old, Roster.ids]
      · simpa [same, Roster.ids] using old
    · show e.2 < (q.lines.modify level (· ++ [p])).length
      rw [List.length_modify]
      rcases List.mem_append.1 member with member | member
      · exact h.levels e member
      · obtain rfl := List.mem_singleton.1 member
        exact exist

/-- The first of the most urgent line is the first to arrive of those with the smallest level. -/
theorem next?_eq (h : q.Holds w) {p level : Nat} {later line : List Nat}
    (levels : q.levels = level :: later) (here : q.lines[level]?.getD [] = p :: line) :
    w.next? = some (p, level) ∧
      ∃ rest, w.filter (fun e => decide (e.2 = level)) = (p, level) :: rest ∧ Roster.ids rest = line := by
  obtain ⟨⟨first, level'⟩, rest, filtered⟩ :
      ∃ e rest, w.filter (fun e => decide (e.2 = level)) = e :: rest := by
    cases filtered : w.filter fun e => decide (e.2 = level) with
    | nil => simp [h.line, filtered, Roster.ids] at here
    | cons e rest => exact ⟨e, rest, rfl⟩
  have atLevel : (first, level') ∈ w ∧ level' = level := by
    have member : (first, level') ∈ w.filter fun e => decide (e.2 = level) :=
      filtered ▸ List.mem_cons_self
    simpa using List.mem_filter.1 member
  obtain ⟨waits, rfl⟩ := atLevel
  rw [h.line, filtered] at here
  obtain ⟨rfl, rfl⟩ : first = p ∧ Roster.ids rest = line := List.cons.inj here
  -- a level that is not listed has an empty line, so nobody waits there
  have least : ∀ e ∈ w, level' ≤ e.2 := by
    intro e member
    have filled : q.lines[e.2]?.getD [] ≠ [] := by
      rw [h.line]
      exact List.ne_nil_of_mem (List.mem_map.2 ⟨e, List.mem_filter.2 ⟨member, by simp⟩, rfl⟩)
    have listed := (q.agree.levels e.2).2 filled
    rw [levels] at listed
    rcases List.mem_cons.1 listed with same | after
    · exact same.ge
    · exact ((List.pairwise_cons.1 (levels ▸ q.agree.ascending)).1 _ after).le
  refine ⟨?_, rest, filtered, rfl⟩
  have smallest : ∀ e ∈ w, (w.all fun other => decide (e.2 ≤ other.2)) = decide (e.2 = level') := by
    intro e member
    rw [Bool.eq_iff_iff, List.all_eq_true, decide_eq_true_iff]
    constructor
    · intro all
      exact le_antisymm (of_decide_eq_true (all _ waits)) (least e member)
    · intro same other there
      exact decide_eq_true (same ▸ least other there)
  rw [Roster.next?, List.find?_congr smallest, ← List.head?_filter, filtered]
  rfl

/-- Whoever is taken leaves the line and the roster. -/
theorem pop (h : q.Holds w) : ∃ after, q.answer .pop = .ok ((w.answer .pop).1, after) ∧
    after.lines.length = q.lines.length ∧ after.Holds (w.answer .pop).2 := by
  cases levels : q.levels with
  | nil =>
    have empty : q.toList = [] := q.agree.levels_eq_nil_iff.1 levels
    obtain rfl : w = [] := h.toList_eq_nil_iff.1 empty
    refine ⟨q, ?_, rfl, h⟩
    simp only [answer, pop_eq_none_iff.2 empty]
    rfl
  | cons level later =>
    obtain ⟨p, line, here, taken, -⟩ := q.agree.take_eq levels
    obtain ⟨next, rest, filtered, ids⟩ := h.next?_eq levels here
    have nodup := Roster.nodup_answer h.nodup .pop
    rw [Roster.answer_pop_of_some next] at nodup ⊢
    have popped : q.pop = some (p, ⟨_, (q.agree.take taken).1⟩) := pop_eq_some_iff.2 taken
    have exist : level < q.lines.length := h.levels _ (Roster.mem_of_next? next)
    refine ⟨_, by rw [answer, popped]; rfl, List.length_set, fun l => ?_, fun e member => ?_, nodup⟩
    · simp only [List.getElem?_set]
      rw [← List.erase_filter]
      by_cases same : level = l
      · subst same
        simp [exist, filtered, ids]
      · have elsewhere : (p, level) ∉ w.filter fun e => decide (e.2 = l) := by simp [same]
        simp only [same, if_false, List.erase_of_not_mem elsewhere]
        exact h.line l
    · show e.2 < (q.lines.set level line).length
      rw [List.length_set]
      exact h.levels e (List.mem_of_mem_erase member)

end Holds

theorem holds_clear (q : Queue) : q.clear.Holds [] := by
  refine ⟨fun level => ?_, fun e member => (nomatch member), List.nodup_nil⟩
  show (q.lines.map fun _ => ([] : List Nat))[level]?.getD [] = []
  rw [List.getElem?_map]
  cases q.lines[level]? with
  | none => rfl
  | some line => rfl

/-- The level of the request, if it has one, is one of `n` levels. -/
def Request.Fits (n : Nat) : Request → Prop
  | .enqueue _ level => level < n
  | .pop => True
  | .clear => True

/-- **One request is answered as by the roster.** -/
theorem Holds.answer (h : q.Holds w) {r : Request} (fits : r.Fits q.lines.length) :
    ∃ after, q.answer r = .ok ((w.answer r).1, after) ∧ after.lines.length = q.lines.length ∧
      after.Holds (w.answer r).2 := by
  cases r with
  | enqueue p level =>
    obtain ⟨after, done, lines, holds⟩ := h.enqueue p fits
    exact ⟨after, by rw [Queue.answer, done]; rfl, lines, holds⟩
  | pop => exact h.pop
  | clear => exact ⟨q.clear, rfl, length_clear q, holds_clear q⟩

/-- **All requests are answered as by the roster**, one after the other. -/
theorem Holds.answers (h : q.Holds w) {requests : List Request}
    (fit : ∀ r ∈ requests, r.Fits q.lines.length) :
    ∃ after, q.answers requests = .ok ((w.answers requests).1, after) ∧
      after.Holds (w.answers requests).2 := by
  induction requests generalizing q w with
  | nil => exact ⟨q, rfl, h⟩
  | cons r requests ih =>
    obtain ⟨first, fit⟩ := List.forall_mem_cons.1 fit
    obtain ⟨next, done, lines, holds⟩ := h.answer first
    obtain ⟨after, later, holds⟩ := ih holds (lines ▸ fit)
    refine ⟨after, ?_, holds⟩
    rw [Queue.answers, done]
    simp only [bind, Except.bind, later]
    rfl

/-- What a queue tells of those that wait is what the roster tells. -/
structure Tells (q : Queue) (w : Roster) : Prop where
  waits : ∀ p, q.contains p = true ↔ p ∈ w.ids
  once : w.ids.Nodup
  isEmpty : q.isEmpty = true ↔ w = []
  pop : q.pop = none ↔ w = []

theorem Holds.tells (h : q.Holds w) : q.Tells w where
  waits p := contains_iff.trans (h.mem_toList_iff p)
  once := h.nodup
  isEmpty := isEmpty_iff.trans h.toList_eq_nil_iff
  pop := pop_eq_none_iff.trans h.toList_eq_nil_iff

/-- **A queue is a roster**: whatever is asked of it, it takes the first to arrive of those with the
smallest level, tells at any time who waits, and takes everybody who enters exactly once unless they are
dropped before or still wait. -/
theorem answers_as_roster (n : Nat) (requests : List Request) (fit : ∀ r ∈ requests, r.Fits n) :
    ∃ taken after, (ofLevels n).answers requests = .ok (taken, after) ∧
      (Roster.answers [] requests).1 = taken ∧ after.Tells (Roster.answers [] requests).2 ∧
      ∀ p, (Roster.meets [] requests).countP (Roster.Enters p) =
        taken.count (some p) + (Roster.meets [] requests).countP (Roster.Drops p) +
          (Roster.answers [] requests).2.ids.count p := by
  have levels : (ofLevels n).lines.length = n := List.length_replicate
  obtain ⟨after, done, holds⟩ := (holds_ofLevels n).answers (levels.symm ▸ fit)
  refine ⟨_, after, done, rfl, holds.tells, fun p => ?_⟩
  have balance := Roster.balance (w := []) List.nodup_nil p requests
  rwa [Roster.ids_nil, List.count_nil, Nat.zero_add] at balance

/-- Propagator 5 keeps the level at which it asked first, 3 enters again behind it after it was taken, and
3 and 7 are dropped. -/
theorem three_levels_answer_as_roster :
    let requests : List Request := [.enqueue 5 2, .enqueue 3 1, .enqueue 5 0, .enqueue 8 1, .pop,
      .enqueue 3 2, .pop, .pop, .enqueue 7 0, .clear, .enqueue 5 1, .pop, .pop]
    (∀ r ∈ requests, r.Fits 3) ∧
      ∃ after, (ofLevels 3).answers requests =
          .ok ([none, none, none, none, some 3, none, some 8, some 5, none, none, none, some 5, none],
            after) ∧
        after.Tells [] := by
  intro requests
  have fit : ∀ r ∈ requests, r.Fits 3 := by
    simp [requests, Request.Fits]
  obtain ⟨taken, after, done, same, tells, -⟩ := answers_as_roster 3 requests fit
  have roster : Roster.answers [] requests = ([none, none, none, none, some 3, none, some 8, some 5,
    none, none, none, some 5, none], []) := by decide
  rw [roster] at same tells
  cases same
  exact ⟨fit, after, done, tells⟩

end Queue

end Stowage
