import Stowage.Proofs.Chronicle
import Stowage.Proofs.Repetition

/-!
# Going back gives the cells of then

Whatever is done to cells after a checkpoint, going back to the one before it gives every cell of then
its value of then, with the trail of then below it.  Cells are not taken back: those allocated since hold
what they were allocated with.

* `Cells.Operation`, `Cells.run` — what can be done to cells, one thing after the other.
* `Cells.Since` — where the checkpoint after a given one was added last.
* `Cells.restore_run` — the view of a checkpoint before a run is that of before, with the cells that the
  run allocated.
* `Cells.undoes_exactly` — going back undoes exactly, by a trail that hands over what was pushed since.
-/

set_option autoImplicit false

namespace Stowage

namespace Cells

/-! ## Runs -/

/-- What can be done to cells. -/
inductive Operation where
  /-- Adds one cell. -/
  | grow (value : Int)
  /-- Adds a block of cells. -/
  | allocate (count : Nat) (value : Int)
  | assign (i : Nat) (value : Int)
  | increase (i : Nat) (amount : Int)
  /-- Adds a checkpoint. -/
  | mark
  /-- Goes back to checkpoint `k`. -/
  | revert (k : Nat)
  deriving DecidableEq, Repr

def perform (c : Cells) : Operation → Except Fault Cells
  | .grow value => return Trailed.grow c value
  | .allocate count value => return (c.allocate count value).2
  | .assign i value => c.assign i value
  | .increase i amount => c.increase i amount
  | .mark => return Trailed.mark c
  | .revert k => c.revert k

/-- The cells after operations performed one after the other. -/
def run (c : Cells) (script : List Operation) : Except Fault Cells := script.foldlM perform c

/-- The values that an operation allocates cells with. -/
def Operation.initials : Operation → List Int
  | .grow value => [value]
  | .allocate count value => List.replicate count value
  | .assign _ _ => []
  | .increase _ _ => []
  | .mark => []
  | .revert _ => []

/-- The values that cells are allocated with. -/
def initials (script : List Operation) : List Int := script.flatMap Operation.initials

theorem initials_cons (op : Operation) (script : List Operation) :
    initials (op :: script) = op.initials ++ initials script := List.flatMap_cons

theorem initials_append (first second : List Operation) :
    initials (first ++ second) = initials first ++ initials second := List.flatMap_append

/-- A return is to a checkpoint after `k`. -/
def Operation.StaysAfter (k : Nat) : Operation → Prop
  | .grow _ => True
  | .allocate _ _ => True
  | .assign _ _ => True
  | .increase _ _ => True
  | .mark => True
  | .revert j => k < j

variable {c mid now : Cells} {op : Operation} {script since : List Operation} {k : Nat}

theorem fetch_eq {i : Nat} (exist : i < c.size) : c.fetch i = .ok (c.read i) := by
  have there : c.values[i]? = some c.values[i] := Array.getElem?_eq_getElem exist
  simp only [fetch, Table.fetch, read, Trailed.get?, there, Option.getD_some]

theorem fetch_eq_ok {i : Nat} {value : Int} (h : c.fetch i = .ok value) : i < c.size := by
  by_contra outside
  have missing : c.values[i]? = none := Array.getElem?_eq_none (Nat.not_lt.1 outside)
  simp only [fetch, Table.fetch, missing] at h
  cases h

theorem assign_eq {i : Nat} (exist : i < c.size) (value : Int) :
    c.assign i value = .ok (c.write i value) := by
  simp only [assign, fetch_eq exist, bind, Except.bind, pure, Except.pure]

theorem increase_eq {i : Nat} (exist : i < c.size) (amount : Int) :
    c.increase i amount = .ok (c.write i (c.read i + amount)) := by
  simp only [increase, fetch_eq exist, bind, Except.bind, pure, Except.pure]
  rfl

theorem revert_eq_error (later : c.checkpoint ≤ k) : c.revert k = .error .precondition := by
  have late : ¬k < c.checkpoint := Nat.not_lt.2 later
  simp only [revert, Trailed.revert, require, decide_eq_false late, Bool.false_eq_true, if_false, bind,
    Except.bind]

/-- What an operation that succeeds has done. -/
inductive Performs (c : Cells) : Operation → Cells → Prop
  | grow (value : Int) : Performs c (.grow value) (c.extend [value])
  | allocate (count : Nat) (value : Int) :
    Performs c (.allocate count value) (c.extend (List.replicate count value))
  | assign {i : Nat} (exist : i < c.size) (value : Int) : Performs c (.assign i value) (c.write i value)
  | increase {i : Nat} (exist : i < c.size) (amount : Int) :
    Performs c (.increase i amount) (c.write i (c.read i + amount))
  | mark : Performs c .mark (Trailed.mark c)
  | revert {k : Nat} (earlier : k < c.checkpoint) : Performs c (.revert k) (c.restore k)

theorem performs_of_perform (h : c.perform op = .ok now) : Performs c op now := by
  cases op with
  | grow value =>
    cases h
    exact .grow value
  | allocate count value =>
    cases h
    rw [allocate_snd]
    exact .allocate count value
  | assign i value =>
    simp only [perform, assign, bind, Except.bind, pure, Except.pure] at h
    split at h
    · cases h
    next fetched =>
      cases h
      exact .assign (fetch_eq_ok fetched) value
  | increase i amount =>
    simp only [perform, increase, bind, Except.bind, pure, Except.pure] at h
    split at h
    · cases h
    next fetched =>
      cases h
      exact .increase (fetch_eq_ok fetched) amount
  | mark =>
    cases h
    exact .mark
  | revert k =>
    obtain ⟨earlier, rfl⟩ := revert_eq_ok h
    exact .revert earlier

theorem run_append_eq_ok {first second : List Operation} :
    c.run (first ++ second) = .ok now ↔ ∃ mid, c.run first = .ok mid ∧ mid.run second = .ok now := by
  simp only [run, List.foldlM_append, bind, Except.bind]
  cases first.foldlM perform c with
  | error fault => simp
  | ok mid => simp

theorem run_cons_eq_ok :
    c.run (op :: script) = .ok now ↔ ∃ mid, c.perform op = .ok mid ∧ mid.run script = .ok now := by
  simp only [run, List.foldlM_cons, bind, Except.bind]
  cases c.perform op with
  | error fault => simp
  | ok mid => simp

/-! ## Going back -/

theorem Performs.lawful (h : Performs c op now) (lawful : c.Lawful) : now.Lawful := by
  cases h with
  | grow value => exact lawful.extend _
  | allocate count value => exact lawful.extend _
  | assign exist value => exact lawful_write lawful _ _
  | increase exist amount => exact lawful_write lawful _ _
  | mark => exact lawful.mark
  | revert earlier => exact lawful.restore _

theorem lawful_run (lawful : c.Lawful) (h : c.run script = .ok now) : now.Lawful := by
  induction script generalizing c with
  | nil =>
    cases h
    exact lawful
  | cons op script ih =>
    obtain ⟨mid, step, rest⟩ := run_cons_eq_ok.1 h
    exact ih ((performs_of_perform step).lawful lawful) rest

theorem Performs.size (h : Performs c op now) : now.size = c.size + op.initials.length := by
  cases h with
  | grow value => exact Trailed.size_extend c _
  | allocate count value => exact Trailed.size_extend c _
  | assign exist value => exact size_write c _ value
  | increase exist amount => exact size_write c _ _
  | mark => rfl
  | revert earlier => exact Trailed.size_restore c _

theorem size_run (h : c.run script = .ok now) : now.size = c.size + (initials script).length := by
  induction script generalizing c with
  | nil =>
    cases h
    rfl
  | cons op script ih =>
    obtain ⟨mid, step, rest⟩ := run_cons_eq_ok.1 h
    rw [ih rest, (performs_of_perform step).size, initials_cons, List.length_append]
    omega

/-- One operation adds its cells to the view of an earlier checkpoint and leaves the rest alone. -/
theorem Performs.restore (h : Performs c op now) (lawful : c.Lawful) (earlier : k < c.checkpoint)
    (stays : op.StaysAfter k) :
    now.restore k = (c.restore k).extend op.initials ∧ k < now.checkpoint := by
  -- a write is undone by the entry that it leaves, if it leaves one
  have written (i : Nat) (value : Int) :
      (c.write i value).restore k = (c.restore k).extend [] ∧ k < (c.write i value).checkpoint :=
    have recovers := recovers_write c i value
    ⟨recovers.restore k earlier, earlier.trans_eq recovers.checkpoint.symm⟩
  cases h with
  | grow value =>
    exact ⟨Trailed.restore_extend lawful _ k, earlier.trans_eq (Trailed.checkpoint_extend c _).symm⟩
  | allocate count value =>
    exact ⟨Trailed.restore_extend lawful _ k, earlier.trans_eq (Trailed.checkpoint_extend c _).symm⟩
  | assign exist value => exact written _ value
  | increase exist amount => exact written _ _
  | mark =>
    exact ⟨Trailed.restore_mark c earlier.le, by
      rw [Trailed.checkpoint_mark]
      exact Nat.lt_succ_of_lt earlier⟩
  | @revert j later =>
    refine ⟨Trailed.restore_restore c (Nat.le_of_lt stays), ?_⟩
    rw [Trailed.checkpoint_restore]
    exact lt_min stays earlier

/-- A run that stays after a checkpoint adds its cells to the view of it and leaves the rest alone. -/
theorem restore_run (lawful : c.Lawful) (earlier : k < c.checkpoint)
    (stays : ∀ op ∈ script, op.StaysAfter k) (h : c.run script = .ok now) :
    now.restore k = (c.restore k).extend (initials script) ∧ k < now.checkpoint := by
  induction script generalizing c with
  | nil =>
    cases h
    exact ⟨rfl, earlier⟩
  | cons op script ih =>
    obtain ⟨mid, step, rest⟩ := run_cons_eq_ok.1 h
    obtain ⟨first, stays⟩ := List.forall_mem_cons.1 stays
    have performs := performs_of_perform step
    obtain ⟨view, earlier⟩ := performs.restore lawful earlier first
    obtain ⟨views, earlier⟩ := ih (performs.lawful lawful) earlier stays rest
    refine ⟨?_, earlier⟩
    rw [views, view, Trailed.extend_extend, ← initials_cons]

/-! ## Where a checkpoint was added -/

/-- The script led through the cells `c`, where the checkpoint after `k` was added for the last time; since
then the operations `since` have led to `now`. -/
structure Since (k : Nat) (script since : List Operation) (c now : Cells) : Prop where
  before : ∃ before, script = before ++ .mark :: since ∧ run empty before = .ok c
  checkpoint : c.checkpoint = k
  stays : ∀ op ∈ since, op.StaysAfter k
  run : run (Trailed.mark c) since = .ok now

theorem Since.snoc (h : Since k script since c mid) (step : mid.perform op = .ok now)
    (stays : op.StaysAfter k) : Since k (script ++ [op]) (since ++ [op]) c now := by
  obtain ⟨before, rfl, done⟩ := h.before
  refine ⟨⟨before, by simp, done⟩, h.checkpoint, ?_, ?_⟩
  · intro other member
    rcases List.mem_append.1 member with member | member
    · exact h.stays other member
    · obtain rfl := List.mem_singleton.1 member
      exact stays
  · exact run_append_eq_ok.2 ⟨mid, h.run, run_cons_eq_ok.2 ⟨now, step, rfl⟩⟩

/-- Every checkpoint but the first has been added, for the last time at some point of the script. -/
theorem exists_since (h : run empty script = .ok now) (earlier : k < now.checkpoint) :
    ∃ since c, Since k script since c now := by
  induction script using List.reverseRecOn generalizing now with
  | nil =>
    cases h
    cases earlier
  | append_singleton script op ih =>
    obtain ⟨mid, done, last⟩ := run_append_eq_ok.1 h
    obtain ⟨_, step, rest⟩ := run_cons_eq_ok.1 last
    cases rest
    -- the checkpoint is there already, and the operation stays after it, unless it has just been added
    have old (inside : k < mid.checkpoint) (stays : op.StaysAfter k) :
        ∃ since c, Since k (script ++ [op]) since c now := by
      obtain ⟨since, c, since'⟩ := ih done inside
      exact ⟨_, _, since'.snoc step stays⟩
    cases performs_of_perform step with
    | grow value => exact old (earlier.trans_eq (Trailed.checkpoint_extend mid _)) trivial
    | allocate count value => exact old (earlier.trans_eq (Trailed.checkpoint_extend mid _)) trivial
    | assign exist value => exact old (earlier.trans_eq (recovers_write mid _ _).checkpoint) trivial
    | increase exist amount => exact old (earlier.trans_eq (recovers_write mid _ _).checkpoint) trivial
    | mark =>
      rw [Trailed.checkpoint_mark] at earlier
      rcases Nat.lt_or_eq_of_le (Nat.le_of_lt_succ earlier) with inside | rfl
      · exact old inside trivial
      · exact ⟨[], mid, ⟨script, rfl, done⟩, rfl, fun _ member => (nomatch member), rfl⟩
    | @revert j inside =>
      rw [Trailed.checkpoint_restore] at earlier
      exact old (earlier.trans_le (min_le_right _ _)) (earlier.trans_le (min_le_left _ _))

/-- Going back gives the cells of then with those allocated since. -/
theorem Since.restore (h : Since k script since c now) : now.restore k = c.extend (initials since) := by
  obtain ⟨before, -, done⟩ := h.before
  have lawful : c.Lawful := lawful_run Trailed.lawful_empty done
  have above : k < (Trailed.mark c).checkpoint := by
    rw [Trailed.checkpoint_mark, h.checkpoint]
    exact Nat.lt_succ_self k
  have view := (restore_run lawful.mark above h.stays h.run).1
  rwa [← h.checkpoint, Trailed.restore_mark_self, h.checkpoint] at view

/-! ## What is on the trail -/

/-- What an operation does to the trail: a write of another value pushes the cell with the value that it
had, and a return takes everything that is handed over. -/
def logged (c : Cells) : Operation → List (Trail.Operation (Nat × Int))
  | .grow _ => []
  | .allocate _ _ => []
  | .assign i value => if c.read i = value then [] else [.push (i, c.read i)]
  | .increase i amount => if amount = 0 then [] else [.push (i, c.read i)]
  | .mark => [.mark]
  | .revert k => [.rewind k c.trail.size]

/-- What operations performed one after the other do to the trail. -/
def journal (c : Cells) : List Operation → List (Trail.Operation (Nat × Int))
  | [] => []
  | op :: script =>
    match c.perform op with
    | .error _ => []
    | .ok mid => c.logged op ++ journal mid script

/-- The trail after a run of cells is that of a run of its own. -/
def Follows (c : Cells) (moves : List (Trail.Operation (Nat × Int))) (now : Cells) : Prop :=
  ∃ taken, c.trail.run moves = .ok (taken, now.trail)

theorem Follows.append {first second : List (Trail.Operation (Nat × Int))} (h : Follows c first mid)
    (h' : Follows mid second now) : Follows c (first ++ second) now := by
  obtain ⟨taken, done⟩ := h
  obtain ⟨later, rest⟩ := h'
  exact ⟨taken ++ later, inTurn_append done rest⟩

theorem follows_write (c : Cells) {i : Nat} (exist : i < c.size) (value : Int) :
    Follows c (if c.read i = value then [] else [.push (i, c.read i)]) (c.write i value) := by
  unfold write
  split
  next same => exact ⟨[], rfl⟩
  next other =>
    have bound : i < c.values.size := exist
    have old : c.read i = c.values[i] := by
      simp only [read, Trailed.get?, Array.getElem?_eq_getElem bound, Option.getD_some]
    refine ⟨[[]], ?_⟩
    simp only [Trailed.set, Trailed.overwrite, bound, dif_pos, old]
    rfl

theorem Performs.follows (h : Performs c op now) : Follows c (c.logged op) now := by
  cases h with
  | grow value => exact ⟨[], rfl⟩
  | allocate count value => exact ⟨[], by rw [Trailed.trail_extend]; rfl⟩
  | assign exist value => exact follows_write c exist value
  | @increase i exist amount =>
    have := follows_write c exist (c.read i + amount)
    simpa [logged] using this
  | mark => exact ⟨[[]], rfl⟩
  | @revert k earlier =>
    have bound : k < c.trail.checkpoint := earlier
    refine ⟨[(c.trail.unwind k).1.take c.trail.size], ?_⟩
    simp only [logged, Trail.run, inTurn, Trail.perform, Trail.rewind, require, decide_eq_true bound, if_true,
      bind, Except.bind, pure, Except.pure]
    rfl

theorem follows_run (h : c.run script = .ok now) : Follows c (c.journal script) now := by
  induction script generalizing c with
  | nil =>
    cases h
    exact ⟨[], rfl⟩
  | cons op script ih =>
    obtain ⟨mid, step, rest⟩ := run_cons_eq_ok.1 h
    simp only [journal, step]
    exact (performs_of_perform step).follows.append (ih rest)

/-! ## Going back undoes exactly -/

/-- Going back from `now` to `back`, at checkpoint `k`, restores `c` but for the cells that have been
allocated since. -/
structure Restores (script : List Operation) (k : Nat) (c now back : Cells) : Prop where
  checkpoint : back.checkpoint = k
  size : back.size = now.size
  old : ∀ i < c.size, back.get? i = c.get? i
  /-- Cells allocated since are as they were allocated. -/
  new : ∀ i, c.size ≤ i → i < now.size → back.get? i = (initials script)[i]?
  /-- The older entries stay on the trail, and what was on top of them is handed over. -/
  trail : ∃ undone, now.trail.rewind k = .ok (undone, c.trail) ∧ back.trail = c.trail ∧
    now.trail.entries = undone ++ c.trail.entries

theorem Since.restores (h : Since k script since c now) (earlier : k < now.checkpoint) :
    Restores script k c now (now.restore k) where
  checkpoint := by
    rw [Trailed.checkpoint_restore]
    exact Nat.min_eq_left earlier.le
  size := Trailed.size_restore now k
  old i exist := by rw [h.restore, Trailed.get?_extend, if_pos exist]
  new i fresh exist := by
    obtain ⟨before, rfl, done⟩ := h.before
    have oldest : (initials before).length = c.size := by
      rw [size_run done]
      exact (Nat.zero_add _).symm
    rw [h.restore, Trailed.get?_extend, if_neg (Nat.not_lt.2 fresh), initials_append,
      List.getElem?_append_right (oldest ▸ fresh), oldest, initials_cons]
    rfl
  trail := by
    have left : (now.trail.unwind k).2 = c.trail := by
      have view := congrArg Trailed.trail h.restore
      rwa [Trailed.trail_extend] at view
    refine ⟨(now.trail.unwind k).1, ?_, ?_, ?_⟩
    · have bound : k < now.trail.checkpoint := earlier
      simp only [Trail.rewind, require, decide_eq_true bound, if_true, bind, Except.bind, pure,
        Except.pure, ← left]
    · rw [← left]
      rfl
    · rw [← left]
      exact now.trail.entries_unwind k

/-- **Going back undoes exactly**, whatever was done to the cells since the checkpoint, and the trail of
their writes hands over what was pushed since, newest first, as every trail does. -/
theorem undoes_exactly (h : run empty script = .ok now) (earlier : k < now.checkpoint) {α : Type}
    (moves : List (Trail.Operation α)) :
    (∃ since c back, Since k script since c now ∧ now.revert k = .ok back ∧
      Restores script k c now back) ∧
    Follows empty (empty.journal script) now ∧
    Parallel (Same fun t d => Chronicle.Tells d t) (Trail.empty.run moves)
      (Chronicle.empty.run moves) := by
  obtain ⟨since, c, since'⟩ := exists_since h earlier
  have lawful : now.Lawful := lawful_run Trailed.lawful_empty h
  exact ⟨⟨since, c, now.restore k, since', lawful.revert earlier, since'.restores earlier⟩,
    follows_run h, Trail.run_as_chronicle moves⟩

/-- A cell is written three times, once with the value that it has; two cells come in between, one of the
inner checkpoints is left and another one is empty. -/
def nestedWrites : List Operation :=
  [.grow 5, .mark, .assign 0 7, .mark, .assign 0 7, .allocate 2 3, .increase 1 4, .increase 0 (-9),
    .revert 1, .increase 2 1, .mark, .mark, .assign 0 9]

/-- Two entries are handed over of which one is taken, then two of which none is taken. -/
def nestedPushes : List (Trail.Operation Nat) :=
  [.push 1, .mark, .mark, .push 2, .push 3, .rewind 1 1, .push 4, .mark, .push 5, .rewind 0 0]

/-- The old cell has its value again and the two others those that they were allocated with. -/
theorem nested_undoes_exactly :
    ∃ now, run empty nestedWrites = .ok now ∧ 0 < now.checkpoint ∧ ∃ since c back,
      Since 0 nestedWrites since c now ∧ now.revert 0 = .ok back ∧ Restores nestedWrites 0 c now back ∧
      now.values.toList = [9, 3, 4] ∧ back.values.toList = [5, 3, 3] ∧
      ∃ t, Trail.empty.run nestedPushes = .ok ([[], [], [], [], [], [3], [], [], [], []], t) ∧
        t.entries = [1] ∧ t.checkpoint = 0 := by
  have run : ∃ now, run empty nestedWrites = .ok now ∧ now.checkpoint = 3 ∧
      now.values.toList = [9, 3, 4] ∧ ∃ back, now.revert 0 = .ok back ∧
        back.values.toList = [5, 3, 3] :=
    ⟨_, by cbv, rfl, rfl, _, by cbv, rfl⟩
  obtain ⟨now, run, checkpoint, written, back, reverted, values⟩ := run
  have earlier : 0 < now.checkpoint := checkpoint ▸ Nat.succ_pos 2
  obtain ⟨⟨since, c, back', since', reverted', restores⟩, -, told⟩ :=
    undoes_exactly run earlier nestedPushes
  cases reverted.symm.trans reverted'
  have dated : Chronicle.empty.run nestedPushes =
      .ok ([[], [], [], [], [], [3], [], [], [], []], ⟨10, [], [(0, 1)]⟩) := by cbv
  rw [dated] at told
  obtain ⟨⟨taken, t⟩, pushed, same, tells⟩ := told.exists_eq_ok
  obtain rfl := same
  exact ⟨now, run, earlier, since, c, back, since', reverted, restores, written, values, t, pushed,
    tells.entries, tells.checkpoint⟩

end Cells

end Stowage
