import Stowage.Proofs.Likeness
import Stowage.Proofs.Returning

/-!
# Backtracking is transparent

A checkpoint is added to a state, the state is worked on above it, perhaps until there is an
inconsistency, and then it goes back.  What it held is exactly what it held before, and nothing that is
asked of it or done with it later tells whether it has been away.

* `State.Above` — the states that are reached without going back to the checkpoint.
* `State.observe` — what a script shows of a state.
* `State.Above.retains` — from all these states the first one can be recovered.
* `State.backtracking_is_transparent` — the theorem.
-/

set_option autoImplicit false

namespace Stowage

/-- What a command shows. -/
structure Observation where
  answer : Answer
  /-- The domains, cells and ledgers after the command. -/
  store : Store
  /-- The bins of all packings after the command. -/
  bins : List BinReport
  /-- What the probes noted down meanwhile. -/
  notes : Array Note

namespace State

/-- The state with a new page for the notes. -/
def hushed (s : State) : State := { s with notes := #[] }

def allBins (s : State) : List BinReport :=
  (List.range s.propagators.size).flatMap fun id => s.binReports id id

/-- What a script shows, command by command, and the fault that ends it, if one does. -/
def observe (s : State) (options : Option LogOptions) :
    List Command → List Observation × Option Fault
  | [] => ([], none)
  | c :: script =>
    match s.hushed.perform options c with
    | .error fault => ([], some fault)
    | .ok (answer, t) =>
      let (later, fault) := t.observe options script
      (⟨answer, t.store, t.allBins, t.notes⟩ :: later, fault)

/-- The states that are reached from `start` without going back to checkpoint `c`; the flag tells
whether an inconsistency is left in them. -/
inductive Above (c : Nat) (start : State) : Bool → State → Prop
  | start : Above c start false start
  | post {s t : State} {q : Predicate} {posting : Posting} (before : Above c start false s)
      (step : s.post q = .ok (posting, t)) : Above c start (decide (posting = .emptied)) t
  | propagate {s t : State} {conflict : Option Conflict} (before : Above c start false s)
      (step : s.propagate = .ok (conflict, t)) : Above c start conflict.isSome t
  | checkpointed {s t : State} (before : Above c start false s) (step : s.checkpointed = .ok t) :
      Above c start false t
  | restore {broken : Bool} {s t : State} {k : Nat} (before : Above c start broken s)
      (above : c < k) (earlier : broken = true → k < s.checkpoint) (step : s.restore k = .ok t) :
      Above c start false t

variable {s t e : State} {c : Nat} {broken : Bool}

theorem Above.reached (h : Above c s broken t) (reached : Reached false s) : Reached broken t := by
  induction h with
  | start => exact reached
  | post before step ih => exact .post ih step
  | propagate before step ih => exact .propagate ih step
  | checkpointed before step ih => exact .checkpointed ih step
  | restore before above earlier step ih => exact .restore ih earlier step

/-- From a state above the checkpoint the first state can be recovered. -/
theorem Above.retains (h : Above s.checkpoint t broken e) (reached : Reached false t)
    (start : Retains s t) : Retains s e := by
  induction h with
  | start => exact start
  | post before step ih =>
    exact ih.evolve (before.reached reached).invariant.1 (evolves_post step)
  | propagate before step ih =>
    have cons := (before.reached reached).consistent
    exact ih.evolve cons.toFrame (propagate_spec cons step).1
  | checkpointed before step ih => exact ih.checkpointed (before.reached reached).invariant.1 step
  | restore before above earlier step ih =>
    exact ih.restore (before.reached reached).invariant.1 above step

/-! ## What going back recovers -/

/-- The agenda of a packing that has nothing left to do is like a discarded one: its marks are on bins
that are not available. -/
theorem like_discard {p : Packer} {agenda : Agenda} (revised : (p.desk s.store).Revised p.packing)
    (started : agenda.started = true) :
    agenda.discard.Like (s.store.ledger p).available p.agenda := by
  refine ⟨revised.noItems.symm, (revised.tidy.noFlags revised.noItems).symm, revised.noLoads.symm, ?_,
    fun b available => ?_, List.nodup_nil, revised.marks⟩
  · exact started.trans revised.started.symm
  · exact iff_of_false List.not_mem_nil (revised.unmarked b available)

/-- A propagator that has discarded what it had planned is like the one of then. -/
theorem Retains.like_propagator (h : Retains s e) (cons : s.Consistent) (quiet : s.Quiet)
    (frame : e.Frame) (id : Nat) :
    Option.Rel (Propagator.Like s.store)
      (e.propagators[id]?.map fun prop => (prop.discard id s.store).1) s.propagators[id]? := by
  have cores := congrArg (fun props => props[id]?) h.cores
  simp only [Array.getElem?_map] at cores
  cases then' : s.propagators[id]? with
  | none =>
    rw [then', Option.map_none, Option.map_eq_none_iff] at cores
    rw [cores]
    exact .none
  | some prop =>
    rw [then', Option.map_some, Option.map_eq_some_iff] at cores
    obtain ⟨now, found, core⟩ := cores
    rw [found]
    refine .some ?_
    cases prop with
    | packing p =>
      obtain ⟨q, rfl, kind, packing, layout⟩ := Propagator.core_eq_packing core
      have started := (frame.installed id q found).begun (Nat.lt_of_le_of_lt (Nat.zero_le _) h.below)
      have like := like_discard (cons.revised quiet then') started
      obtain ⟨kind', packing', layout', agenda, counters⟩ := q
      simp only at kind packing layout
      subst kind packing layout
      exact .packing { p with agenda := agenda.discard, counters := counters } p.counters like
    | precedence p =>
      cases now <;> cases core
      exact .precedence p
    | probe p =>
      cases now <;> cases core
      exact .probe p

/-- **A state that has gone back looks like the state of then.** -/
theorem Retains.like (h : Retains s e) (cons : s.Consistent) (quiet : s.Quiet) (frame : e.Frame)
    (step : e.restore s.checkpoint = .ok t) : t.hushed.Like s.hushed := by
  have allotted := (frame.restore step h.below).1.allotted
  rw [restore_eq frame h.below, h.view] at step
  cases step
  refine ⟨allotted.of_eq rfl rfl rfl, rfl, h.watchers, ?_, fun id => ?_, ?_, rfl⟩
  · simp only [hushed, Array.size_map, Array.size_mapIdx]
    exact size_of_cores h.cores
  · have like := h.like_propagator cons quiet frame id
    simp only [hushed, Array.getElem?_map, Array.getElem?_mapIdx, Option.map_map]
    exact like
  · exact Queue.clear_eq quiet.queue (frame.lines.trans cons.lines.symm)

theorem Like.hushed (h : Like s t) : s.hushed.Like t.hushed :=
  { h with allotted := h.allotted.of_eq rfl rfl rfl, notes := rfl }

theorem Like.allBins (h : Like s t) : s.allBins = t.allBins := by
  unfold State.allBins
  rw [h.size]
  exact List.flatMap_congr fun id _ => h.binReports id id

/-- A script shows the same of states that look alike. -/
theorem observe_eq {script : List Command} (h : s.hushed.Like t.hushed)
    (plain : ∀ c ∈ script, c.IsPlain) (options : Option LogOptions) :
    s.observe options script = t.observe options script := by
  induction script generalizing s t with
  | nil => rfl
  | cons c script ih =>
    have told := h.perform options (plain c List.mem_cons_self)
    unfold observe
    generalize s.hushed.perform options c = first at told ⊢
    generalize t.hushed.perform options c = second at told ⊢
    cases told with
    | error fault => rfl
    | @ok a b rel =>
      obtain ⟨answer, after⟩ := a
      obtain ⟨answer', after'⟩ := b
      obtain ⟨same, like⟩ := rel
      simp only at same like ⊢
      rw [same, like.store, like.allBins, like.notes,
        ih like.hushed fun c hc => plain c (List.mem_cons_of_mem _ hc)]

/-- **Backtracking is transparent.**  A checkpoint is added to a state without an inconsistency, and
something is done that stays above the checkpoint of that state; an inconsistency may be left in the
end.  Then the state can go back.  Its domains, cells and ledgers are those it had, at the checkpoint
it was at; no event and no propagator waits; and every script shows the same from there as it would have
shown before. -/
theorem backtracking_is_transparent {marked : State} (reached : Reached false s)
    (mark : s.checkpointed = .ok marked) (above : Above s.checkpoint marked broken e) :
    ∃ r, e.restore s.checkpoint = .ok r ∧ r.store = s.store ∧ r.checkpoint = s.checkpoint ∧
      r.Quiet ∧ ∀ options script, (∀ c ∈ script, c.IsPlain) →
        r.observe options script = s.observe options script := by
  have reachedMarked : Reached false marked := .checkpointed reached mark
  have frame := (above.reached reachedMarked).invariant.1
  have retains := above.retains reachedMarked (reached.consistent.retains mark)
  obtain ⟨quiet, -⟩ := checkpointed_eq_ok mark
  have step := restore_eq frame retains.below
  have like := retains.like reached.consistent quiet frame step
  refine ⟨_, step, like.store, like.checkpoint, (frame.restore step retains.below).2, ?_⟩
  intro options script plain
  exact observe_eq like plain options

/-- The small example at a new checkpoint. -/
def smallMarked : State := smallSettled.checkpointed.toOption.getD .empty

/-- The item is posted to be beyond all bins, which leaves no value for it. -/
def smallBroken : State := after (smallMarked.post (.atLeast 0 5))

theorem smallBroken_is_transparent :
    Reached false smallSettled ∧ smallSettled.checkpointed = .ok smallMarked ∧
      Above smallSettled.checkpoint smallMarked true smallBroken ∧
      ∃ r, smallBroken.restore smallSettled.checkpoint = .ok r ∧ r.store = smallSettled.store ∧
        r.checkpoint = smallSettled.checkpoint ∧ r.Quiet ∧
        ∀ options script, (∀ c ∈ script, c.IsPlain) →
          r.observe options script = smallSettled.observe options script := by
  have reached : Reached false smallSettled := .propagate reached_smallPacked propagate_smallPacked
  have mark : smallSettled.checkpointed = .ok smallMarked := by cbv
  have post : smallMarked.post (.atLeast 0 5) = .ok (.emptied, smallBroken) := by cbv
  have above : Above smallSettled.checkpoint smallMarked true smallBroken := .post .start post
  exact ⟨reached, mark, above, backtracking_is_transparent reached mark above⟩

end State

end Stowage
