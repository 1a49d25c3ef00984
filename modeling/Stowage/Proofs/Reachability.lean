import Stowage.Proofs.Calling

/-!
# The states that can be reached

A state is reached from the empty one by adding variables and propagators, posting, propagating,
adding checkpoints and going back.  After an inconsistency only an earlier checkpoint can be gone back
to.

* `State.Reached` — the states that can be reached, and whether an inconsistency is left in them.
* `State.Reached.invariant` — they have the invariant.
* `State.Underway`, `State.Settled` — states during a propagation, and after one or after a return.
-/

set_option autoImplicit false

namespace Stowage

namespace State

/-- The state can be reached; the flag tells whether an inconsistency is left in it. -/
inductive Reached : Bool → State → Prop
  | empty : Reached false .empty
  | create {s t : State} {lower upper : Int} {x : Var} (before : Reached false s)
      (step : s.create lower upper = .ok (x, t)) : Reached false t
  | install {s t : State} {blueprint : Blueprint} {id : Nat} (before : Reached false s)
      (typed : blueprint.Typed) (step : s.install blueprint = .ok (id, t)) : Reached false t
  | post {s t : State} {q : Predicate} {posting : Posting} (before : Reached false s)
      (step : s.post q = .ok (posting, t)) : Reached (decide (posting = .emptied)) t
  | propagate {s t : State} {conflict : Option Conflict} (before : Reached false s)
      (step : s.propagate = .ok (conflict, t)) : Reached conflict.isSome t
  | checkpointed {s t : State} (before : Reached false s) (step : s.checkpointed = .ok t) :
      Reached false t
  /-- After an inconsistency the state has to go back to an earlier checkpoint. -/
  | restore {broken : Bool} {s t : State} {k : Nat} (before : Reached broken s)
      (earlier : broken = true → k < s.checkpoint) (step : s.restore k = .ok t) : Reached false t

variable {s t : State} {k : Nat}

theorem consistent_empty : State.empty.Consistent where
  lawful := ⟨Trailed.lawful_empty, Trailed.lawful_empty⟩
  level := rfl
  watchers := rfl
  watched x w hw := by simp [watches, State.empty] at hw
  lines := rfl
  queued id hid := by simp [State.empty, Queue.empty, Queue.ofLevels, Queue.toList] at hid
  installed id p runs := by simp [Runs, State.empty] at runs
  allotted := by
    refine ⟨fun id _ _ _ _ _ _ found => ?_, fun id _ found => ?_, fun id _ runs => ?_, fun id _ runs => ?_,
      fun x w watch => ?_⟩
    · simp [State.empty] at found
    · simp [State.empty] at found
    · simp [Runs, State.empty] at runs
    · simp [Runs, State.empty] at runs
    · simp [watches, State.empty] at watch
  history k hk := by simp [checkpoint, Store.checkpoint, Domains.checkpoint, State.empty, Store.empty,
    Domains.empty, Trailed.empty, Trailed.checkpoint, Trail.empty, Trail.checkpoint] at hk
  listens id p found := by simp [State.empty] at found
  healthy _ := Domain.proper_interval (Int.le_refl 0) (by decide) (by decide)
  ready id p runs := by simp [Runs, State.empty] at runs
  awake id p runs := by simp [Runs, State.empty] at runs
  events e x waits := absurd waits (Pending.not_has_empty e x)

theorem le_of_restore (h : s.restore k = .ok t) : k ≤ s.checkpoint := by
  simp only [restore, bind, Except.bind] at h
  split at h
  · cases h
  · rename_i bound
    exact of_decide_eq_true (Packing.require_eq_ok.1 bound)

/-- A return, as long as there is no inconsistency. -/
theorem Consistent.restore (cons : s.Consistent) (h : s.restore k = .ok t) : t.Consistent := by
  rcases Nat.eq_or_lt_of_le (le_of_restore h) with rfl | earlier
  · cases (restore_self s).symm.trans h
    exact cons
  · exact (cons.toFrame.restore h earlier).1

/-- **Every state that can be reached has the invariant.** -/
theorem Reached.invariant {broken : Bool} (h : Reached broken s) :
    s.Frame ∧ (broken = false → s.Consistent) := by
  induction h with
  | empty => exact ⟨consistent_empty.toFrame, fun _ => consistent_empty⟩
  | create before step ih =>
    have cons := (ih.2 rfl).create step
    exact ⟨cons.toFrame, fun _ => cons⟩
  | install before typed step ih =>
    have cons := (ih.2 rfl).install typed step
    exact ⟨cons.toFrame, fun _ => cons⟩
  | post before step ih =>
    exact ⟨ih.1.evolve (evolves_post step),
      fun fine => (ih.2 rfl).post step (of_decide_eq_false fine)⟩
  | propagate before step ih =>
    obtain ⟨evolves, settled, -⟩ := propagate_spec (ih.2 rfl) step
    refine ⟨ih.1.evolve evolves, fun fine => (settled ?_).1⟩
    simpa using fine
  | checkpointed before step ih =>
    have cons := (ih.2 rfl).checkpointed step
    exact ⟨cons.toFrame, fun _ => cons⟩
  | @restore broken _ after _ before earlier step ih =>
    have cons : after.Consistent := by
      cases broken with
      | false => exact (ih.2 rfl).restore step
      | true => exact (ih.1.restore step (earlier rfl)).1
    exact ⟨cons.toFrame, fun _ => cons⟩

theorem Reached.consistent (h : Reached false s) : s.Consistent := h.invariant.2 rfl

/-- The states in which a propagation from `s` calls a propagator. -/
inductive Underway (s : State) : State → Prop
  | announced {t : State} (step : s.announce = .ok t) : Underway s t
  | called {t u : State} {id : Nat} {queue : Queue} (before : Underway s t)
      (pop : t.queue.pop = some (id, queue))
      (step : State.callPropagator { t with queue := queue } id = .ok (none, u)) : Underway s u

/-- The invariant holds whenever a propagator is called. -/
theorem Underway.invariant (cons : s.Consistent) (h : Underway s t) :
    t.Consistent ∧ t.domains.pending = .empty := by
  induction h with
  | announced step =>
    obtain ⟨u, done, consU, -, domains, -⟩ := announce_spec cons
    cases step.symm.trans done
    exact ⟨consU, Domains.pending_of_cleared domains⟩
  | called before pop step ih =>
    obtain ⟨consU, quiet, -⟩ := (callPropagator_spec ih.1 ih.2 pop step).2.1 rfl
    exact ⟨consU, quiet⟩

/-- The states right after a propagation without an inconsistency, or after a return to an earlier
checkpoint. -/
inductive Settled : State → Prop
  | propagate {s t : State} (before : Reached false s) (step : s.propagate = .ok (none, t)) :
      Settled t
  | restore {broken : Bool} {s t : State} {k : Nat} (before : Reached broken s)
      (earlier : k < s.checkpoint) (step : s.restore k = .ok t) : Settled t

theorem Settled.reached (h : Settled s) : Reached false s := by
  cases h with
  | propagate before step => exact .propagate before step
  | restore before earlier step => exact .restore before (fun _ => earlier) step

theorem Settled.invariant (h : Settled s) : s.Consistent ∧ s.Quiet := by
  cases h with
  | propagate before step =>
    obtain ⟨cons, quiet, -⟩ := (propagate_spec before.consistent step).2.1 rfl
    exact ⟨cons, quiet⟩
  | restore before earlier step => exact before.invariant.1.restore step earlier

/-! ## A small example -/

/-- The state after a step; the empty one if the step faults. -/
def after {α : Type} (step : Except Fault (α × State)) : State :=
  (step.toOption.map (·.2)).getD .empty

/-- Three variables, from -1 to 1, from 0 to 5 and from 0 to 5. -/
def small : State := after ((after ((after (State.empty.create (-1) 1)).create 0 5)).create 0 5)

/-- An item of size 2, to be placed in one of two bins. -/
def smallPacking : Packing := ⟨#[0], #[#[2]], #[#[1, 2]], .dynamic, by decide⟩

/-- The three variables with the packing of the first, whose loads are the others. -/
def smallPacked : State := after (small.install (.packing .single smallPacking))

/-- The packed variables after a propagation, which takes the item out of bin -1 and restricts the
loads. -/
def smallSettled : State := after smallPacked.propagate

theorem reached_small : Reached false small :=
  .create (.create (.create .empty (show State.empty.create (-1) 1 = .ok (0, _) by cbv))
    (show State.create _ 0 5 = .ok (1, _) by cbv)) (show State.create _ 0 5 = .ok (2, small) by cbv)

theorem reached_smallPacked : Reached false smallPacked :=
  .install reached_small (show (Blueprint.packing .single smallPacking).Typed from trivial)
    (show small.install _ = .ok (0, smallPacked) by cbv)

theorem propagate_smallPacked : smallPacked.propagate = .ok (none, smallSettled) := by cbv

/-- The item is placed in the first bin. -/
def smallPlacement (x : Var) : Int := if x = 1 then 2 else 0

theorem solution_smallPlacement : smallPacking.Solution smallPlacement := by
  constructor <;> decide

theorem admits_smallPlacement : smallPacked.domains.Admits smallPlacement := by
  have count : smallPacked.domains.count = 3 := by cbv
  have members : smallPlacement 0 ∈ smallPacked.domains.domain 0 ∧
      smallPlacement 1 ∈ smallPacked.domains.domain 1 ∧
      smallPlacement 2 ∈ smallPacked.domains.domain 2 := by
    refine ⟨?_, ?_, ?_⟩ <;> cbv
  intro x hx
  rw [count] at hx
  obtain rfl | rfl | rfl : x = 0 ∨ x = 1 ∨ x = 2 := by omega
  · exact members.1
  · exact members.2.1
  · exact members.2.2

/-- Items of sizes 5, 4 and 1, to be placed in two bins. -/
def crowdedPacking : Packing := ⟨#[0, 1, 2], #[#[5, 4, 1]], #[#[3, 4]], .dynamic, by decide⟩

/-- Variables for the items, from 0 to 1, and for the loads, from 0 to 6. -/
def crowdedVars : State :=
  after ((after ((after ((after ((after (State.empty.create 0 1)).create 0 1)).create 0 1)).create
    0 6)).create 0 6)

theorem reached_crowdedVars : Reached false crowdedVars :=
  .create (.create (.create (.create (.create .empty
    (show State.empty.create 0 1 = .ok (0, _) by cbv)) (show State.create _ 0 1 = .ok (1, _) by cbv))
    (show State.create _ 0 1 = .ok (2, _) by cbv)) (show State.create _ 0 6 = .ok (3, _) by cbv))
    (show State.create _ 0 6 = .ok (4, crowdedVars) by cbv)

end State

end Stowage
