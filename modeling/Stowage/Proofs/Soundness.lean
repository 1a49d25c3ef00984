import Stowage.Proofs.Reachability

/-!
# Calls of packings are sound

Whenever a propagation calls a packing, in whatever state it was started, the call returns and loses no
solution.  So an inconsistency is only reported if there is no solution.

* `State.packing_call_keeps_solutions` — the theorem.
-/

set_option autoImplicit false

namespace Stowage

namespace State

/-- **Every call of a packing is sound.**  It returns, every assignment that the domains admit and that
is a solution of the packing is still admitted afterwards, and an inconsistency is reported only when
there is no such assignment. -/
theorem packing_call_keeps_solutions {s t : State} {id : Nat} {queue : Queue} {p : Packer}
    (reached : Reached false s) (underway : Underway s t) (pop : t.queue.pop = some (id, queue))
    (runs : t.Runs id p) :
    ∃ called u, (Propagator.packing p).call id t.store = .ok called ∧
      State.callPropagator { t with queue := queue } id =
        .ok (called.inconsistency.map (Conflict.mk id), u) ∧
      (∀ assignment, t.domains.Admits assignment → p.packing.Solution assignment →
        called.inconsistency = none ∧ called.store.domains.Admits assignment) ∧
      ∀ cause, called.inconsistency = some cause →
        ¬∃ assignment, t.domains.Admits assignment ∧ p.packing.Solution assignment := by
  obtain ⟨cons, -⟩ := underway.invariant reached.consistent
  obtain ⟨called, u, call, calls, state⟩ := callPropagator_ok cons runs pop
  have sound : ∀ assignment, t.domains.Admits assignment → p.packing.Solution assignment →
      called.inconsistency = none ∧ called.store.domains.Admits assignment :=
    fun assignment admits solution => calls.sound p rfl assignment solution admits
  refine ⟨called, u, call, state, sound, fun cause found => ?_⟩
  rintro ⟨assignment, admits, solution⟩
  rw [(sound assignment admits solution).1] at found
  cases found

/-- The first call of the small packing. -/
theorem smallPacked_call_keeps_solutions :
    ∃ t queue p, Reached false smallPacked ∧ Underway smallPacked t ∧
      t.queue.pop = some (0, queue) ∧ t.Runs 0 p ∧
      ∃ called u, (Propagator.packing p).call 0 t.store = .ok called ∧
        State.callPropagator { t with queue := queue } 0 =
          .ok (called.inconsistency.map (Conflict.mk 0), u) ∧
        (∀ assignment, t.domains.Admits assignment → p.packing.Solution assignment →
          called.inconsistency = none ∧ called.store.domains.Admits assignment) ∧
        (∀ cause, called.inconsistency = some cause →
          ¬∃ assignment, t.domains.Admits assignment ∧ p.packing.Solution assignment) ∧
        called.inconsistency = none := by
  have announced : smallPacked.announce = .ok smallPacked := by cbv
  have pop : smallPacked.queue.pop = some (0, .empty) := by cbv
  have runs : smallPacked.Runs 0 (small.installedAs .single smallPacking) := by
    unfold Runs
    cbv
  obtain ⟨called, u, call, state, keeps, refutes⟩ :=
    packing_call_keeps_solutions reached_smallPacked (.announced announced) pop runs
  exact ⟨_, _, _, reached_smallPacked, .announced announced, pop, runs, called, u, call, state, keeps,
    refutes, (keeps smallPlacement admits_smallPlacement solution_smallPlacement).1⟩

end State

end Stowage
