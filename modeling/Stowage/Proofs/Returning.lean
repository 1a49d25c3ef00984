import Stowage.Proofs.Reachability

/-!
# Returning to a checkpoint

Work that stays above a checkpoint leaves the view of that checkpoint alone, so going back to it
recovers the state of then.

* `State.Retains` — the state can be recovered from another.
* `State.Retains.evolve`, `State.Retains.checkpointed`, `State.Retains.restore` — posts, propagations,
  further checkpoints and inner returns keep that.
* `State.Resumes` — what has been recovered, and with it all solutions.
* `State.Retains.resume` — the return.
-/

set_option autoImplicit false

namespace Stowage

namespace State

variable {s t e : State} {k : Nat}

/-- The state `s` can be recovered from `e` by going back to its checkpoint. -/
structure Retains (s e : State) : Prop where
  below : s.checkpoint < e.checkpoint
  view : e.store.view s.checkpoint = s.store
  watchers : e.watchers = s.watchers
  cores : e.propagators.map Propagator.core = s.propagators.map Propagator.core

theorem Retains.count (h : Retains s e) : e.domains.count = s.domains.count := by
  have view := congrArg (fun store : Store => store.domains.count) h.view
  rw [← show s.store.domains.count = s.domains.count from rfl, ← view]
  exact (Trailed.size_restore _ _).symm

theorem Retains.evolve (h : Retains s e) (frame : e.Frame) (step : Evolves e t) : Retains s t where
  below := step.checkpoint ▸ h.below
  view := (step.recovers.view_eq frame.level h.below).trans h.view
  watchers := step.watchers.trans h.watchers
  cores := step.cores.trans h.cores

theorem Retains.checkpointed (h : Retains s e) (frame : e.Frame) (step : e.checkpointed = .ok t) :
    Retains s t := by
  obtain ⟨-, rfl⟩ := checkpointed_eq_ok step
  refine ⟨(Nat.lt_succ_of_lt h.below).trans_eq e.store.checkpoint_mark.symm, ?_, h.watchers, h.cores⟩
  exact (Store.view_mark frame.level (Nat.le_of_lt h.below)).trans h.view

/-- The first checkpoint is the one to which the state will go back. -/
theorem Consistent.retains (cons : s.Consistent) (step : s.checkpointed = .ok t) : Retains s t := by
  obtain ⟨quiet, rfl⟩ := checkpointed_eq_ok step
  refine ⟨(Nat.lt_succ_self _).trans_eq s.store.checkpoint_mark.symm, ?_, rfl, rfl⟩
  exact (Store.view_mark cons.level (Nat.le_refl _)).trans (Store.view_self cons.level quiet.pending)

theorem Retains.restore (h : Retains s e) (frame : e.Frame) (above : s.checkpoint < k)
    (step : e.restore k = .ok t) : Retains s t := by
  rcases Nat.eq_or_lt_of_le (le_of_restore step) with now | earlier
  · rw [now, restore_self] at step
    cases step
    exact h
  · rw [restore_eq frame earlier] at step
    cases step
    have bound := Nat.le_of_lt earlier
    refine ⟨?_, ?_, h.watchers, (cores_discard e.propagators _).trans h.cores⟩
    · show s.checkpoint < (e.store.view k).checkpoint
      rw [Store.checkpoint_view bound]
      exact above
    · exact (Store.view_view _ (Nat.le_of_lt above)).trans h.view

/-! ## What a return recovers -/

/-- The state `t` holds what `s` holds, and nothing waits in it. -/
structure Resumes (s t : State) : Prop where
  store : t.store = s.store
  watchers : t.watchers = s.watchers
  cores : t.propagators.map Propagator.core = s.propagators.map Propagator.core
  consistent : t.Consistent
  quiet : t.Quiet

theorem Resumes.refl (cons : s.Consistent) (quiet : s.Quiet) : Resumes s s :=
  ⟨rfl, rfl, rfl, cons, quiet⟩

theorem Resumes.trans (h : Resumes s t) (h' : Resumes t e) : Resumes s e :=
  ⟨h'.store.trans h.store, h'.watchers.trans h.watchers, h'.cores.trans h.cores, h'.consistent,
    h'.quiet⟩

theorem Resumes.domains (h : Resumes s t) : t.domains = s.domains := congrArg Store.domains h.store

theorem Resumes.checkpoint (h : Resumes s t) : t.checkpoint = s.checkpoint :=
  congrArg Store.checkpoint h.store

/-- What can be recovered from a state can be recovered from one that holds the same. -/
theorem Retains.resumes (h : Retains s e) (resumes : Resumes e t) : Retains s t := by
  refine ⟨?_, ?_, resumes.watchers.trans h.watchers, resumes.cores.trans h.cores⟩
  · rw [resumes.checkpoint]
    exact h.below
  · rw [resumes.store]
    exact h.view

/-- **Going back recovers the state.** -/
theorem Retains.resume (h : Retains s e) (frame : e.Frame) :
    ∃ r, e.restore s.checkpoint = .ok r ∧ Resumes s r := by
  have step := restore_eq frame h.below
  obtain ⟨consistent, quiet⟩ := frame.restore step h.below
  exact ⟨_, step, h.view, h.watchers, (cores_discard e.propagators _).trans h.cores, consistent, quiet⟩

end State

end Stowage
