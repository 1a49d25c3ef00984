import Stowage.Proofs.Invariant
import Stowage.Proofs.Waiting

/-!
# Posts, checkpoints, returns and new variables keep the invariant

* `State.Consistent.post`, `State.evolves_post` — posting a predicate.
* `State.Consistent.checkpointed`, `State.Frame.restore` — a checkpoint, and a return to an earlier one.
* `State.Consistent.create` — a new variable.
-/

set_option autoImplicit false

namespace Stowage

namespace State

variable {s t : State} {k : Nat}

/-! ## Posts -/

theorem Consistent.narrow (cons : s.Consistent) {ds : Domains}
    (h : Domains.Narrows s.domains ds) (frame : (s.withDomains ds).Frame) :
    (s.withDomains ds).Consistent :=
  ⟨frame, h.healthy, fun id p runs => (cons.ready id p runs).narrow h,
    fun id p runs absent => (cons.awake id p runs absent).narrow h, fun e x waits => by
      rw [withDomains, domains, h.count]
      exact (h.events e x waits).elim (cons.events e x) id⟩

theorem evolves_withDomains {ds : Domains} (h : Domains.Undoable s.domains ds) :
    Evolves s (s.withDomains ds) where
  watchers := rfl
  cores := rfl
  started id p q hp hq := (Evolves.refl s).started id p q hp hq
  recovers := ⟨h.recovers, .refl _⟩
  lawful lawful := ⟨h.lawful lawful.domains, lawful.cells⟩
  count := h.count
  allotted allotted := allotted.withDomains ds
  lines := rfl
  queued h := h

theorem post_eq_ok {q : Predicate} {posting : Posting} (h : s.post q = .ok (posting, t)) :
    ∃ ds, s.domains.post q = .ok (posting, ds) ∧ t = s.withDomains ds := by
  simp only [State.post, bind, Except.bind] at h
  split at h
  · cases h
  · rename_i result post
    cases h
    exact ⟨result.2, post, rfl⟩

theorem post_ok {q : Predicate} {posting : Posting} {ds : Domains}
    (h : s.domains.post q = .ok (posting, ds)) : s.post q = .ok (posting, s.withDomains ds) := by
  simp only [State.post, h, bind, Except.bind, pure, Except.pure]

theorem evolves_post {q : Predicate} {posting : Posting} (h : s.post q = .ok (posting, t)) :
    Evolves s t := by
  obtain ⟨ds, post, rfl⟩ := post_eq_ok h
  exact evolves_withDomains (Domains.undoable_of_post post)

theorem Consistent.post (cons : s.Consistent) {q : Predicate} {posting : Posting}
    (h : s.post q = .ok (posting, t)) (left : posting ≠ .emptied) : t.Consistent := by
  have frame := cons.toFrame.evolve (evolves_post h)
  obtain ⟨ds, post, rfl⟩ := post_eq_ok h
  exact cons.narrow (Domains.narrows_of_post cons.healthy post left) frame

/-! ## Checkpoints -/

theorem checkpointed_eq_ok (h : s.checkpointed = .ok t) :
    s.Quiet ∧ t = { s with store := s.store.mark } := by
  simp only [checkpointed, bind, Except.bind] at h
  split at h
  · cases h
  · rename_i quiet
    cases h
    have both := Packing.require_eq_ok.1 quiet
    simp only [Bool.and_eq_true] at both
    exact ⟨⟨Queue.isEmpty_iff.1 both.1, Pending.isEmpty_iff.1 both.2⟩, rfl⟩

theorem checkpointed_of_quiet (quiet : s.Quiet) :
    s.checkpointed = .ok { s with store := s.store.mark } := by
  have queue := Queue.isEmpty_iff.2 quiet.queue
  have pending := Pending.isEmpty_iff.2 quiet.pending
  simp [checkpointed, require, queue, pending, bind, Except.bind, pure, Except.pure]

/-- **A checkpoint is added to a settled state.** -/
theorem Consistent.checkpointed (cons : s.Consistent) (h : s.checkpointed = .ok t) :
    t.Consistent := by
  obtain ⟨quiet, rfl⟩ := checkpointed_eq_ok h
  have level : s.store.mark.Level := cons.level.mark
  have frame : State.Frame { s with store := s.store.mark } := by
    refine ⟨⟨cons.lawful.domains.mark, cons.lawful.cells.mark⟩, level,
      cons.watchers, cons.watched, cons.lines, cons.queued, fun id p runs => ?_, cons.allotted.mark,
      fun k hk => ?_, cons.listens⟩
    · have installed := cons.installed id p runs
      exact
        { installed with
          known := ⟨installed.known.items, installed.known.loads⟩
          begun := fun _ => (cons.revised quiet runs).started }
    · have before : k ≤ s.store.checkpoint := Nat.le_of_lt_succ (hk.trans_eq s.store.checkpoint_mark)
      simp only
      rw [Store.view_mark cons.level before]
      rcases Nat.eq_or_lt_of_le before with same | less
      · rw [same, Store.view_self cons.level quiet.pending]
        refine ⟨cons.healthy, fun id p runs => ?_⟩
        have installed := cons.installed id p runs
        exact (cons.revised quiet runs).congr installed.wf cons.healthy installed.known rfl
          (fun _ _ => rfl) (fun _ _ _ _ => rfl) (.inr rfl)
      · exact cons.history k less
  refine ⟨frame, cons.healthy, fun id p runs => ?_, fun id p runs absent => ?_, cons.events⟩
  · have installed := cons.installed id p runs
    exact (cons.ready id p runs).congr installed.wf cons.healthy
      ⟨installed.known.items, installed.known.loads⟩ rfl (fun _ _ => rfl) fun _ _ _ _ => rfl
  · have installed := cons.installed id p runs
    exact (cons.awake id p runs absent).congr installed.wf cons.healthy
      ⟨installed.known.items, installed.known.loads⟩ rfl (fun _ _ => rfl) (fun _ _ _ _ => rfl)
      (.inl rfl)

/-! ## Returns -/

/-- A return to the current checkpoint changes nothing. -/
theorem restore_self (s : State) : s.restore s.checkpoint = .ok s := by
  simp [restore, require, bind, Except.bind, pure, Except.pure]

/-- Tables that are at the same checkpoint go back together. -/
theorem revert_eq (frame : s.Frame) (h : k < s.checkpoint) :
    s.store.revert k = .ok (s.store.restore k) := by
  have domains : k < s.store.domains.checkpoint := h
  have undo := frame.lawful.domains.canUndo k
  have cells := frame.lawful.cells.revert (h.trans_eq frame.level.symm)
  simp only [Store.revert, Domains.revert, Cells.revert, require, decide_eq_true domains, undo, cells,
    if_true, bind, Except.bind, pure, Except.pure, Store.restore]

/-- What is left of a state after going back to an earlier checkpoint. -/
theorem restore_eq (frame : s.Frame) (h : k < s.checkpoint) :
    s.restore k = .ok
      { store := s.store.view k
        watchers := s.watchers
        propagators := (s.propagators.mapIdx fun id prop => prop.discard id (s.store.view k)).map (·.1)
        queue := s.queue.clear
        totals := { s.totals with restores := s.totals.restores + 1 }
        notes := s.notes ++ ((s.propagators.mapIdx fun id prop =>
          prop.discard id (s.store.view k)).toList.flatMap (·.2)).toArray } := by
  have before : decide (k ≤ s.checkpoint) = true := decide_eq_true (Nat.le_of_lt h)
  have different : k ≠ s.checkpoint := Nat.ne_of_lt h
  simp only [restore, require, before, if_true, bind, Except.bind, different, if_false,
    revert_eq frame h, pure, Except.pure, discardPlans, abandon, withDomains, domains]
  rfl

theorem runs_of_discard {id : Nat} {st : Store} {q : Packer}
    (h : ((s.propagators.mapIdx fun id prop => prop.discard id st).map (·.1))[id]? =
      some (.packing q)) :
    ∃ p, s.Runs id p ∧ q = { p with agenda := p.agenda.discard } := by
  obtain ⟨prop, found, same⟩ := found_of_discard h
  cases prop with
  | packing p =>
    exact ⟨p, found, (Propagator.packing.inj same).symm⟩
  | precedence p => cases same
  | probe p => cases same

/-- **Going back to an earlier checkpoint leads to a settled state**, whatever happened since. -/
theorem Frame.restore (frame : s.Frame) (h : s.restore k = .ok t) (earlier : k < s.checkpoint) :
    t.Consistent ∧ t.Quiet := by
  have allotted := frame.allotted.restore h
  rw [restore_eq frame earlier] at h
  cases h
  obtain ⟨healthy, revised⟩ := frame.history k earlier
  have started : ∀ id p, s.Runs id p → p.agenda.started = true :=
    fun id p runs => (frame.installed id p runs).begun (Nat.lt_of_le_of_lt (Nat.zero_le k) earlier)
  have below : (s.store.view k).checkpoint = k := Store.checkpoint_view (Nat.le_of_lt earlier)
  refine ⟨⟨⟨Store.lawful_view frame.lawful, Store.level_view frame.level, ?_, fun x w hw => ?_, ?_,
    ?_, fun id q runs => ?_, allotted, fun j hj => ?_, fun id p found x place own => ?_⟩, healthy,
    fun id q runs => ?_, fun id q runs _ => ?_, fun e x waits => ?_⟩, ?_,
    Domains.pending_clearPending _⟩
  · rw [frame.watchers]
    exact (Trailed.size_restore _ _).symm
  · simp only [Array.size_map, Array.size_mapIdx]
    exact frame.watched x w hw
  · exact (Queue.length_clear s.queue).trans frame.lines
  · rw [Queue.toList_clear]
    intro id hid
    cases hid
  · obtain ⟨p, hp, rfl⟩ := runs_of_discard runs
    have installed := frame.installed id p hp
    exact ⟨installed.wf, installed.kind, (revised id p hp).known, installed.items, installed.loads,
      installed.places, fun _ => started id p hp⟩
  · have less : j < k := below ▸ hj
    simp only
    rw [Store.view_view _ (Nat.le_of_lt less)]
    obtain ⟨healthyJ, revisedJ⟩ := frame.history j (less.trans earlier)
    refine ⟨healthyJ, fun id q runs => ?_⟩
    obtain ⟨p, hp, rfl⟩ := runs_of_discard runs
    exact revisedJ id p hp
  · obtain ⟨prop, before, core⟩ := found_of_discard found
    have same := (prop.core_discard id (s.store.view k)).symm.trans (congrArg Propagator.core core)
    cases Propagator.core_eq_precedence same
    obtain ⟨exist, watched⟩ := frame.listens id p before x place own
    refine ⟨?_, watched⟩
    show x < (s.domains.table.restore k).size
    rw [Trailed.size_restore]
    exact exist
  · obtain ⟨p, hp, rfl⟩ := runs_of_discard runs
    have rest := revised id p hp
    have agenda : p.agenda.discard = ⟨[], [], [], false, true⟩ := by
      rw [Agenda.discard, started id p hp]
    exact (rest.congr (frame.installed id p hp).wf rest.healthy rest.known rfl (fun _ _ => rfl)
      (fun _ _ _ _ => rfl) (.inr agenda)).toReady
  · obtain ⟨p, hp, rfl⟩ := runs_of_discard runs
    have rest := revised id p hp
    have agenda : p.agenda.discard = ⟨[], [], [], false, true⟩ := by
      rw [Agenda.discard, started id p hp]
    exact rest.congr (frame.installed id p hp).wf rest.healthy rest.known rfl (fun _ _ => rfl)
      (fun _ _ _ _ => rfl) (.inr agenda)
  · exact absurd waits (Pending.not_has_empty e x)
  · exact Queue.toList_clear _

end State

end Stowage
