import Stowage.Proofs.Scripts
import Stowage.Proofs.Packing.Recomputation

/-!
# Plain propagation and recomputation agree

A packing without big items derives from its ledger what can be derived from the domains alone.  Its
propagation ends with closed domains, a recomputation with the largest ones; and closed domains stay
within whatever the propagation makes of the domains around them.

* `State.recompute_eq_ok`, `State.recompute_eq_inconsistent` — a recomputation in a state.
* `State.plain_propagation_recomputes` — the theorem.
-/

set_option autoImplicit false

namespace Stowage

namespace State

variable {s t : State} {p : Packer} {id : Nat}

/-- A packing is recomputed on a copy of the domains. -/
theorem recompute_eq_ok (runs : s.Runs id p) {ds : Domains}
    (result : p.packing.recompute s.domains = .ok () ds) : s.recompute id = .ok (none, ds) := by
  have fetched : Table.fetch s.propagators id = .ok (.packing p) := by
    simp [Table.fetch, show s.propagators[id]? = _ from runs]
  simp only [State.recompute, fetched, Propagator.recompute, result, bind, Except.bind, pure,
    Except.pure]

theorem recompute_eq_inconsistent (runs : s.Runs id p) {cause : Inconsistency} {ds : Domains}
    (result : p.packing.recompute s.domains = .error (.inconsistent cause) ds) :
    s.recompute id = .ok (some ⟨id, cause⟩, ds) := by
  have fetched : Table.fetch s.propagators id = .ok (.packing p) := by
    simp [Table.fetch, show s.propagators[id]? = _ from runs]
  simp only [State.recompute, fetched, Propagator.recompute, result, bind, Except.bind, pure,
    Except.pure]

/-- After a propagation the domains are closed. -/
theorem isClosed_of_propagate (reached : Reached false s) (hosts : s.Hosts p)
    (step : s.propagate = .ok (none, t)) : p.packing.IsClosed t.domains := by
  have quiet := ((propagate_spec reached.consistent step).2.1 rfl).2.1
  have wf := (reached.consistent.installed 0 p hosts.runs).wf
  exact ((heir_propagate reached step).closed hosts quiet).isClosed wf

/-- A propagation without big items is a recomputation. -/
theorem propagate_iff_recompute (reached : Reached false s) (hosts : s.Hosts p)
    (plain : p.packing.policy = .disabled) :
    ∃ conflict t conflict' ds, s.propagate = .ok (conflict, t) ∧
      s.recompute 0 = .ok (conflict', ds) ∧ (conflict = none ↔ conflict' = none) ∧
      (conflict = none → ∀ x v, v ∈ t.domains.domain x ↔ v ∈ ds.domain x) := by
  have cons := reached.consistent
  have installed := cons.installed 0 p hosts.runs
  rcases Packing.recompute_cases installed.wf cons.healthy installed.known with
    ⟨ds, result, narrows, ⟨policy, account, wf, closed⟩, largest⟩ | ⟨cause, ds, result, none⟩
  · -- the largest closed domains stay within those of the propagation
    have around := cons.surrounds_of_disabled hosts.runs plain wf closed narrows.subset
    obtain ⟨t, step, q, -, -, stays⟩ :=
      Keeping.surrounds ⟨p, hosts, rfl, around⟩ installed.wf cons
    have inside := ((propagate_spec cons step).2.1 rfl).2.2
    have within := largest t.domains (isClosed_of_propagate reached hosts step) inside
    exact ⟨none, t, none, ds, step, recompute_eq_ok hosts.runs result, Iff.rfl,
      fun _ x v => ⟨within x v, stays.within x v⟩⟩
  · obtain ⟨⟨conflict, t⟩, step⟩ := propagate_ok cons hosts.onlyPackings.grounded
    refine ⟨conflict, t, _, ds, step, recompute_eq_inconsistent hosts.runs result, ?_⟩
    cases conflict with
    | some c => exact ⟨by simp, nofun⟩
    | none =>
      have inside := ((propagate_spec cons step).2.1 rfl).2.2
      exact absurd inside (none t.domains (isClosed_of_propagate reached hosts step))

/-- **Plain propagation computes what a recomputation computes.**  Predicates are posted to a state whose
only propagator is a packing of several dimensions, or one without big items.  The propagation succeeds
if and only if the recomputation from a copy of the posted domains does, and then both leave every
variable with the same values. -/
theorem plain_propagation_recomputes {posts : List Predicate} (reached : Reached false s)
    (hosts : s.Hosts p) (plain : p.kind = .vector ∨ p.packing.policy = .disabled)
    (posted : s.follow (posts.map .post) = .ok (some t)) :
    ∃ conflict u conflict' ds, t.propagate = .ok (conflict, u) ∧
      t.recompute 0 = .ok (conflict', ds) ∧ (conflict = none ↔ conflict' = none) ∧
      (conflict = none → ∀ x v, v ∈ u.domains.domain x ↔ v ∈ ds.domain x) := by
  have installed := reached.consistent.installed 0 p hosts.runs
  have disabled : p.packing.policy = .disabled := plain.elim installed.kind id
  obtain ⟨heir, -⟩ := follow_heir reached posted
  obtain ⟨q, hostsT, -, packing, -⟩ := hosts.of_cores heir.cores
  exact propagate_iff_recompute heir.reached hostsT (packing ▸ disabled)

/-- The crowded bins without big items. -/
def crowdedPlain : State :=
  after (crowdedVars.install (.packing .single (crowdedPacking.withPolicy .disabled)))

/-- After a propagation, the first bin is to hold at least 5, and the smallest item is placed in the
second bin. -/
def crowdedPosted : State :=
  after ((after ((after crowdedPlain.propagate).post (.atLeast 3 5))).post (.equals 2 1))

/-- The largest item is needed in the first bin, and the other one has to go to the second bin. -/
theorem crowdedPosted_recomputes :
    ∃ s p, Reached false s ∧ s.Hosts p ∧ p.packing.policy = .disabled ∧
      s.follow ([.atLeast 3 5, .equals 2 1].map .post) = .ok (some crowdedPosted) ∧
      ∃ conflict u conflict' ds, crowdedPosted.propagate = .ok (conflict, u) ∧
        crowdedPosted.recompute 0 = .ok (conflict', ds) ∧ (conflict = none ↔ conflict' = none) ∧
        (conflict = none → ∀ x v, v ∈ u.domains.domain x ↔ v ∈ ds.domain x) ∧
        conflict = none ∧ (u.domains.domain 1).fixedValue? = some 1 := by
  have packed : Reached false crowdedPlain :=
    .install reached_crowdedVars
      (show (Blueprint.packing .single (crowdedPacking.withPolicy .disabled)).Typed from trivial)
      (show crowdedVars.install _ = .ok (0, crowdedPlain) by cbv)
  have step : crowdedPlain.propagate = .ok (none, after crowdedPlain.propagate) := by cbv
  have reached : Reached false (after crowdedPlain.propagate) := .propagate packed step
  have hosts : (after crowdedPlain.propagate).Hosts
      { crowdedVars.installedAs .single (crowdedPacking.withPolicy .disabled) with
        agenda := ⟨[], [], [], false, true⟩, counters := ⟨1, 0, 0, 2, 0, 0⟩ } := by
    unfold Hosts
    cbv
  have posted : (after crowdedPlain.propagate).follow ([.atLeast 3 5, .equals 2 1].map .post) =
      .ok (some crowdedPosted) := by cbv
  obtain ⟨conflict, u, conflict', ds, propagate, recompute, both, same⟩ :=
    plain_propagation_recomputes reached hosts (.inr rfl) posted
  have outcome : crowdedPosted.propagate.toOption.map (fun r => (r.1, (r.2.domains.domain 1).fixedValue?)) =
      some (none, some 1) := by cbv
  rw [propagate] at outcome
  obtain ⟨fine, fixed⟩ := Prod.mk.inj (Option.some.inj outcome)
  exact ⟨_, _, reached, hosts, rfl, posted, conflict, u, conflict', ds, propagate, recompute, both, same,
    fine, fixed⟩

end State

end Stowage
