import Stowage.Proofs.Building
import Stowage.Proofs.Rooted
import Stowage.Proofs.Packing.Recomputation

/-!
# Nothing is missed at a fixed point

At a fixed point the propagators are applied once more, from nothing and each to a copy of the domains.
None of them changes anything: the domains are closed under the rules of every packing, and their bounds
satisfy every precedence.

* `State.Rooted.recompute` — one propagator.
* `State.areStable_of_recompute` — all of them.
* `State.settled_is_stable` — so every fixed point is stable.
-/

set_option autoImplicit false

namespace Stowage

namespace State

variable {s : State}

/-- No propagator is a probe. -/
def Unprobed (s : State) : Prop := ∀ (id : Nat) (p : Probe), s.propagators[id]? ≠ some (.probe p)

/-- **A propagator applied from nothing changes no domain at a fixed point.** -/
theorem Rooted.recompute (rooted : Rooted false s) (quiet : s.Quiet) (unprobed : s.Unprobed) {id : Nat}
    {prop : Propagator} (found : s.propagators[id]? = some prop) :
    s.recompute id = .ok (none, s.domains) := by
  have cons := rooted.consistent
  have still : prop.recompute s.domains = .ok () s.domains := by
    cases prop with
    | packing p =>
      have installed := cons.installed id p found
      have closed := (rooted.reached.closed quiet found).isClosed installed.wf
      exact Packing.IsClosed.recompute installed.wf installed.known closed
    | precedence p =>
      have exist := cons.listens id p found
      have holds : p.Holds s.domains := rooted.settles quiet found
      exact p.revise_of_holds cons.healthy (exist p.left 0 rfl).1 (exist p.right 1 rfl).1 holds
    | probe p => exact absurd found (unprobed id p)
  have fetched : Table.fetch s.propagators id = .ok prop := by simp [Table.fetch, found]
  simp only [State.recompute, fetched, bind, Except.bind, still, pure, Except.pure]

theorem areStable_of_recompute {ids : List Nat}
    (still : ∀ id ∈ ids, s.recompute id = .ok (none, s.domains)) : s.areStable ids = .ok true := by
  induction ids with
  | nil => rfl
  | cons id ids ih =>
    have first := still id List.mem_cons_self
    have rest := ih fun j hj => still j (List.mem_cons_of_mem _ hj)
    simp [areStable, first, rest, bind, Except.bind]

/-- **Every fixed point is stable.**  After a propagation without an inconsistency, and after a return to
an earlier checkpoint, every propagator applied from nothing to a copy of the domains succeeds and
changes none of them. -/
theorem settled_is_stable (rooted : Rooted false s) (settled : Settled s) (unprobed : s.Unprobed) :
    s.isStable = .ok true ∧ ∀ id < s.propagators.size, s.recompute id = .ok (none, s.domains) := by
  obtain ⟨-, quiet⟩ := settled.invariant
  have still : ∀ id < s.propagators.size, s.recompute id = .ok (none, s.domains) :=
    fun id inside => rooted.recompute quiet unprobed (Array.getElem?_eq_getElem inside)
  exact ⟨areStable_of_recompute fun id member => still id (List.mem_range.1 member), still⟩

/-- The packed variables, where the second bin has to hold more than the first. -/
def smallOrdered : State := after (smallPacked.install (.precedence ⟨1, 2⟩))

/-- The ordered variables after a propagation, which places the item in the second bin. -/
def smallOrderedSettled : State := after smallOrdered.propagate

theorem smallOrdered_is_stable :
    Rooted false smallOrderedSettled ∧ Settled smallOrderedSettled ∧ smallOrderedSettled.Unprobed ∧
      smallOrderedSettled.isStable = .ok true := by
  have hosts : smallPacked.Hosts (small.installedAs .single smallPacking) := by
    unfold Hosts
    cbv
  have packed : Rooted false smallPacked := reached_smallPacked.rooted hosts.onlyPackings
  have ordered : Rooted false smallOrdered :=
    .install packed (by cbv) (show (Blueprint.precedence ⟨1, 2⟩).Typed from trivial)
      (show smallPacked.install _ = .ok (1, smallOrdered) by cbv)
  have step : smallOrdered.propagate = .ok (none, smallOrderedSettled) := by cbv
  have rooted : Rooted false smallOrderedSettled := .propagate ordered step
  have settled : Settled smallOrderedSettled := .propagate ordered.reached step
  have names : smallOrderedSettled.propagators.map Propagator.name = #["BinPacking", "LessThan"] := by
    cbv
  have unprobed : smallOrderedSettled.Unprobed := by
    intro id p found
    have name : "Probe" ∈ smallOrderedSettled.propagators.map Propagator.name :=
      Array.mem_map.2 ⟨_, Array.mem_of_getElem? found, rfl⟩
    rw [names] at name
    simp at name
  exact ⟨rooted, settled, unprobed, (settled_is_stable rooted settled unprobed).1⟩

end State

end Stowage
