import Stowage.Proofs.Reachability
import Stowage.Proofs.Packing.Steps

/-!
# Propagation terminates

The loops of the library run with a limit on their rounds.  The limit is never reached: every loop
ends by itself, and with every larger limit the result is the same.

* `Call.Repeats` — a round repeated until nothing changes, without a limit.
* `Desk.Valid.balance_ends`, `Desk.Valid.settle_ends` — the loops inside a call of a packing end.
* `State.Drains` — propagators called until none waits, without a limit, and the number of calls.
* `State.propagation_terminates` — a propagation ends, after at most as many calls as its queue and the
  values removed allow.
-/

set_option autoImplicit false

namespace Stowage

/-! ## Rounds without a limit -/

namespace Call

variable {σ : Type} {round : Call σ Bool} {s : σ} {r : EStateM.Result Halt σ Unit}

/-- The round, repeated from `s` until it changes nothing or stops early, has the result `r`. -/
inductive Repeats (round : Call σ Bool) : σ → EStateM.Result Halt σ Unit → Prop
  | stable {s t : σ} (last : round s = .ok false t) : Repeats round s (.ok () t)
  | stopped {s t : σ} {halt : Halt} (last : round s = .error halt t) :
      Repeats round s (.error halt t)
  | again {s t : σ} {r : EStateM.Result Halt σ Unit} (first : round s = .ok true t)
      (rest : Repeats round t r) : Repeats round s r

/-- A loop that does not use up its limit ends by itself. -/
theorem Repeats.of_untilStable (limit : Nat)
    (enough : ∀ t, untilStable round limit s ≠ .error (.fault .exhausted) t) :
    Repeats round s (untilStable round limit s) := by
  induction limit generalizing s with
  | zero => exact absurd rfl (enough s)
  | succ limit ih =>
    have unroll : untilStable round (limit + 1) s =
        (round >>= fun changed => if changed then untilStable round limit else pure ()) s := rfl
    rw [unroll] at enough ⊢
    simp only [bind, EStateM.bind] at enough ⊢
    cases first : round s with
    | error halt t => exact .stopped first
    | ok changed t =>
      simp only [first] at enough
      cases changed with
      | false => exact .stable first
      | true => exact .again first (ih enough)

end Call

/-- A call that keeps to a contract does not fault. -/
theorem Contract.Runs.ne_fault {σ α : Type} {c : Contract σ} {call : Call σ α} {s : σ}
    {Q : α → σ → Prop} (h : c.Runs call s Q) (fault : Fault) (t : σ) :
    call s ≠ .error (.fault fault) t := by
  intro result
  unfold Contract.Runs at h
  rw [result] at h
  exact h

/-! ## The loops inside a call -/

namespace Desk

variable {p : Packing} {desk : Desk}

/-- **Balancing ends.** -/
theorem Valid.balance_ends (valid : desk.Valid p) (wf : p.WellFormed) :
    Call.Repeats p.balanceRound desk (p.balance desk) :=
  .of_untilStable desk.domains.roundLimit fun t =>
    (Packing.balance_runs wf valid).ne_fault .exhausted t

/-- **Balancing and fitting in turn ends.** -/
theorem Valid.settle_ends (valid : desk.Valid p) (wf : p.WellFormed)
    (confined : ∀ i < p.numItems, desk.Confined p i) :
    Call.Repeats p.settleRound desk
      (Call.untilStable p.settleRound (Packing.settleLimit desk) desk) :=
  .of_untilStable _ fun t => (Packing.settle_runs wf valid confined).ne_fault .exhausted t

end Desk

namespace State

variable {s t u : State} {id n : Nat} {queue : Queue} {conflict : Option Conflict}

/-! ## Calls without a limit -/

/-- The propagators that wait in a state are called, `n` times altogether, until none waits or one has
found an inconsistency. -/
inductive Drains : State → Nat → Option Conflict → State → Prop
  | done {s : State} (pop : s.queue.pop = none) : Drains s 0 none s
  | broken {s t : State} {id : Nat} {queue : Queue} {c : Conflict}
      (pop : s.queue.pop = some (id, queue))
      (step : State.callPropagator { s with queue := queue } id = .ok (some c, t)) :
      Drains s 1 (some c) t
  | called {s t u : State} {id n : Nat} {queue : Queue} {conflict : Option Conflict}
      (pop : s.queue.pop = some (id, queue))
      (step : State.callPropagator { s with queue := queue } id = .ok (none, t))
      (rest : Drains t n conflict u) : Drains s (n + 1) conflict u

/-- A loop of calls that returns ends by itself. -/
theorem Drains.of_callWaiting {limit : Nat} (h : s.callWaiting limit = .ok (conflict, t)) :
    ∃ n, Drains s n conflict t := by
  induction limit generalizing s with
  | zero =>
    simp only [callWaiting, pure, Except.pure] at h
    split at h
    · rename_i empty
      cases h
      exact ⟨0, .done (Queue.pop_eq_none_iff.2 (Queue.isEmpty_iff.1 empty))⟩
    · cases h
  | succ limit ih =>
    simp only [callWaiting, bind, Except.bind, pure, Except.pure] at h
    split at h
    · rename_i pop
      cases h
      exact ⟨0, .done pop⟩
    · rename_i id queue pop
      split at h
      · cases h
      · rename_i result step
        obtain ⟨found, u⟩ := result
        cases found with
        | none =>
          obtain ⟨n, rest⟩ := ih h
          exact ⟨n + 1, .called pop step rest⟩
        | some c =>
          cases h
          exact ⟨1, .broken pop step⟩

/-- A call is counted, and brings no value back. -/
theorem callPropagator_counts (cons : s.Consistent) (pop : s.queue.pop = some (id, queue))
    (h : State.callPropagator { s with queue := queue } id = .ok (conflict, t)) :
    t.totals.calls = s.totals.calls + 1 ∧ t.domains.volume ≤ s.domains.volume := by
  obtain ⟨prop, called, found, call, outcome⟩ := callPropagator_eq_ok h
  have calls := Propagator.call_spec cons.healthy (cons.ready_of_found found) call
  rcases outcome with ⟨fine, rfl, announced⟩ | ⟨cause, totals, failed, rfl, rfl, counted⟩
  · have after := cons.afterCalling found calls pop fine
    obtain ⟨v, done, -, -, domains, -, totals⟩ := announce_spec after
    cases announced.symm.trans done
    constructor
    · rw [totals]
      rfl
    · rw [domains]
      exact calls.undoable.volume cons.healthy
  · exact ⟨counted, calls.undoable.volume cons.healthy⟩

/-- **The number of calls.**  Every call takes a propagator out of the queue, and at most all of them
join it again, which happens only if a value was removed. -/
theorem Drains.bound (h : Drains s n conflict t) (cons : s.Consistent)
    (quiet : s.domains.pending = .empty) :
    t.totals.calls = s.totals.calls + n ∧ t.domains.volume ≤ s.domains.volume ∧
      n + s.propagators.size * t.domains.volume ≤ s.callLimit := by
  induction h with
  | done pop => exact ⟨rfl, le_rfl, by unfold callLimit; omega⟩
  | @broken s t id queue c pop step =>
    obtain ⟨counted, less⟩ := callPropagator_counts cons pop step
    refine ⟨counted, less, ?_⟩
    have waiting : s.queue.toList.length = queue.toList.length + 1 := by
      rw [Queue.toList_of_pop pop]
      rfl
    have := Nat.mul_le_mul_left s.propagators.size less
    unfold callLimit
    omega
  | @called s t u id n queue conflict pop step rest ih =>
    obtain ⟨counted, less⟩ := callPropagator_counts cons pop step
    obtain ⟨evolves, fine, -⟩ := callPropagator_spec cons quiet pop step
    obtain ⟨consT, quietT, -, shorter⟩ := fine rfl
    obtain ⟨countedT, lessT, boundT⟩ := ih consT quietT
    rw [size_of_cores evolves.cores] at boundT
    refine ⟨by omega, lessT.trans less, by omega⟩

/-! ## Propagation -/

/-- **Propagation terminates**, whatever propagators there are and however they share variables, as long
as the rules of the probes are about variables that exist and nothing that is imposed leaves the range
of the values.  It calls at most as many propagators as wait after the first announcement, and beyond
that every propagator once for every value that is removed.  The loops inside every call of a packing
end by themselves, the outer one wherever the items are confined, and so does the call. -/
theorem propagation_terminates (reached : Reached false s) :
    (s.Grounded → ∃ u n conflict t, s.announce = .ok u ∧ Drains u n conflict t ∧
      s.propagate = .ok (conflict, t) ∧ t.totals.calls = s.totals.calls + n ∧
      t.domains.volume ≤ s.domains.volume ∧
      n ≤ u.queue.toList.length + s.propagators.size * (s.domains.volume - t.domains.volume)) ∧
    (∀ fault, s.propagate = .error fault → (fault = .outOfRange ∨ fault = .overflow) ∧ ¬s.Grounded) ∧
    ∀ u id p, Underway s u → u.Runs id p →
      (∃ called, (Propagator.packing p).call id u.store = .ok called) ∧
      ∀ desk, Desk.Path p.packing (p.desk u.store) desk →
        Call.Repeats p.packing.balanceRound desk (p.packing.balance desk) ∧
        ((∀ i < p.packing.numItems, desk.Confined p.packing i) →
          Call.Repeats p.packing.settleRound desk
            (Call.untilStable p.packing.settleRound (Packing.settleLimit desk) desk)) := by
  have cons := reached.consistent
  refine ⟨fun grounded => ?_, fun fault failed => ?_, fun u id p underway runs => ?_⟩
  · obtain ⟨⟨conflict, t⟩, result⟩ := propagate_ok cons grounded
    obtain ⟨u, announced, calls⟩ := propagate_eq_ok result
    obtain ⟨v, done, consU, evolves, domains, -, totals⟩ := announce_spec cons
    cases announced.symm.trans done
    obtain ⟨n, drains⟩ := Drains.of_callWaiting calls
    obtain ⟨counted, less, bound⟩ := drains.bound consU (Domains.pending_of_cleared domains)
    have volume : u.domains.volume = s.domains.volume := by
      rw [domains]
      rfl
    rw [volume] at less
    rw [callLimit, volume, size_of_cores evolves.cores] at bound
    refine ⟨u, n, conflict, t, announced, drains, result, totals ▸ counted, less, ?_⟩
    rw [Nat.mul_sub]
    have := Nat.mul_le_mul_left s.propagators.size less
    omega
  · rcases propagate_cases cons with ⟨r, result⟩ | ⟨other, result, aground⟩
    · cases result.symm.trans failed
    · cases result.symm.trans failed
      exact aground
  · obtain ⟨consU, -⟩ := underway.invariant cons
    obtain ⟨regular, ready⟩ := consU.ready_of_found runs p rfl
    have wf := regular.wf
    obtain ⟨called, call, -⟩ := Packer.call_spec regular ready id
    refine ⟨⟨called, call⟩, fun desk path => ?_⟩
    have valid := (Desk.Path.preserves (P := fun _ => True) wf (fun _ _ _ _ _ => trivial)
      ready.toValid trivial path).1
    exact ⟨valid.balance_ends wf, valid.settle_ends wf⟩

/-- The packed variables, where the second bin has to hold more than the first, and at most 3 once the
item is not in the first bin. -/
def smallMixed : State :=
  after ((after (smallPacked.install (.precedence ⟨1, 2⟩))).install
    (.probe [0, 0] [.assign, .lowerBound] .low [] [⟨true, .atLeast 0 1, some (.atMost 2 3)⟩]))

theorem smallMixed_terminates :
    Reached false smallMixed ∧ smallMixed.Grounded ∧
      ∃ u n conflict t, smallMixed.announce = .ok u ∧ Drains u n conflict t ∧
        smallMixed.propagate = .ok (conflict, t) ∧ t.totals.calls = smallMixed.totals.calls + n ∧
        t.domains.volume ≤ smallMixed.domains.volume ∧
        n ≤ u.queue.toList.length +
          smallMixed.propagators.size * (smallMixed.domains.volume - t.domains.volume) := by
  have ordered : Reached false (after (smallPacked.install (.precedence ⟨1, 2⟩))) :=
    .install reached_smallPacked (show (Blueprint.precedence ⟨1, 2⟩).Typed from trivial)
      (show smallPacked.install (.precedence ⟨1, 2⟩) = .ok (1, _) by cbv)
  have reached : Reached false smallMixed :=
    .install ordered (show (Blueprint.probe [0, 0] [.assign, .lowerBound] .low []
      [⟨true, .atLeast 0 1, some (.atMost 2 3)⟩]).Typed from trivial)
      (show (after (smallPacked.install (.precedence ⟨1, 2⟩))).install (.probe [0, 0]
        [.assign, .lowerBound] .low [] [⟨true, .atLeast 0 1, some (.atMost 2 3)⟩]) =
        .ok (2, smallMixed) by cbv)
  have grounded : smallMixed.Grounded :=
    grounded_of_all (show smallMixed.propagators.toList.all (fun prop =>
      decide (prop.Grounded smallMixed.domains)) = true by cbv)
  exact ⟨reached, grounded, (propagation_terminates reached).1 grounded⟩

end State

end Stowage
