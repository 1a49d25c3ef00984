import Stowage.Proofs.Building
import Stowage.Proofs.Packing.Surrounding

/-!
# A packing without other propagators

Where a packing is the only propagator, a propagation consists of its calls.  What they keep of the
domains and the ledger, the propagation keeps; and it finds no inconsistency unless one of them does.

* `Packing.Keeps`, `Packing.Refuses` — what calls keep, and a call that finds an inconsistency.
* `State.Keeping` — it holds of the domains and the ledger of a state.
* `State.Keeping.propagate` — then it holds after a propagation.
* `State.Keeping.surrounds` — a propagation around closed domains finds no inconsistency.
-/

set_option autoImplicit false

namespace Stowage

namespace Packing

/-- The calls of a packing keep a property of the domains and the ledger. -/
structure Keeps (p : Packing) (K : Domains → Ledger → Prop) : Prop where
  /-- Events and checkpoints do not matter. -/
  congr : ∀ {ds ds' : Domains} {l : Ledger}, (∀ x, ds'.domain x = ds.domain x) → K ds l → K ds' l
  call : ∀ {s t : Desk}, s.Valid p → K s.domains s.ledger → p.call s = .ok () t →
    K t.domains t.ledger

/-- Some call finds an inconsistency where the property holds. -/
def Refuses (p : Packing) (K : Domains → Ledger → Prop) : Prop :=
  ∃ s t cause, s.Valid p ∧ K s.domains s.ledger ∧ p.call s = .error (.inconsistent cause) t

variable {p : Packing}

theorem keeps_surrounds (wf : p.WellFormed) (policy : BigItems) (inner : Domains) (account : Ledger) :
    p.Keeps (p.Surrounds policy inner account) where
  congr same h := ⟨h.closed, h.wf, fun x v member => same x ▸ h.within x v member, h.sharp⟩
  call valid h result := h.call wf valid result

theorem not_refuses_surrounds (wf : p.WellFormed) (policy : BigItems) (inner : Domains)
    (account : Ledger) : ¬p.Refuses (p.Surrounds policy inner account) := by
  rintro ⟨s, t, cause, valid, h, result⟩
  exact h.call_ne_inconsistent wf valid cause result

/-- Unless big items are extended, the first small position of every bin stays. -/
theorem keeps_firstSmall (wf : p.WellFormed) (fixed : p.policy ≠ .dynamic) (small : Nat → Nat) :
    p.Keeps fun _ l => ∀ b, (l.bin b).firstSmall = small b where
  congr _ h := h
  call valid h result b := (call_firstSmall wf valid fixed result b).trans (h b)

end Packing

namespace State

variable {s t : State} {p : Packing} {K : Domains → Ledger → Prop}

/-- The packing `p` is the only propagator, and the property holds of the domains and its ledger. -/
def Keeping (s : State) (p : Packing) (K : Domains → Ledger → Prop) : Prop :=
  ∃ q, s.Hosts q ∧ q.packing = p ∧ K s.domains (s.store.ledger q)

theorem Keeping.congr (h : s.Keeping p K) (keeps : p.Keeps K)
    (cores : t.propagators.map Propagator.core = s.propagators.map Propagator.core)
    (domains : ∀ x, t.domains.domain x = s.domains.domain x)
    (ledgers : ∀ id q, s.Runs id q → t.store.ledger q = s.store.ledger q) : t.Keeping p K := by
  obtain ⟨q, hosts, rfl, holds⟩ := h
  obtain ⟨r, hostsT, -, packing, layout⟩ := hosts.of_cores cores
  refine ⟨r, hostsT, packing, ?_⟩
  rw [Store.ledger_congr packing layout, ledgers 0 q hosts.runs]
  exact keeps.congr domains holds

theorem Keeping.announce (h : s.Keeping p K) (keeps : p.Keeps K) (cons : s.Consistent)
    (step : s.announce = .ok t) : t.Keeping p K := by
  obtain ⟨u, done, -, evolves, domains, ledgers, -⟩ := announce_spec cons
  cases step.symm.trans done
  refine h.congr keeps evolves.cores (fun x => ?_) ledgers
  rw [domains]
  rfl

/-- **The packing is called.** -/
theorem Keeping.callPropagator (h : s.Keeping p K) (keeps : p.Keeps K) (cons : s.Consistent)
    {id : Nat} {queue : Queue} {conflict : Option Conflict} (pop : s.queue.pop = some (id, queue))
    (step : State.callPropagator { s with queue := queue } id = .ok (conflict, t)) :
    (conflict = none → t.Keeping p K) ∧ (conflict ≠ none → p.Refuses K) := by
  obtain ⟨q, hosts, rfl, holds⟩ := h
  obtain ⟨prop, called, found, call, outcome⟩ := callPropagator_eq_ok step
  obtain ⟨r, rfl⟩ := hosts.onlyPackings id prop found
  obtain ⟨rfl, rfl⟩ := hosts.eq_of_runs found
  obtain ⟨regular, ready⟩ := cons.ready_of_found found r rfl
  have valid := ready.toValid
  have calls := Propagator.call_spec cons.healthy (cons.ready_of_found found) call
  obtain ⟨desk, cause, rfl, made⟩ := Packer.exists_desk_of_call call
  rcases made with ⟨rfl, result⟩ | ⟨reason, rfl, result⟩
  · rcases outcome with ⟨fine, rfl, announced⟩ | ⟨_, _, found, -⟩
    · refine ⟨fun _ => ?_, fun absurd => (absurd rfl).elim⟩
      have consU := cons.afterCalling found calls pop fine
      have hostsU : (s.afterCalling 0 ⟨.packing (r.afterCall desk), desk.store, [], none⟩ queue).Hosts
          (r.afterCall desk) := by
        rw [Hosts, State.afterCalling, show s.propagators = _ from hosts]
        rfl
      refine Keeping.announce ⟨_, hostsU, rfl, ?_⟩ keeps consU announced
      show K desk.domains (desk.store.ledger r)
      rw [(regular.leaves (.inl result)).ledger]
      exact keeps.call valid holds result
    · cases found
  · rcases outcome with ⟨fine, -⟩ | ⟨_, _, -, rfl, -⟩
    · cases fine
    · refine ⟨fun fine => ?_, fun _ => ⟨_, desk, reason, valid, holds, result⟩⟩
      cases fine

theorem Keeping.callWaiting {limit : Nat} {conflict : Option Conflict} (h : s.Keeping p K)
    (keeps : p.Keeps K) (cons : s.Consistent) (quiet : s.domains.pending = .empty)
    (steps : s.callWaiting limit = .ok (conflict, t)) :
    (conflict = none → t.Keeping p K) ∧ (conflict ≠ none → p.Refuses K) := by
  induction limit generalizing s with
  | zero =>
    simp only [State.callWaiting, pure, Except.pure] at steps
    split at steps
    · cases steps
      exact ⟨fun _ => h, fun some => (some rfl).elim⟩
    · cases steps
  | succ limit ih =>
    simp only [State.callWaiting, bind, Except.bind, pure, Except.pure] at steps
    split at steps
    · cases steps
      exact ⟨fun _ => h, fun some => (some rfl).elim⟩
    · rename_i id queue pop
      split at steps
      · cases steps
      · rename_i result call
        obtain ⟨first, u⟩ := result
        obtain ⟨kept, refuses⟩ := h.callPropagator keeps cons pop call
        cases first with
        | none =>
          obtain ⟨consU, quietU, -⟩ := (callPropagator_spec cons quiet pop call).2.1 rfl
          exact ih (kept rfl) consU quietU steps
        | some c =>
          cases steps
          exact ⟨(fun h => by cases h), fun _ => refuses (by simp)⟩

/-- **A propagation keeps what calls keep**, and only a call finds an inconsistency. -/
theorem Keeping.propagate {conflict : Option Conflict} (h : s.Keeping p K) (keeps : p.Keeps K)
    (cons : s.Consistent) (step : s.propagate = .ok (conflict, t)) :
    (conflict = none → t.Keeping p K) ∧ (conflict ≠ none → p.Refuses K) := by
  obtain ⟨u, announced, calls⟩ := propagate_eq_ok step
  obtain ⟨v, done, consU, -, domains, -⟩ := announce_spec cons
  cases announced.symm.trans done
  have quietU := Domains.pending_of_cleared domains
  exact (h.announce keeps cons announced).callWaiting keeps consU quietU calls

/-- **Around closed domains, a propagation finds no inconsistency**, and leaves them within. -/
theorem Keeping.surrounds {policy : BigItems} {inner : Domains} {account : Ledger}
    (h : s.Keeping p (p.Surrounds policy inner account)) (wf : p.WellFormed) (cons : s.Consistent) :
    ∃ t, s.propagate = .ok (none, t) ∧ t.Keeping p (p.Surrounds policy inner account) := by
  have only : s.OnlyPackings := by
    obtain ⟨q, hosts, -⟩ := h
    exact hosts.onlyPackings
  obtain ⟨⟨conflict, t⟩, step⟩ := propagate_ok cons only.grounded
  obtain ⟨kept, refuses⟩ := h.propagate (Packing.keeps_surrounds wf policy inner account) cons step
  cases conflict with
  | none => exact ⟨t, step, kept rfl⟩
  | some c => exact absurd (refuses (by simp)) (Packing.not_refuses_surrounds wf policy inner account)

/-- **A packing without big items surrounds all closed domains** within those of the state. -/
theorem Consistent.surrounds_of_disabled (cons : s.Consistent) {q : Packer} (runs : s.Runs 0 q)
    (disabled : q.packing.policy = .disabled) {policy : BigItems} {inner : Domains} {account : Ledger}
    (wf : (q.packing.withPolicy policy).WellFormed)
    (closed : (q.packing.withPolicy policy).Closed inner account) (within : inner.Within s.domains) :
    q.packing.Surrounds policy inner account s.domains (s.store.ledger q) := by
  refine ⟨closed, wf, within, fun b hb => .inr ⟨by rw [disabled]; decide, ?_⟩⟩
  obtain ⟨none, -⟩ := ((cons.ready 0 q runs).tracks.accounts b hb).plain disabled
  exact none.trans_le (Nat.zero_le _)

end State

end Stowage
