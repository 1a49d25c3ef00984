import Stowage.Proofs.BigItems
import Stowage.Proofs.Rooted

/-!
# The loads of all bins add up

In every dimension the loads of all bins add up to the size of all items.  A packing keeps running sums of
their bounds, and brings them up to date by the difference to the bounds it has last seen.  Whatever has
moved the bounds since, the sums are right when they are read; and when all is propagated, no bin is left
with a bound that the others do not allow.

* `Packing.journal_recorded` — at all moments of a call that are noted, the bounds last seen are those the
  loads have.
* `State.load_sums_are_exact` — so whenever a call reads the running sums, they are the sums of the bounds.
* `Packing.Conserves`, `State.settled_loads_add_up` — after a propagation the bounds of the loads of all
  bins, available or not, go together with the size of all items.
-/

set_option autoImplicit false

namespace Stowage

/-! ## Running sums -/

namespace Journaled

variable {α β : Type} {call : Call Desk α} {rest : α → Call Journaled β} {s t : Desk}
  {notes : List Remark}

theorem quietly_bind_ok {a : α} (result : call s = .ok a t) :
    (quietly call >>= rest) ⟨s, notes⟩ = rest a ⟨t, notes⟩ := by
  simp only [bind, EStateM.bind, quietly, Call.focus, result]

theorem quietly_bind_error {halt : Halt} (result : call s = .error halt t) :
    (quietly call >>= rest) ⟨s, notes⟩ = .error halt ⟨t, notes⟩ := by
  simp only [bind, EStateM.bind, quietly, Call.focus, result]

theorem notesOf_countConflict (call : Call Journaled Unit) (j : Journaled) :
    notesOf (Packing.Noted.countConflict call j) = notesOf (call j) := by
  unfold Packing.Noted.countConflict
  cases call j with
  | ok a k => rfl
  | error halt k => cases halt <;> rfl

end Journaled

namespace Packing

open Desk (Retells)

variable {p : Packing} {s : Desk}

/-- Bounds that are those last seen remain so at all moments that are noted. -/
theorem recorded_of_retells {α : Type} {told : Call Journaled α} {call : Call Desk α}
    (h : Retells p told call s) (distinct : p.vars.Nodup) (recorded : s.Recorded p) {n : Remark}
    (member : n ∈ Journaled.notesOf (told ⟨s, []⟩)) : n.desk.Recorded p := by
  obtain ⟨more, t, same, along, -⟩ := h []
  rw [same, Journaled.notesOf_outcome, List.nil_append] at member
  exact (along.mem member).recorded distinct recorded

/-- **At all moments of a call, the bounds last seen are those the loads have.**  Either they were when the
call began, or the call has recorded them first. -/
theorem journal_recorded (wf : p.WellFormed) (ready : s.Ready p) (distinct : p.vars.Nodup)
    (quiet : s.domains.pending = .empty) {n : Remark} (member : n ∈ p.journal s) :
    n.desk.Recorded p := by
  have valid : Desk.Valid p { s with counters := { s.counters with calls := s.counters.calls + 1 } } :=
    (Desk.Step.count _).valid wf ready.toValid
  replace member : n ∈ Journaled.notesOf (Noted.countConflict (Noted.revise p)
    ⟨{ s with counters := { s.counters with calls := s.counters.calls + 1 } }, []⟩) := member
  rw [Journaled.notesOf_countConflict] at member
  replace member : n ∈ Journaled.notesOf ((if s.agenda.loadsMoved = true then _ else _ :
    Call Journaled Unit) ⟨{ s with counters := _ }, []⟩) := member
  split at member
  · have records := recordLoads_runs wf valid
    unfold Contract.Runs at records
    cases result : p.recordLoads
      { s with counters := { s.counters with calls := s.counters.calls + 1 } } with
    | ok a t =>
      rw [result] at records
      obtain ⟨validT, -, domains, known⟩ := records
      have recorded : t.Recorded p := fun d hd b hb =>
        (known d hd b hb).seen_eq (by rw [domains]; exact quiet)
      rw [Journaled.quietly_bind_ok result] at member
      refine recorded_of_retells (.bind wf validT (.quietly (Desk.replan_permits wf validT ?_))
        fun _ _ validU => Noted.begin_retells wf validU _) distinct recorded member
      rfl
    | error halt t =>
      rw [Journaled.quietly_bind_error result] at member
      cases member
  · rename_i known
    have recorded : s.Recorded p := fun d hd b hb =>
      ((ready.loads d hd b hb).resolve_left known).seen_eq quiet
    exact recorded_of_retells (Noted.begin_retells wf valid _) distinct recorded member

end Packing

namespace State

/-- **Whenever the running sums are read, they are the sums of the bounds that the loads have.**  A call
reads them to compare them with the size of all items and to balance a load; before each of these the moment
is noted in the journal of the call, and apart from the journal that call is the one that is made. -/
theorem load_sums_are_exact {s t : State} {id : Nat} {p : Packer} (reached : Reached false s)
    (underway : Underway s t) (runs : t.Runs id p) (distinct : p.packing.vars.Nodup) :
    Packing.Noted.call p.packing ⟨p.desk t.store, []⟩ = Journaled.outcome
        (p.packing.journal (p.desk t.store)) (p.packing.call (p.desk t.store)) ∧
      ∀ n ∈ p.packing.journal (p.desk t.store), ∀ d < p.packing.numDims, n.moment = .summing d →
        n.desk.ledger.SumsUp p.packing n.desk.domains d := by
  obtain ⟨cons, quiet⟩ := underway.invariant reached.consistent
  obtain ⟨⟨wf, -, -⟩, ready⟩ := cons.ready_of_found runs p rfl
  refine ⟨Packing.call_with_journal wf ready.toValid, fun n member d hd _ => ?_⟩
  exact (Packing.journal_recorded wf ready distinct quiet member).sumsUp
    (Packing.journal_valid wf ready.toValid member) hd

/-- The load of the first bin has lost the value 5, and so its lower bound jumps from 4 to 6. -/
def crowdedJumped : State :=
  after ((after (crowdedSettled.post (.differs 3 5))).post (.atLeast 3 5))

/-- The packing has heard of that. -/
def crowdedAlert : State := crowdedJumped.announce.toOption.getD .empty

/-- The packing once it has heard of the load. -/
def crowdedAlerted : Packer := { crowdedPacker with agenda := ⟨[], [], [0], true, true⟩ }

theorem reached_crowdedJumped : Reached false crowdedJumped :=
  .post (.post settled_crowdedSettled.reached
    (show crowdedSettled.post (.differs 3 5) = .ok (.narrowed, _) by cbv))
    (show State.post _ (.atLeast 3 5) = .ok (.narrowed, crowdedJumped) by cbv)

/-- The sums are those of before the jump when the packing is called, and those of after it when they are
read. -/
theorem crowdedJumped_load_sums_are_exact :
    Reached false crowdedJumped ∧ Underway crowdedJumped crowdedAlert ∧
      crowdedAlert.Runs 0 crowdedAlerted ∧
      (crowdedAlert.store.ledger crowdedAlerted).sum 0 = ⟨8, 12⟩ ∧ crowdedAlert.domains.lower 3 = 6 ∧
      ((crowdedPacking.journal (crowdedAlerted.desk crowdedAlert.store)).map (·.moment)).count
        (.summing 0) = 11 ∧
      ∀ n ∈ crowdedPacking.journal (crowdedAlerted.desk crowdedAlert.store), ∀ d < 1,
        n.moment = .summing d → n.desk.ledger.SumsUp crowdedPacking n.desk.domains d := by
  have underway : Underway crowdedJumped crowdedAlert :=
    .announced (show crowdedJumped.announce = .ok crowdedAlert by cbv)
  have runs : crowdedAlert.Runs 0 crowdedAlerted := by
    unfold Runs
    cbv
  have stale : (crowdedAlert.store.ledger crowdedAlerted).sum 0 = ⟨8, 12⟩ := by cbv
  have jumped : crowdedAlert.domains.lower 3 = 6 := by cbv
  have moments : ((crowdedPacking.journal (crowdedAlerted.desk crowdedAlert.store)).map
      (·.moment)).count (.summing 0) = 11 := by cbv
  exact ⟨reached_crowdedJumped, underway, runs, stale, jumped, moments,
    (load_sums_are_exact reached_crowdedJumped underway runs (by decide)).2⟩

end State

/-! ## After a propagation -/

/-- The bounds of the loads of dimension `d` go together with the size of all items, which the loads add
up to. -/
structure Packing.Conserves (p : Packing) (ds : Domains) (d : Nat) : Prop where
  /-- The bins can share the items. -/
  enclosed : ∑ b ∈ Finset.range p.numBins, ds.lower (p.load d b) ≤ p.totalSize d ∧
    p.totalSize d ≤ ∑ b ∈ Finset.range p.numBins, ds.upper (p.load d b)
  /-- Every bin takes what the others cannot. -/
  lower : ∀ b < p.numBins, p.totalSize d -
    ∑ c ∈ (Finset.range p.numBins).erase b, ds.upper (p.load d c) ≤ ds.lower (p.load d b)
  /-- Every bin leaves to the others what they need. -/
  upper : ∀ b < p.numBins, ds.upper (p.load d b) ≤
    p.totalSize d - ∑ c ∈ (Finset.range p.numBins).erase b, ds.lower (p.load d c)

theorem Packing.Closed.conserves {p : Packing} {ds : Domains} {l : Ledger} {d : Nat}
    (closed : p.Closed ds l) (hd : d < p.numDims) : p.Conserves ds d where
  enclosed := closed.enclosed d hd
  lower b hb := sub_le_iff_le_add.2 (closed.balanced d hd b hb).1
  upper b hb := le_sub_iff_add_le.2 (closed.balanced d hd b hb).2

namespace State

/-- **After a propagation the loads of all bins add up.**  It does not matter whether a bin still has
candidates: in every dimension the bounds of its load are what the other bins allow. -/
theorem settled_loads_add_up {s : State} {id : Nat} {p : Packer} (settled : Settled s)
    (runs : s.Runs id p) : ∀ d < p.packing.numDims, p.packing.Conserves s.domains d :=
  fun _ hd => (settled.reached.closed settled.invariant.2 runs).conserves hd

/-- The largest item is in the first bin, the others are in the second. -/
def crowdedFilled : State :=
  after (after ((after (crowdedSettled.post (.equals 0 0))).post (.equals 2 1))).propagate

/-- The packing of the filled bins. -/
def crowdedFiller : Packer :=
  { crowdedPacker with agenda := ⟨[], [], [0, 1], false, true⟩, counters := ⟨2, 1, 0, 6, 3, 0⟩ }

theorem settled_crowdedFilled : Settled crowdedFilled :=
  .propagate (.post (.post settled_crowdedSettled.reached
    (show crowdedSettled.post (.equals 0 0) = .ok (.narrowed, _) by cbv))
    (show State.post _ (.equals 2 1) = .ok (.narrowed, _) by cbv))
    (show State.propagate _ = .ok (none, crowdedFilled) by cbv)

theorem crowdedFilled_loads_add_up :
    Settled crowdedFilled ∧ crowdedFilled.Runs 0 crowdedFiller ∧
      (crowdedFilled.store.ledger crowdedFiller).available = [] ∧
      ∀ d < 1, crowdedPacking.Conserves crowdedFilled.domains d := by
  have runs : crowdedFilled.Runs 0 crowdedFiller := by
    unfold Runs
    cbv
  have unavailable : (crowdedFilled.store.ledger crowdedFiller).available = [] := by cbv
  exact ⟨settled_crowdedFilled, runs, unavailable, settled_loads_add_up settled_crowdedFilled runs⟩

end State

end Stowage
