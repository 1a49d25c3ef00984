import Stowage.Proofs.BigItems
import Stowage.Proofs.Packing.Dwindling

/-!
# Runs that never go back

A run that never goes back to an earlier checkpoint only adds variables and propagators, posts, propagates and
adds checkpoints.  The ledger of a packing dwindles all the while: between any two of its moments, also those
within a call of the packing, candidates and available bins are lost, required loads rise and total loads sink.

* `State.Course` — a run that never goes back, with the ledgers of a packing at all its moments.
* `State.Course.invariant` — what every command of the run keeps.
* `State.ledgers_dwindle` — from each moment of the run to every later one, the ledger dwindles.
-/

set_option autoImplicit false

namespace Stowage

namespace State

variable {s t u : State} {id j : Nat} {queue : Queue}

/-- The ledger of a packing, by the number of its propagator. -/
def ledgerOf (s : State) (id : Nat) : Ledger :=
  match s.propagators[id]? with
  | some (.packing p) => s.store.ledger p
  | _ => .blank

/-- The ledgers of packing `id` at the moments that are noted when propagator `j` is called: those of the
journal if the packing itself is called. -/
def momentsOf (s : State) (id j : Nat) : List Ledger :=
  match s.propagators[id]? with
  | some (.packing p) => if j = id then Desk.ledgersOf (p.packing.journal (p.desk s.store)) else []
  | _ => []

/-- Where a run is. -/
inductive Phase where
  /-- The next command can be given. -/
  | idle
  /-- A propagation calls the propagators that wait. -/
  | calling
  /-- An inconsistency has been found. -/
  | broken
  deriving DecidableEq, Repr

/-- A run from state `s` that never goes back.  The ledgers are those of packing `id` at all moments: when the
run begins, after every command, after every announcement and call of a propagation, and within every call of
the packing after each item placed or removed and each extension of the big items. -/
inductive Course (id : Nat) (s : State) : Phase → State → List Ledger → Prop
  | start : Course id s .idle s [s.ledgerOf id]
  | create {t u : State} {ls : List Ledger} {lower upper : Int} {x : Var} (before : Course id s .idle t ls)
      (step : t.create lower upper = .ok (x, u)) : Course id s .idle u (ls ++ [u.ledgerOf id])
  | install {t u : State} {ls : List Ledger} {blueprint : Blueprint} {new : Nat}
      (before : Course id s .idle t ls) (typed : blueprint.Typed)
      (step : t.install blueprint = .ok (new, u)) : Course id s .idle u (ls ++ [u.ledgerOf id])
  | post {t u : State} {ls : List Ledger} {q : Predicate} {posting : Posting}
      (before : Course id s .idle t ls) (step : t.post q = .ok (posting, u)) :
      Course id s (if posting = .emptied then .broken else .idle) u (ls ++ [u.ledgerOf id])
  | checkpointed {t u : State} {ls : List Ledger} (before : Course id s .idle t ls)
      (step : t.checkpointed = .ok u) : Course id s .idle u (ls ++ [u.ledgerOf id])
  /-- A propagation begins. -/
  | announce {t u : State} {ls : List Ledger} (before : Course id s .idle t ls)
      (step : t.announce = .ok u) : Course id s .calling u (ls ++ [u.ledgerOf id])
  | call {t u : State} {ls : List Ledger} {j : Nat} {queue : Queue} {conflict : Option Conflict}
      (before : Course id s .calling t ls) (pop : t.queue.pop = some (j, queue))
      (step : State.callPropagator { t with queue := queue } j = .ok (conflict, u)) :
      Course id s (if conflict.isSome then .broken else .calling) u
        (ls ++ (t.momentsOf id j ++ [u.ledgerOf id]))
  /-- A propagation ends. -/
  | rest {t : State} {ls : List Ledger} (before : Course id s .calling t ls) (none : t.queue.pop = none) :
      Course id s .idle t ls

/-! ## The ledger through a run -/

/-- Packing `p` runs as propagator `id`, with ledger `l`. -/
def Holds (s : State) (id : Nat) (p : Packing) (l : Ledger) : Prop :=
  ∃ q, s.Runs id q ∧ q.packing = p ∧ s.store.ledger q = l

variable {p : Packing} {l : Ledger}

theorem Holds.ledgerOf (holds : s.Holds id p l) : s.ledgerOf id = l := by
  obtain ⟨q, runs, -, rfl⟩ := holds
  rw [State.ledgerOf, runs]

theorem Holds.ordered (holds : s.Holds id p l) (cons : s.Consistent) : l.Ordered p := by
  obtain ⟨q, runs, rfl, rfl⟩ := holds
  obtain ⟨regular, ready⟩ := cons.ready_of_found runs q rfl
  exact ready.toValid.ordered regular.wf

/-- The propagators stay what they are, and so do the ledgers. -/
theorem Holds.of_cores (holds : s.Holds id p l)
    (cores : t.propagators.map Propagator.core = s.propagators.map Propagator.core)
    (ledgers : ∀ id q, s.Runs id q → t.store.ledger q = s.store.ledger q) : t.Holds id p l := by
  obtain ⟨q, runs, rfl, rfl⟩ := holds
  obtain ⟨r, runs', -, packing, layout⟩ := runs_of_cores cores.symm runs
  exact ⟨r, runs', packing, (Store.ledger_congr packing layout _).trans (ledgers id q runs)⟩

theorem Holds.install (holds : s.Holds id p l) (cons : s.Consistent) {prop : Propagator}
    (h : Enlarges s t prop) : t.Holds id p l := by
  obtain ⟨q, runs, rfl, rfl⟩ := holds
  refine ⟨q, ?_, rfl, h.ledger_eq (cons.allotted.regular id q runs).keeps⟩
  rw [Runs, h.propagators, Array.getElem?_push, if_neg runs.lt.ne]
  exact runs

theorem Holds.announce (holds : s.Holds id p l) (cons : s.Consistent) (step : s.announce = .ok t) :
    t.Holds id p l := by
  obtain ⟨u, done, -, evolves, -, ledgers, -⟩ := announce_spec cons
  cases step.symm.trans done
  exact holds.of_cores evolves.cores ledgers

/-- **A packing is called.**  Its ledger dwindles through all moments of the call, whether or not the call
finds an inconsistency. -/
theorem Runs.dwindles {q : Packer} {called : Called} (runs : s.Runs id q) (cons : s.Consistent)
    (call : (Propagator.packing q).call id s.store = .ok called) :
    (s.store.ledger q :: (s.momentsOf id id ++ [called.store.ledger q])).Pairwise
        (Ledger.Dwindles q.packing) ∧
      ∀ m ∈ s.momentsOf id id ++ [called.store.ledger q], m.Ordered q.packing := by
  obtain ⟨regular, ready⟩ := cons.ready_of_found runs q rfl
  have wf := regular.wf
  obtain ⟨last, along, ends⟩ := Packing.journal_along wf ready.toValid
  have moments : s.momentsOf id id = Desk.ledgersOf (q.packing.journal (q.desk s.store)) := by
    simp [momentsOf, show s.propagators[id]? = _ from runs]
  have left : called.store.ledger q = last.ledger := by
    obtain ⟨desk, cause, rfl, outcome⟩ := Packer.exists_desk_of_call call
    have leaves := regular.leaves (outcome.imp (·.2) fun ⟨reason, _, result⟩ => ⟨reason, result⟩)
    refine leaves.ledger.trans ?_
    rcases outcome with ⟨-, done⟩ | ⟨_, -, done⟩
    · rw [done] at ends
      exact congrArg Desk.ledger ends
    · rw [done] at ends
      exact ends
  rw [moments, left]
  refine ⟨along.dwindles wf ready.toValid, fun m member => ?_⟩
  rcases List.mem_append.1 member with noted | final
  · obtain ⟨n, entry, rfl⟩ := List.mem_map.1 noted
    exact (Packing.journal_valid wf ready.toValid entry).ordered wf
  · rw [List.mem_singleton.1 final]
    exact (along.to_leads.valid wf ready.toValid).ordered wf

/-- **A propagator is called.**  The other packings keep their ledgers. -/
theorem Holds.call (holds : s.Holds id p l) (cons : s.Consistent) (quiet : s.domains.pending = .empty)
    (pop : s.queue.pop = some (j, queue)) {conflict : Option Conflict}
    (h : State.callPropagator { s with queue := queue } j = .ok (conflict, t)) :
    ∃ last, t.Holds id p last ∧
      (l :: (s.momentsOf id j ++ [last])).Pairwise (Ledger.Dwindles p) ∧
      ∀ m ∈ s.momentsOf id j ++ [last], m.Ordered p := by
  obtain ⟨evolves, -⟩ := callPropagator_spec cons quiet pop h
  obtain ⟨prop, called, found, call, outcome⟩ := callPropagator_eq_ok h
  have calls := Propagator.call_spec cons.healthy (cons.ready_of_found found) call
  have evolved := evolves_afterCalling found calls pop
  have ledgers : ∀ id q, (s.afterCalling j called queue).Runs id q →
      t.store.ledger q = called.store.ledger q := by
    rcases outcome with ⟨fine, -, announced⟩ | ⟨_, _, -, -, rfl, -⟩
    · obtain ⟨u, done, -, -, -, ledgers, -⟩ := announce_spec (cons.afterCalling found calls pop fine)
      cases announced.symm.trans done
      exact ledgers
    · exact fun _ _ _ => rfl
  have ordered := holds.ordered cons
  obtain ⟨q, runs, rfl, rfl⟩ := holds
  obtain ⟨after, runsU, -, packing, layout⟩ := runs_of_cores evolved.cores.symm runs
  have holds : (s.afterCalling j called queue).Holds id q.packing (called.store.ledger q) :=
    ⟨after, runsU, packing, Store.ledger_congr packing layout _⟩
  refine ⟨_, holds.of_cores (evolves.cores.trans evolved.cores.symm) ledgers, ?_⟩
  by_cases same : j = id
  · subst same
    cases found.symm.trans runs
    exact runs.dwindles cons call
  · have kept : called.store.ledger q = s.store.ledger q :=
      cons.toFrame.ledger_of_calls found calls runs fun here => same here.symm
    have moments : s.momentsOf id j = [] := by
      simp [momentsOf, show s.propagators[id]? = _ from runs, same]
    rw [kept, moments]
    exact ⟨by simpa using Ledger.Dwindles.refl _ _, by simpa using ordered⟩

end State

/-! ## Through a run the ledger dwindles -/

/-- All ledgers of a run so far: from each to every later one the ledger dwindled, and `last` is the latest. -/
structure Ledger.Declining (p : Packing) (ledgers : List Ledger) (last : Ledger) : Prop where
  pairwise : ledgers.Pairwise (Dwindles p)
  toLast : ∀ l ∈ ledgers, l.Dwindles p last
  ordered : ∀ l ∈ ledgers, l.Ordered p

theorem Ledger.Declining.extend {p : Packing} {ledgers more : List Ledger} {l last : Ledger}
    (h : Declining p ledgers l) (later : (l :: (more ++ [last])).Pairwise (Dwindles p))
    (ordered : ∀ m ∈ more ++ [last], m.Ordered p) : Declining p (ledgers ++ (more ++ [last])) last := by
  obtain ⟨first, rest⟩ := List.pairwise_cons.1 later
  refine ⟨List.pairwise_append.2 ⟨h.pairwise, rest, fun a ha b hb => (h.toLast a ha).trans (first b hb)⟩,
    fun a member => ?_, fun a member => ?_⟩
  · rcases List.mem_append.1 member with old | new
    · exact (h.toLast a old).trans (first last (by simp))
    · rcases List.mem_append.1 new with noted | final
      · exact (List.pairwise_append.1 rest).2.2 a noted last (by simp)
      · rw [List.mem_singleton.1 final]
        exact .refl p last
  · exact (List.mem_append.1 member).elim (h.ordered a) (ordered a)

namespace State

variable {s t : State} {id : Nat} {p : Packing} {ls : List Ledger} {phase : Phase}

/-- What every command of a run keeps. -/
structure Course.Keeps (id : Nat) (p : Packing) (phase : Phase) (t : State) (ls : List Ledger) : Prop where
  consistent : phase ≠ .broken → t.Consistent
  quiet : phase = .calling → t.domains.pending = .empty
  declining : ∃ l, t.Holds id p l ∧ Ledger.Declining p ls l

theorem Course.Keeps.stay {u : State} {next : Phase} (h : Keeps id p phase t ls)
    (cons : t.Consistent) (holds : ∀ l, t.Holds id p l → u.Holds id p l)
    (consistent : next ≠ .broken → u.Consistent) (quiet : next = .calling → u.domains.pending = .empty) :
    Keeps id p next u (ls ++ [u.ledgerOf id]) := by
  obtain ⟨l, before, declining⟩ := h.declining
  have after := holds l before
  refine ⟨consistent, quiet, l, after, ?_⟩
  rw [after.ledgerOf]
  have later : (l :: ([] ++ [l])).Pairwise (Ledger.Dwindles p) := by
    simpa using Ledger.Dwindles.refl p l
  exact declining.extend later (by simpa using before.ordered cons)

/-- **Every command of a run keeps that the ledger dwindles.** -/
theorem Course.invariant (cons : s.Consistent) {l : Ledger} (holds : s.Holds id p l)
    (course : Course id s phase t ls) : Keeps id p phase t ls := by
  induction course with
  | start =>
    refine ⟨fun _ => cons, (fun h => by cases h), l, holds, ?_⟩
    rw [holds.ledgerOf]
    exact ⟨List.pairwise_singleton _ _, by simpa using Ledger.Dwindles.refl p l,
      by simpa using holds.ordered cons⟩
  | create before step ih =>
    have consT := ih.consistent (by decide)
    refine ih.stay consT ?_ (fun _ => consT.create step) (fun h => by cases h)
    obtain ⟨-, -, rfl⟩ := create_eq_ok step
    exact fun l holds => holds.of_cores rfl fun _ _ _ => rfl
  | install before typed step ih =>
    have consT := ih.consistent (by decide)
    obtain ⟨prop, installs⟩ := consT.installs typed step
    exact ih.stay consT (fun l holds => holds.install consT installs.toEnlarges)
      (fun _ => consT.install typed step) (fun h => by cases h)
  | @post t u ls q posting before step ih =>
    have consT := ih.consistent (by decide)
    refine ih.stay consT ?_ (fun fine => consT.post step fun emptied => fine (if_pos emptied))
      fun calling => ?_
    · obtain ⟨ds, -, rfl⟩ := post_eq_ok step
      exact fun l holds => holds.of_cores rfl fun _ _ _ => rfl
    · split at calling <;> cases calling
  | checkpointed before step ih =>
    have consT := ih.consistent (by decide)
    refine ih.stay consT ?_ (fun _ => consT.checkpointed step) (fun h => by cases h)
    obtain ⟨-, rfl⟩ := checkpointed_eq_ok step
    exact fun l holds => holds.of_cores rfl fun _ _ _ => rfl
  | announce before step ih =>
    have consT := ih.consistent (by decide)
    obtain ⟨u, done, consU, -, domains, -⟩ := announce_spec consT
    cases step.symm.trans done
    exact ih.stay consT (fun l holds => holds.announce consT step) (fun _ => consU)
      fun _ => Domains.pending_of_cleared domains
  | @call t u ls j queue conflict before pop step ih =>
    have consT := ih.consistent (by decide)
    have quietT := ih.quiet rfl
    obtain ⟨l, holds, declining⟩ := ih.declining
    obtain ⟨last, after, later, ordered⟩ := holds.call consT quietT pop step
    obtain ⟨-, fine, -⟩ := callPropagator_spec consT quietT pop step
    have found : conflict = none ∨ (conflict.isSome = true) := by cases conflict <;> simp
    refine ⟨fun goes => ?_, fun calls => ?_, last, after, ?_⟩
    · rcases found with rfl | found
      · exact (fine rfl).1
      · exact absurd (if_pos found) goes
    · rcases found with rfl | found
      · exact (fine rfl).2.1
      · rw [if_pos found] at calls
        cases calls
    · rw [after.ledgerOf]
      exact declining.extend later ordered
  | rest before none ih =>
    exact ⟨fun _ => ih.consistent (by decide), (fun h => by cases h), ih.declining⟩

/-- **As long as a run does not go back, the ledger of every packing dwindles.**  From any moment of the run to
any later one, also within a call of the packing, the candidates of every bin and the available bins only
become fewer, no required load decreases, no total load increases and no limit of the big items sinks; and
always the required loads lie between 0 and the total loads, and these do not exceed the size of all items. -/
theorem ledgers_dwindle {q : Packer} (reached : Reached false s) (runs : s.Runs id q)
    (course : Course id s phase t ls) :
    ls.Pairwise (Ledger.Dwindles q.packing) ∧ ∀ l ∈ ls, l.Ordered q.packing := by
  obtain ⟨l, -, declining⟩ := (course.invariant reached.consistent ⟨q, runs, rfl, rfl⟩).declining
  exact ⟨declining.pairwise, declining.ordered⟩

/-- The packing of the crowded bins has been called, after the largest item was placed. -/
def crowdedCalled : State :=
  after (State.callPropagator
    { crowdedHeard with queue := ((crowdedHeard.queue.pop).getD (0, .empty)).2 } 0)

/-- The ledgers of the crowded bins from the propagation to that call. -/
def crowdedLedgers : List Ledger :=
  [crowdedSettled.ledgerOf 0] ++ [crowdedPlaced.ledgerOf 0] ++ [crowdedHeard.ledgerOf 0] ++
    (crowdedHeard.momentsOf 0 0 ++ [crowdedCalled.ledgerOf 0])

theorem course_crowded : Course 0 crowdedSettled .calling crowdedCalled crowdedLedgers := by
  have placed : crowdedSettled.post (.equals 0 0) = .ok (.narrowed, crowdedPlaced) := by cbv
  have heard : crowdedPlaced.announce = .ok crowdedHeard := by cbv
  have pop : crowdedHeard.queue.pop = some (0, ((crowdedHeard.queue.pop).getD (0, .empty)).2) := by cbv
  have called : State.callPropagator
      { crowdedHeard with queue := ((crowdedHeard.queue.pop).getD (0, .empty)).2 } 0 =
      .ok (none, crowdedCalled) := by cbv
  exact .call (.announce (.post .start placed) heard) pop called

/-- On the way the first bin loses its candidates but one, and the second what the largest item added to its
total load. -/
theorem crowded_ledgers_dwindle :
    Reached false crowdedSettled ∧ crowdedSettled.Runs 0 crowdedPacker ∧
      Course 0 crowdedSettled .calling crowdedCalled crowdedLedgers ∧
      crowdedLedgers.length = 21 ∧
      (crowdedSettled.ledgerOf 0).bins.toList.map (·.candidates) = [[0, 1, 2], [0, 1, 2]] ∧
      (crowdedCalled.ledgerOf 0).bins.toList.map (·.candidates) = [[2], [2]] ∧
      ((crowdedSettled.ledgerOf 0).entry 0 1).total = 6 ∧
      ((crowdedCalled.ledgerOf 0).entry 0 1).total = 5 ∧
      crowdedLedgers.Pairwise (Ledger.Dwindles crowdedPacking) ∧
      ∀ l ∈ crowdedLedgers, l.Ordered crowdedPacking := by
  have moments : crowdedLedgers.length = 21 := by cbv
  have before : (crowdedSettled.ledgerOf 0).bins.toList.map (·.candidates) =
      [[0, 1, 2], [0, 1, 2]] := by cbv
  have afterwards : (crowdedCalled.ledgerOf 0).bins.toList.map (·.candidates) = [[2], [2]] := by cbv
  have total : ((crowdedSettled.ledgerOf 0).entry 0 1).total = 6 := by cbv
  have less : ((crowdedCalled.ledgerOf 0).entry 0 1).total = 5 := by cbv
  exact ⟨settled_crowdedSettled.reached, runs_crowdedSettled, course_crowded, moments, before, afterwards,
    total, less, ledgers_dwindle settled_crowdedSettled.reached runs_crowdedSettled course_crowded⟩

end State

end Stowage
