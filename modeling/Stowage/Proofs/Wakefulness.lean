import Stowage.Proofs.FixedPoints

/-!
# No packing oversleeps

Whenever no event waits to be announced, a packing whose ledger is not in line with the domains has
that on its agenda, and a packing with something on its agenda waits to be called.

* `State.Announced` — the states without an inconsistency in which no event waits.
* `Packing.Strays`, `Packing.Lags` — an item or a load with which the ledger is not in line.
* `State.Alert` — nothing that a packing has to look at is missing from its agenda or the queue.
* `State.no_wakeup_is_lost` — packings are alert in all these states.
-/

set_option autoImplicit false

namespace Stowage

namespace Packing

/-- Item `i` is a candidate of a bin that its domain has lost or that it is fixed to. -/
def Strays (p : Packing) (ledger : Ledger) (ds : Domains) (i : Nat) : Prop :=
  ∃ b < p.numBins, i ∈ (ledger.bin b).candidates ∧
    ((b : Int) ∉ ds.domain (p.item i) ∨ (ds.domain (p.item i)).fixedValue? = some (b : Int))

/-- The load of bin `b` has other bounds than those last seen. -/
def Lags (p : Packing) (ledger : Ledger) (ds : Domains) (d b : Nat) : Prop :=
  (ledger.entry d b).seenLower ≠ ds.lower (p.load d b) ∨
    (ledger.entry d b).seenUpper ≠ ds.upper (p.load d b)

variable {p : Packing} {ledger : Ledger} {ds : Domains} {d b i : Nat}

theorem isSynchronised_eq_false_iff :
    p.isSynchronised ledger ds i = false ↔ p.Strays ledger ds i := by
  unfold isSynchronised Strays
  simp only [List.all_eq_false, Bool.not_eq_true, Bool.or_eq_false_iff, Bool.not_eq_false',
    Bool.and_eq_false_iff, bne_eq_false_iff_eq, Bin.isCandidate_iff, Domain.contains_eq_false_iff]
  constructor
  · rintro ⟨b, hb, candidate, strays⟩
    exact ⟨b, List.mem_range.1 hb, candidate, strays⟩
  · rintro ⟨b, hb, candidate, strays⟩
    exact ⟨b, List.mem_range.2 hb, candidate, strays⟩

theorem isRecorded_eq_false_iff :
    ledger.isRecorded d b (ds.lower (p.load d b)) (ds.upper (p.load d b)) = false ↔
      p.Lags ledger ds d b := by
  unfold Ledger.isRecorded Lags
  rw [Bool.and_eq_false_iff, beq_eq_false_iff_ne, beq_eq_false_iff_ne, ne_comm,
    ne_comm (a := ds.upper _)]

end Packing

namespace State

/-- The states without an inconsistency in which no event waits: those between two commands, and those
in which a propagation is about to call the next propagator. -/
inductive Announced : State → Prop
  | reached {s : State} (before : Reached false s) (quiet : s.domains.pending = .empty) : Announced s
  | underway {s t : State} (before : Reached false s) (during : Underway s t) : Announced t

/-- What packing `p`, propagator `id`, has to look at is on its agenda, and if there is anything it
waits to be called. -/
structure Alert (s : State) (id : Nat) (p : Packer) : Prop where
  nodup : p.agenda.items.Nodup
  listed : ∀ i ∈ p.agenda.items, i < p.packing.numItems
  flags : ∀ i, i ∈ p.agenda.flagged ↔ i ∈ p.agenda.items
  items : ∀ i < p.packing.numItems, p.packing.Strays (s.store.ledger p) s.domains i →
    i ∈ p.agenda.items
  loads : ∀ d < p.packing.numDims, ∀ b < p.packing.numBins,
    p.packing.Lags (s.store.ledger p) s.domains d b → p.agenda.loadsMoved = true
  queued : p.agenda.items ≠ [] ∨ p.agenda.loadsMoved = true ∨ p.agenda.started = false →
    id ∈ s.queue.toList

variable {s : State} {id : Nat} {p : Packer}

theorem Announced.invariant (announced : Announced s) :
    s.Consistent ∧ s.domains.pending = .empty := by
  cases announced with
  | reached before quiet => exact ⟨before.consistent, quiet⟩
  | underway before during => exact during.invariant before.consistent

/-- **A packing is alert whenever no event waits.** -/
theorem Consistent.alert (cons : s.Consistent) (quiet : s.domains.pending = .empty)
    (runs : s.Runs id p) : s.Alert id p := by
  have ready := cons.ready id p runs
  refine ⟨ready.tidy.nodup, ready.listed, fun i => ready.tidy.mem_flagged, fun i hi strays => ?_,
    fun d hd b hb lags => ?_, fun something => ?_⟩
  · rcases ready.items i hi with listed | known | ⟨e, waits⟩
    · exact listed
    · rw [← Packing.isSynchronised_eq_false_iff] at strays
      exact absurd (known.symm.trans strays) (by simp)
    · have waits : s.domains.pending.Has e (p.packing.item i) := waits
      rw [quiet] at waits
      exact absurd waits (Pending.not_has_empty e _)
  · rcases ready.loads d hd b hb with moved | known | ⟨e, -, waits⟩
    · exact moved
    · rw [← Packing.isRecorded_eq_false_iff] at lags
      exact absurd (known.symm.trans lags) (by simp)
    · have waits : s.domains.pending.Has e (p.packing.load d b) := waits
      rw [quiet] at waits
      exact absurd waits (Pending.not_has_empty e _)
  · -- a packing outside the queue would have an empty agenda
    by_contra absent
    have revised := cons.awake id p runs absent
    rcases something with items | moved | started
    · exact items revised.noItems
    · exact absurd (moved.symm.trans revised.noLoads) (by simp)
    · exact absurd (started.symm.trans revised.started) (by simp)

/-- **No wake-up is lost.**  Whenever no event waits, whatever the ledger of a packing is not in line
with is on its agenda, each item once, and a packing with something on its agenda, or not called yet,
waits to be called.  So the ledgers match the domains if no propagator waits. -/
theorem no_wakeup_is_lost (announced : Announced s) (runs : s.Runs id p) :
    s.Alert id p ∧
      (∀ i < p.packing.numItems, p.packing.Strays (s.store.ledger p) s.domains i →
        id ∈ s.queue.toList) ∧
      (∀ d < p.packing.numDims, ∀ b < p.packing.numBins,
        p.packing.Lags (s.store.ledger p) s.domains d b → id ∈ s.queue.toList) ∧
      (s.queue.toList = [] →
        p.agenda.items = [] ∧ p.agenda.loadsMoved = false ∧ p.agenda.started = true ∧
        (∀ i < p.packing.numItems, ¬p.packing.Strays (s.store.ledger p) s.domains i) ∧
        (∀ d < p.packing.numDims, ∀ b < p.packing.numBins,
          ¬p.packing.Lags (s.store.ledger p) s.domains d b) ∧
        (s.store.ledger p).Matches p.packing s.domains) := by
  obtain ⟨cons, quiet⟩ := announced.invariant
  have alert := cons.alert quiet runs
  have stray : ∀ i < p.packing.numItems, p.packing.Strays (s.store.ledger p) s.domains i →
      id ∈ s.queue.toList :=
    fun i hi strays => alert.queued (.inl (List.ne_nil_of_mem (alert.items i hi strays)))
  have lag : ∀ d < p.packing.numDims, ∀ b < p.packing.numBins,
      p.packing.Lags (s.store.ledger p) s.domains d b → id ∈ s.queue.toList :=
    fun d hd b hb lags => alert.queued (.inr (.inl (alert.loads d hd b hb lags)))
  refine ⟨alert, stray, lag, fun empty => ?_⟩
  have absent : id ∉ s.queue.toList := by
    rw [empty]
    exact List.not_mem_nil
  have revised := cons.awake id p runs absent
  exact ⟨revised.noItems, revised.noLoads, revised.started,
    fun i hi strays => absent (stray i hi strays),
    fun d hd b hb lags => absent (lag d hd b hb lags),
    revised.matches quiet (cons.installed id p runs).wf⟩

/-- The settled small packing with the load of its first bin sunk to 1, which is announced. -/
def smallNoticed : State :=
  ((after (smallSettled.post (.atMost 1 1))).announce.toOption).getD .empty

/-- The small packing has taken note that a load moved, and waits to be called. -/
theorem smallNoticed_is_alert :
    ∃ p, Announced smallNoticed ∧ smallNoticed.Runs 0 p ∧ p.agenda.loadsMoved = true ∧
      smallNoticed.Alert 0 p ∧ 0 ∈ smallNoticed.queue.toList := by
  have settled : Reached false smallSettled := .propagate reached_smallPacked propagate_smallPacked
  have posted : Reached false (after (smallSettled.post (.atMost 1 1))) :=
    .post settled (show smallSettled.post (.atMost 1 1) = .ok (.narrowed, _) by cbv)
  have announced : Announced smallNoticed :=
    .underway posted (.announced
      (show (after (smallSettled.post (.atMost 1 1))).announce = .ok smallNoticed by cbv))
  have runs : smallNoticed.Runs 0 { small.installedAs .single smallPacking with
      agenda := ⟨[], [], [0], true, true⟩, counters := ⟨1, 0, 0, 2, 2, 0⟩ } := by
    unfold Runs
    cbv
  have alert := (no_wakeup_is_lost announced runs).1
  exact ⟨_, announced, runs, rfl, alert, alert.queued (.inr (.inl rfl))⟩

end State

end Stowage
