import Stowage.Proofs.Announcing
import Stowage.Proofs.Precedences

/-!
# Calling the propagators that wait

A call narrows the domains and announces what has changed.  Since every call either leaves the queue
shorter or removes a value, the calls come to an end; then no packing has anything left to do.

* `Domains.Keeps` — calls on the domains that only narrow them, and fault only where they are not
  grounded.
* `Propagator.Calls`, `Propagator.call_spec` — a call of a propagator of any kind.
* `State.callPropagator_spec`, `State.callWaiting_spec` — one call, and all of them.
* `State.Grounded` — states in which the rules of all probes are about variables that exist, and nothing
  that is imposed leaves the range of the values.
* `State.propagate_spec`, `State.propagate_ok` — a propagation.
-/

set_option autoImplicit false

namespace Stowage

/-! ## Calls on the domains alone -/

namespace Domains

variable {α β : Type} {ds : Domains} {ground : Prop}

/-- The call only narrows the domains; it faults only where it is not grounded. -/
def Keeps (ground : Prop) (call : Call Domains α) (ds : Domains) : Prop :=
  match call ds with
  | .ok _ after => Narrows ds after
  | .error (.inconsistent _) after => Undoable ds after
  | .error (.fault fault) _ => (fault = .outOfRange ∨ fault = .overflow) ∧ ¬ground

namespace Keeps

theorem pure (healthy : ds.Healthy) (a : α) : Keeps ground (Pure.pure a : Call Domains α) ds :=
  .refl healthy

theorem bind {x : Call Domains α} {f : α → Call Domains β} (first : Keeps ground x ds)
    (rest : ∀ a mid, x ds = .ok a mid → Narrows ds mid → Keeps ground (f a) mid) :
    Keeps ground (x >>= f) ds := by
  unfold Keeps at first rest ⊢
  simp only [Bind.bind, EStateM.bind]
  split at first
  · rename_i a mid result
    have after := rest a mid result first
    simp only [result]
    split at after
    · exact first.trans after
    · exact .after_narrows first after
    · exact after
  · rename_i result
    rw [result]
    exact first
  · rename_i result
    rw [result]
    exact first

theorem get_bind {f : Domains → Call Domains β} (h : Keeps ground (f ds) ds) :
    Keeps ground (get >>= f) ds := h

theorem forM {f : α → Call Domains PUnit} (healthy : ds.Healthy) (l : List α)
    (step : ∀ a ∈ l, ∀ t, Narrows ds t → Keeps ground (f a) t) : Keeps ground (l.forM f) ds := by
  induction l generalizing ds with
  | nil => exact pure healthy _
  | cons a l ih =>
    refine bind (step a List.mem_cons_self ds (.refl healthy)) fun _ t _ narrows => ?_
    exact ih narrows.healthy fun b hb u narrows' =>
      step b (List.mem_cons_of_mem _ hb) u (narrows.trans narrows')

/-- Imposing a predicate about a variable that does not exist faults, as does one that does not fit. -/
theorem impose {q : Predicate} (healthy : ds.Healthy)
    (grounded : ground → q.var < ds.count ∧ ds.Fits q) : Keeps ground (Domains.impose q) ds := by
  unfold Keeps
  by_cases exist : q.var < ds.count
  · by_cases fits : ds.Fits q
    · rcases imposes_impose healthy exist fits with ⟨done, -⟩ | ⟨_, done, narrows, -⟩ |
        ⟨_, done, undoable, -⟩
      · simpa only [done] using Narrows.refl healthy
      · simpa only [done] using narrows
      · simpa only [done] using undoable
    · simp only [impose_of_not_fits exist fits]
      exact ⟨.inr trivial, fun holds => fits (grounded holds).2⟩
  · simp only [Domains.impose, post, fetch_eq_error (Nat.not_lt.1 exist), Bind.bind, Except.bind]
    exact ⟨.inl trivial, fun holds => exist (grounded holds).1⟩

theorem value {v : Int} (healthy : ds.Healthy) (grounded : ground → minValue ≤ v ∧ v ≤ maxValue) :
    Keeps ground (Call.value v) ds := by
  unfold Keeps Call.value
  by_cases inside : minValue ≤ v ∧ v ≤ maxValue
  · rw [if_pos inside]
    exact .refl healthy
  · rw [if_neg inside]
    exact ⟨.inr rfl, fun holds => inside (grounded holds)⟩

end Keeps

end Domains

/-- The bounds that narrower domains keep within. -/
theorem Domains.Within.le_lower {a b : Domains} (h : Domains.Within a b) (healthy : a.Healthy) (x : Var) :
    b.lower x ≤ a.lower x :=
  Domain.lower_le_of_mem (h x _ (healthy x).lower_mem)

theorem Domains.Within.upper_le {a b : Domains} (h : Domains.Within a b) (healthy : a.Healthy) (x : Var) :
    a.upper x ≤ b.upper x :=
  Domain.le_upper_of_mem (h x _ (healthy x).upper_mem)

/-- **A precedence faults only where its right variable may be the smallest value**, which has no
predecessor.  The left variable is below the right one when its lower bound is increased. -/
theorem Precedence.keeps_revise {p : Precedence} {ds : Domains} (healthy : ds.Healthy) :
    Domains.Keeps ((∀ x ∈ p.vars, x < ds.count) ∧ minValue < ds.lower p.right) p.revise ds := by
  have ordered : ds.lower p.right ≤ ds.upper p.right := (healthy _).lower_le_upper
  have high : ds.upper p.right ≤ maxValue := (healthy _).le_maxValue
  refine .get_bind (.bind (.value healthy fun grounded => ⟨by omega, by omega⟩)
    fun bound _ done _ => ?_)
  obtain ⟨rfl, rfl⟩ := Call.value_eq_ok done
  refine .bind (.impose healthy fun grounded => ⟨grounded.1 p.left List.mem_cons_self,
    Domains.fits_atMost _ _ _⟩) fun _ mid done narrows => .get_bind ?_
  obtain ⟨-, most⟩ := Domains.impose_eq_ok healthy done
  have below : mid.upper p.left ≤ ds.upper p.right - 1 :=
    of_decide_eq_true (most _ (narrows.healthy _).upper_mem)
  have leftOrdered : mid.lower p.left ≤ mid.upper p.left := (narrows.healthy _).lower_le_upper
  have low : minValue ≤ mid.lower p.left := (narrows.healthy _).minValue_le
  refine .bind (.value narrows.healthy fun _ => ⟨by omega, by omega⟩) fun bound _ done _ => ?_
  obtain ⟨rfl, rfl⟩ := Call.value_eq_ok done
  refine .impose narrows.healthy fun grounded => ⟨?_, Domains.fits_atLeast _ _ _⟩
  exact narrows.count ▸ grounded.1 p.right (List.mem_cons_of_mem _ List.mem_cons_self)

def Rule.vars (rule : Rule) : List Var :=
  rule.condition.var :: rule.consequence.toList.map Predicate.var

/-- The variables of a rule exist, and that of its consequence is smaller than the largest value. -/
def Rule.Grounded (rule : Rule) (ds : Domains) : Prop :=
  (∀ x ∈ rule.vars, x < ds.count) ∧ ∀ q ∈ rule.consequence, ds.upper q.var < maxValue

instance (rule : Rule) (ds : Domains) : Decidable (rule.Grounded ds) :=
  inferInstanceAs (Decidable (_ ∧ _))

theorem Rule.Grounded.within {rule : Rule} {ds after : Domains} (grounded : rule.Grounded ds)
    (count : after.count = ds.count) (within : after.Within ds) (healthy : after.Healthy) :
    rule.Grounded after :=
  ⟨fun x mentioned => count ▸ grounded.1 x mentioned,
    fun q member => lt_of_le_of_lt (within.upper_le healthy q.var) (grounded.2 q member)⟩

theorem Rule.keeps_apply {rule : Rule} {ds : Domains} (healthy : ds.Healthy) :
    Domains.Keeps (rule.Grounded ds) rule.apply ds := by
  by_cases exist : rule.condition.var < ds.count
  · have evaluated : ds.evaluate rule.condition =
        .ok ((ds.domain rule.condition.var).evaluate rule.condition.comparison rule.condition.value) := by
      simp only [Domains.evaluate, Domains.fetch_eq exist, bind, Except.bind, pure, Except.pure]
    unfold Domains.Keeps Rule.apply
    simp only [evaluated]
    by_cases fires : (ds.domain rule.condition.var).evaluate rule.condition.comparison
        rule.condition.value = some rule.trigger
    · simp only [fires, if_true]
      cases result : rule.consequence with
      | none => exact .refl ds
      | some q =>
        refine Domains.Keeps.impose healthy fun grounded => ⟨grounded.1 _ ?_, ?_⟩
        · rw [Rule.vars, result]
          exact List.mem_cons_of_mem _ List.mem_cons_self
        · exact Domains.fits_of_upper_lt (grounded.2 q result)
    · simp only [fires, if_false]
      exact .refl healthy
  · unfold Domains.Keeps Rule.apply
    simp only [Domains.evaluate, Domains.fetch_eq_error (Nat.not_lt.1 exist), bind, Except.bind]
    exact ⟨.inl trivial, fun grounded => exist (grounded.1 _ List.mem_cons_self)⟩

/-- The variables of the rules of a probe. -/
def Probe.ruleVars (p : Probe) : List Var := p.rules.flatMap Rule.vars

theorem Probe.keeps_revise {p : Probe} {ds : Domains} (healthy : ds.Healthy) :
    Domains.Keeps (∀ rule ∈ p.rules, rule.Grounded ds) p.revise ds := by
  refine .forM healthy p.rules fun rule member t narrows => ?_
  have kept := rule.keeps_apply narrows.healthy
  unfold Domains.Keeps at kept ⊢
  split at kept
  · exact kept
  · exact kept
  · exact ⟨kept.1, fun grounded =>
      kept.2 ((grounded rule member).within narrows.count narrows.subset narrows.healthy)⟩

/-! ## A call of a propagator -/

namespace Propagator

/-- What is left of a propagator and the store after a call. -/
structure Calls (prop : Propagator) (s : Store) (called : Called) : Prop
    extends prop.Becomes called.propagator s.cells called.store.cells where
  started : ∀ p q, prop = .packing p → called.propagator = .packing q →
    p.agenda.started = true → q.agenda.started = true
  undoable : Domains.Undoable s.domains called.store.domains
  narrows : called.inconsistency = none → Domains.Narrows s.domains called.store.domains
  revised : ∀ p q, prop = .packing p → called.propagator = .packing q →
    called.inconsistency = none → (q.desk called.store).Revised p.packing
  sound : ∀ p, prop = .packing p → ∀ assignment, p.packing.Solution assignment →
    s.domains.Admits assignment →
    called.inconsistency = none ∧ called.store.domains.Admits assignment

variable {prop : Propagator} {s : Store} {id : Nat} {called : Called}

theorem Calls.recovers (calls : prop.Calls s called) : called.store.Recovers s :=
  ⟨calls.undoable.recovers, calls.alters.recovers⟩

theorem Calls.lawful (calls : prop.Calls s called) (lawful : s.Lawful) : called.store.Lawful :=
  ⟨calls.undoable.lawful lawful.domains, calls.alters.lawful lawful.cells⟩

theorem calls_afterCall {cells : Cells} {notes : List Note} {call : Call Domains Unit} {ground : Prop}
    (keeps : Domains.Keeps ground call s.domains) (other : ∀ p, prop ≠ .packing p)
    (becomes : prop.Becomes called.propagator s.cells called.store.cells)
    (h : prop.afterCall { s with cells := cells } notes (call s.domains) = .ok called) :
    prop.Calls s called := by
  unfold Domains.Keeps at keeps
  split at keeps
  · rename_i after result
    rw [result] at h
    cases h
    exact ⟨becomes, fun p _ same => absurd same (other p), .after_narrows keeps (.refl _), fun _ => keeps,
      fun p _ same => absurd same (other p), fun p same => absurd same (other p)⟩
  · rename_i cause after result
    rw [result] at h
    cases h
    exact ⟨becomes, fun p _ same => absurd same (other p), keeps, (fun h => by cases h),
      fun p _ same => absurd same (other p), fun p same => absurd same (other p)⟩
  · rename_i fault after result
    rw [result] at h
    cases h

end Propagator

namespace Packer

variable {p : Packer} {s : Store} {desk : Desk}

/-- **A packing is called.**  The call returns, keeps every solution, and leaves nothing to do. -/
theorem call_spec (regular : p.Regular s.cells) (ready : (p.desk s).Ready p.packing) (id : Nat) :
    ∃ called, (Propagator.packing p).call id s = .ok called ∧ (Propagator.packing p).Calls s called := by
  have runs := Packing.call_runs regular.wf ready
  have becomes {called : Called} (done : (Propagator.packing p).call id s = .ok called) :=
    Propagator.becomes_of_call (fun q same => by cases same; exact regular) done
  unfold Contract.Runs at runs
  rw [call_eq regular.keeps.isPresent] at becomes ⊢
  split at runs
  · rename_i desk result
    obtain ⟨-, advances, revised⟩ := runs
    have leaves := regular.leaves (.inl result)
    rw [result] at becomes ⊢
    refine ⟨_, rfl, becomes rfl, fun q r same same' => ?_, .after_narrows advances.narrows (.refl _),
      fun _ => advances.narrows, fun q r same same' _ => ?_, fun q same assignment solution admits => ?_⟩
    · cases same
      cases same'
      exact advances.started
    · cases same
      cases same'
      rw [leaves.desk]
      exact revised
    · cases same
      exact ⟨rfl, advances.solutions assignment solution admits⟩
  · rename_i cause desk result
    rw [result] at becomes ⊢
    refine ⟨_, rfl, becomes rfl, fun q r same same' => ?_, runs.undoable, (fun h => by cases h),
      (fun _ _ _ _ h => by cases h), fun q same assignment solution admits => ?_⟩
    · cases same
      cases same'
      exact runs.started
    · cases same
      exact absurd admits (runs.refuted assignment solution)
  · exact runs.elim

end Packer

namespace Propagator

variable {prop : Propagator} {s : Store} {id : Nat} {called : Called}

/-- **A propagator of any kind is called.** -/
theorem call_spec (healthy : s.domains.Healthy)
    (ready : ∀ p, prop = .packing p → p.Regular s.cells ∧ (p.desk s).Ready p.packing)
    (h : prop.call id s = .ok called) : prop.Calls s called := by
  have becomes := becomes_of_call (fun p same => (ready p same).1) h
  cases prop with
  | packing p =>
    obtain ⟨regular, ready⟩ := ready p rfl
    obtain ⟨called', result, calls⟩ := Packer.call_spec regular ready id
    cases result.symm.trans h
    exact calls
  | precedence p => exact calls_afterCall (p.keeps_revise healthy) nofun becomes h
  | probe p => exact calls_afterCall (p.keeps_revise healthy) nofun becomes h

/-- A call on the domains alone returns where it is grounded. -/
theorem afterCall_cases {call : Call Domains Unit} {ground : Prop} {notes : List Note}
    (keeps : Domains.Keeps ground call s.domains) :
    (∃ called, prop.afterCall s notes (call s.domains) = .ok called) ∨
      ∃ fault, prop.afterCall s notes (call s.domains) = .error fault ∧
        (fault = .outOfRange ∨ fault = .overflow) ∧ ¬ground := by
  unfold Domains.Keeps at keeps
  split at keeps
  · rename_i result
    rw [result]
    exact .inl ⟨_, rfl⟩
  · rename_i result
    rw [result]
    exact .inl ⟨_, rfl⟩
  · rename_i fault _ result
    rw [result]
    exact .inr ⟨fault, rfl, keeps⟩

/-- The rules of a probe are about variables that exist, and nothing that is imposed leaves the range of
the values. -/
def Grounded : Propagator → Domains → Prop
  | .packing _, _ => True
  | .precedence p, ds => minValue < ds.lower p.right
  | .probe p, ds => ∀ rule ∈ p.rules, rule.Grounded ds

instance : (prop : Propagator) → (ds : Domains) → Decidable (prop.Grounded ds)
  | .packing _, _ => .isTrue trivial
  | .precedence p, ds => inferInstanceAs (Decidable (minValue < ds.lower p.right))
  | .probe p, ds => inferInstanceAs (Decidable (∀ rule ∈ p.rules, rule.Grounded ds))

theorem Grounded.within {ds after : Domains} (grounded : prop.Grounded ds)
    (count : after.count = ds.count) (within : after.Within ds) (healthy : after.Healthy) :
    prop.Grounded after := by
  cases prop with
  | packing p => trivial
  | precedence p => exact lt_of_lt_of_le grounded (within.le_lower healthy p.right)
  | probe p => exact fun rule member => (grounded rule member).within count within healthy

/-- Only what a propagator is, apart from what changes from call to call, decides whether it is
grounded. -/
theorem Grounded.of_core {old : Propagator} {ds : Domains} (grounded : old.Grounded ds)
    (core : old.core = prop.core) : prop.Grounded ds := by
  cases prop with
  | packing p => trivial
  | precedence p => cases core_eq_precedence core; exact grounded
  | probe p => cases core_eq_probe core; exact grounded

/-- **A call returns where the propagator is grounded.** -/
theorem call_cases (id : Nat) (healthy : s.domains.Healthy)
    (ready : ∀ p, prop = .packing p → p.Regular s.cells ∧ (p.desk s).Ready p.packing)
    (known : ∀ p, prop = .precedence p → ∀ x ∈ p.vars, x < s.domains.count) :
    (∃ called, prop.call id s = .ok called) ∨
      ∃ fault, prop.call id s = .error fault ∧ (fault = .outOfRange ∨ fault = .overflow) ∧
        ¬prop.Grounded s.domains := by
  cases prop with
  | packing p =>
    obtain ⟨regular, ready⟩ := ready p rfl
    obtain ⟨called, result, -⟩ := Packer.call_spec regular ready id
    exact .inl ⟨called, result⟩
  | precedence p =>
    refine (afterCall_cases (p.keeps_revise healthy)).imp_right fun ⟨fault, result, kind, aground⟩ =>
      ⟨fault, result, kind, fun grounded => aground ⟨known p rfl, grounded⟩⟩
  | probe p =>
    exact afterCall_cases (s := { s with cells := (p.begin id s.cells).1 }) (p.keeps_revise healthy)

end Propagator

namespace State

variable {s t : State} {id : Nat} {queue : Queue}

/-! ## A call in a state -/

def OnlyPackings (s : State) : Prop :=
  ∀ (id : Nat) (prop : Propagator), s.propagators[id]? = some prop → ∃ p, prop = .packing p

/-- The rules of all probes are about variables that exist, and nothing that probes and precedences
impose leaves the range of the values. -/
def Grounded (s : State) : Prop :=
  ∀ (id : Nat) (prop : Propagator), s.propagators[id]? = some prop → prop.Grounded s.domains

theorem grounded_of_all
    (h : s.propagators.toList.all (fun prop => decide (prop.Grounded s.domains)) = true) : s.Grounded :=
  fun _ _ found => of_decide_eq_true
    (List.all_eq_true.1 h _ (Array.mem_toList_iff.2 (Array.mem_of_getElem? found)))

theorem OnlyPackings.grounded (only : s.OnlyPackings) : s.Grounded := by
  intro id prop found
  obtain ⟨p, rfl⟩ := only id prop found
  trivial

theorem Grounded.evolve (grounded : s.Grounded) (h : Evolves s t) (within : t.domains.Within s.domains)
    (healthy : t.domains.Healthy) : t.Grounded := by
  intro id prop found
  obtain ⟨old, before, core⟩ := found_of_cores h.cores found
  exact ((grounded id old before).of_core core).within h.count within healthy

/-- The assignment is admitted by the domains and satisfies all packings. -/
structure Solution (s : State) (assignment : Var → Int) : Prop where
  admits : s.domains.Admits assignment
  packings : ∀ id p, s.Runs id p → p.packing.Solution assignment

/-- The ledgers of other packings stay as they are. -/
theorem Frame.ledger_of_calls (frame : s.Frame) {prop : Propagator} {called : Called} {j : Nat} {p : Packer}
    (found : s.propagators[id]? = some prop) (calls : prop.Calls s.store called) (runs : s.Runs j p)
    (other : j ≠ id) : called.store.ledger p = s.store.ledger p :=
  Packer.ledger_eq (frame.allotted.read_of_alters found calls.alters runs other)

theorem evolves_afterCalling {prop : Propagator} {called : Called}
    (found : s.propagators[id]? = some prop) (calls : prop.Calls s.store called)
    (pop : s.queue.pop = some (id, queue)) : Evolves s (s.afterCalling id called queue) := by
  have waiting := Queue.toList_of_pop pop
  refine ⟨rfl, cores_set found calls.core, fun j p q hp hq first => ?_, calls.recovers, calls.lawful,
    calls.undoable.count, fun allotted => allotted.becomes found calls.toBecomes rfl rfl,
    Queue.length_of_pop pop, fun inside j member => ?_⟩
  · rcases runs_set hq with ⟨-, runs⟩ | ⟨rfl, new⟩
    · exact (Evolves.refl s).started j p q hp runs first
    · exact calls.started p q (Option.some.inj (found.symm.trans hp)) new first
  · refine inside j ?_
    rw [waiting]
    exact List.mem_cons_of_mem _ member

/-- A call that finds no inconsistency, before its changes are announced. -/
theorem Consistent.afterCalling (cons : s.Consistent) {prop : Propagator} {called : Called}
    (found : s.propagators[id]? = some prop) (calls : prop.Calls s.store called)
    (pop : s.queue.pop = some (id, queue)) (fine : called.inconsistency = none) :
    (s.afterCalling id called queue).Consistent := by
  have narrows := calls.narrows fine
  have ledger : ∀ j p, j ≠ id → s.Runs j p → called.store.ledger p = s.store.ledger p :=
    fun j p other runs => cons.ledger_of_calls found calls runs other
  have revised : ∀ j p, (s.afterCalling id called queue).Runs j p →
      j = id → (p.desk called.store).Revised p.packing := by
    intro j q runs same
    rcases runs_set runs with ⟨other, -⟩ | ⟨-, new⟩
    · exact absurd same other
    · cases prop with
      | packing p =>
        obtain ⟨r, same, -, packing, -⟩ := Propagator.core_eq_packing calls.core
        cases same.symm.trans new
        rw [packing]
        exact calls.revised p q rfl new fine
      | precedence p => cases new ▸ calls.core
      | probe p => cases new ▸ calls.core
  refine ⟨cons.toFrame.evolve (evolves_afterCalling found calls pop), narrows.healthy,
    fun j q runs => ?_, fun j q runs absent => ?_, fun e x waits => ?_⟩
  · by_cases same : j = id
    · exact (revised j q runs same).toReady
    · rcases runs_set runs with ⟨other, runs⟩ | ⟨same', -⟩
      · exact ((cons.ready j q runs).narrow narrows).of_eq rfl (ledger j q other runs) rfl
      · exact absurd same' same
  · by_cases same : j = id
    · exact revised j q runs same
    · rcases runs_set runs with ⟨other, runs⟩ | ⟨same', -⟩
      · refine ((cons.awake j q runs fun member => ?_).narrow narrows).of_eq rfl (ledger j q other runs) rfl
        rw [Queue.toList_of_pop pop] at member
        exact (List.mem_cons.1 member).elim other absent
      · exact absurd same' same
  · show x < called.store.domains.count
    rw [narrows.count]
    exact (narrows.events e x waits).elim (cons.events e x) fun exist => exist

theorem Frame.length_queue_le (frame : s.Frame) : s.queue.toList.length ≤ s.propagators.size := by
  have inside : s.queue.toList ⊆ List.range s.propagators.size :=
    fun id member => List.mem_range.2 (frame.queued id member)
  simpa using (s.queue.nodup_toList.subperm inside).length_le

theorem evolves_abandon (s : State) (totals : Totals) :
    Evolves s (State.abandon { s with totals := totals }) where
  watchers := rfl
  cores := rfl
  started id p q hp hq := (Evolves.refl s).started id p q hp hq
  recovers := ⟨.refl _, .refl _⟩
  lawful lawful := ⟨lawful.domains, lawful.cells⟩
  count := rfl
  allotted allotted := allotted.of_eq rfl rfl rfl
  lines := Queue.length_clear s.queue
  queued _ id member := by
    have member : id ∈ s.queue.clear.toList := member
    rw [Queue.toList_clear] at member
    cases member

theorem onlyPackings_of_cores (only : s.OnlyPackings)
    (h : t.propagators.map Propagator.core = s.propagators.map Propagator.core) :
    t.OnlyPackings := by
  intro id prop found
  have same := congrArg (fun props => props[id]?) h
  simp only [Array.getElem?_map, found, Option.map_some] at same
  obtain ⟨old, before, core⟩ := Option.map_eq_some_iff.1 same.symm
  obtain ⟨p, rfl⟩ := only id old before
  obtain ⟨q, rfl, -⟩ := Propagator.core_eq_packing core.symm
  exact ⟨q, rfl⟩

/-- As long as the propagators stay what they are, the domains decide what is a solution. -/
theorem Solution.of_cores {assignment : Var → Int} (solution : s.Solution assignment)
    (h : t.propagators.map Propagator.core = s.propagators.map Propagator.core)
    (admits : t.domains.Admits assignment) : t.Solution assignment := by
  refine ⟨admits, fun id q runs => ?_⟩
  obtain ⟨p, hp, -, packing, -⟩ := runs_of_cores h runs
  exact packing ▸ solution.packings id p hp

theorem Consistent.ready_of_found (cons : s.Consistent) {prop : Propagator}
    (found : s.propagators[id]? = some prop) : ∀ p, prop = .packing p →
      p.Regular s.store.cells ∧ (p.desk s.store).Ready p.packing := by
  rintro p rfl
  exact ⟨cons.allotted.regular id p found, cons.ready id p found⟩

/-- **A propagator that waits is called.**  Unless it finds an inconsistency, fewer calls are left. -/
theorem callPropagator_spec (cons : s.Consistent) (quiet : s.domains.pending = .empty)
    (pop : s.queue.pop = some (id, queue)) {conflict : Option Conflict}
    (h : State.callPropagator { s with queue := queue } id = .ok (conflict, t)) :
    Evolves s t ∧
      (conflict = none → t.Consistent ∧ t.domains.pending = .empty ∧
        t.domains.Within s.domains ∧ t.callLimit < s.callLimit) ∧
      ∀ assignment, s.OnlyPackings → s.Solution assignment →
        conflict = none ∧ t.domains.Admits assignment := by
  obtain ⟨prop, called, found, call, outcome⟩ := callPropagator_eq_ok h
  have calls := Propagator.call_spec cons.healthy (cons.ready_of_found found) call
  have evolves := evolves_afterCalling found calls pop
  have sound : ∀ assignment, s.OnlyPackings → s.Solution assignment →
      called.inconsistency = none ∧ called.store.domains.Admits assignment := by
    intro assignment only solution
    obtain ⟨p, rfl⟩ := only id prop found
    exact calls.sound p rfl assignment (solution.packings id p found) solution.admits
  rcases outcome with ⟨fine, rfl, announced⟩ | ⟨cause, totals, failed, rfl, rfl, -⟩
  · have after := cons.afterCalling found calls pop fine
    obtain ⟨u, done, consU, evolvesU, domains, -⟩ := announce_spec after
    cases announced.symm.trans done
    have quietU := Domains.pending_of_cleared domains
    refine ⟨evolves.trans evolvesU, fun _ => ⟨consU, quietU, fun x v member => ?_, ?_⟩,
      fun assignment only solution => ⟨rfl, ?_⟩⟩
    · rw [domains] at member
      exact (calls.narrows fine).subset x v member
    · have size : t.propagators.size = s.propagators.size :=
        size_of_cores (evolves.trans evolvesU).cores
      have narrows : Domains.Narrows s.domains called.store.domains := calls.narrows fine
      have volume : t.domains.volume = called.store.domains.volume := by rw [domains]; rfl
      have waiting : s.queue.toList.length = queue.toList.length + 1 := by
        rw [Queue.toList_of_pop pop]
        rfl
      simp only [callLimit, size, volume, waiting]
      rcases narrows.strict with same | less
      · -- nothing was removed, so nothing is announced and nobody joins the queue
        cases announced.symm.trans (announce_of_quiet (same.trans quiet))
        have := Nat.mul_le_mul_left s.propagators.size narrows.volume
        show queue.toList.length + _ < _
        omega
      · have bound := size ▸ consU.length_queue_le
        have := Nat.mul_le_mul_left s.propagators.size (Nat.succ_le_of_lt less)
        rw [Nat.mul_succ] at this
        omega
    · rw [domains]
      exact (sound assignment only solution).2
  · refine ⟨evolves.trans (evolves_abandon _ totals), (fun h => by cases h),
      fun assignment only solution => ?_⟩
    rw [(sound assignment only solution).1] at failed
    cases failed

/-- A call that returns is reported by the state. -/
theorem callPropagator_of_call (cons : s.Consistent) {prop : Propagator} {called : Called}
    (found : s.propagators[id]? = some prop) (call : prop.call id s.store = .ok called)
    (calls : prop.Calls s.store called) (pop : s.queue.pop = some (id, queue)) :
    ∃ u, State.callPropagator { s with queue := queue } id =
      .ok (called.inconsistency.map (Conflict.mk id), u) := by
  simp only [callPropagator, Table.fetch, found, call, bind, Except.bind, pure, Except.pure]
  cases fine : called.inconsistency with
  | some cause => exact ⟨_, rfl⟩
  | none =>
    obtain ⟨u, done, -⟩ := announce_spec (cons.afterCalling found calls pop fine)
    have done : State.announce
      { s with
        store := called.store
        propagators := s.propagators.setIfInBounds id called.propagator
        queue := queue
        totals := { s.totals with calls := s.totals.calls + 1 }
        notes := s.notes ++ called.notes.toArray } = .ok u := done
    exact ⟨u, by simp only [done]; rfl⟩

theorem Frame.lt_of_pop (frame : s.Frame) (pop : s.queue.pop = some (id, queue)) :
    id < s.propagators.size := by
  refine frame.queued id ?_
  rw [Queue.toList_of_pop pop]
  exact List.mem_cons_self

/-- **A propagator that waits is called.**  The call returns where the propagators are grounded. -/
theorem callPropagator_cases (cons : s.Consistent) (pop : s.queue.pop = some (id, queue)) :
    (∃ r, State.callPropagator { s with queue := queue } id = .ok r) ∨
      ∃ fault, State.callPropagator { s with queue := queue } id = .error fault ∧
        (fault = .outOfRange ∨ fault = .overflow) ∧ ¬s.Grounded := by
  have bound := cons.lt_of_pop pop
  have found : s.propagators[id]? = some s.propagators[id] := by simp [bound]
  generalize s.propagators[id] = prop at found
  have ready := cons.ready_of_found found
  have known : ∀ p, prop = .precedence p → ∀ x ∈ p.vars, x < s.domains.count := by
    rintro p rfl x mentioned
    obtain ⟨place, own⟩ := List.mem_iff_getElem?.1 mentioned
    exact (cons.listens id p found x place own).1
  rcases Propagator.call_cases id cons.healthy ready known with
    ⟨called, call⟩ | ⟨fault, call, kind, aground⟩
  · obtain ⟨u, done⟩ := callPropagator_of_call cons found call
      (Propagator.call_spec cons.healthy ready call) pop
    exact .inl ⟨_, done⟩
  · refine .inr ⟨fault, ?_, kind, fun grounded => aground (grounded id prop found)⟩
    simp only [callPropagator, Table.fetch, found, call, bind, Except.bind]

/-- **A packing that waits is called.**  The call returns, and the state reports what it has found. -/
theorem callPropagator_ok (cons : s.Consistent) {p : Packer} (runs : s.Runs id p)
    (pop : s.queue.pop = some (id, queue)) :
    ∃ called u, (Propagator.packing p).call id s.store = .ok called ∧
      (Propagator.packing p).Calls s.store called ∧
      State.callPropagator { s with queue := queue } id =
        .ok (called.inconsistency.map (Conflict.mk id), u) := by
  have found : s.propagators[id]? = some (.packing p) := runs
  obtain ⟨regular, ready⟩ := cons.ready_of_found found p rfl
  obtain ⟨called, call, calls⟩ := Packer.call_spec regular ready id
  obtain ⟨u, done⟩ := callPropagator_of_call cons found call calls pop
  exact ⟨called, u, call, calls, done⟩

/-! ## All calls -/

/-- **The propagators that wait are called until none waits.**  Whatever the outcome, no solution is
lost and no inconsistency is found if there is one. -/
theorem callWaiting_spec {limit : Nat} (cons : s.Consistent) (quiet : s.domains.pending = .empty)
    {conflict : Option Conflict} (h : s.callWaiting limit = .ok (conflict, t)) :
    Evolves s t ∧ (conflict = none → t.Consistent ∧ t.Quiet ∧ t.domains.Within s.domains) ∧
      ∀ assignment, s.OnlyPackings → s.Solution assignment →
        conflict = none ∧ t.domains.Admits assignment := by
  induction limit generalizing s with
  | zero =>
    simp only [callWaiting, pure, Except.pure] at h
    split at h
    · rename_i none
      cases h
      exact ⟨.refl _, fun _ => ⟨cons, ⟨Queue.isEmpty_iff.1 none, quiet⟩, fun _ _ member => member⟩,
        fun _ _ solution => ⟨rfl, solution.admits⟩⟩
    · cases h
  | succ limit ih =>
    simp only [callWaiting, bind, Except.bind, pure, Except.pure] at h
    split at h
    · rename_i none
      cases h
      exact ⟨.refl _, fun _ => ⟨cons, ⟨Queue.pop_eq_none_iff.1 none, quiet⟩, fun _ _ member => member⟩,
        fun _ _ solution => ⟨rfl, solution.admits⟩⟩
    · rename_i id queue pop
      split at h
      · cases h
      · rename_i result call
        obtain ⟨found, u⟩ := result
        obtain ⟨evolves, fine, sound⟩ := callPropagator_spec cons quiet pop call
        cases found with
        | none =>
          obtain ⟨consU, quietU, within, -⟩ := fine rfl
          obtain ⟨evolves', fine', sound'⟩ := ih consU quietU h
          refine ⟨evolves.trans evolves', fun none => ?_, fun assignment only solution =>
            sound' assignment (onlyPackings_of_cores only evolves.cores)
              (solution.of_cores evolves.cores (sound assignment only solution).2)⟩
          obtain ⟨consT, quietT, within'⟩ := fine' none
          exact ⟨consT, quietT, fun x v member => within x v (within' x v member)⟩
        | some c =>
          cases h
          exact ⟨evolves, (fun h => by cases h), sound⟩

/-- **The calls come to an end**, and none of them faults where the propagators are grounded. -/
theorem callWaiting_cases {limit : Nat} (cons : s.Consistent) (quiet : s.domains.pending = .empty)
    (enough : s.callLimit ≤ limit) : (∃ r, s.callWaiting limit = .ok r) ∨
      ∃ fault, s.callWaiting limit = .error fault ∧ (fault = .outOfRange ∨ fault = .overflow) ∧
        ¬s.Grounded := by
  induction limit generalizing s with
  | zero =>
    have none : s.queue.isEmpty = true := by
      rw [Queue.isEmpty_iff, ← List.length_eq_zero_iff]
      simp only [callLimit] at enough
      omega
    simp only [callWaiting, none, if_true]
    exact .inl ⟨_, rfl⟩
  | succ limit ih =>
    simp only [callWaiting]
    cases pop : s.queue.pop with
    | none => exact .inl ⟨_, rfl⟩
    | some next =>
      obtain ⟨id, queue⟩ := next
      rcases callPropagator_cases cons pop with ⟨⟨conflict, u⟩, call⟩ | ⟨fault, call, aground⟩
      · obtain ⟨evolves, fine, -⟩ := callPropagator_spec cons quiet pop call
        simp only [call, bind, Except.bind]
        cases conflict with
        | some c => exact .inl ⟨_, rfl⟩
        | none =>
          obtain ⟨consU, quietU, within, less⟩ := fine rfl
          refine (ih consU quietU (by omega)).imp_right fun ⟨fault, result, kind, aground⟩ =>
            ⟨fault, result, kind, fun grounded => ?_⟩
          exact aground (grounded.evolve evolves within consU.healthy)
      · refine .inr ⟨fault, ?_, aground⟩
        simp only [call, bind, Except.bind]

/-! ## Propagation -/

/-- **A propagation settles a state or finds an inconsistency.** -/
theorem propagate_spec (cons : s.Consistent) {conflict : Option Conflict}
    (h : s.propagate = .ok (conflict, t)) :
    Evolves s t ∧ (conflict = none → t.Consistent ∧ t.Quiet ∧ t.domains.Within s.domains) ∧
      ∀ assignment, s.OnlyPackings → s.Solution assignment →
        conflict = none ∧ t.domains.Admits assignment := by
  obtain ⟨u, announced, calls⟩ := propagate_eq_ok h
  obtain ⟨v, done, consU, evolves, domains, -⟩ := announce_spec cons
  cases announced.symm.trans done
  obtain ⟨evolves', fine, sound⟩ := callWaiting_spec consU (Domains.pending_of_cleared domains) calls
  rw [domains] at fine
  refine ⟨evolves.trans evolves', fine, fun assignment only solution => ?_⟩
  refine sound assignment (onlyPackings_of_cores only evolves.cores)
    (solution.of_cores evolves.cores ?_)
  rw [domains]
  exact solution.admits

/-- **A propagation ends**, and does not fault where the propagators are grounded. -/
theorem propagate_cases (cons : s.Consistent) : (∃ r, s.propagate = .ok r) ∨
    ∃ fault, s.propagate = .error fault ∧ (fault = .outOfRange ∨ fault = .overflow) ∧
      ¬s.Grounded := by
  obtain ⟨u, announced, consU, evolves, domains, -⟩ := announce_spec cons
  simp only [propagate, announced, bind, Except.bind]
  have quietU := Domains.pending_of_cleared domains
  rcases callWaiting_cases consU quietU (Nat.le_refl _) with ends | ⟨fault, result, kind, aground⟩
  · exact .inl ends
  · refine .inr ⟨fault, result, kind, fun grounded => aground ?_⟩
    refine grounded.evolve evolves (fun x v member => ?_) consU.healthy
    rwa [domains] at member

theorem propagate_ok (cons : s.Consistent) (grounded : s.Grounded) : ∃ r, s.propagate = .ok r :=
  (propagate_cases cons).resolve_right fun ⟨_, _, _, aground⟩ => aground grounded

end State

end Stowage
