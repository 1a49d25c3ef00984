import Stowage.Proofs.Confinement
import Stowage.Proofs.Rounds
import Stowage.Proofs.Termination
import Stowage.Proofs.Reachability

/-!
# A packing among others and on its own

A packing that shares a state with other propagators is mirrored by the same packing in a state of its
own, where its variables may have other names.  As long as the others cannot narrow its variables, what
is done to both states keeps them mirrored: what concerns the packing is done to both, and what concerns
others leaves the state of its own as it is.

* `Seat` — where the packing is in the two states.
* `told` — the notifications made to the packing.
* `State.Mirrors` — the packing has the same domains, the same ledger and the same plans in both states.
* `State.Mirrors.announce`, `State.Mirrors.callWaiting`, `State.Mirrors.propagate` — a propagation.
* `State.Mirrors.post`, `State.Mirrors.checkpointed`, `State.Mirrors.restore` — the other steps.
-/

set_option autoImplicit false

namespace Stowage

/-- Where a packing is in a state that it shares, and in one of its own, where it is propagator 0. -/
structure Seat where
  /-- The number of the packing in the state that it shares. -/
  id : Nat
  /-- Where its ledger is in the cells that it shares. -/
  layout : Layout
  /-- Where its ledger is in the state of its own. -/
  ownLayout : Layout

/-! ## The notifications to a packing -/

variable {seat : Option Seat}

/-- The propagator is the packing, if it has a seat. -/
def isSeated (seat : Option Seat) (id : Nat) : Bool := seat.any fun a => a.id == id

theorem isSeated_iff {id : Nat} : isSeated seat id = true ↔ ∃ a ∈ seat, a.id = id := by
  simp [isSeated, Option.any_eq_true, beq_iff_eq]

/-- What is said to the packing, as it is said in the state of its own. -/
def told (seat : Option Seat) (list : List (Event × Watch)) : List (Event × Watch) :=
  (list.filter fun v => isSeated seat v.2.propagator).map fun v => (v.1, ⟨0, v.2.place⟩)

theorem told_none (list : List (Event × Watch)) : told none list = [] := by
  simp [told, isSeated]

theorem told_append (l l' : List (Event × Watch)) : told seat (l ++ l') = told seat l ++ told seat l' := by
  simp [told]

theorem told_singleton (e : Event) (w : Watch) :
    told seat [(e, w)] = if isSeated seat w.propagator then [(e, ⟨0, w.place⟩)] else [] := by
  by_cases mine : isSeated seat w.propagator = true
  · simp [told, mine]
  · simp [told, mine]

theorem told_cons (e : Event) (w : Watch) (l : List (Event × Watch)) : told seat ((e, w) :: l) =
    if isSeated seat w.propagator then (e, ⟨0, w.place⟩) :: told seat l else told seat l := by
  rw [← List.singleton_append, told_append, told_singleton]
  split
  · rfl
  · rfl

theorem told_filter (e : Event) (l : List (Event × Watch)) :
    told seat (l.filter (·.1 = e)) = (told seat l).filter (·.1 = e) := by
  unfold told
  rw [List.filter_map, List.filter_filter, List.filter_filter]
  refine congrArg _ (List.filter_congr fun v _ => ?_)
  simp [Bool.and_comm]

theorem told_flatMap {α : Type} (l : List α) (f : α → List (Event × Watch)) :
    told seat (l.flatMap f) = l.flatMap fun a => told seat (f a) := by
  simp [told, List.filter_flatMap, List.map_flatMap]

/-! ## What is mirrored -/

variable {φ : Var → Var} {vars : List Var} {p : Packing}

/-- The packing has the same domains and the same ledger in both stores; nothing else has changed in the
second one. -/
structure Store.Shows (φ : Var → Var) (p : Packing) (seat : Option Seat) (s t : Store) : Prop where
  domains : s.domains.Mirrors φ p.vars t.domains
  ledger : ∀ a ∈ seat, a.ownLayout.ledger (p.relabel φ) t.cells = a.layout.ledger p s.cells
  own : ∀ w ∈ t.domains.pending.entries.toList, w.2 ∈ p.vars.map φ

/-- The same holds at every checkpoint. -/
structure Store.Mirrors (φ : Var → Var) (p : Packing) (seat : Option Seat) (s t : Store) : Prop where
  now : s.Shows φ p seat t
  past : ∀ k < s.checkpoint, (s.view k).Shows φ p seat (t.view k)
  checkpoint : t.checkpoint = s.checkpoint

/-- Variables of the packing are watched by the packing in the same way, others are not watched by it. -/
structure Heeds (φ : Var → Var) (vars : List Var) (seat : Option Seat)
    (watches watches' : Var → List (Event × Watch)) : Prop where
  inside : ∀ x ∈ vars, watches' (φ x) = told seat (watches x)
  outside : ∀ x, x ∉ vars → told seat (watches x) = []

/-- The packing in the state of its own. -/
def Packer.relabel (q : Packer) (φ : Var → Var) (layout : Layout) : Packer :=
  { q with packing := q.packing.relabel φ, layout }

/-- The packing is among the propagators and the others cannot narrow its variables; on its own it is the
only one, with the same plans. -/
structure Staffed (φ : Var → Var) (p : Packing) (seat : Option Seat) (props props' : Array Propagator) :
    Prop where
  others : ∀ (id : Nat) (prop : Propagator), props[id]? = some prop → isSeated seat id = false →
    ∀ x ∈ p.vars, x ∉ prop.scope
  seated : ∀ a ∈ seat, ∃ q : Packer, props[a.id]? = some (.packing q) ∧ q.packing = p ∧
    q.layout = a.layout ∧ props'[0]? = some (.packing (q.relabel φ a.ownLayout))
  sole : ∀ id < props'.size, id = 0 ∧ seat.isSome

/-- The packing waits to be called in both queues or in none. -/
def Awaits (seat : Option Seat) (queue queue' : Queue) : Prop :=
  ∀ id, id ∈ queue'.toList ↔ ∃ a ∈ seat, id = 0 ∧ a.id ∈ queue.toList

/-- The packing has the same domains, the same ledger and the same plans in both states. -/
structure State.Mirrors (φ : Var → Var) (p : Packing) (seat : Option Seat) (s t : State) : Prop where
  store : s.store.Mirrors φ p seat t.store
  heeds : Heeds φ p.vars seat s.watches t.watches
  staffed : Staffed φ p seat s.propagators t.propagators
  awaits : Awaits seat s.queue t.queue

namespace Store

variable {s t u : Store}

theorem Shows.alters (h : s.Shows φ p seat t) {elsewhere : List Var}
    (alters : Domains.Alters elsewhere s.domains u.domains) (apart : ∀ x ∈ p.vars, x ∉ elsewhere)
    (ledger : ∀ a ∈ seat, a.layout.ledger p u.cells = a.layout.ledger p s.cells) : u.Shows φ p seat t :=
  ⟨h.domains.alters alters apart, fun a own => (h.ledger a own).trans (ledger a own).symm, h.own⟩

theorem Shows.clear (h : s.Shows φ p seat t) : Shows φ p seat
    { s with domains := s.domains.clearPending } { t with domains := t.domains.clearPending } where
  domains :=
    { same := h.domains.same
      pending := by
        simp only [Domains.pending_clearPending]
        rfl }
  ledger := h.ledger
  own := by
    simp only [Domains.pending_clearPending]
    exact fun w member => absurd member List.not_mem_nil

theorem Mirrors.clear (h : s.Mirrors φ p seat t) : Mirrors φ p seat
    { s with domains := s.domains.clearPending } { t with domains := t.domains.clearPending } :=
  ⟨h.now.clear, h.past, h.checkpoint⟩

/-- Only the stores as they are now have changed. -/
theorem Mirrors.step (h : s.Mirrors φ p seat t) {s' t' : Store} (now : s'.Shows φ p seat t')
    (here : s'.Recovers s) (there : t'.Recovers t) (level : s.Level) (level' : t.Level) :
    s'.Mirrors φ p seat t' where
  now := now
  past k hk := by
    have below : k < s.checkpoint := here.checkpoint ▸ hk
    rw [here.view_eq level below, there.view_eq level' (h.checkpoint ▸ below)]
    exact h.past k below
  checkpoint := by rw [there.checkpoint, here.checkpoint, h.checkpoint]

end Store

namespace Staffed

variable {props props' : Array Propagator} {a : Seat} {id : Nat}

theorem isSeated_id (own : a ∈ seat) : isSeated seat a.id = true := isSeated_iff.2 ⟨a, own, rfl⟩

theorem eq_of_mem {b : Seat} (own : a ∈ seat) (own' : b ∈ seat) : a = b :=
  Option.some.inj (own.symm.trans own')

/-- Another propagator has changed, but not what it can narrow. -/
theorem set_other (h : Staffed φ p seat props props') {prop new : Propagator}
    (found : props[id]? = some prop) (core : new.core = prop.core) (other : isSeated seat id = false) :
    Staffed φ p seat (props.setIfInBounds id new) props' where
  others j prop' found' outside x inside := by
    rw [Array.getElem?_setIfInBounds] at found'
    split at found'
    next same =>
      subst same
      split at found'
      · cases found'
        rw [← Propagator.scope_core, core, Propagator.scope_core]
        exact h.others id prop found other x inside
      · cases found'
    next => exact h.others j prop' found' outside x inside
  seated a own := by
    obtain ⟨q, here, rest⟩ := h.seated a own
    have apart : id ≠ a.id := fun same => by
      rw [same, isSeated_id own] at other
      cases other
    exact ⟨q, by rw [Array.getElem?_setIfInBounds, if_neg apart]; exact here, rest⟩
  sole := h.sole

/-- The packing has made the same plans in both states. -/
theorem set_own (h : Staffed φ p seat props props') (own : a ∈ seat) {q : Packer}
    (found : props[a.id]? = some (.packing q)) (agenda : Agenda) (counters : Counters) :
    Staffed φ p seat (props.setIfInBounds a.id (.packing { q with agenda, counters }))
      (props'.setIfInBounds 0 (.packing { q.relabel φ a.ownLayout with agenda, counters })) where
  others j prop' found' outside x inside := by
    have apart : a.id ≠ j := fun same => by
      rw [← same, isSeated_id own] at outside
      cases outside
    rw [Array.getElem?_setIfInBounds, if_neg apart] at found'
    exact h.others j prop' found' outside x inside
  seated b own' := by
    cases eq_of_mem own own'
    obtain ⟨r, here, packing, layout, there⟩ := h.seated a own
    cases Option.some.inj (here.symm.trans found)
    refine ⟨{ q with agenda, counters }, ?_, packing, layout, ?_⟩
    · exact Array.getElem?_setIfInBounds_self_of_lt (Array.getElem?_eq_some_iff.1 here).1
    · exact Array.getElem?_setIfInBounds_self_of_lt (Array.getElem?_eq_some_iff.1 there).1
  sole j bound := h.sole j (by simpa using bound)

end Staffed

namespace Awaits

variable {queue queue' after after' : Queue} {a : Seat} {id : Nat}

theorem other (h : Awaits seat queue queue') (outside : isSeated seat id = false)
    (same : ∀ j, j ≠ id → (j ∈ after.toList ↔ j ∈ queue.toList)) : Awaits seat after queue' := by
  intro j
  rw [h j]
  refine exists_congr fun a => and_congr_right fun own => and_congr_right fun _ => (same a.id ?_).symm
  rintro rfl
  rw [Staffed.isSeated_id own] at outside
  cases outside

theorem pop (h : Awaits seat queue queue') (own : a ∈ seat) (first : queue.pop = some (a.id, after))
    (first' : queue'.pop = some (0, after')) : Awaits seat after after' := by
  have nodup := queue.nodup_toList
  have nodup' := queue'.nodup_toList
  have list := Queue.toList_of_pop first
  have list' := Queue.toList_of_pop first'
  rw [list, List.nodup_cons] at nodup
  rw [list', List.nodup_cons] at nodup'
  intro j
  constructor
  · intro waits
    obtain ⟨b, -, rfl, -⟩ := (h j).1 (list' ▸ List.mem_cons_of_mem _ waits)
    exact absurd waits nodup'.1
  · rintro ⟨b, own', rfl, waits⟩
    cases Option.some.inj (own.symm.trans own')
    exact absurd waits nodup.1

/-- Where the packing is first in the queue that it shares, it is so in its own. -/
theorem pop_own (h : Awaits seat queue queue') (own : a ∈ seat) (first : queue.pop = some (a.id, after)) :
    ∃ after', queue'.pop = some (0, after') := by
  have waits : 0 ∈ queue'.toList :=
    (h 0).2 ⟨a, own, rfl, by rw [Queue.toList_of_pop first]; exact List.mem_cons_self⟩
  cases pop : queue'.pop with
  | none =>
    rw [Queue.pop_eq_none_iff.1 pop] at waits
    cases waits
  | some next =>
    obtain ⟨id, after'⟩ := next
    obtain ⟨-, -, rfl, -⟩ := (h id).1 (by rw [Queue.toList_of_pop pop]; exact List.mem_cons_self)
    exact ⟨after', rfl⟩

theorem empty (none : queue.toList = []) (none' : queue'.toList = []) : Awaits seat queue queue' := by
  intro j
  simp [none, none']

end Awaits

theorem State.Allotted.level_tell {s t : State} (allotted : s.Allotted) (level : s.store.Level) {x : Var}
    {e f : Event} {w : Watch} (watch : (f, w) ∈ s.watches x) (step : s.tell e w = .ok t) : t.store.Level := by
  obtain ⟨prop, heard, queue, found, notify, rfl⟩ := tell_eq_ok step
  exact (allotted.becomes_of_notify watch found notify).alters.recovers.checkpoint.trans level

namespace State.Mirrors

variable {s t s' t' : State}

/-! ## Notifications -/

/-- What is announced to the packing is announced to it in the state of its own. -/
theorem announcements (h : s.Mirrors φ p seat t) : t.announcements = told seat s.announcements := by
  have all : t.domains.pending.entries.toList =
      (s.domains.pending.entries.toList.filter fun w => decide (w.2 ∈ p.vars)).map (Prod.map id φ) := by
    have own := Pending.among_eq_self (P := (· ∈ p.vars.map φ)) h.store.now.own
    exact own.symm.trans h.store.now.domains.pending
  unfold State.announcements
  rw [all, List.flatMap_map, told_flatMap]
  generalize s.domains.pending.entries.toList = entries
  induction entries with
  | nil => rfl
  | cons w entries ih =>
    obtain ⟨e, x⟩ := w
    rw [List.flatMap_cons, ← ih, List.filter_cons]
    by_cases inside : x ∈ p.vars
    · simp only [inside, decide_true, if_true, List.flatMap_cons]
      congr 1
      exact (congrArg _ (h.heeds.inside x inside)).trans (told_filter e _).symm
    · simp only [inside, decide_false, Bool.false_eq_true, if_false]
      have silent : told seat ((s.watches x).filter (·.1 = e)) = [] := by
        rw [told_filter, h.heeds.outside x inside, List.filter_nil]
      exact (congrArg (· ++ _) silent).symm

/-- What another propagator does to its cells does not concern the packing. -/
theorem ledger_other (h : s.Mirrors φ p seat t) (allotted : s.Allotted) {id : Nat} {prop : Propagator}
    {cells : Cells} (found : s.propagators[id]? = some prop)
    (alters : Cells.Alters prop.Owns s.store.cells cells) (other : isSeated seat id = false) :
    ∀ a ∈ seat, a.layout.ledger p cells = a.layout.ledger p s.store.cells := by
  intro a own
  obtain ⟨q, here, packing, layout, -⟩ := h.staffed.seated a own
  have apart : a.id ≠ id := fun same => by
    rw [← same, Staffed.isSeated_id own] at other
    cases other
  rw [← packing, ← layout]
  exact Layout.ledger_congr (allotted.read_of_alters found alters here apart)

theorem tell_other (h : s.Mirrors φ p seat t) (allotted : s.Allotted) (level : s.store.Level)
    (level' : t.store.Level) {x : Var} {e f : Event} {w : Watch} (watch : (f, w) ∈ s.watches x)
    (step : s.tell e w = .ok s') (other : isSeated seat w.propagator = false) : s'.Mirrors φ p seat t := by
  obtain ⟨prop, heard, queue, found, notify, same⟩ := tell_eq_ok step
  have becomes := allotted.becomes_of_notify watch found notify
  have waits := mem_queue_of_tell found notify step
  subst same
  refine ⟨h.store.step ⟨h.store.now.domains, fun a own => ?_, h.store.now.own⟩
    ⟨.refl _, becomes.alters.recovers⟩ (.refl _) level level', h.heeds, h.staffed.set_other found becomes.core other,
    h.awaits.other other fun j apart => (waits j).trans (or_iff_left fun here => apart here.1.symm)⟩
  exact (h.store.now.ledger a own).trans (h.ledger_other allotted found becomes.alters other a own).symm

theorem tell_own (h : s.Mirrors φ p seat t) (wf : p.WellFormed) {e : Event} {w : Watch}
    (step : s.tell e w = .ok s') (step' : t.tell e ⟨0, w.place⟩ = .ok t')
    (mine : isSeated seat w.propagator = true) : s'.Mirrors φ p seat t' ∧ t'.store = t.store := by
  obtain ⟨a, own, number⟩ := isSeated_iff.1 mine
  obtain ⟨q, here, packing, layout, there⟩ := h.staffed.seated a own
  obtain ⟨prop, heard, queue, found, notify, same⟩ := tell_eq_ok step
  obtain ⟨prop', heard', queue', found', notify', same'⟩ := tell_eq_ok step'
  have waits := mem_queue_of_tell found notify step
  have waits' := mem_queue_of_tell found' notify' step'
  rw [← number] at found notify same waits
  cases here.symm.trans found
  cases there.symm.trans found'
  obtain ⟨result, hears, rfl⟩ := Propagator.notify_packing notify
  obtain ⟨result', hears', rfl⟩ := Propagator.notify_packing notify'
  subst packing same same'
  have ledger : t.store.ledger (q.relabel φ a.ownLayout) = s.store.ledger q :=
    (h.store.now.ledger a own).trans (by rw [← layout]; rfl)
  -- both packings hear the same
  change (q.packing.relabel φ).notify (t.store.ledger (q.relabel φ a.ownLayout)) t.store.domains q.agenda
    w.place = .ok result' at hears'
  rw [ledger, Packing.notify_relabel wf h.store.now.domains, hears] at hears'
  cases hears'
  refine ⟨⟨h.store, h.heeds, h.staffed.set_own own here _ _, fun j => ?_⟩, rfl⟩
  refine (waits' j).trans ?_
  rw [h.awaits j]
  constructor
  · rintro (⟨b, own', rfl, waiting⟩ | ⟨rfl, woken⟩)
    · exact ⟨b, own', rfl, (waits b.id).2 (.inl waiting)⟩
    · exact ⟨a, own, rfl, (waits a.id).2 (.inr ⟨rfl, woken⟩)⟩
  · rintro ⟨b, own', rfl, waiting⟩
    cases Staffed.eq_of_mem own own'
    exact ((waits a.id).1 waiting).imp (fun before => ⟨a, own, rfl, before⟩) fun woken => ⟨rfl, woken.2⟩

/-- All notifications are made, to the packing in both states. -/
theorem tellAll (h : s.Mirrors φ p seat t) (wf : p.WellFormed) (allotted : s.Allotted)
    (level : s.store.Level) (level' : t.store.Level) {left : List (Event × Watch)}
    (registered : ∀ v ∈ left, ∃ x, v ∈ s.watches x)
    (step : left.foldlM (fun s (e, w) => s.tell e w) s = .ok s')
    (step' : (told seat left).foldlM (fun s (e, w) => s.tell e w) t = .ok t') :
    s'.Mirrors φ p seat t' := by
  induction left generalizing s t with
  | nil =>
    cases step
    cases step'
    exact h
  | cons v left ih =>
    obtain ⟨e, w⟩ := v
    simp only [List.foldlM_cons, bind, Except.bind] at step
    split at step
    · cases step
    · rename_i u first
      obtain ⟨x, watch⟩ := registered (e, w) List.mem_cons_self
      obtain ⟨allottedU, watchers⟩ := allotted.tell watch first
      have levelU := allotted.level_tell level watch first
      have registeredU (v : Event × Watch) (later : v ∈ left) : ∃ x, v ∈ u.watches x := by
        obtain ⟨y, member⟩ := registered v (List.mem_cons_of_mem _ later)
        exact ⟨y, by rwa [State.watches, watchers]⟩
      rw [told_cons] at step'
      cases mine : isSeated seat w.propagator with
      | false =>
        simp only [mine, Bool.false_eq_true, if_false] at step'
        exact ih (h.tell_other allotted level level' watch first mine) allottedU levelU level' registeredU
          step step'
      | true =>
        simp only [mine, if_true, List.foldlM_cons, bind, Except.bind] at step'
        split at step'
        · cases step'
        · rename_i u' first'
          obtain ⟨mirrors, same⟩ := h.tell_own wf first first' mine
          exact ih mirrors allottedU levelU (same ▸ level') registeredU step step'

/-- **The events that wait are announced in both states.** -/
theorem announce (h : s.Mirrors φ p seat t) (wf : p.WellFormed) (frame : s.Frame) (frame' : t.Frame)
    (step : s.announce = .ok s') (step' : t.announce = .ok t') : s'.Mirrors φ p seat t' := by
  simp only [State.announce, bind, Except.bind] at step step'
  split at step
  · cases step
  split at step'
  · cases step'
  rw [h.announcements] at step'
  exact tellAll (s := s.withDomains s.domains.clearPending) (t := t.withDomains t.domains.clearPending)
    ⟨h.store.clear, h.heeds, h.staffed, h.awaits⟩ wf (frame.allotted.withDomains _) frame.level frame'.level
    (fun v member => registered_of_mem_announcements (s := s) member) step step'

/-! ## Calls -/

/-- **Another propagator is called**, which leaves the state of the packing alone. -/
theorem call_other (h : s.Mirrors φ p seat t) (wf : p.WellFormed) (cons : s.Consistent)
    (cons' : t.Consistent) (quiet' : t.domains.pending = .empty) {id : Nat} {queue : Queue}
    (pop : s.queue.pop = some (id, queue)) (other : isSeated seat id = false)
    (step : State.callPropagator { s with queue := queue } id = .ok (none, s')) :
    s'.Mirrors φ p seat t := by
  obtain ⟨prop, called, found, call, outcome⟩ := callPropagator_eq_ok step
  obtain ⟨fine, -, announced⟩ | ⟨_, _, _, failed, _⟩ := outcome
  · have ready := cons.ready_of_found found
    have calls := Propagator.call_spec cons.healthy ready call
    have alters := Propagator.alters_call ready call
    refine announce (s := s.afterCalling id called queue) ⟨?_, h.heeds,
      h.staffed.set_other found calls.core other, h.awaits.other other fun j apart => ?_⟩ wf
      (cons.afterCalling found calls pop fine).toFrame cons'.toFrame announced (announce_of_quiet quiet')
    · exact h.store.step (h.store.now.alters alters (h.staffed.others id prop found other)
        (h.ledger_other cons.allotted found calls.alters other)) calls.recovers (.refl _) cons.level
        cons'.level
    · rw [Queue.toList_of_pop pop, List.mem_cons, or_iff_right apart]
      rfl
  · cases failed

/-- **The packing is called in both states**: no inconsistency is found in its own either. -/
theorem call_own (h : s.Mirrors φ p seat t) (wf : p.WellFormed) (inj : Set.InjOn φ {x | x ∈ p.vars})
    (cons : s.Consistent) (cons' : t.Consistent) {a : Seat} (own : a ∈ seat) {queue queue' : Queue}
    (pop : s.queue.pop = some (a.id, queue)) (pop' : t.queue.pop = some (0, queue'))
    (step : State.callPropagator { s with queue := queue } a.id = .ok (none, s'))
    {conflict : Option Conflict}
    (step' : State.callPropagator { t with queue := queue' } 0 = .ok (conflict, t')) :
    conflict = none ∧ s'.Mirrors φ p seat t' := by
  obtain ⟨q, here, packing, layout, there⟩ := h.staffed.seated a own
  obtain ⟨prop, called, found, call, outcome⟩ := callPropagator_eq_ok step
  obtain ⟨prop', called', found', call', outcome'⟩ := callPropagator_eq_ok step'
  cases here.symm.trans found
  cases there.symm.trans found'
  subst packing
  obtain ⟨fine, -, announced⟩ | ⟨_, _, _, failed, _⟩ := outcome
  swap
  · cases failed
  obtain ⟨regular, ready⟩ := cons.ready_of_found found q rfl
  obtain ⟨regular', ready'⟩ := cons'.ready_of_found found' _ rfl
  have calls := Propagator.call_spec cons.healthy (cons.ready_of_found found) call
  have calls' := Propagator.call_spec cons'.healthy (cons'.ready_of_found found') call'
  have ledger : t.store.ledger (q.relabel φ a.ownLayout) = s.store.ledger q :=
    (h.store.now.ledger a own).trans (by rw [← layout]; rfl)
  obtain ⟨desk, cause, rfl, ⟨-, done⟩ | ⟨_, rfl, -⟩⟩ := Packer.exists_desk_of_call call
  swap
  · cases fine
  -- the call does the same on both desks
  have agree := Packing.agree_call wf inj (s := q.desk s.store) (t := (q.relabel φ a.ownLayout).desk t.store)
    ⟨h.store.now.domains.follows, ledger, rfl, rfl⟩ ready.toValid ready'.toValid ready.confined
  rw [done] at agree
  obtain ⟨desk', cause', rfl, ⟨rfl, done'⟩ | ⟨_, -, done'⟩⟩ := Packer.exists_desk_of_call call'
  · change (q.packing.relabel φ).call _ = _ at done'
    rw [done'] at agree
    cases agree with | ok _ rel =>
    obtain ⟨fine', rfl, announced'⟩ | ⟨_, _, failed, _⟩ := outcome'
    swap
    · cases failed
    have consU := cons.afterCalling found calls pop fine
    have consU' := cons'.afterCalling found' calls' pop' fine'
    refine ⟨rfl, announce (s := s.afterCalling a.id _ queue) (t := t.afterCalling 0 _ queue')
      ⟨?_, h.heeds, ?_, h.awaits.pop own pop pop'⟩ wf consU.toFrame consU'.toFrame announced announced'⟩
    · refine h.store.step ⟨rel.domains.mirrors, fun b own' => ?_,
        rel.domains.there.pending_mem h.store.now.own⟩ calls.recovers calls'.recovers cons.level cons'.level
      cases Staffed.eq_of_mem own own'
      have here : desk.store.ledger q = desk.ledger := (regular.leaves (.inl done)).ledger
      have there : desk'.store.ledger (q.relabel φ a.ownLayout) = desk'.ledger :=
        (regular'.leaves (.inl done')).ledger
      rw [← layout]
      exact there.trans (rel.ledger.trans here.symm)
    · have staffed := h.staffed.set_own own here desk.agenda desk.counters
      nth_rewrite 2 [← rel.agenda, ← rel.counters] at staffed
      exact staffed
  · change (q.packing.relabel φ).call _ = _ at done'
    rw [done'] at agree
    cases agree

/-- **All propagators that wait are called.** -/
theorem callWaiting (h : s.Mirrors φ p seat t) (wf : p.WellFormed) (inj : Set.InjOn φ {x | x ∈ p.vars})
    (cons : s.Consistent) (cons' : t.Consistent) (quiet : s.domains.pending = .empty)
    (quiet' : t.domains.pending = .empty) {limit limit' : Nat} {conflict : Option Conflict}
    (step : s.callWaiting limit = .ok (none, s')) (step' : t.callWaiting limit' = .ok (conflict, t')) :
    conflict = none ∧ s'.Mirrors φ p seat t' := by
  obtain ⟨n, drains⟩ := Drains.of_callWaiting step
  clear step
  generalize none' : (none : Option Conflict) = ended at drains
  induction drains generalizing t limit' with
  | done pop =>
    -- nobody waits in the state of the packing either
    have rest : t.queue.toList = [] := by
      refine List.eq_nil_iff_forall_not_mem.2 fun id waits => ?_
      obtain ⟨a, -, -, waiting⟩ := (h.awaits id).1 waits
      rw [Queue.pop_eq_none_iff.1 pop] at waiting
      cases waiting
    cases limit' with
    | zero =>
      simp only [State.callWaiting, Queue.isEmpty_iff.2 rest, if_true] at step'
      cases step'
      exact ⟨rfl, h⟩
    | succ limit' =>
      simp only [State.callWaiting, Queue.pop_eq_none_iff.2 rest] at step'
      cases step'
      exact ⟨rfl, h⟩
  | broken => cases none'
  | @called s u e id n queue ended pop step rest ih =>
    obtain ⟨consU, quietU, -, -⟩ := (callPropagator_spec cons quiet pop step).2.1 rfl
    cases mine : isSeated seat id with
    | false =>
      exact ih (h.call_other wf cons cons' quiet' pop mine step) consU cons' quietU quiet' step' none'
    | true =>
      obtain ⟨a, own, rfl⟩ := isSeated_iff.1 mine
      obtain ⟨queue', pop'⟩ := h.awaits.pop_own own pop
      cases limit' with
      | zero =>
        have waits : t.queue.isEmpty ≠ true := fun empty => by
          rw [Queue.isEmpty_iff, Queue.toList_of_pop pop'] at empty
          cases empty
        simp only [State.callWaiting, waits] at step'
        cases step'
      | succ limit' =>
        simp only [State.callWaiting, pop', bind, Except.bind] at step'
        split at step'
        · cases step'
        rename_i result first'
        obtain ⟨conflict', u'⟩ := result
        obtain ⟨rfl, mirrors⟩ := h.call_own wf inj cons cons' own pop pop' step first'
        obtain ⟨consU', quietU', -, -⟩ := (callPropagator_spec cons' quiet' pop' first').2.1 rfl
        exact ih mirrors consU consU' quietU quietU' step' none'

/-- In the state of its own the packing is the only propagator. -/
theorem onlyPackings (h : s.Mirrors φ p seat t) : t.OnlyPackings := by
  intro id prop found
  obtain ⟨rfl, seated⟩ := h.staffed.sole id (Array.getElem?_eq_some_iff.1 found).1
  obtain ⟨a, own⟩ := Option.isSome_iff_exists.1 seated
  obtain ⟨q, -, -, -, there⟩ := h.staffed.seated a own
  exact ⟨_, Option.some.inj (found.symm.trans there)⟩

/-- **A propagation without an inconsistency is one in the state of the packing.** -/
theorem propagate (h : s.Mirrors φ p seat t) (wf : p.WellFormed) (inj : Set.InjOn φ {x | x ∈ p.vars})
    (cons : s.Consistent) (cons' : t.Consistent) (step : s.propagate = .ok (none, s')) :
    ∃ t', t.propagate = .ok (none, t') ∧ s'.Mirrors φ p seat t' := by
  obtain ⟨⟨conflict, t'⟩, step'⟩ := propagate_ok cons' h.onlyPackings.grounded
  obtain ⟨u, announced, calls⟩ := propagate_eq_ok step
  obtain ⟨u', announced', calls'⟩ := propagate_eq_ok step'
  obtain ⟨v, done, consU, -, domains, -⟩ := announce_spec cons
  obtain ⟨v', done', consU', -, domains', -⟩ := announce_spec cons'
  cases announced.symm.trans done
  cases announced'.symm.trans done'
  have both := h.announce wf cons.toFrame cons'.toFrame announced announced'
  obtain ⟨rfl, mirrors⟩ := both.callWaiting wf inj consU consU'
    (Domains.pending_of_cleared domains) (Domains.pending_of_cleared domains') calls calls'
  exact ⟨t', step', mirrors⟩

/-! ## Posts -/

/-- A post to a variable of the packing has the same outcome in both states. -/
theorem post_own (h : s.Mirrors φ p seat t) (inj : Set.InjOn φ {x | x ∈ p.vars}) (cons : s.Consistent)
    (cons' : t.Consistent) {q : Predicate} (inside : q.var ∈ p.vars) {posting : Posting}
    (step : s.post q = .ok (posting, s')) :
    ∃ t', t.post (q.relabel φ) = .ok (posting, t') ∧ s'.Mirrors φ p seat t' := by
  have evolves := evolves_post step
  obtain ⟨ds, post, rfl⟩ := post_eq_ok step
  have both : Parallel _ (s.domains.post q) (t.domains.post (q.relabel φ)) :=
    h.store.now.domains.post inj inside
  rw [post] at both
  generalize result : t.domains.post (q.relabel φ) = second at both
  cases both with
  | @ok _ second same =>
    obtain ⟨posting', es⟩ := second
    obtain ⟨rfl, mirrors⟩ : posting = posting' ∧ Domains.Mirrors φ p.vars ds es := same
    have step' := post_ok result
    refine ⟨_, step', h.store.step ⟨mirrors, h.store.now.ledger, ?_⟩ evolves.recovers
      (evolves_post step').recovers cons.level cons'.level, h.heeds, h.staffed, h.awaits⟩
    refine Domains.Alters.pending_mem ((Domains.alters_post result).mono ?_) h.store.now.own
    simpa [Predicate.relabel] using ⟨q.var, inside, rfl⟩

theorem post_other (h : s.Mirrors φ p seat t) (cons : s.Consistent) (cons' : t.Consistent) {q : Predicate}
    (outside : q.var ∉ p.vars) {posting : Posting} (step : s.post q = .ok (posting, s')) :
    s'.Mirrors φ p seat t := by
  have evolves := evolves_post step
  obtain ⟨ds, post, rfl⟩ := post_eq_ok step
  refine ⟨h.store.step (h.store.now.alters (Domains.alters_post post) (fun x inside here => ?_)
    fun _ _ => rfl) evolves.recovers (.refl _) cons.level cons'.level, h.heeds, h.staffed, h.awaits⟩
  rw [List.mem_singleton.1 here] at inside
  exact outside inside

/-! ## Checkpoints -/

/-- A settled state leaves nothing to do on its own. -/
theorem quiet (h : s.Mirrors φ p seat t) (quiet : s.Quiet) : t.Quiet where
  queue := by
    refine List.eq_nil_iff_forall_not_mem.2 fun id waits => ?_
    obtain ⟨a, -, -, waiting⟩ := (h.awaits id).1 waits
    rw [quiet.queue] at waiting
    cases waiting
  pending := by
    have own := Pending.among_eq_self (P := (· ∈ p.vars.map φ)) h.store.now.own
    have events := h.store.now.domains.pending
    have none : s.store.domains.pending = .empty := quiet.pending
    rw [own, none, Pending.among_empty, List.map_nil, Array.toList_eq_nil_iff] at events
    exact Pending.isEmpty_iff.1 (by rw [Pending.isEmpty, State.domains, events]; rfl)

/-- **A checkpoint is added to both states.** -/
theorem checkpointed (h : s.Mirrors φ p seat t) (cons : s.Consistent) (cons' : t.Consistent)
    (step : s.checkpointed = .ok s') : ∃ t', t.checkpointed = .ok t' ∧ s'.Mirrors φ p seat t' := by
  obtain ⟨quiet, rfl⟩ := checkpointed_eq_ok step
  have quiet' := h.quiet quiet
  have same : t.store.checkpoint = s.store.checkpoint := h.store.checkpoint
  refine ⟨_, checkpointed_of_quiet quiet', ⟨⟨⟨h.store.now.domains.same, h.store.now.domains.pending⟩,
    h.store.now.ledger, h.store.now.own⟩, fun k hk => ?_, ?_⟩, h.heeds, h.staffed, h.awaits⟩
  · have before : k ≤ s.store.checkpoint := Nat.le_of_lt_succ (hk.trans_eq s.store.checkpoint_mark)
    simp only
    rw [Store.view_mark cons.level before, Store.view_mark cons'.level (same ▸ before)]
    rcases Nat.eq_or_lt_of_le before with here | earlier
    · rw [here, Store.view_self cons.level quiet.pending, ← same,
        Store.view_self cons'.level quiet'.pending]
      exact h.store.now
    · exact h.store.past k earlier
  · simp only [Store.checkpoint_mark, same]

/-- **Both states go back to an earlier checkpoint.** -/
theorem restore (h : s.Mirrors φ p seat t) (frame : s.Frame) (frame' : t.Frame) {k : Nat}
    (step : s.restore k = .ok s') : ∃ t', t.restore k = .ok t' ∧ s'.Mirrors φ p seat t' := by
  have same : t.checkpoint = s.checkpoint := h.store.checkpoint
  rcases Nat.eq_or_lt_of_le (le_of_restore step) with rfl | earlier
  · cases (restore_self s).symm.trans step
    exact ⟨t, same ▸ restore_self t, h⟩
  have earlier' : k < t.checkpoint := same ▸ earlier
  rw [restore_eq frame earlier] at step
  cases step
  have below : (s.store.view k).checkpoint = k := Store.checkpoint_view (Nat.le_of_lt earlier)
  have below' : (t.store.view k).checkpoint = k := Store.checkpoint_view (Nat.le_of_lt earlier')
  refine ⟨_, restore_eq frame' earlier', ⟨h.store.past k earlier, fun j hj => ?_, below'.trans below.symm⟩,
    h.heeds, ⟨fun id prop found outside x inside => ?_, fun a own => ?_, fun id bound => ?_⟩,
    .empty (Queue.toList_clear _) (Queue.toList_clear _)⟩
  · have less : j < k := below ▸ hj
    simp only
    rw [Store.view_view _ (Nat.le_of_lt less), Store.view_view _ (Nat.le_of_lt less)]
    exact h.store.past j (less.trans earlier)
  · obtain ⟨old, before, new⟩ := found_of_discard found
    rw [← new, ← Propagator.scope_core, Propagator.core_discard, Propagator.scope_core]
    exact h.staffed.others id old before outside x inside
  · obtain ⟨q, here, packing, layout, there⟩ := h.staffed.seated a own
    refine ⟨{ q with agenda := q.agenda.discard }, ?_, packing, layout, ?_⟩
    · simp only [Array.getElem?_map, Array.getElem?_mapIdx, here]
      rfl
    · simp only [Array.getElem?_map, Array.getElem?_mapIdx, there]
      rfl
  · exact h.staffed.sole id (by simpa using bound)

end State.Mirrors

end Stowage
