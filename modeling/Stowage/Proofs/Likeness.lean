import Stowage.Session
import Stowage.Proofs.Calling
import Stowage.Proofs.Packing.Likeness

/-!
# States that look alike

Two states look alike when they differ in nothing but counters and in the marks of bins that are not
available.  Whatever is done to both, and whatever is asked of both, the answers are the same and the
states go on looking alike.  Nothing else is needed for that: it holds whether or not the states can be
reached, and also where an operation faults or an inconsistency has been left behind.

* `Propagator.Like`, `State.Like` — propagators and states that look alike.
* `State.Like.propagate`, `State.Like.restore` — what is done to both.
* `State.Like.perform` — every command gets the same answer.
-/

set_option autoImplicit false

namespace Stowage

/-- No bin of the packing becomes available. -/
def Packer.Retires (p : Packer) (s t : Store) : Prop :=
  ∀ b ∈ (t.ledger p).available, b ∈ (s.ledger p).available

theorem Packer.retires_of_eq {p : Packer} {s t : Store} (same : t.ledger p = s.ledger p) : p.Retires s t :=
  fun _ member => same ▸ member

namespace Propagator

/-- The propagators differ at most in counters and in the marks of bins that are not available. -/
inductive Like (s : Store) : Propagator → Propagator → Prop
  | packing (p : Packer) {agenda : Agenda} (counters : Counters)
      (like : p.agenda.Like (s.ledger p).available agenda) :
      Like s (.packing p) (.packing { p with agenda, counters })
  | precedence (p : Precedence) : Like s (.precedence p) (.precedence p)
  | probe (p : Probe) : Like s (.probe p) (.probe p)

variable {s t : Store} {prop prop' : Propagator}

theorem Like.mono (h : Like s prop prop') (retires : ∀ p, prop = .packing p → p.Retires s t) :
    Like t prop prop' := by
  cases h with
  | packing p counters like => exact .packing p counters (like.mono (retires p rfl))
  | precedence p => exact .precedence p
  | probe p => exact .probe p

theorem Like.priority (h : Like s prop prop') : prop.priority = prop'.priority := by
  cases h <;> rfl

theorem Like.name (h : Like s prop prop') : prop.name = prop'.name := by
  cases h <;> rfl

theorem Like.recompute (h : Like s prop prop') : prop.recompute = prop'.recompute := by
  cases h <;> rfl

/-! ## Notifications -/

/-- What is left after both have heard of an event looks alike. -/
structure Heard.Like (s : Store) (heard heard' : Heard) : Prop where
  propagator : Propagator.Like s heard.propagator heard'.propagator
  cells : heard.cells = heard'.cells
  notes : heard.notes = heard'.notes
  wake : heard.wake = heard'.wake

theorem Like.notify (h : Like s prop prop') (id place : Nat) (event : Event) :
    Parallel (Heard.Like s) (prop.notify id s place event) (prop'.notify id s place event) := by
  cases h with
  | packing p counters like =>
    refine .require_bind (.bind (p.packing.notify_like like _ _ _) fun a b plans => ?_)
    cases plans with
    | none => exact .ok ⟨.packing p counters like, rfl, rfl, rfl⟩
    | some after => exact .ok ⟨.packing { p with agenda := _ } counters after, rfl, rfl, rfl⟩
  | precedence p => exact .ok ⟨.precedence p, rfl, rfl, rfl⟩
  | probe p => exact .ok ⟨.probe p, rfl, rfl, rfl⟩

/-! ## Calls -/

/-- What is left after both have been called looks alike. -/
structure Called.Like (called called' : Called) : Prop where
  propagator : Propagator.Like called.store called.propagator called'.propagator
  store : called.store = called'.store
  notes : called.notes = called'.notes
  inconsistency : called.inconsistency = called'.inconsistency

/-- What is left after a packing was called, whose desk ended as `desk` in one case and looks like it
in the other. -/
theorem called_like {p : Packer} {agenda : Agenda} {counters : Counters} {desk desk' : Desk}
    (rel : desk.Like (s.ledger p).available desk') (leaves : p.Leaves s desk) (cause : Option Inconsistency) :
    Called.Like ⟨.packing (p.afterCall desk), desk.store, [], cause⟩
      ⟨.packing (Packer.afterCall { p with agenda, counters } desk'), desk'.store, [], cause⟩ := by
  refine ⟨?_, ?_, rfl, rfl⟩
  · refine .packing (p.afterCall desk) desk'.counters ?_
    rw [show desk.store.ledger (p.afterCall desk) = desk.ledger from congrArg Desk.ledger leaves.desk]
    exact rel.agenda
  · simp only [Desk.store, rel.domains, rel.cells]

/-- A call on the domains alone reads nothing in which the propagators can differ. -/
theorem afterCall_like (self : ∀ t, Propagator.Like t prop prop) (cells : Cells) (notes : List Note)
    (result : EStateM.Result Halt Domains Unit) :
    Parallel Called.Like (prop.afterCall { s with cells := cells } notes result)
      (prop.afterCall { s with cells := cells } notes result) := by
  cases result with
  | ok a ds => exact .ok ⟨self _, rfl, rfl, rfl⟩
  | error halt ds =>
    cases halt with
    | fault fault => exact .error fault
    | inconsistent cause => exact .ok ⟨self _, rfl, rfl, rfl⟩

theorem Like.call (h : Like s prop prop') (regular : ∀ p, prop = .packing p → p.Regular s.cells) (id : Nat) :
    Parallel Called.Like (prop.call id s) (prop'.call id s) := by
  cases h with
  | packing p counters like =>
    rename_i agenda
    have alike : Desk.Like (s.ledger p).available (p.desk s)
        (Packer.desk { p with agenda, counters } s) := ⟨rfl, rfl, rfl, rfl, like, fun _ member => member⟩
    have agree := p.packing.blind_call _ _ alike
    have leaves {desk : Desk} (made : p.packing.call (p.desk s) = .ok () desk ∨
        ∃ cause, p.packing.call (p.desk s) = .error (.inconsistent cause) desk) : p.Leaves s desk :=
      (regular p rfl).leaves made
    apply Parallel.require_bind
    unfold Propagator.afterPacking
    generalize p.packing.call (p.desk s) = first at agree leaves ⊢
    generalize p.packing.call (Packer.desk { p with agenda, counters } s) = second at agree ⊢
    cases agree with
    | ok a rel => exact .ok (called_like rel (leaves (.inl rfl)) none)
    | error halt rel =>
      cases halt with
      | fault fault => exact .error fault
      | inconsistent cause => exact .ok (called_like rel (leaves (.inr ⟨cause, rfl⟩)) (some cause))
  | precedence p => exact afterCall_like (fun _ => .precedence p) s.cells [] _
  | probe p => exact afterCall_like (fun _ => .probe p) _ _ _

/-! ## Discarding -/

theorem Like.discard (h : Like s prop prop') (id : Nat) (t : Store) :
    Like t (prop.discard id t).1 (prop'.discard id t).1 ∧
      (prop.discard id t).2 = (prop'.discard id t).2 := by
  cases h with
  | packing p counters like =>
    rename_i agenda
    have same : agenda.discard = p.agenda.discard := by
      unfold Agenda.discard
      rw [like.started]
    refine ⟨.packing { p with agenda := p.agenda.discard } counters ?_, rfl⟩
    rw [same]
    exact ⟨rfl, rfl, rfl, rfl, fun _ _ => .rfl, List.nodup_nil, List.nodup_nil⟩
  | precedence p => exact ⟨.precedence p, rfl⟩
  | probe p => exact ⟨.probe p, rfl⟩

end Propagator

namespace State

/-- The states differ at most in counters and in the marks of bins that are not available. -/
structure Like (s t : State) : Prop where
  allotted : s.Allotted
  store : s.store = t.store
  watchers : s.watchers = t.watchers
  size : s.propagators.size = t.propagators.size
  propagators : ∀ id : Nat, Option.Rel (Propagator.Like s.store) s.propagators[id]? t.propagators[id]?
  queue : s.queue = t.queue
  notes : s.notes = t.notes

/-- Both operations give the same answer and leave states that look alike. -/
def Answered {α : Type} (x y : α × State) : Prop := x.1 = y.1 ∧ Like x.2 y.2

namespace Like

variable {s t : State}

theorem domains (h : Like s t) : s.domains = t.domains := congrArg Store.domains h.store

theorem checkpoint (h : Like s t) : s.checkpoint = t.checkpoint :=
  congrArg Store.checkpoint h.store

/-- Both propagators of a number exist and look alike, or neither exists. -/
theorem fetch (h : Like s t) (id : Nat) :
    Parallel (Propagator.Like s.store) (Table.fetch s.propagators id)
      (Table.fetch t.propagators id) := by
  unfold Table.fetch
  have pair := h.propagators id
  generalize s.propagators[id]? = first at pair ⊢
  generalize t.propagators[id]? = second at pair ⊢
  cases pair with
  | none => exact .error _
  | some like => exact .ok like

/-- The propagators go on looking alike as long as no bin becomes available. -/
theorem carry (h : Like s t) {store : Store} {id : Nat} (retires : ∀ p, s.Runs id p → p.Retires s.store store) :
    Option.Rel (Propagator.Like store) s.propagators[id]? t.propagators[id]? := by
  have pair := h.propagators id
  unfold Runs at retires
  generalize s.propagators[id]? = first at pair retires ⊢
  generalize t.propagators[id]? = second at pair ⊢
  cases pair with
  | none => exact .none
  | some like => exact .some (like.mono fun p same => retires p (congrArg some same))

/-- Propagator `id` is replaced in both states. -/
theorem replace (h : Like s t) {store : Store} {prop prop' : Propagator} (id : Nat)
    (retires : ∀ j p, j ≠ id → s.Runs j p → p.Retires s.store store) (like : Propagator.Like store prop prop')
    (j : Nat) : Option.Rel (Propagator.Like store) (s.propagators.setIfInBounds id prop)[j]?
      (t.propagators.setIfInBounds id prop')[j]? := by
  rw [Array.getElem?_setIfInBounds, Array.getElem?_setIfInBounds, h.size]
  split
  · split
    · exact .some like
    · exact .none
  · exact h.carry fun p => retires j p (Ne.symm ‹_›)

theorem withDomains (h : Like s t) (ds : Domains) : Like (s.withDomains ds) (t.withDomains ds) := by
  refine ⟨h.allotted.withDomains ds, ?_, h.watchers, h.size, fun id => h.carry fun p _ => p.retires_of_eq rfl,
    h.queue, h.notes⟩
  simp only [State.withDomains, h.store]

/-! ## Narrowing -/

theorem post (h : Like s t) (q : Predicate) : Parallel Answered (s.post q) (t.post q) := by
  unfold State.post
  rw [h.domains]
  refine .bind (.refl (fun _ => rfl) (t.domains.post q)) fun result _ same => ?_
  subst same
  exact .ok ⟨rfl, h.withDomains result.2⟩

/-- Propagator `w.propagator` has heard of an event in both states. -/
theorem afterHearing (h : Like s t) {x : Var} {e f : Event} {w : Watch} {prop : Propagator}
    {heard heard' : Heard} (queue : Queue) (watch : (f, w) ∈ s.watches x)
    (found : s.propagators[w.propagator]? = some prop)
    (notified : prop.notify w.propagator s.store w.place e = .ok heard)
    (alike : Propagator.Heard.Like s.store heard heard') :
    Like (s.afterHearing w.propagator heard queue) (t.afterHearing w.propagator heard' queue) := by
  have becomes := h.allotted.becomes_of_notify watch found notified
  have same {j : Nat} {p : Packer} (runs : s.Runs j p) :=
    h.allotted.ledger_of_notify watch found notified runs
  refine ⟨h.allotted.becomes found becomes rfl rfl, ?_, h.watchers, ?_, ?_, rfl, ?_⟩
  · simp only [State.afterHearing, h.store, alike.cells]
  · simp only [State.afterHearing, Array.size_setIfInBounds, h.size]
  · refine h.replace w.propagator (fun j p _ runs => p.retires_of_eq (same runs))
      (alike.propagator.mono fun p new => p.retires_of_eq ?_)
    obtain ⟨q, rfl, -, packing, layout⟩ := Propagator.core_eq_packing (new ▸ becomes.core.symm)
    rw [← Store.ledger_congr packing layout, ← Store.ledger_congr packing layout]
    exact same found
  · simp only [State.afterHearing, h.notes, alike.notes]

theorem tell (h : Like s t) (event : Event) {w : Watch} {x : Var} {f : Event} (watch : (f, w) ∈ s.watches x) :
    Parallel Like (s.tell event w) (t.tell event w) := by
  unfold State.tell
  refine .bind_ok (h.fetch w.propagator) fun prop prop' fetched like => ?_
  have heard := like.notify w.propagator w.place event
  nth_rewrite 3 [h.store] at heard
  refine .bind_ok heard fun heard heard' notified alike => ?_
  have told := fun queue => h.afterHearing queue watch (Table.getElem?_of_fetch fetched) notified alike
  rw [alike.wake, alike.propagator.priority, h.queue]
  split
  · exact .bind (.refl (fun _ => rfl) _) fun queue _ same => same ▸ .ok (told queue)
  · exact .ok (told t.queue)

theorem tellAll (h : Like s t) {left : List (Event × Watch)} (registered : ∀ v ∈ left, ∃ x, v ∈ s.watches x) :
    Parallel Like (left.foldlM (fun s (e, w) => s.tell e w) s)
      (left.foldlM (fun s (e, w) => s.tell e w) t) := by
  induction left generalizing s t with
  | nil => exact .ok h
  | cons v left ih =>
    obtain ⟨x, watch⟩ := registered v List.mem_cons_self
    refine .bind_ok (h.tell v.1 watch) fun u _ told after => ih after fun v later => ?_
    obtain ⟨-, watchers⟩ := h.allotted.tell watch told
    obtain ⟨x, member⟩ := registered v (List.mem_cons_of_mem _ later)
    exact ⟨x, by rwa [State.watches, watchers]⟩

theorem announce (h : Like s t) : Parallel Like s.announce t.announce := by
  have told := (h.withDomains s.domains.clearPending).tellAll
    fun v (member : v ∈ s.announcements) => registered_of_mem_announcements (s := s) member
  have same : t.announcements = s.announcements := by
    unfold State.announcements
    rw [h.domains, h.watchers]
  unfold State.announce
  rw [same, ← h.domains, ← h.watchers]
  exact .require_bind told

theorem abandon (h : Like s t) : Like s.abandon t.abandon := by
  have cleared := h.withDomains t.domains.clearPending
  unfold State.abandon
  rw [h.domains]
  exact { cleared with
    allotted := cleared.allotted.of_eq rfl rfl rfl
    queue := congrArg Queue.clear h.queue }

theorem withTotals (h : Like s t) (totals totals' : Totals) :
    Like { s with totals := totals } { t with totals := totals' } :=
  ⟨h.allotted.of_eq rfl rfl rfl, h.store, h.watchers, h.size, h.propagators, h.queue, h.notes⟩

theorem afterCalling (h : Like s t) {id : Nat} {prop : Propagator} {called called' : Called} (queue : Queue)
    (found : s.propagators[id]? = some prop) (call : prop.call id s.store = .ok called)
    (alike : Propagator.Called.Like called called') :
    Like (s.afterCalling id called queue) (t.afterCalling id called' queue) := by
  have alters := (h.allotted.becomes_of_call found call).alters
  refine ⟨h.allotted.afterCalling found call, alike.store, h.watchers, ?_, ?_, rfl, ?_⟩
  · simp only [State.afterCalling, Array.size_setIfInBounds, h.size]
  · exact h.replace id (fun j p other runs => p.retires_of_eq
      (Packer.ledger_eq (h.allotted.read_of_alters found alters runs other))) alike.propagator
  · simp only [State.afterCalling, h.notes, alike.notes]

theorem callPropagator (h : Like s t) (id : Nat) (queue : Queue) :
    Parallel Answered (State.callPropagator { s with queue := queue } id)
      (State.callPropagator { t with queue := queue } id) := by
  unfold State.callPropagator
  refine .bind_ok (h.fetch id) fun prop prop' fetched like => ?_
  have found := Table.getElem?_of_fetch fetched
  have called := like.call (fun p same => h.allotted.regular id p (found.trans (congrArg some same))) id
  nth_rewrite 2 [h.store] at called
  refine .bind_ok called fun called called' call alike => ?_
  have after := h.afterCalling queue found call alike
  simp only
  rw [← alike.inconsistency]
  cases called.inconsistency with
  | none => exact .bind after.announce fun _ _ told => .ok ⟨rfl, told⟩
  | some cause => exact .ok ⟨rfl, (after.withTotals _ _).abandon⟩

theorem callWaiting (h : Like s t) (limit : Nat) :
    Parallel Answered (s.callWaiting limit) (t.callWaiting limit) := by
  induction limit generalizing s t with
  | zero =>
    unfold State.callWaiting
    rw [h.queue]
    split
    · exact .ok ⟨rfl, h⟩
    · exact .error _
  | succ limit ih =>
    unfold State.callWaiting
    rw [h.queue]
    cases t.queue.pop with
    | none => exact .ok ⟨rfl, h⟩
    | some next =>
      refine .bind (h.callPropagator next.1 next.2) fun result result' told => ?_
      obtain ⟨conflict, after⟩ := result
      obtain ⟨conflict', after'⟩ := result'
      obtain ⟨same, like⟩ := told
      simp only at same like
      subst same
      cases conflict with
      | none => exact ih like
      | some c => exact .ok ⟨rfl, like⟩

theorem propagate (h : Like s t) : Parallel Answered s.propagate t.propagate := by
  unfold State.propagate
  refine .bind h.announce fun after after' like => ?_
  have limits : after.callLimit = after'.callLimit := by
    unfold State.callLimit
    rw [like.queue, like.size, like.domains]
  rw [limits]
  exact like.callWaiting _

/-! ## Checkpoints -/

theorem checkpointed (h : Like s t) : Parallel Like s.checkpointed t.checkpointed := by
  unfold State.checkpointed
  rw [h.queue, h.domains]
  refine .require_bind (.ok ⟨h.allotted.mark.of_eq rfl rfl rfl, ?_, h.watchers, h.size, fun id => ?_, rfl,
    h.notes⟩)
  · simp only [h.store]
  · exact h.carry fun p _ => p.retires_of_eq rfl

/-- What the propagators discard, each on its own. -/
theorem discard (h : Like s t) (store : Store) (id : Nat) :
    Option.Rel (fun x y => Propagator.Like store x.1 y.1 ∧ x.2 = y.2)
      (s.propagators.mapIdx fun id prop => prop.discard id store)[id]?
      (t.propagators.mapIdx fun id prop => prop.discard id store)[id]? := by
  rw [Array.getElem?_mapIdx, Array.getElem?_mapIdx]
  exact rel_map (h.propagators id) fun _ _ like => like.discard id store

theorem notes_discard (h : Like s t) (store : Store) :
    (s.propagators.mapIdx fun id prop => prop.discard id store).toList.flatMap (·.2) =
      (t.propagators.mapIdx fun id prop => prop.discard id store).toList.flatMap (·.2) := by
  suffices (s.propagators.mapIdx fun id prop => prop.discard id store).map (·.2) =
      (t.propagators.mapIdx fun id prop => prop.discard id store).map (·.2) by
    have lists := congrArg (fun notes => notes.toList.flatten) this
    simpa only [Array.toList_map, List.flatMap_def] using lists
  refine Array.ext_getElem? fun id => ?_
  rw [Array.getElem?_map, Array.getElem?_map]
  exact map_eq_of_rel (h.discard store id) fun _ _ like => like.2

theorem restore (h : Like s t) (k : Nat) : Parallel Like (s.restore k) (t.restore k) := by
  unfold State.restore
  rw [← h.checkpoint, ← h.store]
  apply Parallel.require_bind
  split
  · exact .ok h
  refine .bind_ok (.refl (fun _ => rfl) (s.store.revert k)) fun store _ reverted same => .ok ?_
  subst same
  refine ⟨h.allotted.revert reverted _, rfl, h.watchers, ?_, fun id => ?_, congrArg Queue.clear h.queue, ?_⟩
  · simp only [discardPlans, State.abandon, State.withDomains, Array.size_map, Array.size_mapIdx, h.size]
  · simp only [discardPlans, State.abandon, State.withDomains, Array.getElem?_map]
    exact rel_map (h.discard _ id) fun _ _ like => like.1
  · exact congrArg₂ (· ++ ·) h.notes (congrArg List.toArray (h.notes_discard _))

/-! ## Questions -/

theorem recompute (h : Like s t) (id : Nat) : s.recompute id = t.recompute id := by
  unfold State.recompute
  rw [h.domains]
  have fetched := h.fetch id
  generalize Table.fetch s.propagators id = first at fetched ⊢
  generalize Table.fetch t.propagators id = second at fetched ⊢
  cases fetched with
  | error fault => rfl
  | ok like =>
    simp only [bind, Except.bind, like.recompute]

theorem isStable (h : Like s t) : s.isStable = t.isStable := by
  suffices ∀ ids, s.areStable ids = t.areStable ids by
    unfold State.isStable
    rw [h.size, this]
  intro ids
  induction ids with
  | nil => rfl
  | cons id ids ih =>
    unfold State.areStable
    rw [h.recompute, h.domains, ih]

theorem renderNames (h : Like s t) : s.renderNames = t.renderNames := by
  have names : s.propagators.map Propagator.name = t.propagators.map Propagator.name := by
    refine Array.ext_getElem? fun id => ?_
    rw [Array.getElem?_map, Array.getElem?_map]
    exact map_eq_of_rel (h.propagators id) fun _ _ like => like.name
  have lists := congrArg (fun names => names.toList.map fun name => "\"" ++ name ++ "\"") names
  simp only [Array.toList_map, List.map_map, Function.comp_def] at lists
  unfold State.renderNames Table.renderWith
  rw [lists]

theorem binReports (h : Like s t) (id handle : Nat) :
    s.binReports id handle = t.binReports id handle := by
  unfold State.binReports
  rw [← h.store]
  have pair := h.propagators id
  generalize s.propagators[id]? = first at pair ⊢
  generalize t.propagators[id]? = second at pair ⊢
  cases pair with
  | none => rfl
  | some like => cases like <;> rfl

end Like

end State

/-- Commands that neither add anything to a state nor read its counters. -/
def Command.IsPlain : Command → Prop
  | .post _ | .propagate | .checkpoint | .restore _ => True
  | .query .. | .evaluate _ | .kindOf _ | .names | .check | .recompute _ => True
  | _ => False

namespace State

variable {s t : State}

theorem Like.answer (h : Like s t) {α : Type} {x y : Except Fault α} (same : x = y)
    (wrap : α → Answer) :
    Parallel Answered (do return (wrap (← x), s)) (do return (wrap (← y), t)) := by
  subst same
  exact .bind (.refl (fun _ => rfl) x) fun a _ same => same ▸ .ok ⟨rfl, h⟩

/-- **States that look alike answer every command in the same way, and go on looking alike.** -/
theorem Like.perform (h : Like s t) (options : Option LogOptions) {c : Command}
    (plain : c.IsPlain) :
    Parallel Answered (s.perform options c) (t.perform options c) := by
  cases c with
  | post q => exact .bind (h.post q) fun _ _ told => .ok ⟨congrArg Answer.posted told.1, told.2⟩
  | propagate =>
    exact .bind h.propagate fun _ _ told => .ok ⟨congrArg Answer.propagated told.1, told.2⟩
  | checkpoint => exact .bind h.checkpointed fun _ _ told => .ok ⟨rfl, told⟩
  | restore k => exact .bind (h.restore k) fun _ _ told => .ok ⟨rfl, told⟩
  | query x values =>
    refine h.answer ?_ .variable
    unfold State.query
    rw [h.domains]
  | evaluate q =>
    refine h.answer ?_ .predicate
    unfold State.evaluate
    rw [h.domains]
  | kindOf id =>
    exact .bind (h.fetch id) fun _ _ like => .ok ⟨congrArg Answer.kind like.name, h⟩
  | names => exact .ok ⟨congrArg Answer.names h.renderNames, h⟩
  | check => exact h.answer h.isStable .checked
  | recompute id =>
    refine h.answer ?_ fun answer => answer
    unfold State.recomputed
    rw [h.recompute, h.domains]
  | create | addBinPacking | addVectorBinPacking | install | statistics | search => exact plain.elim

end State

end Stowage
