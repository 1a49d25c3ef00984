import Stowage.Proofs.Attention
import Stowage.Proofs.Returning

/-!
# All propagators have settled

Where all propagators are added before the first checkpoint, they miss nothing: at every fixed point, and
at every earlier checkpoint, all of them have settled.  A precedence added later would be left behind
when the state goes back further than that.  Packings cannot be added later, so they never miss anything.

* `State.Attentive`, `State.Remembers` — what holds of the propagators asked about between two calls, and
  at the earlier checkpoints.
* `State.Attentive.propagate` — a propagation keeps it.
* `State.Attended` — both together, with a lemma for every step.
* `State.Rooted`, `State.Rooted.attended` — the states that can be reached with all propagators added
  before the first checkpoint; it holds of all of them.
* `State.Reached.attended` — wherever propagators are added, it holds of the packings.
* `State.Rooted.settles`, `State.Reached.closed`, `State.Reached.extended` — so at a fixed point the
  propagators have settled, and the domains are closed.
-/

set_option autoImplicit false

namespace Stowage

/-- Of which changes of bounds propagators have still to hear: the propagator, the variable, and the
place under which it knows the variable. -/
abbrev News := Nat → Var → Nat → Prop

/-- The events that wait concern everybody. -/
def Domains.news (ds : Domains) : News := fun _ x _ => ∃ e ∈ Event.bounds, ds.pending.Has e x

namespace Domains

variable {ds after : Domains}

theorem not_news (quiet : ds.pending = .empty) (id : Nat) (x : Var) (place : Nat) :
    ¬ds.news id x place := by
  rintro ⟨e, -, waits⟩
  rw [quiet] at waits
  exact Pending.not_has_empty e x waits

theorem Narrows.news (narrows : Narrows ds after) {x : Var}
    (moved : after.lower x ≠ ds.lower x ∨ after.upper x ≠ ds.upper x) (id place : Nat) :
    after.news id x place := by
  rcases moved with lower | upper
  · exact ⟨.lowerBound, by simp [Event.bounds], (narrows.lower x).resolve_left lower⟩
  · exact ⟨.upperBound, by simp [Event.bounds], (narrows.upper x).resolve_left upper⟩

end Domains

namespace State

variable {s t : State} {asked : Propagator → Prop} {news : News} {id : Nat} {prop : Propagator}

/-- Of which changes propagators have still to hear in an announcement. -/
def newsLeft (left : List (Event × Watch)) : News := fun id _ place => ∃ e, (e, ⟨id, place⟩) ∈ left

/-- The propagators asked about attend. -/
def Attentive (s : State) (asked : Propagator → Prop) (news : News) : Prop :=
  ∀ (id : Nat) (prop : Propagator), s.propagators[id]? = some prop → asked prop.core →
    prop.Attends s.store (id ∈ s.queue.toList) (news id)

/-- At every earlier checkpoint the propagators asked about had settled. -/
def Remembers (s : State) (asked : Propagator → Prop) : Prop :=
  ∀ k < s.checkpoint, ∀ (id : Nat) (prop : Propagator), s.propagators[id]? = some prop →
    asked prop.core → prop.Settles (s.store.view k)

/-! ## What the invariant says about a propagator -/

/-- A propagator watches the bounds of the variables it knows. -/
theorem Frame.knows (frame : s.Frame) (found : s.propagators[id]? = some prop) {x : Var} {place : Nat}
    (knows : prop.Knows x place) :
    x < s.domains.count ∧ ∀ e ∈ Event.bounds, (e, ⟨id, place⟩) ∈ s.watches x := by
  cases prop with
  | packing p =>
    obtain ⟨d, hd, b, hb, rfl, rfl⟩ := knows
    have installed := frame.installed id p found
    exact ⟨installed.known.loads d hd b hb, installed.loads d hd b hb⟩
  | precedence p => exact frame.listens id p found x place knows
  | probe p => cases knows

theorem Consistent.sound (cons : s.Consistent) (found : s.propagators[id]? = some prop) :
    prop.Sound s.store := by
  rintro p rfl
  exact ⟨cons.allotted.regular id p found, (cons.ready id p found).toValid⟩

theorem Announcing.sound {left : List (Event × Watch)} (h : s.Announcing left)
    (found : s.propagators[id]? = some prop) : prop.Sound s.store := by
  rintro p rfl
  exact ⟨h.allotted.regular id p found, (h.hearing id p found).toValid⟩

/-- What was on the desk of a packing at an earlier checkpoint. -/
theorem Frame.past (frame : s.Frame) {k : Nat} (hk : k < s.checkpoint)
    (found : s.propagators[id]? = some prop) : ∀ p, prop = .packing p →
      0 < p.packing.numDims ∧ (p.rested (s.store.view k)).Valid p.packing := by
  rintro p rfl
  exact ⟨(frame.installed id p found).wf.dims, ((frame.history k hk).2 id p found).toValid⟩

/-- **At a fixed point all propagators have settled.** -/
theorem Attentive.settles (att : s.Attentive asked s.domains.news) (cons : s.Consistent)
    (quiet : s.Quiet) (found : s.propagators[id]? = some prop) (among : asked prop.core) :
    prop.Settles s.store := by
  refine (att id prop found among).settles ?_ (Domains.not_news quiet.pending id) quiet.pending ?_
  · rw [quiet.queue]
    exact List.not_mem_nil
  · rintro p rfl
    exact cons.revised quiet found

/-! ## New variables and propagators, and posts -/

theorem Attentive.create (att : s.Attentive asked s.domains.news) (cons : s.Consistent)
    {lower upper : Int} {x : Var} (h : s.create lower upper = .ok (x, t)) :
    t.Attentive asked t.domains.news := by
  obtain ⟨-, -, rfl⟩ := create_eq_ok h
  intro id prop found among
  refine (att id prop found among).keep (cons.sound found) (fun _ _ => rfl) (fun x place knows => ?_)
    (fun waits => waits) fun _ _ _ news => news
  exact Domains.domain_withNew_of_lt (cons.knows found knows).1

theorem Attentive.install (att : s.Attentive asked s.domains.news) (cons : s.Consistent)
    (h : Installs s t prop) : t.Attentive asked t.domains.news := by
  intro id new found among
  rcases h.found found with old | ⟨rfl, rfl⟩
  · apply (att id new old among).keep (cons.sound old)
    · rintro p rfl
      exact h.ledger_eq (cons.allotted.regular id p old).keeps
    · intro x _ _
      exact congrArg (fun ds : Domains => ds.domain x) h.domains
    · exact fun waits => (h.queue.mem id).2 (.inl waits)
    · rw [h.domains]
      exact fun _ _ _ news => news
  · apply Propagator.Attends.begin ((h.queue.mem _).2 (.inr rfl))
    rintro p rfl dynamic
    obtain ⟨-, installed, -, desk⟩ := h.packing p rfl
    rw [desk]
    exact Ledger.fresh_ofDomains installed.wf dynamic _ _ _ _ _

/-- **Narrowing the domains leaves an event for every bound that moves.** -/
theorem Attentive.narrow (att : s.Attentive asked s.domains.news) (cons : s.Consistent)
    {ds : Domains} (narrows : Domains.Narrows s.domains ds) :
    (s.withDomains ds).Attentive asked ds.news := by
  intro id prop found among
  refine (att id prop found among).carry (cons.sound found) (fun _ _ => rfl)
    (fun x _ _ => ⟨narrows.le_lower x, narrows.upper_le x⟩) (fun waits => waits) ?_
    fun x place _ moved => narrows.news moved id place
  rintro x place - ⟨e, bound, waits⟩
  exact ⟨e, bound, narrows.pending _ _ waits⟩

theorem Attentive.post (att : s.Attentive asked s.domains.news) (cons : s.Consistent) {q : Predicate}
    {posting : Posting} (h : s.post q = .ok (posting, t)) (left : posting ≠ .emptied) :
    t.Attentive asked t.domains.news := by
  obtain ⟨ds, post, rfl⟩ := post_eq_ok h
  exact att.narrow cons (Domains.narrows_of_post cons.healthy post left)

/-! ## Announcements -/

theorem Attentive.announcing (att : s.Attentive asked s.domains.news) (cons : s.Consistent) :
    (s.withDomains s.domains.clearPending).Attentive asked (newsLeft s.announcements) := by
  intro id prop found among
  refine (att id prop found among).keep (cons.sound found) (fun _ _ => rfl) (fun _ _ _ => rfl)
    (fun waits => waits) ?_
  rintro x place knows ⟨e, bound, waits⟩
  exact ⟨e, mem_announcements waits ((cons.knows found knows).2 e bound)⟩

/-- **One notification is made.** -/
theorem Attentive.tell {e : Event} {w : Watch} {left : List (Event × Watch)}
    (att : s.Attentive asked (newsLeft ((e, w) :: left))) (ready : s.Announcing ((e, w) :: left))
    (step : s.tell e w = .ok t) : t.Attentive asked (newsLeft left) := by
  obtain ⟨prop, heard, queue, found, hears, tell, quiet, wakes⟩ := ready.tells
  cases step.symm.trans tell
  have kept : ∀ id ∈ s.queue.toList, id ∈ queue.toList := by
    intro id member
    cases woken : heard.wake with
    | false => exact quiet woken ▸ member
    | true => exact ((wakes woken).mem id).2 (.inl member)
  intro id new foundNew among
  rcases found_set foundNew with ⟨other, old⟩ | ⟨rfl, rfl⟩
  · refine (att id new old among).keep (ready.sound old) ?_ (fun _ _ _ => rfl) (kept id) ?_
    · rintro p rfl
      exact ready.allotted.ledger_eq found hears.alters (fun q same => (hears.packing q same).1) old
    rintro x place - ⟨f, member⟩
    refine ⟨f, (List.mem_cons.1 member).resolve_left fun same => other ?_⟩
    exact congrArg (fun v : Event × Watch => v.2.propagator) same
  · apply (att w.propagator prop found (hears.core ▸ among)).hear (ready.sound found) hears (kept _)
    · exact fun woken => ((wakes woken).mem _).2 (.inr rfl)
    · rintro x place - ⟨f, member⟩
      rcases List.mem_cons.1 member with same | later
      · exact .inl (congrArg (fun v : Event × Watch => v.2.place) same).symm
      · exact .inr ⟨f, later⟩

theorem Attentive.tellAll {left : List (Event × Watch)} (att : s.Attentive asked (newsLeft left))
    (ready : s.Announcing left) (steps : left.foldlM (fun s (e, w) => s.tell e w) s = .ok t) :
    t.Attentive asked (newsLeft []) := by
  induction left generalizing s with
  | nil =>
    cases steps
    exact att
  | cons v left ih =>
    obtain ⟨u, first, readyU, -⟩ := ready.tell
    simp only [List.foldlM_cons, first, bind, Except.bind] at steps
    exact ih (att.tell ready first) readyU steps

/-- **All events are announced.** -/
theorem Attentive.announce (att : s.Attentive asked s.domains.news) (cons : s.Consistent)
    (step : s.announce = .ok t) : t.Attentive asked t.domains.news := by
  have all := step
  rw [announce_eq cons.watchers cons.events] at all
  have done := (att.announcing cons).tellAll cons.announcing all
  obtain ⟨u, result, consT, -⟩ := announce_spec cons
  cases step.symm.trans result
  intro id prop found among
  refine (done id prop found among).keep (consT.sound found) (fun _ _ => rfl) (fun _ _ _ => rfl)
    (fun waits => waits) ?_
  rintro x place - ⟨e, member⟩
  cases member

/-! ## Calls -/

/-- **A propagator is called**, and finds no inconsistency. -/
theorem Attentive.afterCalling (att : s.Attentive asked s.domains.news) (cons : s.Consistent)
    (quiet : s.domains.pending = .empty) {queue : Queue} {called : Called}
    (found : s.propagators[id]? = some prop) (call : prop.call id s.store = .ok called)
    (pop : s.queue.pop = some (id, queue)) (fine : called.inconsistency = none) :
    (s.afterCalling id called queue).Attentive asked called.store.domains.news := by
  have calls := Propagator.call_spec cons.healthy (cons.ready_of_found found) call
  have narrows : Domains.Narrows s.domains called.store.domains := calls.narrows fine
  intro j new foundNew among
  rcases found_set foundNew with ⟨other, old⟩ | ⟨rfl, rfl⟩
  · apply (att j new old among).carry (cons.sound old)
    · rintro q rfl
      exact cons.toFrame.ledger_of_calls found calls old other
    · exact fun x _ _ => ⟨narrows.le_lower x, narrows.upper_le x⟩
    · intro waits
      rw [Queue.toList_of_pop pop] at waits
      exact (List.mem_cons.1 waits).resolve_left other
    · exact fun x place _ news => absurd news (Domains.not_news quiet j x place)
    · exact fun x place _ moved => narrows.news moved j place
  · apply (att j prop found (calls.core ▸ among)).called (cons.sound found) cons.healthy
      (fun x place knows => (cons.knows found knows).1) (Domains.not_news quiet j) call fine
    exact fun x place moved => narrows.news moved j place

theorem Attentive.callPropagator (att : s.Attentive asked s.domains.news) (cons : s.Consistent)
    (quiet : s.domains.pending = .empty) {queue : Queue} (pop : s.queue.pop = some (id, queue))
    (h : State.callPropagator { s with queue := queue } id = .ok (none, t)) :
    t.Attentive asked t.domains.news := by
  obtain ⟨prop, called, found, call, outcome⟩ := callPropagator_eq_ok h
  have calls := Propagator.call_spec cons.healthy (cons.ready_of_found found) call
  rcases outcome with ⟨fine, -, announced⟩ | ⟨_, _, -, conflict, -⟩
  · have after := att.afterCalling cons quiet found call pop fine
    exact after.announce (cons.afterCalling found calls pop fine) announced
  · cases conflict

theorem Attentive.callWaiting {limit : Nat} (att : s.Attentive asked s.domains.news) (cons : s.Consistent)
    (quiet : s.domains.pending = .empty) (h : s.callWaiting limit = .ok (none, t)) :
    t.Attentive asked t.domains.news := by
  induction limit generalizing s with
  | zero =>
    simp only [State.callWaiting, pure, Except.pure] at h
    split at h
    · cases h
      exact att
    · cases h
  | succ limit ih =>
    simp only [State.callWaiting, bind, Except.bind, pure, Except.pure] at h
    split at h
    · cases h
      exact att
    · rename_i id queue pop
      split at h
      · cases h
      · rename_i result call
        obtain ⟨conflict, u⟩ := result
        cases conflict with
        | none =>
          obtain ⟨consU, quietU, -⟩ := (callPropagator_spec cons quiet pop call).2.1 rfl
          exact ih (att.callPropagator cons quiet pop call) consU quietU h
        | some c => cases h

/-- **A propagation that finds no inconsistency.** -/
theorem Attentive.propagate (att : s.Attentive asked s.domains.news) (cons : s.Consistent)
    (h : s.propagate = .ok (none, t)) : t.Attentive asked t.domains.news := by
  obtain ⟨u, announced, calls⟩ := propagate_eq_ok h
  obtain ⟨v, done, consU, -, domains, -⟩ := announce_spec cons
  cases announced.symm.trans done
  have quietU := Domains.pending_of_cleared domains
  exact (att.announce cons announced).callWaiting consU quietU calls

/-! ## Checkpoints -/

theorem Attentive.checkpointed (att : s.Attentive asked s.domains.news) (cons : s.Consistent)
    (step : s.checkpointed = .ok t) : t.Attentive asked t.domains.news := by
  obtain ⟨-, rfl⟩ := checkpointed_eq_ok step
  intro id prop found among
  exact (att id prop found among).keep (cons.sound found) (fun _ _ => rfl) (fun _ _ _ => rfl)
    (fun waits => waits) fun _ _ _ news => news

/-- Posts and propagations leave the past alone. -/
theorem Remembers.evolve (past : s.Remembers asked) (frame : s.Frame) (h : Evolves s t) :
    t.Remembers asked := by
  intro k hk id new found among
  rw [h.checkpoint] at hk
  obtain ⟨prop, before, core⟩ := found_of_cores h.cores found
  rw [h.recovers.view_eq frame.level hk]
  exact (past k hk id prop before (core ▸ among)).congr core (frame.past hk before) (fun _ _ => rfl)
    fun _ _ _ => rfl

theorem Remembers.create (past : s.Remembers asked) (frame : s.Frame) {lower upper : Int} {x : Var}
    (h : s.create lower upper = .ok (x, t)) : t.Remembers asked := by
  obtain ⟨-, -, rfl⟩ := create_eq_ok h
  intro k hk id prop found among
  refine (past k hk id prop found among).congr rfl (frame.past hk found) (fun _ _ => rfl)
    fun x place knows => ?_
  have exist : x < (s.store.view k).domains.count := by
    show x < (s.domains.table.restore k).size
    rw [Trailed.size_restore]
    exact (frame.knows found knows).1
  rw [domains_view_withNew frame.lawful]
  exact Domains.domain_withNew_of_lt exist

/-- A propagator asked about has to be installed before the first checkpoint. -/
theorem Remembers.install (past : s.Remembers asked) (frame : s.Frame) (h : Enlarges s t prop)
    (root : asked prop.core → s.checkpoint = 0) : t.Remembers asked := by
  intro k hk id new found among
  have earlier : k < s.checkpoint := hk.trans_eq (congrArg Domains.checkpoint h.domains)
  rcases h.found found with old | ⟨rfl, rfl⟩
  · refine (past k earlier id new old among).congr rfl (frame.past earlier old) ?_ fun x place _ => ?_
    · rintro p rfl
      exact h.ledger_view frame (frame.allotted.regular id p old).keeps earlier
    · exact congrArg (fun ds : Domains => ds.domain x) (h.domains_view k)
  · exact absurd (earlier.trans_eq (root among)) (Nat.not_lt_zero k)

/-- **A checkpoint is added to a fixed point.** -/
theorem Remembers.checkpointed (past : s.Remembers asked) (att : s.Attentive asked s.domains.news)
    (cons : s.Consistent) (step : s.checkpointed = .ok t) : t.Remembers asked := by
  obtain ⟨quiet, rfl⟩ := checkpointed_eq_ok step
  intro k hk id prop found among
  have before : k ≤ s.store.checkpoint :=
    Nat.le_of_lt_succ (hk.trans_eq s.store.checkpoint_mark)
  simp only
  rw [Store.view_mark cons.level before]
  rcases Nat.eq_or_lt_of_le before with same | less
  · rw [same, Store.view_self cons.level quiet.pending]
    exact att.settles cons quiet found among
  · exact past k less id prop found among

/-- **Going back leads to a state in which all propagators have settled.** -/
theorem Remembers.restore {k : Nat} (past : s.Remembers asked) (frame : s.Frame)
    (earlier : k < s.checkpoint) (step : s.restore k = .ok t) :
    t.Remembers asked ∧ t.Attentive asked t.domains.news := by
  rw [restore_eq frame earlier] at step
  cases step
  have below : (s.store.view k).checkpoint = k := Store.checkpoint_view (Nat.le_of_lt earlier)
  constructor
  · intro j hj id new found among
    have less : j < k := below ▸ hj
    obtain ⟨prop, before, rfl⟩ := found_of_discard found
    rw [Propagator.core_discard] at among
    simp only
    rw [Store.view_view _ (Nat.le_of_lt less)]
    exact (past j (less.trans earlier) id prop before among).congr (prop.core_discard id _).symm
      (frame.past (less.trans earlier) before) (fun _ _ => rfl) fun _ _ _ => rfl
  · intro id new found among
    obtain ⟨prop, before, rfl⟩ := found_of_discard found
    rw [Propagator.core_discard] at among
    have valid := frame.past earlier before
    have settles := (past k earlier id prop before among).congr
      (prop.core_discard id (s.store.view k)).symm valid (fun _ _ => rfl) fun _ _ _ => rfl
    apply settles.attends
    intro q same
    obtain ⟨p, rfl, -, packing, layout⟩ := Propagator.core_eq_packing
      ((prop.core_discard id (s.store.view k)).symm.trans (congrArg Propagator.core same))
    rw [← packing, ← rested_congr packing layout]
    exact (valid p rfl).2

/-! ## What the propagators asked about miss -/

/-- The propagators asked about miss nothing: they attend, unless an inconsistency is left, and had
settled at every earlier checkpoint. -/
structure Attended (s : State) (asked : Propagator → Prop) (broken : Bool) : Prop where
  past : s.Remembers asked
  now : broken = false → s.Attentive asked s.domains.news

theorem attended_empty : State.empty.Attended asked false :=
  ⟨fun _ _ id prop found => by simp [State.empty] at found,
    fun _ id prop found => by simp [State.empty] at found⟩

section

variable (h : s.Attended asked false) (cons : s.Consistent)

include h cons

theorem Attended.create {lower upper : Int} {x : Var} (step : s.create lower upper = .ok (x, t)) :
    t.Attended asked false :=
  ⟨h.past.create cons.toFrame step, fun _ => (h.now rfl).create cons step⟩

theorem Attended.install (installs : Installs s t prop) (root : asked prop.core → s.checkpoint = 0) :
    t.Attended asked false :=
  ⟨h.past.install cons.toFrame installs.toEnlarges root, fun _ => (h.now rfl).install cons installs⟩

theorem Attended.post {q : Predicate} {posting : Posting} (step : s.post q = .ok (posting, t)) :
    t.Attended asked (decide (posting = .emptied)) :=
  ⟨h.past.evolve cons.toFrame (evolves_post step),
    fun fine => (h.now rfl).post cons step (of_decide_eq_false fine)⟩

theorem Attended.propagate {conflict : Option Conflict} (step : s.propagate = .ok (conflict, t)) :
    t.Attended asked conflict.isSome := by
  refine ⟨h.past.evolve cons.toFrame (propagate_spec cons step).1, fun fine => ?_⟩
  rw [Option.isSome_eq_false_iff, Option.isNone_iff_eq_none] at fine
  subst fine
  exact (h.now rfl).propagate cons step

theorem Attended.checkpointed (step : s.checkpointed = .ok t) : t.Attended asked false :=
  ⟨h.past.checkpointed (h.now rfl) cons step, fun _ => (h.now rfl).checkpointed cons step⟩

end

theorem Attended.restore {broken : Bool} {k : Nat} (h : s.Attended asked broken) (frame : s.Frame)
    (earlier : broken = true → k < s.checkpoint) (step : s.restore k = .ok t) :
    t.Attended asked false := by
  rcases Nat.eq_or_lt_of_le (le_of_restore step) with rfl | less
  · cases (restore_self s).symm.trans step
    refine ⟨h.past, fun _ => h.now ?_⟩
    by_contra broken
    exact absurd (earlier (by simpa using broken)) (Nat.lt_irrefl _)
  · exact ⟨(h.past.restore frame less step).1, fun _ => (h.past.restore frame less step).2⟩

/-! ## All states that can be reached -/

/-- The state can be reached with all propagators added before the first checkpoint; the flag tells
whether an inconsistency is left in it. -/
inductive Rooted : Bool → State → Prop
  | empty : Rooted false .empty
  | create {s t : State} {lower upper : Int} {x : Var} (before : Rooted false s)
      (step : s.create lower upper = .ok (x, t)) : Rooted false t
  | install {s t : State} {blueprint : Blueprint} {id : Nat} (before : Rooted false s)
      (root : s.checkpoint = 0) (typed : blueprint.Typed) (step : s.install blueprint = .ok (id, t)) :
      Rooted false t
  | post {s t : State} {q : Predicate} {posting : Posting} (before : Rooted false s)
      (step : s.post q = .ok (posting, t)) : Rooted (decide (posting = .emptied)) t
  | propagate {s t : State} {conflict : Option Conflict} (before : Rooted false s)
      (step : s.propagate = .ok (conflict, t)) : Rooted conflict.isSome t
  | checkpointed {s t : State} (before : Rooted false s) (step : s.checkpointed = .ok t) :
      Rooted false t
  | restore {broken : Bool} {s t : State} {k : Nat} (before : Rooted broken s)
      (earlier : broken = true → k < s.checkpoint) (step : s.restore k = .ok t) : Rooted false t

theorem Rooted.reached {broken : Bool} (h : Rooted broken s) : Reached broken s := by
  induction h with
  | empty => exact .empty
  | create _ step ih => exact .create ih step
  | install _ _ typed step ih => exact .install ih typed step
  | post _ step ih => exact .post ih step
  | propagate _ step ih => exact .propagate ih step
  | checkpointed _ step ih => exact .checkpointed ih step
  | restore _ earlier step ih => exact .restore ih earlier step

theorem Rooted.consistent (h : Rooted false s) : s.Consistent := h.reached.consistent

/-- Packings can only be added before the first checkpoint. -/
theorem Reached.rooted {broken : Bool} (h : Reached broken s) (only : s.OnlyPackings) :
    Rooted broken s := by
  induction h with
  | empty => exact .empty
  | create _ step ih =>
    obtain ⟨-, -, rfl⟩ := create_eq_ok step
    exact .create (ih only) step
  | install before typed step ih =>
    obtain ⟨prop, installs⟩ := before.consistent.installs typed step
    have last := installs.propagators ▸ Array.getElem?_push_size
    obtain ⟨p, rfl⟩ := only _ prop last
    refine .install (ih fun id old found => ?_) (installs.packing p rfl).1 typed step
    refine only id old ?_
    obtain ⟨inside, -⟩ := Array.getElem?_eq_some_iff.1 found
    rw [installs.propagators, Array.getElem?_push, if_neg (Nat.ne_of_lt inside)]
    exact found
  | post _ step ih => exact .post (ih (onlyPackings_of_cores only (evolves_post step).cores.symm)) step
  | propagate before step ih =>
    have cores := (propagate_spec before.consistent step).1.cores
    exact .propagate (ih (onlyPackings_of_cores only cores.symm)) step
  | checkpointed _ step ih =>
    obtain ⟨-, rfl⟩ := checkpointed_eq_ok step
    exact .checkpointed (ih only) step
  | @restore broken s t k before earlier step ih =>
    refine .restore (ih ?_) earlier step
    rcases Nat.eq_or_lt_of_le (le_of_restore step) with rfl | less
    · cases (restore_self s).symm.trans step
      exact only
    · rw [restore_eq before.invariant.1 less] at step
      cases step
      exact onlyPackings_of_cores only (cores_discard s.propagators _).symm

/-- **Propagators miss nothing** in any state that can be reached, and at no checkpoint of its past. -/
theorem Rooted.attended {broken : Bool} (h : Rooted broken s) :
    s.Attended (fun _ => True) broken := by
  induction h with
  | empty => exact attended_empty
  | create before step ih => exact ih.create before.consistent step
  | install before root typed step ih =>
    obtain ⟨prop, installs⟩ := before.consistent.installs typed step
    exact ih.install before.consistent installs fun _ => root
  | post before step ih => exact ih.post before.consistent step
  | propagate before step ih => exact ih.propagate before.consistent step
  | checkpointed before step ih => exact ih.checkpointed before.consistent step
  | restore before earlier step ih => exact ih.restore before.reached.invariant.1 earlier step

/-- Packings miss nothing, wherever propagators of other kinds are added. -/
theorem Reached.attended {broken : Bool} (h : Reached broken s) :
    s.Attended Propagator.IsPacking broken := by
  induction h with
  | empty => exact attended_empty
  | create before step ih => exact ih.create before.consistent step
  | install before typed step ih =>
    obtain ⟨prop, installs⟩ := before.consistent.installs typed step
    refine ih.install before.consistent installs fun among => ?_
    obtain ⟨p, rfl⟩ := Propagator.isPacking_core.1 among
    exact (installs.packing p rfl).1
  | post before step ih => exact ih.post before.consistent step
  | propagate before step ih => exact ih.propagate before.consistent step
  | checkpointed before step ih => exact ih.checkpointed before.consistent step
  | restore before earlier step ih => exact ih.restore before.invariant.1 earlier step

/-! ## Fixed points -/

/-- **At every fixed point all propagators have settled.** -/
theorem Rooted.settles (h : Rooted false s) (quiet : s.Quiet)
    (found : s.propagators[id]? = some prop) : prop.Settles s.store :=
  (h.attended.now rfl).settles h.consistent quiet found trivial

section

variable (h : Reached false s) (quiet : s.Quiet) {p : Packer} (runs : s.Runs id p)

include h quiet runs

/-- At every fixed point the packings have settled. -/
theorem Reached.settles : p.Settles s.store :=
  (h.attended.now rfl).settles h.consistent quiet runs ⟨_, rfl⟩

/-- **At every fixed point the domains are closed**, by the ledger of the packing. -/
theorem Reached.closed : p.packing.Closed s.domains (s.store.ledger p) := by
  have settles := h.settles quiet runs
  have installed := h.consistent.installed id p runs
  have pending := quiet.pending
  have revised : (p.rested s.store).Revised p.packing :=
    (h.consistent.revised quiet runs).congr installed.wf h.consistent.healthy installed.known rfl
      (fun _ _ => rfl) (fun _ _ _ _ => rfl) (.inr rfl)
  exact settles.atRest.closed installed.wf revised.toValid
    (fun d hd b hb => revised.seen_eq pending hd hb) (revised.confined revised.started)
    (fun b hb i member => ((revised.mem_candidates_iff pending hb).1 member).2.symm)
    (revised.tight revised.started)

/-- With distinct variables, the big items have been extended where they can be. -/
theorem Reached.extended (dynamic : p.packing.policy = .dynamic) (distinct : p.packing.vars.Nodup)
    {b : Nat} (hb : b < p.packing.numBins) : ((s.store.ledger p).bin b).Extended p.packing
      (p.packing.freeSpace (s.store.ledger p) s.domains 0 b) := by
  have wf := (h.consistent.installed id p runs).wf
  exact ((h.settles quiet runs).fresh dynamic distinct).extended wf rfl (h.closed quiet runs) hb

end

end State

end Stowage
