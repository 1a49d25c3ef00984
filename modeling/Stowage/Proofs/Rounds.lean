import Stowage.Proofs.Registering

/-!
# Rounds of notifications

Between two rounds of notifications predicates are posted, by propagators and from outside.  The next
round tells everybody who has registered for it what the posts have changed, once, and nobody anything
else, no matter what came before: rounds, returns to earlier checkpoints and inconsistencies all leave
no event behind.

* `History`, `State.Recorded` — the states that can be reached, also during a propagation, with what has
  been done to them since the events were last taken out.
* `State.Reached.recorded` — every state that can be reached has a history.
* `State.Recorded.invariant` — the events that wait report what has been done.
* `State.Notified` — the notifications of a round, one after the other.
* `State.Recorded.reports_net_change` — the events that wait, and the round that announces them.
-/

set_option autoImplicit false

namespace Stowage

/-- What has been done to a state, as far as the events that wait, those who hear of them, and the cells of
propagators depend on it. -/
structure History where
  registrations : List Registration
  /-- For every propagator the cells that its installation has allocated: the first one, and the one after
  the last. -/
  blocks : List (Nat × Nat)
  /-- The domains when the events were last taken out; of a newer variable, the first domain. -/
  drained : List Domain
  /-- The posts since then. -/
  posted : List Domains.Posted

namespace History

def empty : History := ⟨[], [], [], []⟩

def create (h : History) (d : Domain) : History := { h with drained := h.drained ++ [d] }

def register (h : History) (more : List Registration) : History :=
  { h with registrations := h.registrations ++ more }

/-- A propagator is installed, which registers and has cells allocated. -/
def install (h : History) (more : List Registration) (block : Nat × Nat) : History :=
  { h.register more with blocks := h.blocks ++ [block] }

def post (h : History) (later : List Domains.Posted) : History :=
  { h with posted := h.posted ++ later }

/-- The events that wait are taken out, announced or not. -/
def drain (h : History) (ds : Domains) : History :=
  { h with drained := ds.table.values.toList, posted := [] }

end History

namespace State

/-- The state can be reached in the way of the history, be it in the middle of a propagation; the flag
tells whether an inconsistency is left in it. -/
inductive Recorded : Bool → History → State → Prop
  | empty : Recorded false .empty .empty
  | create {h : History} {s t : State} {lower upper : Int} {x : Var} (before : Recorded false h s)
      (step : s.create lower upper = .ok (x, t)) :
      Recorded false (h.create (.interval lower upper)) t
  | install {h : History} {s t : State} {blueprint : Blueprint} {id : Nat}
      (before : Recorded false h s) (typed : blueprint.Typed)
      (step : s.install blueprint = .ok (id, t)) :
      Recorded false
        (h.install (blueprint.registrations id) (s.store.cells.size, t.store.cells.size)) t
  /-- A propagator registers once more, maybe for what it has registered for. -/
  | register {h : History} {s t : State} {r : Registration} (before : Recorded false h s)
      (exist : r.watch.propagator < s.propagators.size)
      (own : ∀ prop, s.propagators[r.watch.propagator]? = some prop → prop.HasPlace r.watch.place)
      (step : s.watch r.var r.events r.watch = .ok t) : Recorded false (h.register [r]) t
  | post {h : History} {s t : State} {q : Predicate} {posting : Posting}
      (before : Recorded false h s) (step : s.post q = .ok (posting, t)) :
      Recorded (decide (posting = .emptied))
        (h.post [⟨q, posting, s.domains.domain q.var, t.domains.domain q.var⟩]) t
  | announce {h : History} {s t : State} (before : Recorded false h s)
      (step : s.announce = .ok t) : Recorded false (h.drain t.domains) t
  /-- A propagator is called and finds no inconsistency; what it has changed is not announced yet. -/
  | call {h : History} {s : State} {id : Nat} {queue : Queue} {prop : Propagator} {called : Called}
      {posted : List Domains.Posted} (before : Recorded false h s)
      (quiet : s.domains.pending = .empty) (pop : s.queue.pop = some (id, queue))
      (found : s.propagators[id]? = some prop) (call : prop.call id s.store = .ok called)
      (fine : called.inconsistency = none)
      (posts : Domains.Posts s.domains posted called.store.domains) :
      Recorded false (h.post posted) (s.afterCalling id called queue)
  | conflict {h : History} {s t : State} {id : Nat} {queue : Queue} {c : Conflict}
      (before : Recorded false h s) (quiet : s.domains.pending = .empty)
      (pop : s.queue.pop = some (id, queue))
      (step : State.callPropagator { s with queue := queue } id = .ok (some c, t)) :
      Recorded true (h.drain t.domains) t
  | checkpointed {h : History} {s t : State} (before : Recorded false h s)
      (step : s.checkpointed = .ok t) : Recorded false h t
  | restore {broken : Bool} {h : History} {s t : State} {k : Nat} (before : Recorded broken h s)
      (earlier : k < s.checkpoint) (step : s.restore k = .ok t) :
      Recorded false (h.drain t.domains) t

variable {s t u : State} {h : History} {broken : Bool}

/-! ## The invariant -/

theorem subscribed_empty : State.empty.Subscribed [] := fun _ x => by
  simp [watches, State.empty, listeners, registered]

/-- **The events that wait report what has been done**, and the watchers are listed as they have
registered. -/
theorem Recorded.invariant (r : Recorded broken h s) : s.Frame ∧ s.Subscribed h.registrations ∧
    (broken = false → s.Consistent ∧ Domains.Reports h.drained h.posted s.domains) := by
  induction r with
  | empty =>
    exact ⟨consistent_empty.toFrame, subscribed_empty, fun _ => ⟨consistent_empty, .empty⟩⟩
  | create before step ih =>
    obtain ⟨-, subscribed, fine⟩ := ih
    obtain ⟨cons, reports⟩ := fine rfl
    have after := cons.create step
    obtain ⟨-, proper, rfl⟩ := create_eq_ok step
    refine ⟨after.toFrame, fun e x => ?_, fun _ => ⟨after, reports.withNew proper⟩⟩
    rw [watches_withNew]
    exact subscribed e x
  | install before typed step ih =>
    obtain ⟨-, subscribed, fine⟩ := ih
    obtain ⟨cons, reports⟩ := fine rfl
    have after := cons.install typed step
    obtain ⟨prop, installs⟩ := cons.installs typed step
    refine ⟨after.toFrame, subscribed.install step, fun _ => ⟨after, ?_⟩⟩
    rw [installs.domains]
    exact reports
  | register before exist own step ih =>
    obtain ⟨-, subscribed, fine⟩ := ih
    obtain ⟨cons, reports⟩ := fine rfl
    have after := cons.register step exist own
    refine ⟨after.toFrame, subscribed.watch step, fun _ => ⟨after, ?_⟩⟩
    rw [(watch_eq_ok step).2]
    exact reports
  | post before step ih =>
    obtain ⟨frame, subscribed, fine⟩ := ih
    obtain ⟨cons, reports⟩ := fine rfl
    have evolves := evolves_post step
    refine ⟨frame.evolve evolves, subscribed.congr evolves.watchers, fun left => ?_⟩
    have left := of_decide_eq_false left
    have after := cons.post step left
    obtain ⟨ds, post, rfl⟩ := post_eq_ok step
    exact ⟨after, reports.post post left⟩
  | announce before step ih =>
    obtain ⟨-, subscribed, fine⟩ := ih
    obtain ⟨u, done, after, evolves, domains, -⟩ := announce_spec (fine rfl).1
    have quiet : u.domains.pending = .empty := Domains.pending_of_cleared domains
    cases step.symm.trans done
    exact ⟨after.toFrame, subscribed.congr evolves.watchers, fun _ =>
      ⟨after, .of_quiet after.healthy quiet⟩⟩
  | call before quiet pop found call fine posts ih =>
    obtain ⟨-, subscribed, whole⟩ := ih
    obtain ⟨cons, reports⟩ := whole rfl
    have calls := Propagator.call_spec cons.healthy (cons.ready_of_found found) call
    have after := cons.afterCalling found calls pop fine
    exact ⟨after.toFrame, subscribed, fun _ => ⟨after, reports.posts posts⟩⟩
  | conflict before quiet pop step ih =>
    obtain ⟨frame, subscribed, fine⟩ := ih
    have evolves := (callPropagator_spec (fine rfl).1 quiet pop step).1
    exact ⟨frame.evolve evolves, subscribed.congr evolves.watchers, nofun⟩
  | checkpointed before step ih =>
    obtain ⟨-, subscribed, fine⟩ := ih
    obtain ⟨cons, reports⟩ := fine rfl
    have after := cons.checkpointed step
    obtain ⟨-, rfl⟩ := checkpointed_eq_ok step
    exact ⟨after.toFrame, subscribed, fun _ => ⟨after, reports.mark⟩⟩
  | restore before earlier step ih =>
    obtain ⟨frame, subscribed, -⟩ := ih
    obtain ⟨after, quiet⟩ := frame.restore step earlier
    refine ⟨after.toFrame, subscribed.congr ?_, fun _ =>
      ⟨after, .of_quiet after.healthy quiet.pending⟩⟩
    rw [restore_eq frame earlier] at step
    cases step
    rfl

/-! ## Every state has a history -/

/-- The calls of a propagation, one after the other, and the rounds of notifications between them. -/
theorem Recorded.callWaiting {limit : Nat} {conflict : Option Conflict}
    (r : Recorded false (h.drain s.domains) s) (quiet : s.domains.pending = .empty)
    (step : s.callWaiting limit = .ok (conflict, t)) :
    Recorded conflict.isSome (h.drain t.domains) t := by
  induction limit generalizing s with
  | zero =>
    simp only [State.callWaiting, pure, Except.pure] at step
    split at step
    · cases step
      exact r
    · cases step
  | succ limit ih =>
    simp only [State.callWaiting, bind, Except.bind, pure, Except.pure] at step
    split at step
    · cases step
      exact r
    · rename_i id queue pop
      split at step
      · cases step
      · rename_i result call
        obtain ⟨outcome, u⟩ := result
        cases outcome with
        | some c =>
          cases step
          exact r.conflict quiet pop call
        | none =>
          have cons := (r.invariant.2.2 rfl).1
          obtain ⟨-, quietU, -⟩ := (callPropagator_spec cons quiet pop call).2.1 rfl
          obtain ⟨prop, called, found, done, outcome⟩ := callPropagator_eq_ok call
          rcases outcome with ⟨fine, -, announced⟩ | ⟨cause, totals, -, other, -⟩
          · have calls := Propagator.call_spec cons.healthy (cons.ready_of_found found) done
            obtain ⟨posted, posts⟩ := (calls.narrows fine).posts
            exact ih ((r.call quiet pop found done fine posts).announce announced) quietU step
          · cases other

/-- A propagation leaves no event behind, whether or not it finds an inconsistency. -/
theorem Recorded.propagate {conflict : Option Conflict} (r : Recorded false h s)
    (step : s.propagate = .ok (conflict, t)) : Recorded conflict.isSome (h.drain t.domains) t := by
  obtain ⟨u, announced, calls⟩ := propagate_eq_ok step
  obtain ⟨v, done, -, -, domains, -⟩ := announce_spec (r.invariant.2.2 rfl).1
  cases announced.symm.trans done
  exact (r.announce announced).callWaiting (Domains.pending_of_cleared domains) calls

/-- **Every state that can be reached has a history.** -/
theorem Reached.recorded (reached : Reached broken s) : ∃ h, Recorded broken h s := by
  induction reached with
  | empty => exact ⟨_, .empty⟩
  | create before step ih =>
    obtain ⟨h, r⟩ := ih
    exact ⟨_, r.create step⟩
  | install before typed step ih =>
    obtain ⟨h, r⟩ := ih
    exact ⟨_, r.install typed step⟩
  | post before step ih =>
    obtain ⟨h, r⟩ := ih
    exact ⟨_, r.post step⟩
  | propagate before step ih =>
    obtain ⟨h, r⟩ := ih
    exact ⟨_, r.propagate step⟩
  | checkpointed before step ih =>
    obtain ⟨h, r⟩ := ih
    exact ⟨_, r.checkpointed step⟩
  | @restore broken s t k before earlier step ih =>
    obtain ⟨h, r⟩ := ih
    rcases Nat.eq_or_lt_of_le (le_of_restore step) with rfl | less
    · cases (restore_self s).symm.trans step
      cases broken with
      | false => exact ⟨h, r⟩
      | true => exact absurd (earlier rfl) (Nat.lt_irrefl _)
    · exact ⟨_, r.restore less step⟩

/-! ## The notifications of a round -/

/-- A propagator is notified of an event. -/
structure Notification where
  event : Event
  watch : Watch
  /-- The propagator answers that it has to be called. -/
  wake : Bool

/-- The notifications lead from one state to another: each propagator hears of the event as it then is,
and nothing else happens. -/
inductive Notified : State → List Notification → State → Prop
  | nil {s : State} : Notified s [] s
  | cons {s t u : State} {e : Event} {w : Watch} {prop : Propagator} {heard : Heard}
      {later : List Notification} (found : s.propagators[w.propagator]? = some prop)
      (notify : prop.notify w.propagator s.store w.place e = .ok heard)
      (step : s.tell e w = .ok t) (rest : Notified t later u) :
      Notified s (⟨e, w, heard.wake⟩ :: later) u

theorem mem_queue_of_tell {e : Event} {w : Watch} {prop : Propagator} {heard : Heard}
    (found : s.propagators[w.propagator]? = some prop)
    (notify : prop.notify w.propagator s.store w.place e = .ok heard) (h : s.tell e w = .ok t) (id : Nat) :
    id ∈ t.queue.toList ↔ id ∈ s.queue.toList ∨ w.propagator = id ∧ heard.wake = true := by
  simp only [State.tell, Table.fetch, found, notify, bind, Except.bind, pure, Except.pure] at h
  cases wake : heard.wake with
  | false =>
    simp only [wake] at h
    cases h
    simp
  | true =>
    simp only [wake, if_true] at h
    split at h
    · cases h
    · rename_i queue waits
      cases h
      simp [(Queue.enqueued_of_enqueue waits).mem id, eq_comm]

/-- The notifications of a list are made in its order, and wake who answers that it has to be called. -/
theorem notified_of_foldlM {left : List (Event × Watch)}
    (h : left.foldlM (fun s (e, w) => s.tell e w) s = .ok t) :
    ∃ made, Notified s made t ∧ made.map (fun n => (n.event, n.watch)) = left ∧
      ∀ id, id ∈ t.queue.toList ↔
        id ∈ s.queue.toList ∨ ∃ n ∈ made, n.watch.propagator = id ∧ n.wake = true := by
  induction left generalizing s with
  | nil =>
    cases h
    exact ⟨[], .nil, rfl, by simp⟩
  | cons v left ih =>
    obtain ⟨e, w⟩ := v
    simp only [List.foldlM_cons, bind, Except.bind] at h
    split at h
    · cases h
    · rename_i u first
      obtain ⟨prop, heard, -, found, notify, -⟩ := tell_eq_ok first
      obtain ⟨made, notified, same, waits⟩ := ih h
      refine ⟨_, .cons found notify first notified, by rw [List.map_cons, same], fun id => ?_⟩
      rw [waits, mem_queue_of_tell found notify first, or_assoc]
      simp

/-- **The events that wait tell exactly what has changed since the events were last taken out, and the
next round tells it exactly to those who have registered for it.** -/
theorem Recorded.reports_net_change (r : Recorded false h s) :
    (∀ x < s.domains.count, ∃ base, h.drained[x]? = some base ∧ base.toSet.Nonempty ∧
      (s.domains.domain x).toSet.Nonempty ∧
      ∀ e, (e, x) ∈ s.domains.pending.entries.toList ↔ Event.Happened base.toSet
        (s.domains.domain x).toSet (Domains.Removed h.posted x) e) ∧
    s.domains.pending.entries.toList = (Domains.occurrences h.posted).eraseDups ∧
    s.domains.pending.entries.toList.Nodup ∧
    (∀ e x, (registered h.registrations e x).Nodup) ∧
    ∃ made t, s.announce = .ok t ∧ Notified (s.withDomains s.domains.clearPending) made t ∧
      made.map (fun n => (n.event, n.watch)) = (s.domains.pending.entries.toList.flatMap fun (e, x) =>
        (registered h.registrations e x).map (e, ·)) ∧
      t.domains.pending.entries.toList = [] ∧
      ∀ id, id ∈ t.queue.toList ↔
        id ∈ s.queue.toList ∨ ∃ n ∈ made, n.watch.propagator = id ∧ n.wake = true := by
  obtain ⟨-, subscribed, fine⟩ := r.invariant
  obtain ⟨cons, reports⟩ := fine rfl
  refine ⟨fun x exist => ?_, reports.listed, s.domains.pending.nodup, fun e x => nodup_eraseDups _, ?_⟩
  · have bound : x < h.drained.length := reports.length.symm ▸ exist
    have found := List.getElem?_eq_getElem bound
    refine ⟨_, found, ⟨_, (reports.proper _ (List.getElem_mem bound)).describes.lower.1⟩,
      ⟨_, (cons.healthy x).describes.lower.1⟩, fun e => ?_⟩
    rw [Array.mem_toList_iff]
    exact reports.happened x _ found e
  · obtain ⟨t, done, -, -, domains, -⟩ := announce_spec cons
    have round := done
    rw [announce_eq cons.watchers cons.events] at round
    obtain ⟨made, notified, same, waits⟩ := notified_of_foldlM round
    refine ⟨made, t, done, notified, same.trans subscribed.announcements_eq, ?_, waits⟩
    rw [Domains.pending_of_cleared domains]
    rfl

/-! ## An example -/

/-- A probe that hears of lower bounds and removals of two variables, but does not ask to be called. -/
def quietProbe : Blueprint := .probe [0, 1] [.lowerBound, .removal] .medium Event.all []

/-- Two variables from 0 to 9. -/
def barePair : State := after ((after (State.empty.create 0 9)).create 0 9)

/-- The two variables with the probe. -/
def probedPair : State := after (barePair.install quietProbe)

/-- The first variable has to be smaller. -/
def watchedPair : State := after (probedPair.install (.precedence ⟨0, 1⟩))

/-- What has been done to the two variables. -/
def pairHistory : History :=
  (((History.empty.create (.interval 0 9)).create (.interval 0 9)).install (quietProbe.registrations 0)
    (barePair.store.cells.size, probedPair.store.cells.size)).install
    ((Blueprint.precedence ⟨0, 1⟩).registrations 1) (probedPair.store.cells.size, watchedPair.store.cells.size)

theorem recorded_watchedPair : Recorded false pairHistory watchedPair :=
  .install (.install (.create (.create .empty (show State.empty.create 0 9 = .ok (0, _) by cbv))
    (show State.create _ 0 9 = .ok (1, barePair) by cbv)) (show quietProbe.Typed from trivial)
    (show barePair.install quietProbe = .ok (0, probedPair) by cbv))
    (show (Blueprint.precedence ⟨0, 1⟩).Typed from trivial)
    (show probedPair.install (.precedence ⟨0, 1⟩) = .ok (1, watchedPair) by cbv)

/-- The probe registers for lower bounds of the first variable once more, and for its assignment. -/
def overlap : Registration := ⟨0, [.lowerBound, .assign], ⟨0, 0⟩⟩

/-- The registrations of the probe overlap.  After a propagation a value is removed, the lower bound
passes over it, a variable is added, the value is removed again in vain, and the first variable is fixed.
The probe hears once of each of the three kinds of change; only the precedence asks to be called. -/
theorem overlapping_registrations_hear_once :
    ∃ h s, Recorded false h s ∧ s.queue.toList = [] ∧
      h.drained = [.interval 1 8, .interval 2 9, .interval 0 9] ∧
      s.domains.domain 0 = ⟨5, 5, [3]⟩ ∧ s.domains.domain 2 = .interval 0 4 ∧
      (∀ e, (e, 0) ∈ s.domains.pending.entries.toList ↔ Event.Happened (Domain.interval 1 8).toSet
        (Domain.toSet ⟨5, 5, [3]⟩) (Domains.Removed h.posted 0) e) ∧
      s.domains.pending.entries.toList = (Domains.occurrences h.posted).eraseDups ∧
      s.domains.pending.entries.toList =
        [(.removal, 0), (.lowerBound, 0), (.upperBound, 0), (.assign, 0), (.upperBound, 2)] ∧
      ∃ made t, s.announce = .ok t ∧ Notified (s.withDomains s.domains.clearPending) made t ∧
        made.map (fun n => (n.event, n.watch)) =
          [(.removal, ⟨0, 0⟩), (.lowerBound, ⟨0, 0⟩), (.lowerBound, ⟨1, 0⟩), (.upperBound, ⟨1, 0⟩),
            (.assign, ⟨0, 0⟩)] ∧
        t.queue.toList = [1] ∧
        ∀ id, id = 1 ↔ ∃ n ∈ made, n.watch.propagator = id ∧ n.wake = true := by
  obtain ⟨a, again, b, first, c, propagated, d, second, e, third, f, created, g, fourth, i, fifth, s,
      sixth, t, announced, queue, count, domains, domain, domain', entries, waits⟩ :
      ∃ a, watchedPair.watch overlap.var overlap.events overlap.watch = .ok a ∧
      ∃ b, a.post (.atLeast 0 1) = .ok (.narrowed, b) ∧ ∃ c, b.propagate = .ok (none, c) ∧
      ∃ d, c.post ⟨0, .ne, 3⟩ = .ok (.narrowed, d) ∧ ∃ e, d.post (.atLeast 0 3) = .ok (.narrowed, e) ∧
      ∃ f, e.create 0 9 = .ok (2, f) ∧ ∃ g, f.post ⟨0, .ne, 3⟩ = .ok (.unchanged, g) ∧
      ∃ i, g.post ⟨0, .eq, 5⟩ = .ok (.narrowed, i) ∧
      ∃ s, i.post (.atMost 2 4) = .ok (.narrowed, s) ∧ ∃ t, s.announce = .ok t ∧
      s.queue.toList = [] ∧ s.domains.count = 3 ∧ c.domains.table.values.toList = [.interval 1 8, .interval 2 9] ∧
      s.domains.domain 0 = ⟨5, 5, [3]⟩ ∧ s.domains.domain 2 = .interval 0 4 ∧
      s.domains.pending.entries.toList =
        [(.removal, 0), (.lowerBound, 0), (.upperBound, 0), (.assign, 0), (.upperBound, 2)] ∧
      t.queue.toList = [1] :=
    ⟨_, by cbv, _, by cbv, _, by cbv, _, by cbv, _, by cbv, _, by cbv, _, by cbv, _, by cbv, _, by cbv,
      _, by cbv, rfl, rfl, rfl, rfl, rfl, rfl, rfl⟩
  have exist : 0 < watchedPair.propagators.size := by cbv
  have own (prop : Propagator) (found : watchedPair.propagators[0]? = some prop) : prop.HasPlace 0 := by
    obtain ⟨p, here, inside⟩ :
        ∃ p, watchedPair.propagators[0]? = some (.probe p) ∧ 0 < p.seen.capacity :=
      ⟨_, by cbv, Nat.zero_lt_two⟩
    obtain rfl := Option.some.inj (here.symm.trans found)
    exact inside
  have registers : Recorded false _ a := recorded_watchedPair.register exist own again
  have settled : Recorded false _ c := (registers.post first).propagate propagated
  have recorded : Recorded false _ s :=
    (((((settled.post second).post third).create created).post fourth).post fifth).post sixth
  obtain ⟨happened, listed, -, -, made, u, done, notified, same, -, woken⟩ :=
    recorded.reports_net_change
  cases announced.symm.trans done
  have drained : c.domains.table.values.toList ++ [Domain.interval 0 9] =
      [.interval 1 8, .interval 2 9, .interval 0 9] := by
    rw [domains]
    rfl
  obtain ⟨base, found, -, -, net⟩ := happened 0 (count ▸ Nat.zero_lt_succ 2)
  have found : (c.domains.table.values.toList ++ [Domain.interval 0 9])[0]? = some base := found
  rw [drained] at found
  cases found
  rw [domain] at net
  refine ⟨_, s, recorded, queue, drained, domain, domain', net, listed, entries, made, t, announced,
    notified, ?_, waits, fun id => ?_⟩
  · rw [same, entries]
    rfl
  · rw [← List.mem_singleton, ← waits, woken, queue]
    simp

end State

end Stowage
