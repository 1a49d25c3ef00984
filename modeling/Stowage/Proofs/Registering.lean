import Stowage.Proofs.Reachability
import Stowage.Proofs.Occurrences

/-!
# Who hears of an event

A propagator registers for events of a variable, under the place that it gives to the variable.
Whoever has registered for an event is notified once, in the order of registration, no matter how often
and with which other events it did so.

* `Registration`, `Blueprint.registrations` — what propagators register for.
* `registered` — who is to hear of an event of a variable.
* `State.Subscribed` — the watchers are listed as they have registered.
* `State.Subscribed.watch`, `State.Subscribed.install` — registering keeps them so.
* `State.Consistent.register` — a propagator registers for more.
-/

set_option autoImplicit false

namespace Stowage

/-! ## Registrations -/

/-- A propagator registers for some events of a variable. -/
structure Registration where
  var : Var
  events : List Event
  watch : Watch

/-- Propagator `id` registers for the same events of several variables, whose places count up. -/
def registrationsFrom (id : Nat) (events : List Event) (place : Nat) (xs : List Var) :
    List Registration :=
  (xs.zipIdx place).map fun (x, j) => ⟨x, events, ⟨id, j⟩⟩

/-- What a new propagator registers for. -/
def Blueprint.registrations (id : Nat) : Blueprint → List Registration
  | .packing _ p => registrationsFrom id Event.all 0 p.items.toList ++
      registrationsFrom id Event.bounds p.numItems (p.loads.toList.flatMap Array.toList)
  | .precedence p => registrationsFrom id Event.bounds 0 p.vars
  | .probe vars events _ _ _ => registrationsFrom id events 0 vars

/-- Who is to hear of an event of a variable, each once, in the order of the first registration. -/
def registered (registrations : List Registration) (e : Event) (x : Var) : List Watch :=
  ((registrations.filter fun r => r.var = x ∧ e ∈ r.events).map (·.watch)).eraseDups

theorem registered_append (registrations : List Registration) (r : Registration) (e : Event)
    (x : Var) : registered (registrations ++ [r]) e x =
      if r.var = x ∧ e ∈ r.events ∧ r.watch ∉ registered registrations e x then
        registered registrations e x ++ [r.watch]
      else registered registrations e x := by
  unfold registered
  rw [List.filter_append, List.map_append, List.filter_singleton]
  by_cases asks : r.var = x ∧ e ∈ r.events
  · simp only [asks, and_self, decide_true, cond_true, List.map_cons, List.map_nil,
      eraseDups_append_singleton, List.mem_eraseDups, true_and, ite_not]
  · rw [if_neg fun all => asks ⟨all.1, all.2.1⟩, decide_eq_false asks]
    simp

/-! ## The lists of the watchers -/

/-- The watches for one event, in the order of the list. -/
def listeners (list : List (Event × Watch)) (e : Event) : List Watch :=
  (list.filter (·.1 = e)).map (·.2)

theorem mem_listeners {list : List (Event × Watch)} {e : Event} {w : Watch} :
    w ∈ listeners list e ↔ (e, w) ∈ list := by
  simp [listeners]

/-- The watches for one event make up the part of the list that is about it. -/
theorem map_listeners (list : List (Event × Watch)) (e : Event) :
    (listeners list e).map (e, ·) = list.filter (·.1 = e) := by
  rw [listeners, List.map_map]
  refine (List.map_congr_left fun v member => ?_).trans (List.map_id _)
  have same : v.1 = e := by simpa using (List.mem_filter.1 member).2
  exact same ▸ rfl

/-- A watch is added for an event unless it is there. -/
theorem listeners_add (list : List (Event × Watch)) (f : Event) (w : Watch) (e : Event) :
    listeners (if list.contains (f, w) then list else list ++ [(f, w)]) e =
      if f = e ∧ w ∉ listeners list e then listeners list e ++ [w] else listeners list e := by
  by_cases same : f = e
  · subst same
    simp only [List.contains_iff_mem, mem_listeners, true_and, ite_not]
    split
    next => rfl
    next => simp [listeners]
  · simp only [same, false_and, if_false]
    split
    next => rfl
    next => simp [listeners, same]

/-- A watch is added for several events, one after the other. -/
theorem listeners_register (list : List (Event × Watch)) (events : List Event) (w : Watch)
    (e : Event) : listeners (State.register list events w) e =
      if e ∈ events ∧ w ∉ listeners list e then listeners list e ++ [w] else listeners list e := by
  have asked : e ∈ events ↔ e ∈ Event.listed events := Event.mem_listed.symm
  simp only [State.register, asked]
  generalize Event.listed events = listed
  induction listed generalizing list with
  | nil => simp
  | cons f listed ih =>
    rw [List.foldl_cons, ih, listeners_add]
    grind

namespace State

variable {s t : State} {registrations : List Registration}

/-- The watchers of every variable are listed as they have registered. -/
def Subscribed (s : State) (registrations : List Registration) : Prop :=
  ∀ e x, listeners (s.watches x) e = registered registrations e x

theorem Subscribed.congr (h : s.Subscribed registrations) (same : t.watchers = s.watchers) :
    t.Subscribed registrations := by
  intro e x
  rw [watches, same]
  exact h e x

theorem Subscribed.watch (h : s.Subscribed registrations) {x : Var} {events : List Event} {w : Watch}
    (step : s.watch x events w = .ok t) : t.Subscribed (registrations ++ [⟨x, events, w⟩]) := by
  intro e y
  rw [registered_append, watches_of_watch step]
  split
  next same =>
    subst same
    simp only [listeners_register, h e y, true_and]
  next other =>
    rw [if_neg fun asks => other asks.1.symm]
    exact h e y

theorem Subscribed.watchAll (h : s.Subscribed registrations) {id place : Nat} {events : List Event}
    {xs : List Var} (step : s.watchAll id events place xs = .ok t) :
    t.Subscribed (registrations ++ registrationsFrom id events place xs) := by
  induction xs generalizing s place registrations with
  | nil =>
    cases step
    simpa [registrationsFrom] using h
  | cons x xs ih =>
    simp only [State.watchAll, bind, Except.bind] at step
    split at step
    · cases step
    · rename_i u first
      have rest := ih (h.watch first) step
      rwa [List.append_assoc] at rest

/-- A propagator that is added receives the next number, and nobody else is watched. -/
theorem addPropagator_eq_ok {prop : Propagator} {id : Nat} (h : s.addPropagator prop = .ok (id, t)) :
    id = s.nextPropagator ∧ t.watchers = s.watchers ∧ t.propagators = s.propagators.push prop := by
  simp only [addPropagator, bind, Except.bind, pure, Except.pure] at h
  split at h
  · cases h
  · cases h
    exact ⟨rfl, rfl, rfl⟩

theorem nextPropagator_of_watchAll {id place : Nat} {events : List Event} {xs : List Var}
    (h : s.watchAll id events place xs = .ok t) : t.nextPropagator = s.nextPropagator := by
  rw [(watching_of_watchAll h).frame]
  rfl

/-- A new propagator registers for what its blueprint says. -/
theorem Subscribed.install (h : s.Subscribed registrations) {blueprint : Blueprint} {id : Nat}
    (step : s.install blueprint = .ok (id, t)) :
    t.Subscribed (registrations ++ blueprint.registrations id) := by
  cases blueprint with
  | packing kind p =>
    simp only [State.install, installPacking, bind, Except.bind] at step
    split at step
    · cases step
    split at step
    · cases step
    rename_i u items
    split at step
    · cases step
    rename_i v loads
    obtain ⟨number, same, -⟩ := addPropagator_eq_ok step
    have next : id = s.nextPropagator := number.trans
      ((nextPropagator_of_watchAll loads).trans (nextPropagator_of_watchAll items))
    subst next
    have subscribed := (h.watchAll items).watchAll loads
    rw [List.append_assoc] at subscribed
    exact subscribed.congr same
  | precedence p =>
    simp only [State.install, bind, Except.bind] at step
    split at step
    · cases step
    rename_i u watch
    obtain ⟨number, same, -⟩ := addPropagator_eq_ok step
    have next : id = s.nextPropagator := number.trans (nextPropagator_of_watchAll watch)
    subst next
    exact (h.watchAll watch).congr same
  | probe vars events priority skipped rules =>
    simp only [State.install, bind, Except.bind] at step
    split at step
    · cases step
    rename_i u watch
    obtain ⟨number, same, -⟩ := addPropagator_eq_ok step
    have number : id = u.nextPropagator := number
    have next : id = s.nextPropagator := number.trans (nextPropagator_of_watchAll watch)
    subst next
    exact (h.watchAll watch).congr same

/-- The events that wait are announced to those who have registered for them. -/
theorem Subscribed.announcements_eq (h : s.Subscribed registrations) : s.announcements =
    s.domains.pending.entries.toList.flatMap fun (e, x) =>
      (registered registrations e x).map (e, ·) := by
  refine List.flatMap_congr fun ⟨e, x⟩ _ => ?_
  simp only [← h e x, map_listeners]
  rfl

end State

/-! ## Registering for more -/

/-- The place is that of an item or of a load of the packing. -/
def Packing.HasPlace (p : Packing) (place : Nat) : Prop :=
  place < p.numItems ∨ ∃ d < p.numDims, ∃ b < p.numBins, place = p.loadPlace d b

/-- The place is one that the propagator knows. -/
def Propagator.HasPlace : Propagator → Nat → Prop
  | .packing p, place => p.packing.HasPlace place
  | .precedence _, _ => True
  | .probe p, place => place < p.seen.capacity

namespace State

variable {s t : State}

/-- **A propagator registers for more**: for events of any variable, under a place that it knows. -/
theorem Consistent.register (cons : s.Consistent) {x : Var} {events : List Event} {w : Watch}
    (step : s.watch x events w = .ok t) (exist : w.propagator < s.propagators.size)
    (own : ∀ prop, s.propagators[w.propagator]? = some prop → prop.HasPlace w.place) :
    t.Consistent := by
  have watched : Watching s t w.propagator events w.place [x] := watching_of_watch step
  have frame := watched.frame
  have size := watched.size
  have old : ∀ y, ∀ v ∈ s.watches y, v ∈ t.watches y := fun y v member =>
    (watched.mem y v).2 (.inl member)
  have cases : ∀ y, ∀ v ∈ t.watches y, v ∈ s.watches y ∨ v.2 = w := fun y v member =>
    ((watched.mem y v).1 member).imp_right fun ⟨j, single, _, same⟩ => by
      obtain ⟨rfl, -⟩ := getElem?_singleton_eq_some_iff.1 single
      exact same
  generalize t.watchers = watchers at frame size
  subst frame
  refine ⟨⟨cons.lawful, cons.level, size.trans cons.watchers, fun y v member => ?_, cons.lines,
    cons.queued, fun id p runs => ?_, { cons.allotted with hears := fun y v member p found => ?_ },
    cons.history, fun id p found y place mine => ?_⟩,
    cons.healthy, cons.ready, cons.awake, cons.events⟩
  · rcases cases y v member with before | same
    · exact cons.watched y v before
    · exact same ▸ exist
  · have installed := cons.installed id p runs
    refine
      { installed with
        items := fun i hi e => old _ _ (installed.items i hi e)
        loads := fun d hd b hb e he => old _ _ (installed.loads d hd b hb e he)
        places := fun y v member mine => ?_ }
    rcases cases y v member with before | same
    · exact installed.places y v before mine
    · subst same
      subst mine
      exact own _ runs
  · rcases cases y v member with before | same
    · exact cons.allotted.hears y v before p found
    · rw [same] at found ⊢
      exact own _ found
  · obtain ⟨bound, listens⟩ := cons.listens id p found y place mine
    exact ⟨bound, fun e he => old _ _ (listens e he)⟩

end State

end Stowage
