import Stowage.Proofs.Packing.Allocation
import Stowage.Proofs.Steps

/-!
# New variables and propagators keep the invariant

* `State.Consistent.create` — a new variable.
* `State.Enlarges`, `State.Installs` — what installing a propagator of any kind does.
* `State.Consistent.install` — a new propagator.
-/

set_option autoImplicit false

namespace Stowage

/-! ## Variables -/

namespace Domains

/-- The domains with one more variable. -/
def withNew (ds : Domains) (d : Domain) : Domains := { ds with table := ds.table.grow d }

@[simp] theorem count_withNew (ds : Domains) (d : Domain) : (ds.withNew d).count = ds.count + 1 :=
  Trailed.size_grow _ _

theorem domain_withNew (ds : Domains) (d : Domain) (x : Var) :
    (ds.withNew d).domain x = if x = ds.count then d else ds.domain x := by
  have bound : ds.count = ds.table.values.size := rfl
  rw [bound]
  simp only [domain, withNew, Trailed.grow, Trailed.get?, Array.getElem?_push]
  split <;> rfl

theorem Healthy.withNew {ds : Domains} (healthy : ds.Healthy) {d : Domain} (proper : d.Proper) :
    (ds.withNew d).Healthy := by
  intro x
  rw [domain_withNew]
  split
  · exact proper
  · exact healthy x

theorem domain_withNew_of_lt {ds : Domains} {d : Domain} {x : Var} (h : x < ds.count) :
    (ds.withNew d).domain x = ds.domain x := by
  rw [domain_withNew, if_neg (Nat.ne_of_lt h)]

theorem create_eq_ok {ds after : Domains} {lower upper : Int} {x : Var}
    (h : ds.create lower upper = .ok (x, after)) :
    x = ds.count ∧ (Domain.interval lower upper).Proper ∧
      after = ds.withNew (.interval lower upper) := by
  simp only [create, bind, Except.bind, pure, Except.pure] at h
  split at h
  · cases h
  rename_i bounds
  split at h
  · cases h
  rename_i range
  cases h
  have range := Packing.require_eq_ok.1 range
  rw [Bool.and_eq_true, decide_eq_true_eq, decide_eq_true_eq] at range
  exact ⟨rfl, Domain.proper_interval (of_decide_eq_true (Packing.require_eq_ok.1 bounds)) range.1
    range.2, rfl⟩

theorem create_of_proper {lower upper : Int} (ds : Domains)
    (proper : (Domain.interval lower upper).Proper) :
    ds.create lower upper = .ok (ds.count, ds.withNew (.interval lower upper)) := by
  have bounds : lower ≤ upper := proper.lower_le_upper
  have low : minValue ≤ lower := proper.minValue_le
  have high : upper ≤ maxValue := proper.le_maxValue
  simp only [create, bounds, low, high, decide_true, Bool.and_self]
  rfl

end Domains

theorem Packing.Known.withNew {p : Packing} {ds : Domains} (known : p.Known ds) (d : Domain) :
    p.Known (ds.withNew d) :=
  ⟨fun i hi => (known.items i hi).trans_le (by simp),
    fun e he b hb => (known.loads e he b hb).trans_le (by simp)⟩

namespace State

variable {s t : State}

def withNew (s : State) (d : Domain) : State :=
  { s.withDomains (s.domains.withNew d) with watchers := s.watchers.push [] }

theorem watches_withNew (s : State) (d : Domain) (x : Var) :
    (s.withNew d).watches x = s.watches x := by
  simp only [watches, withNew, Array.getElem?_push]
  split
  · rename_i last
    simp [last]
  · rfl

theorem create_eq_ok {lower upper : Int} {x : Var} (h : s.create lower upper = .ok (x, t)) :
    x = s.domains.count ∧ (Domain.interval lower upper).Proper ∧
      t = s.withNew (.interval lower upper) := by
  simp only [create, bind, Except.bind, pure, Except.pure] at h
  split at h
  · cases h
  · rename_i result domains
    obtain ⟨new, proper, grown⟩ := Domains.create_eq_ok domains
    cases h
    exact ⟨new, proper, by rw [grown]; rfl⟩

/-- At every checkpoint there is one more variable. -/
theorem domains_view_withNew (lawful : s.store.Lawful) (d : Domain) (k : Nat) :
    ((s.withNew d).store.view k).domains = (s.store.view k).domains.withNew d := by
  have table := Trailed.restore_grow lawful.domains d k
  exact congrArg (fun t => Domains.clearPending ⟨t, s.domains.pending⟩) table

/-- **A variable is added.** -/
theorem Consistent.create (cons : s.Consistent) {lower upper : Int} {x : Var}
    (h : s.create lower upper = .ok (x, t)) : t.Consistent := by
  obtain ⟨-, proper, rfl⟩ := create_eq_ok h
  have watches := watches_withNew s (.interval lower upper)
  have lawful := cons.lawful
  refine ⟨⟨⟨lawful.domains.grow _, lawful.cells⟩, cons.level,
    ?_, fun x w hw => ?_, cons.lines, cons.queued, fun id p runs => ?_,
    ⟨cons.allotted.apart, cons.allotted.allocated, cons.allotted.regular, cons.allotted.past,
      fun x w hw => cons.allotted.hears x w (watches x ▸ hw)⟩, fun k hk => ?_,
    fun id p found x place own => ?_⟩,
    cons.healthy.withNew proper,
    fun id p runs => ?_, fun id p runs absent => ?_, fun e x waits => ?_⟩
  · simp only [State.withNew, Array.size_push, cons.watchers]
    exact (Domains.count_withNew _ _).symm
  · exact cons.watched x w (watches x ▸ hw)
  · have installed := cons.installed id p runs
    refine ⟨installed.wf, installed.kind, installed.known.withNew _,
      fun i hi e => ?_, fun d hd b hb e he => ?_, fun x w hw => ?_, installed.begun⟩
    · rw [watches]
      exact installed.items i hi e
    · rw [watches]
      exact installed.loads d hd b hb e he
    · exact installed.places x w (watches x ▸ hw)
  · obtain ⟨healthy, revised⟩ := cons.history k hk
    have view := domains_view_withNew lawful (.interval lower upper) k
    refine ⟨?_, fun id p runs => ?_⟩
    · rw [view]
      exact healthy.withNew proper
    · have rest := revised id p runs
      have known := rest.known
      rw [Packer.rested, view]
      exact rest.congr (cons.installed id p runs).wf (healthy.withNew proper) (known.withNew _) rfl
        (fun i hi => Domains.domain_withNew_of_lt (known.items i hi))
        (fun d hd b hb => Domains.domain_withNew_of_lt (known.loads d hd b hb)) (.inl rfl)
  · obtain ⟨exists', watched⟩ := cons.listens id p found x place own
    rw [watches]
    refine ⟨?_, watched⟩
    show x < (s.domains.withNew (.interval lower upper)).count
    rw [Domains.count_withNew]
    omega
  · have known := (cons.installed id p runs).known
    exact (cons.ready id p runs).congr (cons.installed id p runs).wf (cons.healthy.withNew proper)
      (known.withNew _) rfl (fun i hi => Domains.domain_withNew_of_lt (known.items i hi))
      fun d hd b hb => Domains.domain_withNew_of_lt (known.loads d hd b hb)
  · have known := (cons.installed id p runs).known
    exact (cons.awake id p runs absent).congr (cons.installed id p runs).wf
      (cons.healthy.withNew proper) (known.withNew _) rfl
      (fun i hi => Domains.domain_withNew_of_lt (known.items i hi))
      (fun d hd b hb => Domains.domain_withNew_of_lt (known.loads d hd b hb)) (.inl rfl)
  · show x < (s.domains.withNew (.interval lower upper)).count
    rw [Domains.count_withNew]
    exact Nat.lt_succ_of_lt (cons.events e x waits)

/-! ## Watching variables -/

theorem mem_register {list : List (Event × Watch)} {events : List Event} {w : Watch}
    {v : Event × Watch} : v ∈ register list events w ↔ v ∈ list ∨ v.1 ∈ events ∧ v.2 = w := by
  unfold register
  rw [← Event.mem_listed (e := v.1)]
  generalize Event.listed events = listed
  induction listed generalizing list with
  | nil => simp
  | cons e listed ih =>
    rw [List.foldl_cons, ih, List.mem_cons]
    obtain ⟨f, v⟩ := v
    split
    · rename_i present
      have member : (e, w) ∈ list := by simpa using present
      constructor
      · tauto
      · rintro (h | ⟨rfl | h, rfl⟩)
        · exact .inl h
        · exact .inl member
        · exact .inr ⟨h, rfl⟩
    · simp only [List.mem_append, List.mem_singleton, Prod.mk.injEq]
      tauto

/-- What a state looks like after propagator `id` was registered for events of the variables `xs`. -/
structure Watching (s t : State) (id : Nat) (events : List Event) (place : Nat) (xs : List Var) :
    Prop where
  frame : t = { s with watchers := t.watchers }
  size : t.watchers.size = s.watchers.size
  mem : ∀ x w, w ∈ t.watches x ↔
    w ∈ s.watches x ∨ ∃ j, xs[j]? = some x ∧ w.1 ∈ events ∧ w.2 = ⟨id, place + j⟩
  exist : ∀ x ∈ xs, x < s.watchers.size

/-- A variable that exists gets one more entry in its list. -/
theorem watch_eq_ok {x : Var} {events : List Event} {w : Watch} (h : s.watch x events w = .ok t) :
    x < s.watchers.size ∧
      t = { s with watchers := s.watchers.setIfInBounds x (register (s.watches x) events w) } := by
  simp only [watch, Table.fetch, bind, Except.bind] at h
  cases found : s.watchers[x]? with
  | none => simp [found] at h
  | some list =>
    simp only [found] at h
    cases h
    have bound : x < s.watchers.size := by
      by_contra outside
      simp [Array.getElem?_eq_none (Nat.not_lt.1 outside)] at found
    have old : s.watches x = list := by simp [watches, found]
    exact ⟨bound, by rw [old]⟩

theorem watches_of_watch {x : Var} {events : List Event} {w : Watch}
    (h : s.watch x events w = .ok t) (y : Var) :
    t.watches y = if y = x then register (s.watches x) events w else s.watches y := by
  obtain ⟨bound, rfl⟩ := watch_eq_ok h
  by_cases same : y = x
  · subst same
    simp [watches, bound]
  · simp [watches, Ne.symm same, same]

theorem getElem?_singleton_eq_some_iff {x y : Var} {j : Nat} : [x][j]? = some y ↔ j = 0 ∧ x = y := by
  cases j with
  | zero => simp
  | succ j => simp

theorem watching_of_watch {x : Var} {events : List Event} {id place : Nat}
    (h : s.watch x events ⟨id, place⟩ = .ok t) : Watching s t id events place [x] := by
  obtain ⟨bound, frame⟩ := watch_eq_ok h
  refine ⟨by rw [frame], by rw [frame]; exact Array.size_setIfInBounds, fun y w => ?_, fun y hy => ?_⟩
  · rw [watches_of_watch h]
    simp only [getElem?_singleton_eq_some_iff]
    split
    next same =>
      subst same
      rw [mem_register]
      refine or_congr_right ⟨fun both => ⟨0, ⟨rfl, rfl⟩, both⟩, ?_⟩
      rintro ⟨_, ⟨rfl, -⟩, both⟩
      exact both
    next other =>
      refine ⟨.inl, fun either => either.resolve_right ?_⟩
      rintro ⟨_, ⟨-, rfl⟩, -⟩
      exact absurd rfl other
  · rw [List.mem_singleton.1 hy]
    exact bound

theorem watching_of_watchAll {id place : Nat} {events : List Event} {xs : List Var}
    (h : s.watchAll id events place xs = .ok t) : Watching s t id events place xs := by
  induction xs generalizing s place with
  | nil =>
    cases h
    exact ⟨rfl, rfl, by simp, by simp⟩
  | cons x xs ih =>
    simp only [watchAll, bind, Except.bind] at h
    split at h
    · cases h
    · rename_i u first
      have one := watching_of_watch first
      have rest := ih h
      refine ⟨?_, rest.size.trans one.size, fun y w => ?_, fun y hy => ?_⟩
      · rw [rest.frame, one.frame]
      · rw [rest.mem, one.mem, or_assoc]
        refine or_congr_right ⟨?_, ?_⟩
        · rintro (⟨j, hj, he, hw⟩ | ⟨j, hj, he, hw⟩)
          · obtain ⟨rfl, rfl⟩ := getElem?_singleton_eq_some_iff.1 hj
            exact ⟨0, rfl, he, hw⟩
          · exact ⟨j + 1, hj, he, by rw [hw, Nat.add_assoc, Nat.add_comm 1 j]⟩
        · rintro ⟨j, hj, he, hw⟩
          cases j with
          | zero => exact .inl ⟨0, hj, he, hw⟩
          | succ j => exact .inr ⟨j, hj, he, by rw [hw, Nat.add_assoc, Nat.add_comm 1 j]⟩
      · rcases List.mem_cons.1 hy with rfl | hy
        · exact one.exist _ (by simp)
        · exact one.size ▸ rest.exist y hy

theorem watchAll_ok (id place : Nat) (events : List Event) {xs : List Var}
    (exist : ∀ x ∈ xs, x < s.watchers.size) : ∃ t, s.watchAll id events place xs = .ok t := by
  induction xs generalizing s place with
  | nil => exact ⟨s, rfl⟩
  | cons x xs ih =>
    have bound := exist x List.mem_cons_self
    obtain ⟨u, first⟩ : ∃ u, s.watch x events ⟨id, place⟩ = .ok u := by
      simp [watch, Table.fetch, bound, bind, Except.bind, pure, Except.pure]
    have size := (watching_of_watch first).size
    obtain ⟨t, rest⟩ := ih (s := u) (place + 1)
      fun y hy => size.symm ▸ exist y (List.mem_cons_of_mem _ hy)
    exact ⟨t, by simp only [watchAll, first, bind, Except.bind]; exact rest⟩

/-! ## Propagators -/

/-- What installing a propagator does. -/
structure Enlarges (s t : State) (prop : Propagator) : Prop where
  propagators : t.propagators = s.propagators.push prop
  domains : t.domains = s.domains
  cells : Cells.Grows s.store.cells t.store.cells
  /-- The propagator has new cells. -/
  new : ∀ cell, prop.Owns cell → s.store.cells.size ≤ cell ∧ cell < t.store.cells.size
  apart : ∀ key key' cell, prop.Has key cell → prop.Has key' cell → key = key'
  watchers : t.watchers.size = s.watchers.size
  kept : ∀ x, ∀ w ∈ s.watches x, w ∈ t.watches x
  fresh : ∀ x, ∀ w ∈ t.watches x, w ∈ s.watches x ∨ w.2.propagator = s.propagators.size
  queue : Queue.Enqueued s.queue s.propagators.size t.queue
  precedence : ∀ p, prop = .precedence p → t.Listens s.propagators.size p
  probe : ∀ p, prop = .probe p → ∀ x, ∀ w ∈ t.watches x, w.2.propagator = s.propagators.size →
    w.2.place < p.seen.capacity

/-- A propagator afterwards is an old one or the new one. -/
theorem Enlarges.found {prop new : Propagator} (h : Enlarges s t prop) {id : Nat}
    (found : t.propagators[id]? = some new) :
    s.propagators[id]? = some new ∨ id = s.propagators.size ∧ prop = new := by
  rw [h.propagators, Array.getElem?_push] at found
  split at found
  · rename_i last
    exact .inr ⟨last, Option.some.inj found⟩
  · exact .inl found

theorem Enlarges.runs {prop : Propagator} (h : Enlarges s t prop) {id : Nat} {p : Packer}
    (runs : t.Runs id p) : s.Runs id p ∨ id = s.propagators.size ∧ prop = .packing p :=
  h.found runs

theorem Runs.lt {id : Nat} {p : Packer} (runs : s.Runs id p) : id < s.propagators.size := by
  by_contra outside
  rw [State.Runs, Array.getElem?_eq_none (Nat.not_lt.1 outside)] at runs
  cases runs

/-- The domains of every checkpoint stay what they are. -/
theorem Enlarges.domains_view {prop : Propagator} (h : Enlarges s t prop) (k : Nat) :
    (t.store.view k).domains = (s.store.view k).domains := by
  show Domains.clearPending (t.domains.restore k) = _
  rw [h.domains]
  rfl

theorem Enlarges.ledger_eq {prop : Propagator} (h : Enlarges s t prop) {p : Packer}
    (keeps : p.Keeps s.store.cells) : t.store.ledger p = s.store.ledger p :=
  Packer.ledger_eq fun cell owns => h.cells.old cell (keeps.shows'.lt_size owns)

theorem Enlarges.ledger_view {prop : Propagator} (h : Enlarges s t prop) (frame : s.Frame) {p : Packer}
    (keeps : p.Keeps s.store.cells) {k : Nat} (earlier : k < s.checkpoint) :
    (t.store.view k).ledger p = (s.store.view k).ledger p :=
  Packer.ledger_eq fun cell owns => h.cells.views frame.lawful.cells k (earlier.trans_eq frame.level.symm)
    cell (keeps.shows'.lt_size owns)

theorem Enlarges.checkpoint {prop : Propagator} (h : Enlarges s t prop) : t.checkpoint = s.checkpoint := by
  show t.domains.checkpoint = _
  rw [h.domains]
  rfl

/-- **The cells of the new propagator are its own.** -/
theorem Enlarges.allotted {prop : Propagator} (h : Enlarges s t prop) (frame : s.Frame)
    (new : ∀ p, prop = .packing p → s.checkpoint = 0 ∧ p.Regular t.store.cells) : t.Allotted := by
  have allotted := frame.allotted
  refine ⟨fun id id' prop₁ prop₂ key key' cell found found' has has' => ?_,
    fun id prop found cell owns => ?_, fun id p runs => ?_, fun id p runs k earlier => ?_,
    fun x w hw p found => ?_⟩
  · rcases h.found found with old | ⟨rfl, rfl⟩ <;> rcases h.found found' with old' | ⟨rfl, rfl⟩
    · exact allotted.apart id id' _ _ key key' cell old old' has has'
    · have early := allotted.allocated id _ old cell ⟨key, has⟩
      have late := (h.new cell ⟨key', has'⟩).1
      omega
    · have late := (h.new cell ⟨key, has⟩).1
      have early := allotted.allocated id' _ old' cell ⟨key', has'⟩
      omega
    · exact ⟨rfl, h.apart key key' cell has has'⟩
  · rcases h.found found with old | ⟨rfl, rfl⟩
    · exact (allotted.allocated id prop old cell owns).trans_le h.cells.size
    · exact (h.new cell owns).2
  · rcases h.runs runs with old | ⟨rfl, same⟩
    · obtain ⟨wf, keeps, dynamic⟩ := allotted.regular id p old
      exact ⟨wf, keeps.congr h.cells.size fun cell owns => h.cells.old cell (keeps.shows'.lt_size owns),
        dynamic⟩
    · exact (new p same).2
  · rcases h.runs runs with old | ⟨rfl, same⟩
    · have before := earlier.trans_eq h.cells.checkpoint
      have keeps := (allotted.regular id p old).keeps
      refine (allotted.past id p old k before).congr ?_ fun cell owns =>
        h.cells.views frame.lawful.cells k before cell (keeps.shows'.lt_size owns)
      rw [Trailed.size_restore, Trailed.size_restore]
      exact h.cells.size
    · have before := (earlier.trans_eq h.cells.checkpoint).trans_eq frame.level
      have root : s.store.checkpoint = 0 := (new p same).1
      omega
  · rcases h.found found with old | ⟨last, rfl⟩
    · refine allotted.hears x w ((h.fresh x w hw).resolve_right fun new => ?_) p old
      exact absurd (Array.getElem?_eq_some_iff.1 old).1 (by omega)
    · exact h.probe p rfl x w hw last

/-- **A propagator is installed.**  A packing has to be installed at the root, with cells that hold a ledger
which tracks the domains. -/
theorem Consistent.enlarge (cons : s.Consistent) {prop : Propagator} (h : Enlarges s t prop)
    (new : ∀ p, prop = .packing p → s.checkpoint = 0 ∧ t.Installed s.propagators.size p ∧
      p.Regular t.store.cells ∧ (p.desk t.store).Ready p.packing) : t.Consistent := by
  have size : t.propagators.size = s.propagators.size + 1 := by rw [h.propagators, Array.size_push]
  have checkpoint := h.checkpoint
  have domains : t.store.domains = s.store.domains := h.domains
  have level : t.store.Level :=
    (h.cells.checkpoint.trans cons.level).trans (congrArg Domains.checkpoint h.domains).symm
  refine ⟨⟨⟨domains ▸ cons.lawful.domains, h.cells.lawful cons.lawful.cells⟩, level, ?_, fun x w hw => ?_,
    h.queue.lines.trans cons.lines, fun id hid => ?_, fun id p runs => ?_,
    h.allotted cons.toFrame fun p same => ⟨(new p same).1, (new p same).2.2.1⟩, fun k hk => ?_,
    fun id p found x place own => ?_⟩, ?_,
    fun id p runs => ?_, fun id p runs absent => ?_, by rw [h.domains]; exact cons.events⟩
  · rw [h.watchers, h.domains]
    exact cons.watchers
  · rw [size]
    rcases h.fresh x w hw with old | new
    · exact Nat.lt_succ_of_lt (cons.watched x w old)
    · rw [new]
      exact Nat.lt_succ_self _
  · rw [size]
    rcases (h.queue.mem id).1 hid with old | new
    · exact Nat.lt_succ_of_lt (cons.queued id old)
    · rw [new]
      exact Nat.lt_succ_self _
  · rcases h.runs runs with old | ⟨rfl, same⟩
    · have installed := cons.installed id p old
      refine ⟨installed.wf, installed.kind, ?_,
        fun i hi e => h.kept _ _ (installed.items i hi e),
        fun d hd b hb e he => h.kept _ _ (installed.loads d hd b hb e he), fun x w hw own => ?_,
        fun below => installed.begun (checkpoint ▸ below)⟩
      · rw [h.domains]
        exact installed.known
      · refine installed.places x w ((h.fresh x w hw).resolve_right fun new => ?_) own
        exact Nat.ne_of_lt old.lt (own.symm.trans new)
    · exact (new p same).2.1
  · rw [checkpoint] at hk
    have domains := h.domains_view k
    obtain ⟨healthy, revised⟩ := cons.history k hk
    refine ⟨domains ▸ healthy, fun id p runs => ?_⟩
    rcases h.runs runs with old | ⟨rfl, same⟩
    · have keeps := (cons.allotted.regular id p old).keeps
      exact (revised id p old).of_eq domains (h.ledger_view cons.toFrame keeps hk) rfl
    · have := (new p same).1
      omega
  · rcases h.found found with old | ⟨rfl, same⟩
    · obtain ⟨exist, watched⟩ := cons.listens id p old x place own
      rw [h.domains]
      exact ⟨exist, fun e he => h.kept _ _ (watched e he)⟩
    · exact h.precedence p same x place own
  · rw [h.domains]
    exact cons.healthy
  · rcases h.runs runs with old | ⟨rfl, same⟩
    · exact (cons.ready id p old).of_eq domains (h.ledger_eq (cons.allotted.regular id p old).keeps) rfl
    · exact (new p same).2.2.2
  · rcases h.runs runs with old | ⟨rfl, same⟩
    · have waits := mt (fun waits => (h.queue.mem id).2 (.inl waits)) absent
      exact (cons.awake id p old waits).of_eq domains (h.ledger_eq (cons.allotted.regular id p old).keeps) rfl
    · exact absurd ((h.queue.mem _).2 (.inr rfl)) absent

/-! ## Packings -/

/-- What installing a propagator of any kind does. -/
structure Installs (s t : State) (prop : Propagator) : Prop extends Enlarges s t prop where
  packing : ∀ p, prop = .packing p → s.checkpoint = 0 ∧ t.Installed s.propagators.size p ∧
    p.Regular t.store.cells ∧ p.desk t.store =
      ⟨s.domains, t.store.cells, p.layout, Ledger.ofDomains p.packing s.domains, .initial, .zero⟩

/-- The ledger with which a packing is installed is in line with the domains. -/
theorem ready_initial {p : Packing} (wf : p.WellFormed) {ds : Domains} (healthy : ds.Healthy)
    (known : p.Known ds) (cells : Cells) (layout : Layout) (counters : Counters) :
    Desk.Ready p ⟨ds, cells, layout, Ledger.ofDomains p ds, .initial, counters⟩ := by
  refine ⟨⟨healthy, known, Ledger.tracks_ofDomains wf ds, List.nodup_nil, fun h => absurd rfl h⟩,
    Agenda.tidy_of_empty rfl rfl, (fun _ h => by cases h), fun i hi => .inr (.inl ?_),
    fun d hd b hb => .inr (.inl ?_), (fun h => by cases h), fun h => by cases h⟩
  · simp only [Packing.isSynchronised, List.all_eq_true, Bool.or_eq_true, Bool.not_eq_true',
      Bool.and_eq_true]
    intro b hb
    by_cases candidate : i ∈ ((Ledger.ofDomains p ds).bin b).candidates
    · rw [Ledger.bin_ofDomains (List.mem_range.1 hb), (Ledger.fits_firstBin wf ds b).2.1] at candidate
      obtain ⟨-, member, open'⟩ := Ledger.mem_candidates_plainBin.1 candidate
      exact .inr ⟨member, by simp [Domain.fixedValue?, open']⟩
    · exact .inl (Bin.isCandidate_eq_false_iff.2 candidate)
  · have seen := (Ledger.fits_firstBin wf ds b).2.2 d hd
    simp [Ledger.isRecorded, Ledger.entry, Ledger.bin_ofDomains hb, seen]

def installedAs (s : State) (kind : PackingKind) (p : Packing) : Packer :=
  ⟨kind, p, (Layout.allocate p s.domains s.store.cells).1, .initial, .zero⟩

/-- The state with a packing installed, given the watchers and the queue. -/
def withPacking (s : State) (kind : PackingKind) (p : Packing)
    (watchers : Array (List (Event × Watch))) (queue : Queue) : State :=
  { s with
    store := { s.store with cells := (Layout.allocate p s.domains s.store.cells).2 }
    watchers
    propagators := s.propagators.push (.packing (s.installedAs kind p))
    queue }

/-- Which watches are there after a packing was installed. -/
structure WatchedBy (s : State) (p : Packing) (watchers : Array (List (Event × Watch))) : Prop where
  size : watchers.size = s.watchers.size
  mem : ∀ x w, w ∈ watchers[x]?.getD [] ↔ (w ∈ s.watches x ∨
      ∃ j, p.items.toList[j]? = some x ∧ w.1 ∈ Event.all ∧ w.2 = ⟨s.propagators.size, j⟩) ∨
    ∃ j, p.loadVars[j]? = some x ∧ w.1 ∈ Event.bounds ∧
      w.2 = ⟨s.propagators.size, p.numItems + j⟩
  items : ∀ x ∈ p.items.toList, x < s.watchers.size
  loads : ∀ x ∈ p.loadVars, x < s.watchers.size

theorem installPacking_eq_ok {kind : PackingKind} {p : Packing} {id : Nat}
    (h : s.installPacking kind p = .ok (id, t)) :
    p.checkShape s.checkpoint = .ok () ∧ id = s.propagators.size ∧
      ∃ watchers queue, t = s.withPacking kind p watchers queue ∧ s.WatchedBy p watchers ∧
        Queue.Enqueued s.queue s.propagators.size queue := by
  simp only [installPacking, bind, Except.bind] at h
  split at h
  · cases h
  rename_i shape
  split at h
  · cases h
  rename_i u watchItems
  split at h
  · cases h
  rename_i v watchLoads
  simp only [addPropagator, bind, Except.bind, pure, Except.pure] at h
  split at h
  · cases h
  rename_i queue waits
  have items := watching_of_watchAll watchItems
  have loads := watching_of_watchAll watchLoads
  have frame : v = { s with watchers := v.watchers } := by rw [loads.frame, items.frame]
  have mem := loads.mem
  have size := loads.size.trans items.size
  have exist := loads.exist
  rw [items.size] at exist
  generalize v.watchers = watchers at frame size
  subst frame
  cases h
  refine ⟨shape, rfl, watchers, queue, rfl, ⟨size, fun x w => (mem x w).trans ?_, items.exist, exist⟩,
    Queue.enqueued_of_enqueue waits⟩
  rw [items.mem]
  simp only [Nat.zero_add]
  rfl

/-- A packing of variables that exist can be installed at the root. -/
theorem installPacking_ok (cons : s.Frame) {kind : PackingKind} {p : Packing}
    (shape : p.checkShape s.checkpoint = .ok ()) (known : p.Known s.domains) :
    ∃ r, s.installPacking kind p = .ok r := by
  have wf := (Packing.wellFormed_of_checkShape shape).1
  have itemsExist : ∀ x ∈ p.items.toList, x < s.watchers.size := by
    intro x hx
    obtain ⟨i, hi, rfl⟩ := List.getElem_of_mem hx
    have bound : i < p.numItems := by simpa [Packing.numItems] using hi
    have := known.items i bound
    rw [cons.watchers]
    simpa [Packing.item, show i < p.items.size from bound] using this
  have loadsExist : ∀ x ∈ p.loadVars, x < s.watchers.size := by
    intro x hx
    obtain ⟨j, hj⟩ := List.getElem?_of_mem hx
    obtain ⟨d, hd, b, hb, rfl⟩ := Packing.exists_of_getElem?_loadVars wf.toShaped hj
    rw [Packing.getElem?_loadVars wf.toShaped hd hb, Option.some.injEq] at hj
    rw [cons.watchers, ← hj]
    exact known.loads d hd b hb
  obtain ⟨u, watchItems⟩ := watchAll_ok s.nextPropagator 0 Event.all itemsExist
  have items := watching_of_watchAll watchItems
  obtain ⟨v, watchLoads⟩ := watchAll_ok (s := u) s.nextPropagator p.numItems Event.bounds
    (by rw [items.size]; exact loadsExist)
  have loads := watching_of_watchAll watchLoads
  have lines : v.queue.lines.length = 4 := by
    rw [loads.frame, items.frame]
    exact cons.lines
  have level : Priority.low.level < v.queue.lines.length := by
    rw [lines]
    decide
  obtain ⟨queue, waits, -⟩ := Queue.enqueue_spec v.queue v.propagators.size level
  simp only [installPacking, bind, Except.bind, shape, watchItems]
  rw [show (p.loads.toList.flatMap Array.toList) = p.loadVars from rfl, watchLoads]
  simp only [addPropagator, bind, Except.bind, pure, Except.pure]
  have waits' : v.queue.enqueue v.propagators.size
      (Propagator.packing ⟨kind, p, (Layout.allocate p v.domains v.store.cells).1, .initial, .zero⟩).priority.level =
      .ok queue := waits
  exact ⟨_, by rw [nextPropagator, waits']⟩

section

variable {kind : PackingKind} {p : Packing} {watchers : Array (List (Event × Watch))}
  {queue : Queue}

section

variable (cons : s.Consistent) (wf : p.WellFormed) (watched : s.WatchedBy p watchers)

include cons wf watched

theorem known_of_watchedBy : p.Known s.domains := by
  refine ⟨fun i hi => ?_, fun d hd b hb => ?_⟩
  · rw [← cons.watchers]
    have bound : i < p.items.size := hi
    refine watched.items _ ?_
    simp [Packing.item, bound]
  · rw [← cons.watchers]
    exact watched.loads _ (List.mem_of_getElem? (Packing.getElem?_loadVars wf.toShaped hd hb))

omit cons watched in
theorem allocated_withPacking :
    Layout.Allocated (s.installedAs kind p).layout p s.domains s.store.cells
      (s.withPacking kind p watchers queue).store.cells :=
  Layout.allocated_allocate wf s.domains s.store.cells

omit cons watched in
/-- They hold the ledger that the domains demand. -/
theorem ledger_withPacking : (s.withPacking kind p watchers queue).store.ledger (s.installedAs kind p) =
    Ledger.ofDomains p s.domains :=
  (allocated_withPacking wf).ledger_eq wf

omit cons in
theorem enlarges_withPacking (enqueued : Queue.Enqueued s.queue s.propagators.size queue) :
    Enlarges s (s.withPacking kind p watchers queue) (.packing (s.installedAs kind p)) := by
  have allocated : Layout.Allocated (s.installedAs kind p).layout p s.domains s.store.cells
      (s.withPacking kind p watchers queue).store.cells := allocated_withPacking wf
  refine ⟨rfl, rfl, allocated.grows, fun cell owns => ?_, fun key key' cell has has' => ?_, watched.size,
    fun x w hw => (watched.mem x w).2 (.inl (.inl hw)), fun x w hw => ?_, enqueued, nofun, nofun⟩
  · have owns := Propagator.owns_packing.1 owns
    exact ⟨allocated.new cell owns, allocated.shows'.lt_size owns⟩
  · match key, key', has, has' with
    | .kept key, .kept key', has, has' =>
      exact congrArg Propagator.Key.kept (allocated.apart key key' cell has has')
  · rcases (watched.mem x w).1 hw with (old | ⟨j, -, -, own⟩) | ⟨j, -, -, own⟩
    · exact .inl old
    · exact .inr (by rw [own])
    · exact .inr (by rw [own])

theorem installed_withPacking (root : s.checkpoint = 0)
    (typed : kind = .vector → p.policy = .disabled) :
    (s.withPacking kind p watchers queue).Installed s.propagators.size (s.installedAs kind p) := by
  have known := known_of_watchedBy cons wf watched
  refine ⟨wf, typed, ⟨known.items, known.loads⟩,
    fun i hi e => (watched.mem _ _).2 (.inl (.inr ⟨i, ?_, by cases e <;> simp [Event.all], rfl⟩)),
    fun d hd b hb e he => (watched.mem _ _).2
      (.inr ⟨_, Packing.getElem?_loadVars wf.toShaped hd hb, he, rfl⟩),
    fun x w hw own => ?_, fun below => ?_⟩
  · have bound : i < p.items.size := hi
    simp [installedAs, Packing.item, bound]
  · rcases (watched.mem x w).1 hw with (old | ⟨j, hj, -, place⟩) | ⟨j, hj, -, place⟩
    · have inside := cons.watched x w old
      rw [own] at inside
      exact absurd inside (Nat.lt_irrefl _)
    · left
      rw [place]
      have := (List.getElem?_eq_some_iff.1 hj).1
      simpa [installedAs, Packing.numItems] using this
    · right
      obtain ⟨d, hd, b, hb, rfl⟩ := Packing.exists_of_getElem?_loadVars wf.toShaped hj
      exact ⟨d, hd, b, hb, by rw [place]; rfl⟩
  · have : 0 < s.checkpoint := below
    omega

end

theorem regular_withPacking (wf : p.WellFormed) :
    (s.installedAs kind p).Regular (s.withPacking kind p watchers queue).store.cells ∧
      (s.installedAs kind p).desk (s.withPacking kind p watchers queue).store =
        ⟨s.domains, (s.withPacking kind p watchers queue).store.cells, (s.installedAs kind p).layout,
          Ledger.ofDomains p s.domains, .initial, .zero⟩ := by
  have allocated : Layout.Allocated (s.installedAs kind p).layout p s.domains s.store.cells
      (s.withPacking kind p watchers queue).store.cells := allocated_withPacking wf
  have ledger : (s.withPacking kind p watchers queue).store.ledger (s.installedAs kind p) =
      Ledger.ofDomains p s.domains := ledger_withPacking wf
  refine ⟨⟨wf, ⟨allocated.present, allocated.apart, ?_⟩, fun some => absurd rfl some⟩, ?_⟩
  · change (s.installedAs kind p).layout.ledger p _ = _ at ledger
    show Layout.Shows _ _ _ ((s.installedAs kind p).layout.ledger p _).page
    rw [ledger]
    exact allocated.shows'
  · rw [Packer.desk, ledger]
    rfl

end

/-- **A packing is installed.** -/
theorem Consistent.installs_packing (cons : s.Consistent) {kind : PackingKind} {p : Packing} {id : Nat}
    (typed : kind = .vector → p.policy = .disabled)
    (h : s.installPacking kind p = .ok (id, t)) : Installs s t (.packing (s.installedAs kind p)) := by
  obtain ⟨shape, -, watchers, queue, rfl, watched, enqueued⟩ := installPacking_eq_ok h
  obtain ⟨wf, root⟩ := Packing.wellFormed_of_checkShape shape
  obtain ⟨regular, desk⟩ := regular_withPacking wf
  refine ⟨enlarges_withPacking wf watched enqueued, fun q same => ?_⟩
  cases same
  exact ⟨root, installed_withPacking cons wf watched root typed, regular, desk⟩

/-! ## Propagators without a ledger -/

/-- A propagator without a ledger is installed. -/
theorem Consistent.installs_other (cons : s.Consistent) {prop : Propagator} {cells : Cells}
    {events : List Event} {vars : List Var} {u : State} {id : Nat}
    (other : ∀ p, prop ≠ .packing p) (grows : Cells.Grows s.store.cells cells)
    (new : ∀ cell, prop.Owns cell → s.store.cells.size ≤ cell ∧ cell < cells.size)
    (apart : ∀ key key' cell, prop.Has key cell → prop.Has key' cell → key = key')
    (own : ∀ p, prop = .precedence p → vars = p.vars ∧ events = Event.bounds)
    (capacity : ∀ p, prop = .probe p → vars.length ≤ p.seen.capacity)
    (watch : s.watchAll s.nextPropagator events 0 vars = .ok u)
    (add : State.addPropagator { u with store := { u.store with cells := cells } } prop = .ok (id, t)) :
    Installs s t prop := by
  have watched := watching_of_watchAll watch
  have frame := watched.frame
  have mem := watched.mem
  have size := watched.size
  generalize u.watchers = watchers at frame size
  subst frame
  simp only [addPropagator, bind, Except.bind, pure, Except.pure] at add
  split at add
  · cases add
  rename_i queue waits
  cases add
  refine ⟨⟨rfl, rfl, grows, new, apart, size, fun x w hw => (mem x w).2 (.inl hw), fun x w hw => ?_,
    Queue.enqueued_of_enqueue waits, fun p same x place found => ?_, fun p same x w hw last => ?_⟩,
    fun p same => absurd same (other p)⟩
  · rcases (mem x w).1 hw with old | ⟨j, -, -, new⟩
    · exact .inl old
    · exact .inr (by rw [new]; rfl)
  · obtain ⟨rfl, rfl⟩ := own p same
    refine ⟨cons.watchers ▸ watched.exist x (List.mem_of_getElem? found), fun e he => ?_⟩
    exact (mem x _).2 (.inr ⟨place, found, he, by rw [Nat.zero_add]; rfl⟩)
  · rcases (mem x w).1 hw with old | ⟨j, found, -, new⟩
    · exact absurd (cons.watched x w old) (by omega)
    · have inside := (List.getElem?_eq_some_iff.1 found).1
      have bound := capacity p same
      rw [new]
      show 0 + j < p.seen.capacity
      omega

/-- The cells of a probe: one for the calls, and after it a bit set. -/
theorem cells_of_probe (c : Cells) (capacity : Nat) {p : Probe} (callCell : p.callCell = c.size)
    (seen : p.seen = (BitSet.allocate (c.allocate 1 0).2 capacity).1) :
    Cells.Grows c (BitSet.allocate (c.allocate 1 0).2 capacity).2 ∧
      (∀ cell, (Propagator.probe p).Owns cell →
        c.size ≤ cell ∧ cell < (BitSet.allocate (c.allocate 1 0).2 capacity).2.size) ∧
      ∀ key key' cell, (Propagator.probe p).Has key cell → (Propagator.probe p).Has key' cell → key = key' := by
  have first := c.size_allocate 1 0
  have start : p.seen.start = c.size + 1 := by rw [seen, ← first]; rfl
  have allocated : p.seen.countCell < (BitSet.allocate (c.allocate 1 0).2 capacity).2.size := by
    rw [seen]
    exact (BitSet.represents_allocate _ capacity).allocated
  have below : p.seen.start ≤ p.seen.countCell := Nat.le_add_right _ _
  have apart {cell : Nat} (counts : p.callCell = cell) : ¬p.seen.Owns cell := fun owns => by
    have := owns.1
    omega
  refine ⟨(c.grows_allocate 1 0).trans (BitSet.grows_allocate _ capacity), fun cell ⟨key, has⟩ => ?_,
    fun key key' cell has has' => ?_⟩
  · match key, has with
    | .calls, (counts : p.callCell = cell) => omega
    | .seen, (owns : p.seen.Owns cell) =>
      have := owns.1
      have := owns.2
      omega
  · match key, key', has, has' with
    | .calls, .calls, _, _ => rfl
    | .calls, .seen, counts, owns => exact absurd owns (apart counts)
    | .seen, .calls, owns, counts => exact absurd owns (apart counts)
    | .seen, .seen, _, _ => rfl

end State

/-- A packing that is given as a list of dimensions has no big items. -/
def Blueprint.Typed : Blueprint → Prop
  | .packing .vector p => p.policy = .disabled
  | _ => True

namespace State

variable {s t : State}

/-- **A propagator of any kind is installed.** -/
theorem Consistent.installs (cons : s.Consistent) {blueprint : Blueprint} (typed : blueprint.Typed)
    {id : Nat} (h : s.install blueprint = .ok (id, t)) : ∃ prop, Installs s t prop := by
  cases blueprint with
  | packing kind p =>
    refine ⟨_, cons.installs_packing (fun vector => ?_) h⟩
    subst vector
    exact typed
  | precedence p =>
    simp only [State.install, bind, Except.bind] at h
    split at h
    · cases h
    rename_i u watch
    have same : { u with store := { u.store with cells := s.store.cells } } = u := by
      rw [(watching_of_watchAll watch).frame]
    rw [← same] at h
    refine ⟨_, cons.installs_other (fun _ same => by cases same) (.refl _) (fun cell owns => ?_)
      (fun key _ _ has => ?_) (fun q same => ?_) (fun _ same => by cases same) watch h⟩
    · obtain ⟨key, has⟩ := owns
      cases key <;> cases has
    · cases key <;> cases has
    · cases same
      exact ⟨rfl, rfl⟩
  | probe vars events priority skipped rules =>
    simp only [State.install, bind, Except.bind] at h
    split at h
    · cases h
    rename_i u watch
    have frame : u.store.cells = s.store.cells := by rw [(watching_of_watchAll watch).frame]
    rw [frame] at h
    obtain ⟨grows, new, apart⟩ := cells_of_probe s.store.cells vars.length
      (p := ⟨vars, priority, skipped, rules, _, _⟩) rfl rfl
    refine ⟨_, cons.installs_other (fun _ same => by cases same) grows new apart
      (fun _ same => by cases same) (fun p same => ?_) watch h⟩
    cases same
    exact Nat.le_refl _

theorem Consistent.install (cons : s.Consistent) {blueprint : Blueprint} (typed : blueprint.Typed)
    {id : Nat} (h : s.install blueprint = .ok (id, t)) : t.Consistent := by
  obtain ⟨prop, installs⟩ := cons.installs typed h
  refine cons.enlarge installs.toEnlarges fun p same => ?_
  obtain ⟨root, installed, keeps, desk⟩ := installs.packing p same
  have known : p.packing.Known s.domains := by
    rw [← installs.domains]
    exact installed.known
  rw [desk]
  exact ⟨root, installed, keeps, ready_initial installed.wf cons.healthy known _ _ .zero⟩

end State

end Stowage
