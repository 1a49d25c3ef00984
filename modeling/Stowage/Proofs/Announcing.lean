import Stowage.Proofs.Installing
import Stowage.Proofs.Packing.Freshness

/-!
# Announcing what has changed

Every event that waits is told to the propagators that watch it.  A packing that hears of a variable
its ledger is not in line with puts it on its agenda and waits to be called, so nothing is lost when
the events are forgotten.

* `Packing.Noticed`, `Packing.notify_spec` — what a packing does with a notification.
* `Desk.Hearing` — desks some notifications away from being ready.
* `State.announce_spec` — the announcement of all events.
-/

set_option autoImplicit false

namespace Stowage

/-! ## A notification -/

namespace Packing

/-- What a packing notes on its agenda when it hears of the variable at a place. -/
structure Noticed (p : Packing) (ledger : Ledger) (ds : Domains) (place : Nat)
    (before after : Agenda) : Prop where
  item : place < p.numItems →
    place ∈ after.items ∨ p.isSynchronised ledger ds place = true
  load : ∀ d < p.numDims, ∀ b < p.numBins, place = p.loadPlace d b → after.loadsMoved = true ∨
    ledger.isRecorded d b (ds.lower (p.load d b)) (ds.upper (p.load d b)) = true
  tidy : before.Tidy → after.Tidy
  keptItems : ∀ i ∈ before.items, i ∈ after.items
  keptLoads : before.loadsMoved = true → after.loadsMoved = true
  listed : ∀ i ∈ after.items, i ∈ before.items ∨ i < p.numItems
  marks : before.marked.Nodup → (before.marked ≠ [] → p.policy = .dynamic) →
    after.marked.Nodup ∧ (after.marked ≠ [] → p.policy = .dynamic)
  keptMarks : ∀ b ∈ before.marked, b ∈ after.marked
  /-- Where big items are extended, the bin of a load that moved is marked. -/
  marked : p.policy = .dynamic → ∀ b < p.numBins, place = p.loadPlace 0 b → b ∈ after.marked ∨
    ledger.isRecorded 0 b (ds.lower (p.load 0 b)) (ds.upper (p.load 0 b)) = true
  started : after.started = before.started

variable {p : Packing} {ledger : Ledger} {ds : Domains} {place : Nat}

theorem numItems_le_loadPlace (p : Packing) (d b : Nat) : p.numItems ≤ p.loadPlace d b :=
  Nat.le_add_right _ _

theorem mem_addItem {a : Agenda} (tidy : a.Tidy) {i j : Nat} :
    j ∈ (a.addItem i).items ↔ j = i ∨ j ∈ a.items := by
  unfold Agenda.addItem
  split
  · rename_i present
    rw [List.contains_iff_mem, tidy.mem_flagged] at present
    exact ⟨.inr, fun h => h.elim (fun same => same ▸ present) id⟩
  · exact List.mem_cons

theorem noticed_addItem {a : Agenda} (tidy : a.Tidy) (inside : place < p.numItems) :
    Noticed p ledger ds place a (a.addItem place) := by
  have marked : (a.addItem place).marked = a.marked ∧ (a.addItem place).started = a.started ∧
      (a.addItem place).loadsMoved = a.loadsMoved := by
    unfold Agenda.addItem
    split <;> exact ⟨rfl, rfl, rfl⟩
  have noLoad : ∀ d b, place ≠ p.loadPlace d b := fun d b same => by
    have := p.numItems_le_loadPlace d b
    omega
  refine ⟨fun _ => .inl ((mem_addItem tidy).2 (.inl rfl)),
    fun d _ b _ same => absurd same (noLoad d b), fun _ => tidy.addItem place,
    fun i hi => (mem_addItem tidy).2 (.inr hi), fun h => marked.2.2.trans h, fun i hi => ?_,
    fun nodup dynamic => ?_, fun b hb => marked.1 ▸ hb, fun _ b _ same => absurd same (noLoad 0 b),
    marked.2.1⟩
  · rcases (mem_addItem tidy).1 hi with rfl | hi
    · exact .inr inside
    · exact .inl hi
  · rw [marked.1]
    exact ⟨nodup, dynamic⟩

/-- The place of a load tells its dimension and its bin. -/
theorem loadPlace_inj {d d' b b' : Nat} (hd : d < p.numDims) (hb : b < p.numBins)
    (hd' : d' < p.numDims) (hb' : b' < p.numBins) (same : p.loadPlace d b = p.loadPlace d' b') :
    d = d' ∧ b = b' := by
  have place := loadOfPlace_loadPlace p hd hb
  rw [same, loadOfPlace_loadPlace p hd' hb', Except.ok.injEq, Prod.mk.injEq] at place
  exact ⟨place.1.symm, place.2.symm⟩

theorem noticed_loadsMoved (a : Agenda) {d b : Nat} (hd : d < p.numDims) (hb : b < p.numBins) :
    Noticed p ledger ds (p.loadPlace d b) a
      (if d = 0 then p.markBin b { a with loadsMoved := true } else { a with loadsMoved := true }) := by
  have outside : ¬p.loadPlace d b < p.numItems := Nat.not_lt.2 (p.numItems_le_loadPlace d b)
  split
  · have frame := Desk.markBin_frame p b { a with loadsMoved := true }
    have kept : ∀ c ∈ a.marked, c ∈ (p.markBin b { a with loadsMoved := true }).marked :=
      fun c hc => Desk.mem_markBin_of_mem (a := { a with loadsMoved := true }) hc
    have self : p.policy = .dynamic → b ∈ (p.markBin b { a with loadsMoved := true }).marked :=
      fun dynamic => Desk.mem_markBin_self dynamic b _
    have nodup := fun nodup dynamic =>
      Desk.markBin_marked (p := p) (a := { a with loadsMoved := true }) b nodup dynamic
    rw [frame] at kept self nodup ⊢
    refine ⟨fun h => absurd h outside, fun _ _ _ _ _ => .inl rfl,
      fun tidy => ⟨tidy.nodup, tidy.flags⟩, fun _ h => h, fun _ => rfl, fun _ h => .inl h, nodup, kept,
      fun dynamic c hc same => .inl ?_, rfl⟩
    obtain ⟨-, rfl⟩ := loadPlace_inj hd hb (Nat.lt_of_le_of_lt (Nat.zero_le d) hd) hc same
    exact self dynamic
  · rename_i later
    refine ⟨fun h => absurd h outside, fun _ _ _ _ _ => .inl rfl,
      fun tidy => ⟨tidy.nodup, tidy.flags⟩, fun _ h => h, fun _ => rfl, fun _ h => .inl h,
      fun nodup dynamic => ⟨nodup, dynamic⟩, fun _ h => h, fun _ c hc same => ?_, rfl⟩
    exact absurd (loadPlace_inj hd hb (Nat.lt_of_le_of_lt (Nat.zero_le d) hd) hc same).1 later

/-- Nothing is noted if the ledger is in line with the variable. -/
theorem noticed_self (dims : 0 < p.numDims) (a : Agenda)
    (item : place < p.numItems → p.isSynchronised ledger ds place = true)
    (load : ∀ d < p.numDims, ∀ b < p.numBins, place = p.loadPlace d b →
      ledger.isRecorded d b (ds.lower (p.load d b)) (ds.upper (p.load d b)) = true) :
    Noticed p ledger ds place a a :=
  ⟨fun h => .inr (item h), fun d hd b hb same => .inr (load d hd b hb same), id, fun _ h => h, id,
    fun _ h => .inl h, fun nodup dynamic => ⟨nodup, dynamic⟩, fun _ h => h,
    fun _ b hb same => .inr (load 0 dims b hb same), rfl⟩

/-- **A packing hears of one of its variables.** -/
theorem notify_spec (shaped : p.Shaped) (known : p.Known ds) (tracks : ledger.Tracks p ds)
    {a : Agenda} (tidy : a.Tidy) (own : place < p.numItems ∨
      ∃ d < p.numDims, ∃ b < p.numBins, place = p.loadPlace d b) :
    ∃ result, p.notify ledger ds a place = .ok result ∧
      Noticed p ledger ds place a (result.getD a) := by
  by_cases inside : place < p.numItems
  · have item := known.hasItem shaped inside
    have bins : p.binList.all (fun b => p.hasBin ds ledger b) = true :=
      List.all_eq_true.2 fun b hb => tracks.hasBin shaped known (List.mem_range.1 hb)
    by_cases known : p.isSynchronised ledger ds place = true
    · refine ⟨none, by simp [notify, inside, item, bins, require, known, bind, Except.bind, pure,
        Except.pure], noticed_self shaped.dims a (fun _ => known) fun d _ b _ same => ?_⟩
      have := p.numItems_le_loadPlace d b
      omega
    · exact ⟨some (a.addItem place), by simp [notify, inside, item, bins, require, known, bind,
        Except.bind, pure, Except.pure], noticed_addItem tidy inside⟩
  · obtain ⟨d, hd, b, hb, rfl⟩ := own.resolve_left inside
    have place := loadOfPlace_loadPlace p hd hb
    have entry := tracks.hasEntry shaped known hd hb
    by_cases known :
        ledger.isRecorded d b (ds.lower (p.load d b)) (ds.upper (p.load d b)) = true
    · refine ⟨none, by simp [notify, inside, place, entry, require, known, bind, Except.bind, pure,
        Except.pure], noticed_self shaped.dims a (fun h => absurd h inside) fun d' hd' b' hb' same => ?_⟩
      obtain ⟨rfl, rfl⟩ := loadPlace_inj hd hb hd' hb' same
      exact known
    · exact ⟨some (if d = 0 then p.markBin b { a with loadsMoved := true }
        else { a with loadsMoved := true }), by
          simp only [notify, inside, if_false, place, entry, require, if_true, known, bind,
            Except.bind]
          rfl, noticed_loadsMoved a hd hb⟩

end Packing

namespace Propagator

/-- What is left of a propagator and its cells when it has heard of the variable at a place. -/
structure Hears (prop : Propagator) (s : Store) (place : Nat) (heard : Heard) : Prop
    extends prop.Becomes heard.propagator s.cells heard.cells where
  precedence : ∀ p, prop = .precedence p → heard.wake = true
  packing : ∀ p, prop = .packing p → heard.cells = s.cells ∧ ∃ agenda,
    heard.propagator = .packing { p with agenda := agenda } ∧
      p.packing.Noticed (s.ledger p) s.domains place p.agenda agenda ∧
      (heard.wake = false → agenda = p.agenda)

theorem notify_spec (prop : Propagator) (id : Nat) (s : Store) (place : Nat) (event : Event)
    (regular : ∀ p, prop = .packing p → p.Regular s.cells)
    (own : ∀ p, prop = .packing p → (p.desk s).Valid p.packing ∧ p.agenda.Tidy ∧
      (place < p.packing.numItems ∨
        ∃ d < p.packing.numDims, ∃ b < p.packing.numBins, place = p.packing.loadPlace d b))
    (inside : ∀ p, prop = .probe p → place < p.seen.capacity) :
    ∃ heard, prop.notify id s place event = .ok heard ∧ prop.Hears s place heard := by
  have becomes {heard : Heard} (done : prop.notify id s place event = .ok heard) :=
    becomes_of_notify regular inside done
  cases prop with
  | packing p =>
    obtain ⟨valid, tidy, own⟩ := own p rfl
    obtain ⟨wf, keeps, -⟩ := regular p rfl
    have present := keeps.isPresent
    obtain ⟨result, notify, noticed⟩ :=
      Packing.notify_spec wf.toShaped valid.known valid.tracks tidy own
    -- the desk shows the ledger and the domains of the store
    change p.packing.notify (s.ledger p) s.domains p.agenda place = .ok result at notify
    have done : (Propagator.packing p).notify id s place event =
        .ok ⟨.packing { p with agenda := result.getD p.agenda }, s.cells, [], result.isSome⟩ := by
      cases result <;>
        simp [Propagator.notify, require, present, notify, bind, Except.bind, pure, Except.pure]
    refine ⟨_, done, becomes done, fun q same => ?_, fun q same => ?_⟩ <;> cases same
    refine ⟨rfl, result.getD p.agenda, rfl, noticed, fun asleep => ?_⟩
    cases result with
    | none => rfl
    | some agenda => cases asleep
  | precedence p =>
    refine ⟨_, rfl, becomes rfl, fun _ _ => rfl, fun q same => ?_⟩
    cases same
  | probe p =>
    refine ⟨_, rfl, becomes rfl, fun q same => ?_, fun q same => ?_⟩ <;> cases same

end Propagator

/-! ## Desks and the notifications that are left -/

namespace Desk

/-- Desks on which a packing, propagator `id`, can be revised once the notifications that are left
are made. -/
structure Hearing (p : Packing) (id : Nat) (left : List (Event × Watch)) (desk : Desk) : Prop
    extends Valid p desk where
  tidy : desk.agenda.Tidy
  listed : ∀ i ∈ desk.agenda.items, i < p.numItems
  items : ∀ i < p.numItems, i ∈ desk.agenda.items ∨
    p.isSynchronised desk.ledger desk.domains i = true ∨ ∃ e, (e, ⟨id, i⟩) ∈ left
  loads : ∀ d < p.numDims, ∀ b < p.numBins, desk.agenda.loadsMoved = true ∨
    desk.ledger.isRecorded d b (desk.domains.lower (p.load d b)) (desk.domains.upper (p.load d b)) =
      true ∨ ∃ e, (e, ⟨id, p.loadPlace d b⟩) ∈ left
  tight : desk.agenda.started = true → ∀ d < p.numDims, ∀ b < p.numBins, desk.TightAt p d b
  confined : desk.agenda.started = true → ∀ i < p.numItems, desk.Confined p i

variable {p : Packing} {id : Nat} {left : List (Event × Watch)} {desk : Desk}

theorem Hearing.ready (h : desk.Hearing p id []) : desk.Ready p := by
  refine ⟨h.toValid, h.tidy, h.listed, fun i hi => ?_, fun d hd b hb => ?_, h.tight, h.confined⟩
  · rcases h.items i hi with listed | known | ⟨e, he⟩
    · exact .inl listed
    · exact .inr (.inl known)
    · cases he
  · rcases h.loads d hd b hb with moved | known | ⟨e, he⟩
    · exact .inl moved
    · exact .inr (.inl known)
    · cases he

theorem Hearing.of_eq {other : Desk} (h : desk.Hearing p id left) (domains : other.domains = desk.domains)
    (ledger : other.ledger = desk.ledger) (agenda : other.agenda = desk.agenda) :
    other.Hearing p id left := by
  obtain ⟨ds, cells, layout, l, a, counters⟩ := other
  subst domains ledger agenda
  exact ⟨⟨h.healthy, h.known, h.tracks, h.marks, h.dynamic⟩, h.tidy, h.listed, h.items, h.loads, h.tight,
    h.confined⟩

theorem Hearing.pass {e : Event} {w : Watch} (h : desk.Hearing p id ((e, w) :: left))
    (other : w.propagator ≠ id) : desk.Hearing p id left := by
  refine ⟨h.toValid, h.tidy, h.listed, fun i hi => ?_, fun d hd b hb => ?_, h.tight, h.confined⟩
  · refine (h.items i hi).imp_right (.imp_right fun ⟨f, hf⟩ => ⟨f, ?_⟩)
    refine (List.mem_cons.1 hf).resolve_left fun same => other ?_
    rw [← congrArg (fun v : Event × Watch => v.2.propagator) same]
  · refine (h.loads d hd b hb).imp_right (.imp_right fun ⟨f, hf⟩ => ⟨f, ?_⟩)
    refine (List.mem_cons.1 hf).resolve_left fun same => other ?_
    rw [← congrArg (fun v : Event × Watch => v.2.propagator) same]

theorem Hearing.notice {e : Event} {place : Nat} {agenda : Agenda}
    (h : desk.Hearing p id ((e, ⟨id, place⟩) :: left))
    (noticed : p.Noticed desk.ledger desk.domains place desk.agenda agenda) :
    Hearing p id left { desk with agenda := agenda } := by
  have marks := noticed.marks h.marks h.dynamic
  refine ⟨⟨h.healthy, h.known, h.tracks, marks.1, marks.2⟩, noticed.tidy h.tidy, fun i hi => ?_,
    fun i hi => ?_, fun d hd b hb => ?_, fun first => h.tight (noticed.started ▸ first),
    fun first => h.confined (noticed.started ▸ first)⟩
  · exact (noticed.listed i hi).elim (h.listed i) fun h => h
  · rcases h.items i hi with listed | known | ⟨f, hf⟩
    · exact .inl (noticed.keptItems i listed)
    · exact .inr (.inl known)
    · rcases List.mem_cons.1 hf with same | later
      · have same' : i = place := congrArg (fun v : Event × Watch => v.2.place) same
        subst same'
        exact (noticed.item hi).imp_right .inl
      · exact .inr (.inr ⟨f, later⟩)
  · rcases h.loads d hd b hb with moved | known | ⟨f, hf⟩
    · exact .inl (noticed.keptLoads moved)
    · exact .inr (.inl known)
    · rcases List.mem_cons.1 hf with same | later
      · have same' : p.loadPlace d b = place := congrArg (fun v : Event × Watch => v.2.place) same
        exact (noticed.load d hd b hb same'.symm).imp_right .inl
      · exact .inr (.inr ⟨f, later⟩)

end Desk

namespace State

variable {s t : State}

/-! ## The announcement -/

/-- States in which some notifications are left to be made. -/
structure Announcing (s : State) (left : List (Event × Watch)) : Prop extends Frame s where
  healthy : s.domains.Healthy
  registered : ∀ v ∈ left, ∃ x, v ∈ s.watches x
  hearing : ∀ id p, s.Runs id p → (p.desk s.store).Hearing p.packing id left
  /-- A packing that does not wait to be called has an empty agenda. -/
  asleep : ∀ id p, s.Runs id p → id ∉ s.queue.toList → p.agenda.items = [] ∧
    p.agenda.loadsMoved = false ∧ p.agenda.started = true ∧
    ∀ b ∈ (s.store.ledger p).available, b ∉ p.agenda.marked

theorem Announcing.consistent (h : s.Announcing []) (announced : s.domains.pending = .empty) :
    s.Consistent := by
  refine ⟨h.toFrame, h.healthy, fun id p runs => (h.hearing id p runs).ready,
    fun id p runs absent => ?_, fun e x waits => ?_⟩
  · obtain ⟨items, loads, started, unmarked⟩ := h.asleep id p runs absent
    exact ⟨(h.hearing id p runs).ready, items, loads, started, unmarked⟩
  · rw [announced] at waits
    exact absurd waits (Pending.not_has_empty e x)

/-- What an announcement leaves alone, beyond what posts and propagations do. -/
structure Announces (s t : State) : Prop extends Evolves s t where
  sameDomains : t.domains = s.domains
  sameLedgers : ∀ id p, s.Runs id p → t.store.ledger p = s.store.ledger p
  sameTotals : t.totals = s.totals

theorem Announces.refl (s : State) : Announces s s := ⟨.refl s, rfl, fun _ _ _ => rfl, rfl⟩

theorem Announces.trans {u : State} (h : Announces s t) (h' : Announces t u) : Announces s u := by
  refine ⟨h.toEvolves.trans h'.toEvolves, h'.sameDomains.trans h.sameDomains, fun id p runs => ?_,
    h'.sameTotals.trans h.sameTotals⟩
  obtain ⟨q, runs', -, packing, layout⟩ := runs_of_cores h.cores.symm runs
  rw [← Store.ledger_congr packing layout, h'.sameLedgers id q runs',
    Store.ledger_congr packing layout, h.sameLedgers id p runs]

/-- How a queue changes when a propagator has heard of an event. -/
theorem tell_eq {e : Event} {w : Watch} {prop : Propagator} {heard : Heard}
    (lines : s.queue.lines.length = 4) (found : s.propagators[w.propagator]? = some prop)
    (notify : prop.notify w.propagator s.store w.place e = .ok heard) :
    ∃ queue, s.tell e w = .ok (s.afterHearing w.propagator heard queue) ∧
      (heard.wake = false → queue = s.queue) ∧
      (heard.wake = true → Queue.Enqueued s.queue w.propagator queue) := by
  have fetched : Table.fetch s.propagators w.propagator = .ok prop := by simp [Table.fetch, found]
  simp only [State.tell, fetched, notify, bind, Except.bind, pure, Except.pure]
  cases heard.wake with
  | false => exact ⟨s.queue, rfl, fun _ => rfl, fun h => by cases h⟩
  | true =>
    have level : heard.propagator.priority.level < s.queue.lines.length := by
      rw [lines]
      exact Priority.level_lt _
    obtain ⟨queue, waits, spec⟩ := Queue.enqueue_spec s.queue w.propagator level
    exact ⟨queue, by simp only [waits, if_true]; rfl, (fun h => by cases h), fun _ => spec⟩

theorem Frame.announces_afterHearing (frame : s.Frame) {id place : Nat} {prop : Propagator} {heard : Heard}
    {queue : Queue} (found : s.propagators[id]? = some prop) (hears : prop.Hears s.store place heard)
    (enqueued : queue = s.queue ∨ Queue.Enqueued s.queue id queue) :
    Announces s (s.afterHearing id heard queue) := by
  have cores := cores_set found hears.core
  refine ⟨⟨rfl, cores, fun j p q hp hq first => ?_, ⟨.refl _, hears.alters.recovers⟩,
    fun lawful => ⟨lawful.domains, hears.alters.lawful lawful.cells⟩, rfl,
    fun allotted => allotted.becomes found hears.toBecomes rfl rfl, ?_, fun inside j member => ?_⟩, rfl,
    fun j p runs => frame.allotted.ledger_eq found hears.alters (fun q same => (hears.packing q same).1) runs, rfl⟩
  · rcases runs_set hq with ⟨-, runs⟩ | ⟨rfl, new⟩
    · exact (Evolves.refl s).started j p q hp runs first
    · cases found.symm.trans hp
      obtain ⟨-, agenda, same, noticed, -⟩ := hears.packing p rfl
      cases new.symm.trans same
      exact noticed.started.trans first
  · exact enqueued.elim (fun same => congrArg (fun q : Queue => q.lines.length) same) (·.lines)
  · rcases enqueued with same | spec
    · exact inside j (same ▸ member)
    · rcases (spec.mem j).1 member with before | rfl
      · exact inside j before
      · by_contra outside
        rw [Array.getElem?_eq_none (Nat.not_lt.1 outside)] at found
        cases found

theorem Announcing.tells {e : Event} {w : Watch} {left : List (Event × Watch)}
    (h : s.Announcing ((e, w) :: left)) :
    ∃ prop heard queue, s.propagators[w.propagator]? = some prop ∧
      prop.Hears s.store w.place heard ∧
      s.tell e w = .ok (s.afterHearing w.propagator heard queue) ∧
      (heard.wake = false → queue = s.queue) ∧
      (heard.wake = true → Queue.Enqueued s.queue w.propagator queue) := by
  obtain ⟨x, watch⟩ := h.registered _ List.mem_cons_self
  have bound : w.propagator < s.propagators.size := h.watched x _ watch
  have found : s.propagators[w.propagator]? = some s.propagators[w.propagator] := by simp [bound]
  generalize s.propagators[w.propagator] = prop at found
  have runs {p : Packer} (same : prop = .packing p) : s.Runs w.propagator p := found.trans (congrArg some same)
  obtain ⟨heard, notify, hears⟩ := prop.notify_spec w.propagator s.store w.place e
    (fun p same => h.allotted.regular _ p (runs same))
    (fun p same => by
      have hearing := h.hearing w.propagator p (runs same)
      exact ⟨hearing.toValid, hearing.tidy, (h.installed w.propagator p (runs same)).places x _ watch rfl⟩)
    fun p same => h.allotted.hears x _ watch p (found.trans (congrArg some same))
  obtain ⟨queue, tell, quiet, wakes⟩ := tell_eq h.lines found notify
  exact ⟨prop, heard, queue, found, hears, tell, quiet, wakes⟩

/-- **One notification is made.** -/
theorem Announcing.tell {e : Event} {w : Watch} {left : List (Event × Watch)}
    (h : s.Announcing ((e, w) :: left)) :
    ∃ t, s.tell e w = .ok t ∧ t.Announcing left ∧ Announces s t := by
  obtain ⟨prop, heard, queue, found, hears, tell, quiet, wakes⟩ := h.tells
  have enqueued : queue = s.queue ∨ Queue.Enqueued s.queue w.propagator queue := by
    cases woken : heard.wake with
    | false => exact .inl (quiet woken)
    | true => exact .inr (wakes woken)
  have kept : ∀ id ∈ s.queue.toList, id ∈ queue.toList := fun id member =>
    enqueued.elim (fun same => same ▸ member) fun spec => (spec.mem id).2 (.inl member)
  have announces := h.toFrame.announces_afterHearing found hears enqueued
  have ledger {id : Nat} {q : Packer} (runs : s.Runs id q) := announces.sameLedgers id q runs
  refine ⟨_, tell, ⟨h.toFrame.evolve announces.toEvolves, h.healthy,
    fun v hv => h.registered v (List.mem_cons_of_mem _ hv), fun id q runs => ?_,
    fun id q runs absent => ?_⟩, announces⟩
  · rcases runs_set runs with ⟨other, runs⟩ | ⟨rfl, new⟩
    · exact ((h.hearing id q runs).pass (Ne.symm other)).of_eq rfl (ledger runs) rfl
    · cases prop with
      | packing p =>
        obtain ⟨-, agenda, same, noticed, -⟩ := hears.packing p rfl
        cases new.symm.trans same
        exact ((h.hearing w.propagator p found).notice noticed).of_eq rfl (ledger (q := p) found) rfl
      | precedence p => cases new ▸ hears.core
      | probe p => cases new ▸ hears.core
  · rcases runs_set runs with ⟨-, runs⟩ | ⟨rfl, new⟩
    · rw [ledger runs]
      exact h.asleep id q runs fun member => absent (kept id member)
    · cases prop with
      | packing p =>
        obtain ⟨-, agenda, same, -, unchanged⟩ := hears.packing p rfl
        cases new.symm.trans same
        have still := unchanged (Bool.eq_false_iff.2 fun woken =>
          absent (((wakes woken).mem _).2 (.inr rfl)))
        have asleep := h.asleep w.propagator p found fun member => absent (kept _ member)
        rw [← ledger found] at asleep
        rw [still]
        exact asleep
      | precedence p => cases new ▸ hears.core
      | probe p => cases new ▸ hears.core

theorem Announcing.tellAll {left : List (Event × Watch)} (h : s.Announcing left) :
    ∃ t, left.foldlM (fun s (e, w) => s.tell e w) s = .ok t ∧ t.Announcing [] ∧ Announces s t := by
  induction left generalizing s with
  | nil => exact ⟨s, rfl, h, .refl s⟩
  | cons v left ih =>
    obtain ⟨t, first, announcing, step⟩ := h.tell
    obtain ⟨u, rest, done, steps⟩ := ih announcing
    exact ⟨u, by simp only [List.foldlM_cons, first, bind, Except.bind]; exact rest, done,
      step.trans steps⟩

theorem mem_announcements {e : Event} {w : Watch} {x : Var} (event : s.domains.pending.Has e x)
    (watch : (e, w) ∈ s.watches x) : (e, w) ∈ s.announcements := by
  refine List.mem_flatMap.2 ⟨(e, x), Array.mem_toList_iff.2 event, ?_⟩
  exact List.mem_filter.2 ⟨watch, decide_eq_true rfl⟩

/-- The events that wait are those that packings have still to hear of. -/
theorem Consistent.announcing (cons : s.Consistent) :
    (s.withDomains s.domains.clearPending).Announcing s.announcements := by
  have undoable : Domains.Undoable s.domains s.domains.clearPending :=
    ⟨.refl _, id, rfl, fun _ => le_rfl⟩
  refine ⟨cons.toFrame.evolve (evolves_withDomains undoable), cons.healthy,
    fun v hv => registered_of_mem_announcements (s := s) hv, fun id p runs => ?_,
    fun id p runs absent => ?_⟩
  · have ready := cons.ready id p runs
    have installed := cons.installed id p runs
    refine ⟨⟨cons.healthy, ⟨ready.known.items, ready.known.loads⟩,
      ready.tracks.congr installed.wf (fun _ _ => rfl) fun _ _ _ _ => rfl, ready.marks,
      ready.dynamic⟩, ready.tidy, ready.listed, fun i hi => ?_, fun d hd b hb => ?_, ready.tight,
      ready.confined⟩
    · rcases ready.items i hi with listed | known | ⟨e, event⟩
      · exact .inl listed
      · exact .inr (.inl known)
      · exact .inr (.inr ⟨e, mem_announcements event (installed.items i hi e)⟩)
    · rcases ready.loads d hd b hb with moved | known | ⟨e, bound, event⟩
      · exact .inl moved
      · exact .inr (.inl known)
      · exact .inr (.inr ⟨e, mem_announcements event (installed.loads d hd b hb e bound)⟩)
  · have revised := cons.awake id p runs absent
    exact ⟨revised.noItems, revised.noLoads, revised.started, revised.unmarked⟩

/-- Where only variables that exist have events waiting, all of them can be announced. -/
theorem announce_eq (watchers : s.watchers.size = s.domains.count)
    (events : ∀ e x, s.domains.pending.Has e x → x < s.domains.count) :
    s.announce = s.announcements.foldlM (fun s (e, w) => s.tell e w)
      (s.withDomains s.domains.clearPending) := by
  have exist : (s.domains.pending.entries.all fun entry => decide (entry.2 < s.watchers.size)) = true := by
    refine Array.all_eq_true_iff_forall_mem.2 fun entry member => decide_eq_true ?_
    rw [watchers]
    exact events entry.1 entry.2 member
  change (do require _ _; _) = _
  rw [exist]
  rfl

/-- **All events are announced.**  No packing misses one, and nothing else changes. -/
theorem announce_spec (cons : s.Consistent) : ∃ t, s.announce = .ok t ∧ t.Consistent ∧
    Evolves s t ∧ t.domains = s.domains.clearPending ∧
    (∀ id p, s.Runs id p → t.store.ledger p = s.store.ledger p) ∧ t.totals = s.totals := by
  obtain ⟨t, done, announcing, announces⟩ := cons.announcing.tellAll
  have undoable : Domains.Undoable s.domains s.domains.clearPending :=
    ⟨.refl _, id, rfl, fun _ => le_rfl⟩
  have announced : t.domains.pending = .empty := Domains.pending_of_cleared announces.sameDomains
  refine ⟨t, ?_, announcing.consistent announced,
    (evolves_withDomains undoable).trans announces.toEvolves, announces.sameDomains,
    announces.sameLedgers, announces.sameTotals⟩
  rw [announce_eq cons.watchers cons.events]
  exact done

theorem announce_of_quiet (quiet : s.domains.pending = .empty) : s.announce = .ok s := by
  have none : s.announcements = [] := by
    rw [announcements, quiet]
    rfl
  have same : s.withDomains s.domains.clearPending = s := by
    rw [Domains.clearPending_eq, ← quiet]
    rfl
  have nobody : (s.domains.pending.entries.all fun entry => decide (entry.2 < s.watchers.size)) = true := by
    simp [quiet, Pending.empty]
  change (do require _ _; _) = _
  rw [nobody, none, same]
  rfl

end State

end Stowage
