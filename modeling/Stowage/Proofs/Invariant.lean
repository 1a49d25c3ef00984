import Stowage.Proofs.Allotment

/-!
# The invariant of a state

A part of the invariant holds of every state, also of one with an inconsistency in it: going back
leads to a state that was settled.  The rest holds as long as there is none: the desk of every packing
is ready for a revision, and a packing that does not wait to be called has nothing left to do.

* `Store.view` — the store at an earlier checkpoint.
* `State.Frame`, `State.Consistent` — the two parts of the invariant.
* `State.Evolves` — what posts and propagations leave alone.
* `State.Frame.evolve` — such a step keeps the first part.
-/

set_option autoImplicit false

namespace Stowage

/-! ## The store at an earlier checkpoint -/

namespace Store

/-- The store at an earlier checkpoint, where no event waits. -/
def view (s : Store) (k : Nat) : Store :=
  { s.restore k with domains := (s.domains.restore k).clearPending }

/-- Both tables log writes of values they have. -/
structure Lawful (s : Store) : Prop where
  domains : s.domains.table.Lawful
  cells : s.cells.Lawful

/-- Both tables are at the same checkpoint. -/
def Level (s : Store) : Prop := s.cells.checkpoint = s.checkpoint

/-- Both tables look the same at every earlier checkpoint. -/
structure Recovers (t s : Store) : Prop where
  domains : Trailed.Recovers t.domains.table s.domains.table
  cells : Trailed.Recovers t.cells s.cells

variable {s t u : Store} {k : Nat}

theorem Recovers.refl (s : Store) : Recovers s s := ⟨.refl _, .refl _⟩

theorem Recovers.trans (h : Recovers u t) (h' : Recovers t s) : Recovers u s :=
  ⟨h.domains.trans h'.domains, h.cells.trans h'.cells⟩

theorem Recovers.checkpoint (h : Recovers t s) : t.checkpoint = s.checkpoint := h.domains.checkpoint

/-- **Whatever happens after a checkpoint, going back to it gives the same.** -/
theorem Recovers.view_eq (h : Recovers t s) (level : s.Level) (hk : k < s.checkpoint) :
    t.view k = s.view k := by
  have domains := h.domains.restore k hk
  have cells := h.cells.restore k (hk.trans_eq level.symm)
  simp only [view, restore, Domains.restore, Domains.clearPending_eq, domains, cells]

theorem Recovers.level (h : Recovers t s) (level : s.Level) : t.Level :=
  (h.cells.checkpoint.trans level).trans h.checkpoint.symm

@[simp] theorem checkpoint_mark (s : Store) : s.mark.checkpoint = s.checkpoint + 1 :=
  s.domains.checkpoint_mark

theorem Level.mark (level : s.Level) : s.mark.Level :=
  (Trailed.checkpoint_mark s.cells).trans ((congrArg (· + 1) level).trans s.checkpoint_mark.symm)

theorem view_view (s : Store) {j k : Nat} (h : j ≤ k) : (s.view k).view j = s.view j := by
  have domains := Trailed.restore_restore s.domains.table h
  have cells := Trailed.restore_restore s.cells h
  simp only [view, restore, Domains.restore, Domains.clearPending_eq, domains, cells]

theorem view_mark (level : s.Level) (hk : k ≤ s.checkpoint) : s.mark.view k = s.view k := by
  have domains := Trailed.restore_mark s.domains.table hk
  have cells := Trailed.restore_mark s.cells (hk.trans_eq level.symm)
  simp only [view, mark, restore, Domains.mark, Domains.restore, Domains.clearPending_eq, domains, cells]

/-- The view of the current checkpoint, where no event waits, is the store itself. -/
theorem view_self (level : s.Level) (quiet : s.domains.pending = .empty) :
    s.view s.checkpoint = s := by
  have domains : s.domains.table.restore s.checkpoint = s.domains.table :=
    Trailed.restore_self s.domains.table
  have cells : s.cells.restore s.checkpoint = s.cells := by
    rw [← level, Trailed.restore_self]
  simp only [view, restore, Domains.restore, Domains.clearPending_eq, domains, cells, ← quiet]

theorem checkpoint_view (hk : k ≤ s.checkpoint) : (s.view k).checkpoint = k := by
  show (s.domains.table.restore k).checkpoint = k
  rw [Trailed.checkpoint_restore]
  exact Nat.min_eq_left hk

theorem level_view (level : s.Level) : (s.view k).Level := by
  show (s.cells.restore k).checkpoint = (s.domains.table.restore k).checkpoint
  rw [Trailed.checkpoint_restore, Trailed.checkpoint_restore, level]
  rfl

theorem lawful_view (lawful : s.Lawful) : (s.view k).Lawful :=
  ⟨lawful.domains.restore k, lawful.cells.restore k⟩

end Store

namespace Packer

/-- The desk of a packing that has nothing left to do. -/
def rested (p : Packer) (s : Store) : Desk :=
  ⟨s.domains, s.cells, p.layout, s.ledger p, ⟨[], [], [], false, true⟩, .zero⟩

end Packer

namespace State

/-- Packing `p` has been installed as propagator `id`. -/
structure Installed (s : State) (id : Nat) (p : Packer) : Prop where
  wf : p.packing.WellFormed
  kind : p.kind = .vector → p.packing.policy = .disabled
  known : p.packing.Known s.domains
  items : ∀ i < p.packing.numItems, ∀ e, (e, ⟨id, i⟩) ∈ s.watches (p.packing.item i)
  loads : ∀ d < p.packing.numDims, ∀ b < p.packing.numBins, ∀ e ∈ Event.bounds,
    (e, ⟨id, p.packing.loadPlace d b⟩) ∈ s.watches (p.packing.load d b)
  /-- What it watches are its own variables. -/
  places : ∀ x, ∀ w ∈ s.watches x, w.2.propagator = id →
    w.2.place < p.packing.numItems ∨
      ∃ d < p.packing.numDims, ∃ b < p.packing.numBins, w.2.place = p.packing.loadPlace d b
  /-- Its first call is over before the first checkpoint. -/
  begun : 0 < s.checkpoint → p.agenda.started = true

/-- The precedence `p`, installed as propagator `id`, watches the bounds of its variables. -/
def Listens (s : State) (id : Nat) (p : Precedence) : Prop :=
  ∀ x place, p.vars[place]? = some x →
    x < s.domains.count ∧ ∀ e ∈ Event.bounds, (e, ⟨id, place⟩) ∈ s.watches x

/-- What holds of every state. -/
structure Frame (s : State) : Prop where
  lawful : s.store.Lawful
  level : s.store.Level
  watchers : s.watchers.size = s.domains.count
  watched : ∀ x, ∀ w ∈ s.watches x, w.2.propagator < s.propagators.size
  lines : s.queue.lines.length = 4
  queued : ∀ id ∈ s.queue.toList, id < s.propagators.size
  installed : ∀ id p, s.Runs id p → s.Installed id p
  allotted : s.Allotted
  /-- At every earlier checkpoint all packings were settled. -/
  history : ∀ k < s.checkpoint, (s.store.view k).domains.Healthy ∧
    ∀ id p, s.Runs id p → (p.rested (s.store.view k)).Revised p.packing
  listens : ∀ (id : Nat) (p : Precedence), s.propagators[id]? = some (.precedence p) → s.Listens id p

/-- What holds of every state without an inconsistency. -/
structure Consistent (s : State) : Prop extends Frame s where
  healthy : s.domains.Healthy
  ready : ∀ id p, s.Runs id p → (p.desk s.store).Ready p.packing
  /-- A packing that does not wait to be called has nothing left to do. -/
  awake : ∀ id p, s.Runs id p → id ∉ s.queue.toList → (p.desk s.store).Revised p.packing
  /-- Only variables that exist have events waiting. -/
  events : ∀ e x, s.domains.pending.Has e x → x < s.domains.count

/-- No event waits to be announced, and no propagator to be called. -/
structure Quiet (s : State) : Prop where
  queue : s.queue.toList = []
  pending : s.domains.pending = .empty

/-- What posts and propagations leave alone. -/
structure Evolves (s t : State) : Prop where
  watchers : t.watchers = s.watchers
  cores : t.propagators.map Propagator.core = s.propagators.map Propagator.core
  started : ∀ id p q, s.Runs id p → t.Runs id q → p.agenda.started = true →
    q.agenda.started = true
  recovers : t.store.Recovers s.store
  lawful : s.store.Lawful → t.store.Lawful
  count : t.domains.count = s.domains.count
  allotted : s.Allotted → t.Allotted
  lines : t.queue.lines.length = s.queue.lines.length
  queued : (∀ id ∈ s.queue.toList, id < s.propagators.size) →
    ∀ id ∈ t.queue.toList, id < s.propagators.size

variable {s t u : State} {id : Nat}

theorem Evolves.refl (s : State) : Evolves s s where
  watchers := rfl
  cores := rfl
  started id p q hp hq first := by
    have same : some (Propagator.packing p) = some (.packing q) := hp.symm.trans hq
    simp only [Option.some.injEq, Propagator.packing.injEq] at same
    exact same ▸ first
  recovers := .refl _
  lawful := id
  count := rfl
  allotted h := h
  lines := rfl
  queued h := h

theorem Evolves.trans (h : Evolves s t) (h' : Evolves t u) : Evolves s u where
  watchers := h'.watchers.trans h.watchers
  cores := h'.cores.trans h.cores
  started id p q hp hq first := by
    obtain ⟨r, hr, -⟩ := runs_of_cores h'.cores hq
    exact h'.started id r q hr hq (h.started id p r hp hr first)
  recovers := h'.recovers.trans h.recovers
  lawful lawful := h'.lawful (h.lawful lawful)
  count := h'.count.trans h.count
  allotted allotted := h'.allotted (h.allotted allotted)
  lines := h'.lines.trans h.lines
  queued inside := by
    have := h'.queued (by rw [size_of_cores h.cores]; exact h.queued inside)
    rwa [size_of_cores h.cores] at this

theorem Evolves.checkpoint (h : Evolves s t) : t.checkpoint = s.checkpoint := h.recovers.checkpoint

theorem rested_congr {p q : Packer} (packing : p.packing = q.packing) (layout : p.layout = q.layout)
    (st : Store) : p.rested st = q.rested st := by
  rw [Packer.rested, Packer.rested, layout, Store.ledger_congr packing layout]

/-- **Posts and propagations keep what holds of every state.** -/
theorem Frame.evolve (frame : s.Frame) (h : Evolves s t) : t.Frame := by
  have watches : ∀ x, t.watches x = s.watches x := fun x => by rw [watches, watches, h.watchers]
  have size := size_of_cores h.cores
  have view {k : Nat} (earlier : k < t.checkpoint) :
      k < s.checkpoint ∧ t.store.view k = s.store.view k := by
    rw [h.checkpoint] at earlier
    exact ⟨earlier, h.recovers.view_eq frame.level earlier⟩
  refine ⟨h.lawful frame.lawful, h.recovers.level frame.level, ?_, ?_, h.lines.trans frame.lines,
    ?_, ?_, h.allotted frame.allotted, ?_, fun id p found x place own => ?_⟩
  · rw [h.watchers, h.count]
    exact frame.watchers
  · intro x w hw
    rw [watches] at hw
    rw [size]
    exact frame.watched x w hw
  · rw [size]
    exact h.queued frame.queued
  · intro id q runs
    obtain ⟨p, hp, kind, packing, -⟩ := runs_of_cores h.cores runs
    have installed := frame.installed id p hp
    refine ⟨packing ▸ installed.wf, fun vector => packing ▸ installed.kind (kind.trans vector), ?_,
      ?_, ?_, ?_, fun below => ?_⟩
    · rw [← packing]
      exact ⟨fun i hi => h.count ▸ installed.known.items i hi,
        fun d hd b hb => h.count ▸ installed.known.loads d hd b hb⟩
    · rw [← packing]
      intro i hi e
      rw [watches]
      exact installed.items i hi e
    · rw [← packing]
      intro d hd b hb e he
      rw [watches]
      exact installed.loads d hd b hb e he
    · rw [← packing]
      intro x w hw
      rw [watches] at hw
      exact installed.places x w hw
    · rw [h.checkpoint] at below
      exact h.started id p q hp runs (installed.begun below)
  · intro k hk
    obtain ⟨earlier, same⟩ := view hk
    rw [same]
    obtain ⟨healthy, revised⟩ := frame.history k earlier
    refine ⟨healthy, fun id q runs => ?_⟩
    obtain ⟨p, hp, -, packing, layout⟩ := runs_of_cores h.cores runs
    rw [← rested_congr packing layout, ← packing]
    exact revised id p hp
  · obtain ⟨prop, before, core⟩ := found_of_cores h.cores found
    cases Propagator.core_eq_precedence core
    rw [h.count, watches]
    exact frame.listens id p before x place own

/-- A packing in a quiet state has nothing left to do. -/
theorem Consistent.revised (cons : s.Consistent) (quiet : s.Quiet) {p : Packer}
    (runs : s.Runs id p) : (p.desk s.store).Revised p.packing :=
  cons.awake id p runs (by rw [quiet.queue]; exact List.not_mem_nil)

end State

end Stowage
