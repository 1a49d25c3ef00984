import Stowage.State
import Stowage.Proofs.Packing.Writing

/-!
# Every cell is allotted to one propagator

What propagators keep in cells has cells of its own, and no propagator changes the cells of another.  So the
cells of a packing hold its ledger whatever the others do.  Notifications, calls, checkpoints and returns keep
that, also where an inconsistency was found before.

* `Propagator.Has`, `Propagator.Owns` — the cells of a propagator.
* `Packer.Keeps`, `Packer.Regular` — the cells of a packing hold its ledger.
* `Propagator.Becomes` — what a propagator is after a notification or a call, and what has happened to the
  cells; `Propagator.becomes_of_notify`, `Propagator.becomes_of_call`.
* `State.Allotted` — every cell is allotted to at most one propagator; `State.Allotted.tell`,
  `State.Allotted.afterCalling`, `State.Allotted.mark`, `State.Allotted.restore` — notifications, calls,
  checkpoints and returns keep it.
-/

set_option autoImplicit false

namespace Stowage

theorem Table.getElem?_of_fetch {α : Type} {t : Table α} {i : Nat} {a : α} (h : t.fetch i = .ok a) :
    t[i]? = some a := by
  unfold fetch at h
  split at h
  · rename_i found
    cases h
    exact found
  · cases h

theorem Store.ledger_congr {p q : Packer} (packing : p.packing = q.packing) (layout : p.layout = q.layout)
    (s : Store) : s.ledger p = s.ledger q := by
  rw [ledger, ledger, packing, layout]

namespace Propagator

/-- A propagator without what changes from call to call. -/
def core : Propagator → Propagator
  | .packing p => .packing { p with agenda := .initial, counters := .zero }
  | .precedence p => .precedence p
  | .probe p => .probe p

theorem core_eq_packing {prop : Propagator} {q : Packer} (h : prop.core = core (.packing q)) :
    ∃ p, prop = .packing p ∧ p.kind = q.kind ∧ p.packing = q.packing ∧ p.layout = q.layout := by
  cases prop with
  | packing p =>
    simp only [core, packing.injEq, Packer.mk.injEq] at h
    exact ⟨p, rfl, h.1, h.2.1, h.2.2.1⟩
  | precedence p => cases h
  | probe p => cases h

theorem core_eq_precedence {prop : Propagator} {p : Precedence} (h : prop.core = .precedence p) :
    prop = .precedence p := by
  cases prop with
  | packing q => cases h
  | precedence q => exact h
  | probe q => cases h

theorem core_eq_probe {prop : Propagator} {p : Probe} (h : prop.core = .probe p) :
    prop = .probe p := by
  cases prop with
  | packing q => cases h
  | precedence q => cases h
  | probe q => exact h

/-- The propagator is a packing. -/
def IsPacking (prop : Propagator) : Prop := ∃ p, prop = .packing p

theorem isPacking_core {prop : Propagator} : prop.core.IsPacking ↔ prop.IsPacking := by
  cases prop <;> simp [IsPacking, core]

/-! ## Cells -/

/-- What a propagator keeps in cells. -/
inductive Key where
  /-- A set or an integer of a packing. -/
  | kept (key : SetKey ⊕ NumberKey)
  /-- The number of calls of a probe. -/
  | calls
  /-- The places that a probe has heard of. -/
  | seen
  deriving DecidableEq, Repr

/-- The cell is one of those that hold something that the propagator keeps. -/
def Has : Propagator → Key → Nat → Prop
  | .packing p, .kept key, cell => p.layout.Has p.packing key cell
  | .probe p, .calls, cell => p.callCell = cell
  | .probe p, .seen, cell => p.seen.Owns cell
  | _, _, _ => False

/-- The cell is one of the propagator. -/
def Owns (prop : Propagator) (cell : Nat) : Prop := ∃ key, prop.Has key cell

theorem has_core (prop : Propagator) (key : Key) (cell : Nat) : prop.core.Has key cell = prop.Has key cell := by
  cases prop <;> cases key <;> rfl

theorem has_of_core {prop new : Propagator} (core : prop.core = new.core) {key : Key} {cell : Nat} :
    new.Has key cell ↔ prop.Has key cell := by
  rw [← has_core, ← core, has_core]

theorem owns_packing {p : Packer} {cell : Nat} :
    (Propagator.packing p).Owns cell ↔ p.layout.Owns p.packing cell := by
  refine ⟨fun ⟨key, has⟩ => ?_, fun ⟨key, has⟩ => ⟨.kept key, has⟩⟩
  cases key with
  | kept key => exact ⟨key, has⟩
  | calls => cases has
  | seen => cases has

end Propagator

namespace Packer

/-- The packing has cells of its own, and they hold its ledger. -/
structure Keeps (p : Packer) (c : Cells) : Prop where
  present : p.layout.stop p.packing ≤ c.size
  apart : p.layout.Apart p.packing
  shows' : p.layout.Shows p.packing c (p.layout.ledger p.packing c).page

/-- A well-formed packing that keeps its ledger in cells, and marks bins only where marks are read. -/
structure Regular (p : Packer) (c : Cells) : Prop where
  wf : p.packing.WellFormed
  keeps : p.Keeps c
  dynamic : p.agenda.marked ≠ [] → p.packing.policy = .dynamic

variable {p q : Packer} {c d : Cells} {s t : Store}

theorem Keeps.isPresent (keeps : p.Keeps s.cells) : p.isPresent s = true := decide_eq_true keeps.present

theorem Keeps.of_eq (keeps : p.Keeps c) (packing : p.packing = q.packing) (layout : p.layout = q.layout) :
    q.Keeps c := by
  obtain ⟨present, apart, shows'⟩ := keeps
  rw [packing, layout] at present apart shows'
  exact ⟨present, apart, shows'⟩

/-- What the cells of others hold does not matter. -/
theorem Keeps.congr (keeps : p.Keeps c) (size : c.size ≤ d.size)
    (same : ∀ cell, p.layout.Owns p.packing cell → d.read cell = c.read cell) : p.Keeps d where
  present := keeps.present.trans size
  apart := keeps.apart
  shows' := by
    rw [Layout.ledger_congr same]
    exact keeps.shows'.congr size same

/-- The ledger depends on the cells of the packing only. -/
theorem ledger_eq (same : ∀ cell, p.layout.Owns p.packing cell → t.cells.read cell = s.cells.read cell) :
    t.ledger p = s.ledger p := Layout.ledger_congr same

/-! ## Calls -/

variable {desk : Desk}

/-- What a call of a packing leaves on its desk. -/
structure Leaves (p : Packer) (s : Store) (desk : Desk) : Prop where
  alters : Cells.Alters (Propagator.packing p).Owns s.cells desk.cells
  regular : (p.afterCall desk).Regular desk.cells
  /-- What the cells hold is the ledger on the desk. -/
  desk : (p.afterCall desk).desk desk.store = desk

theorem Leaves.ledger (leaves : p.Leaves s desk) : desk.store.ledger p = desk.ledger :=
  congrArg Desk.ledger leaves.desk

/-- **The cells of a packing hold its ledger after a call**, also if it finds an inconsistency, and no other
cells have changed. -/
theorem Regular.leaves (regular : p.Regular s.cells) (h : p.packing.call (p.desk s) = .ok () desk ∨
      ∃ cause, p.packing.call (p.desk s) = .error (.inconsistent cause) desk) : p.Leaves s desk := by
  obtain ⟨wf, keeps, dynamic⟩ := regular
  have formed : (p.desk s).Formed p.packing := ⟨Layout.formed_ledger _ _ _, dynamic⟩
  obtain ⟨formed', layout, -⟩ := Packing.writes_of_call wf formed h
  have alters : Cells.Alters (p.layout.Owns p.packing) s.cells desk.cells := Packing.call_alters wf formed h
  obtain ⟨shows', ledger⟩ := Packing.call_shows wf formed h keeps.apart keeps.shows'
  change p.layout.ledger p.packing desk.cells = desk.ledger at ledger
  refine ⟨alters.mono fun cell owns => Propagator.owns_packing.2 owns, ⟨wf,
    ⟨keeps.present.trans_eq alters.size.symm, keeps.apart, ?_⟩, formed'.dynamic⟩, ?_⟩
  · show p.layout.Shows p.packing desk.cells (p.layout.ledger p.packing desk.cells).page
    rw [ledger]
    exact shows'
  · show (⟨desk.domains, desk.cells, p.layout, p.layout.ledger p.packing desk.cells, desk.agenda,
      desk.counters⟩ : Desk) = desk
    rw [ledger, show p.layout = desk.layout from layout.symm]

theorem call_eq (present : p.isPresent s = true) (id : Nat) : (Propagator.packing p).call id s =
    Propagator.afterPacking p (p.packing.call (p.desk s)) := by
  simp only [Propagator.call, require, present, if_true, bind, Except.bind]

theorem afterPacking_of_call {id : Nat} {called : Called}
    (h : (Propagator.packing p).call id s = .ok called) :
    Propagator.afterPacking p (p.packing.call (p.desk s)) = .ok called := by
  by_cases present : p.isPresent s = true
  · rwa [call_eq present] at h
  · simp [Propagator.call, require, present, bind, Except.bind] at h

/-- What is left after a call is what is on the desk. -/
theorem exists_desk_of_call {id : Nat} {called : Called} (h : (Propagator.packing p).call id s = .ok called) :
    ∃ desk cause, called = ⟨.packing (p.afterCall desk), desk.store, [], cause⟩ ∧
      (cause = none ∧ p.packing.call (p.desk s) = .ok () desk ∨
        ∃ reason, cause = some reason ∧ p.packing.call (p.desk s) = .error (.inconsistent reason) desk) := by
  replace h := afterPacking_of_call h
  unfold Propagator.afterPacking at h
  split at h
  · rename_i desk result
    cases h
    exact ⟨desk, none, rfl, .inl ⟨rfl, result⟩⟩
  · rename_i reason desk result
    cases h
    exact ⟨desk, some reason, rfl, .inr ⟨reason, rfl, result⟩⟩
  · cases h

end Packer

/-! ## What becomes of a propagator -/

/-- A notification adds no marks where none are read. -/
theorem Packing.dynamic_notify {p : Packing} {ledger : Ledger} {ds : Domains} {agenda : Agenda} {place : Nat}
    {result : Option Agenda} (h : p.notify ledger ds agenda place = .ok result)
    (dynamic : agenda.marked ≠ [] → p.policy = .dynamic) :
    (result.getD agenda).marked ≠ [] → p.policy = .dynamic := by
  have listed (i : Nat) : (agenda.addItem i).marked = agenda.marked := by
    unfold Agenda.addItem
    split <;> rfl
  simp only [notify, bind, Except.bind, pure, Except.pure] at h
  split at h
  · split at h
    · cases h
    · cases h
      split
      · exact dynamic
      · exact fun some => dynamic (listed place ▸ some)
  · split at h
    · cases h
    split at h
    · cases h
    split at h
    · cases h
      exact dynamic
    · cases h
      rw [Option.getD_some]
      split
      · exact Desk.dynamic_markBin (a := { agenda with loadsMoved := true }) dynamic _
      · exact dynamic

namespace Propagator

variable {prop : Propagator} {s : Store} {id place : Nat} {e : Event} {called : Called} {heard : Heard}

/-- What a propagator has become, and what it has done to the cells. -/
structure Becomes (prop new : Propagator) (c d : Cells) : Prop where
  core : new.core = prop.core
  alters : Cells.Alters prop.Owns c d
  regular : ∀ p, new = .packing p → p.Regular d

/-- What is left when a packing has heard of a change. -/
theorem notify_packing {p : Packer} (h : (Propagator.packing p).notify id s place e = .ok heard) :
    ∃ result, p.packing.notify (s.ledger p) s.domains p.agenda place = .ok result ∧
      heard = ⟨.packing { p with agenda := result.getD p.agenda }, s.cells, [], result.isSome⟩ := by
  simp only [notify, bind, Except.bind] at h
  split at h
  · cases h
  split at h
  · cases h
  rename_i result notified
  refine ⟨result, notified, ?_⟩
  cases result with
  | none =>
    cases h
    rfl
  | some agenda =>
    cases h
    rfl

/-- **A notification changes cells of the propagator only**, and those of a packing not at all. -/
theorem becomes_of_notify (regular : ∀ p, prop = .packing p → p.Regular s.cells)
    (inside : ∀ p, prop = .probe p → place < p.seen.capacity) (h : prop.notify id s place e = .ok heard) :
    prop.Becomes heard.propagator s.cells heard.cells := by
  cases prop with
  | packing p =>
    obtain ⟨wf, keeps, dynamic⟩ := regular p rfl
    obtain ⟨result, notified, rfl⟩ := notify_packing h
    refine ⟨rfl, .refl _ _, fun q same => ?_⟩
    cases same
    exact ⟨wf, keeps.of_eq rfl rfl, Packing.dynamic_notify notified dynamic⟩
  | precedence p =>
    cases h
    exact ⟨rfl, .refl _ _, nofun⟩
  | probe p =>
    cases h
    exact ⟨rfl, (p.seen.alters_insert s.cells (inside p rfl)).mono fun cell owns => ⟨.seen, owns⟩, nofun⟩

/-- A call on the domains alone leaves the cells it was given. -/
theorem cells_of_afterCall {notes : List Note} {result : EStateM.Result Halt Domains Unit}
    (h : prop.afterCall s notes result = .ok called) :
    called.propagator = prop ∧ called.store.cells = s.cells := by
  unfold afterCall at h
  split at h <;> cases h <;> exact ⟨rfl, rfl⟩

/-- A probe counts its call and forgets what it has seen. -/
theorem alters_begin (p : Probe) (id : Nat) (c : Cells) :
    Cells.Alters (Propagator.probe p).Owns c (p.begin id c).1 := by
  have counts : Cells.Alters (Propagator.probe p).Owns c (c.add p.callCell 1) :=
    Cells.alters_add ⟨.calls, rfl⟩ _ _
  exact counts.trans ((p.seen.alters_clear _).mono fun cell owns => ⟨.seen, owns⟩)

/-- **A call changes cells of the propagator only**, whatever the domains are. -/
theorem becomes_of_call (regular : ∀ p, prop = .packing p → p.Regular s.cells)
    (h : prop.call id s = .ok called) : prop.Becomes called.propagator s.cells called.store.cells := by
  cases prop with
  | packing p =>
    obtain ⟨desk, cause, rfl, outcome⟩ := Packer.exists_desk_of_call h
    have leaves := (regular p rfl).leaves
      (outcome.imp (·.2) fun ⟨reason, _, result⟩ => ⟨reason, result⟩)
    refine ⟨rfl, leaves.alters, fun q same => ?_⟩
    cases same
    exact leaves.regular
  | precedence p =>
    obtain ⟨same, cells⟩ := cells_of_afterCall h
    rw [same, cells]
    exact ⟨rfl, .refl _ _, nofun⟩
  | probe p =>
    obtain ⟨same, cells⟩ := cells_of_afterCall h
    rw [same, cells]
    exact ⟨rfl, alters_begin p id s.cells, nofun⟩

theorem core_discard (prop : Propagator) (id : Nat) (st : Store) : (prop.discard id st).1.core = prop.core := by
  cases prop <;> rfl

end Propagator

namespace State

variable {s t u : State} {id : Nat}

/-- The event-watch pairs registered for a variable. -/
def watches (s : State) (x : Var) : List (Event × Watch) := s.watchers[x]?.getD []

/-- Propagator `id` is the packing `p`. -/
def Runs (s : State) (id : Nat) (p : Packer) : Prop := s.propagators[id]? = some (.packing p)

/-- Every cell is allotted to at most one propagator, and to one thing that it keeps. -/
structure Allotted (s : State) : Prop where
  /-- No cell holds two things. -/
  apart : ∀ (id id' : Nat) (prop prop' : Propagator) (key key' : Propagator.Key) (cell : Nat),
    s.propagators[id]? = some prop → s.propagators[id']? = some prop' →
    prop.Has key cell → prop'.Has key' cell → id = id' ∧ key = key'
  allocated : ∀ (id : Nat) (prop : Propagator), s.propagators[id]? = some prop →
    ∀ cell, prop.Owns cell → cell < s.store.cells.size
  /-- The cells of every packing hold its ledger. -/
  regular : ∀ id p, s.Runs id p → p.Regular s.store.cells
  /-- They did so at every earlier checkpoint. -/
  past : ∀ id p, s.Runs id p → ∀ k < s.store.cells.checkpoint, p.Keeps (s.store.cells.restore k)
  /-- A probe hears of places below the capacity of its set only. -/
  hears : ∀ x, ∀ w ∈ s.watches x, ∀ p, s.propagators[w.2.propagator]? = some (.probe p) →
    w.2.place < p.seen.capacity

/-! ## Replacing propagators -/

theorem size_of_cores (h : t.propagators.map Propagator.core = s.propagators.map Propagator.core) :
    t.propagators.size = s.propagators.size := by
  simpa using congrArg Array.size h

/-- Every propagator stays what it is, apart from what changes from call to call. -/
theorem found_of_cores (h : t.propagators.map Propagator.core = s.propagators.map Propagator.core)
    {new : Propagator} (found : t.propagators[id]? = some new) :
    ∃ prop, s.propagators[id]? = some prop ∧ prop.core = new.core := by
  have same := congrArg (fun props => props[id]?) h
  simp only [Array.getElem?_map, found, Option.map_some] at same
  exact Option.map_eq_some_iff.1 same.symm

/-- A packing stays what it is, apart from its agenda and counters. -/
theorem runs_of_cores (h : t.propagators.map Propagator.core = s.propagators.map Propagator.core)
    {q : Packer} (runs : t.Runs id q) :
    ∃ p, s.Runs id p ∧ p.kind = q.kind ∧ p.packing = q.packing ∧ p.layout = q.layout := by
  obtain ⟨prop, found, core⟩ := found_of_cores h runs
  obtain ⟨p, rfl, rest⟩ := Propagator.core_eq_packing core
  exact ⟨p, found, rest⟩

/-- A propagator replaced by one with the same core. -/
theorem cores_set {props : Array Propagator} {id : Nat} {prop new : Propagator}
    (found : props[id]? = some prop) (core : new.core = prop.core) :
    (props.setIfInBounds id new).map Propagator.core = props.map Propagator.core := by
  refine Array.ext_getElem? fun j => ?_
  rw [Array.getElem?_map, Array.getElem?_map, Array.getElem?_setIfInBounds]
  split
  · rename_i same
    subst same
    rw [found]
    split <;> simp [core]
    rename_i outside
    rw [Array.getElem?_eq_none (Nat.not_lt.1 outside)] at found
    cases found
  · rfl

/-- A propagator after propagator `id` was replaced is another one or the new one. -/
theorem found_set {id j : Nat} {new prop : Propagator}
    (h : (s.propagators.setIfInBounds id new)[j]? = some prop) :
    j ≠ id ∧ s.propagators[j]? = some prop ∨ j = id ∧ new = prop := by
  rw [Array.getElem?_setIfInBounds] at h
  split at h
  · rename_i same
    split at h
    · exact .inr ⟨same.symm, Option.some.inj h⟩
    · cases h
  · rename_i other
    exact .inl ⟨Ne.symm other, h⟩

theorem runs_set {id j : Nat} {new : Propagator} {q : Packer}
    (h : (s.propagators.setIfInBounds id new)[j]? = some (.packing q)) :
    j ≠ id ∧ s.Runs j q ∨ j = id ∧ new = .packing q :=
  found_set h

namespace Allotted

/-! ## What keeps the cells allotted -/

/-- What a propagator does to its cells does not matter to a packing. -/
theorem read_of_alters (allotted : s.Allotted) {j : Nat} {prop : Propagator} {p : Packer} {cells : Cells}
    (found : s.propagators[id]? = some prop) (alters : Cells.Alters prop.Owns s.store.cells cells)
    (runs : s.Runs j p) (other : j ≠ id) (cell : Nat) (owns : p.layout.Owns p.packing cell) :
    cells.read cell = s.store.cells.read cell := by
  obtain ⟨key, has⟩ := Propagator.owns_packing.2 owns
  refine alters.others cell fun ⟨key', has'⟩ => other ?_
  exact (allotted.apart j id _ prop key key' cell runs found has has').1

/-- A propagator that changes cells only if it is no packing changes none of a packing. -/
theorem ledger_eq (allotted : s.Allotted) {j : Nat} {prop : Propagator} {p : Packer} {store : Store}
    (found : s.propagators[id]? = some prop) (alters : Cells.Alters prop.Owns s.store.cells store.cells)
    (packing : ∀ q, prop = .packing q → store.cells = s.store.cells) (runs : s.Runs j p) :
    store.ledger p = s.store.ledger p := by
  refine Packer.ledger_eq fun cell owns => ?_
  by_cases same : j = id
  · subst same
    rw [packing p (Option.some.inj (found.symm.trans runs))]
  · exact allotted.read_of_alters found alters runs same cell owns

/-- The propagators stay what they are, and the cells of the packings go on holding their ledgers. -/
theorem step (allotted : s.Allotted) (watchers : t.watchers = s.watchers)
    (cores : t.propagators.map Propagator.core = s.propagators.map Propagator.core)
    (size : t.store.cells.size = s.store.cells.size)
    (regular : ∀ id p, t.Runs id p → p.Regular t.store.cells)
    (past : ∀ id p, s.Runs id p → ∀ k < t.store.cells.checkpoint, p.Keeps (t.store.cells.restore k)) :
    t.Allotted := by
  refine ⟨fun id id' prop prop' key key' cell found found' has has' => ?_,
    fun id prop found cell ⟨key, has⟩ => ?_, regular, fun id q runs k earlier => ?_,
    fun x w member p found => ?_⟩
  · obtain ⟨old, before, core⟩ := found_of_cores cores found
    obtain ⟨old', before', core'⟩ := found_of_cores cores found'
    exact allotted.apart id id' old old' key key' cell before before'
      ((Propagator.has_of_core core).1 has) ((Propagator.has_of_core core').1 has')
  · obtain ⟨old, before, core⟩ := found_of_cores cores found
    rw [size]
    exact allotted.allocated id old before cell ⟨key, (Propagator.has_of_core core).1 has⟩
  · obtain ⟨p, before, -, packing, layout⟩ := runs_of_cores cores runs
    exact (past id p before k earlier).of_eq packing layout
  · obtain ⟨old, before, core⟩ := found_of_cores cores found
    cases Propagator.core_eq_probe core
    rw [State.watches, watchers] at member
    exact allotted.hears x w member p before

/-- The cells and the propagators stay what they are. -/
theorem of_eq (allotted : s.Allotted) (watchers : t.watchers = s.watchers)
    (propagators : t.propagators = s.propagators) (cells : t.store.cells = s.store.cells) : t.Allotted := by
  have runs {id : Nat} {p : Packer} (runs : t.Runs id p) : s.Runs id p := by rwa [Runs, ← propagators]
  refine allotted.step watchers (by rw [propagators]) (by rw [cells]) (fun id p now => ?_) fun id p now => ?_
  · rw [cells]
    exact allotted.regular id p (runs now)
  · rw [cells]
    exact allotted.past id p now

theorem withDomains (allotted : s.Allotted) (ds : Domains) : (s.withDomains ds).Allotted :=
  allotted.of_eq rfl rfl rfl

/-- **A propagator has changed, and with it its cells.** -/
theorem becomes (allotted : s.Allotted) {prop new : Propagator} (found : s.propagators[id]? = some prop)
    (becomes : prop.Becomes new s.store.cells t.store.cells) (watchers : t.watchers = s.watchers)
    (propagators : t.propagators = s.propagators.setIfInBounds id new) : t.Allotted := by
  have alters := becomes.alters
  have cores : t.propagators.map Propagator.core = s.propagators.map Propagator.core :=
    propagators ▸ cores_set found becomes.core
  refine allotted.step watchers cores alters.size (fun j p runs => ?_) fun j p runs k earlier => ?_
  · rw [Runs, propagators] at runs
    rcases runs_set runs with ⟨other, before⟩ | ⟨-, same⟩
    · obtain ⟨wf, keeps, dynamic⟩ := allotted.regular j p before
      exact ⟨wf, keeps.congr alters.size.ge (allotted.read_of_alters found alters before other), dynamic⟩
    · exact becomes.regular p same
  · have before := earlier.trans_eq alters.recovers.checkpoint
    rw [alters.recovers.restore k before]
    exact allotted.past j p runs k before

end Allotted

/-! ## Notifications -/

/-- The state after propagator `id` has heard of an event, with the queue of then. -/
def afterHearing (s : State) (id : Nat) (heard : Heard) (queue : Queue) : State :=
  { s with
    store := { s.store with cells := heard.cells }
    propagators := s.propagators.setIfInBounds id heard.propagator
    queue
    notes := s.notes ++ heard.notes.toArray }

/-- What is left after a propagator was told of an event. -/
theorem tell_eq_ok {e : Event} {w : Watch} (h : s.tell e w = .ok t) :
    ∃ prop heard queue, s.propagators[w.propagator]? = some prop ∧
      prop.notify w.propagator s.store w.place e = .ok heard ∧ t = s.afterHearing w.propagator heard queue := by
  simp only [tell, Table.fetch, bind, Except.bind, pure, Except.pure] at h
  cases found : s.propagators[w.propagator]? with
  | none => simp [found] at h
  | some prop =>
    simp only [found] at h
    split at h
    · cases h
    rename_i heard notified
    cases wake : heard.wake with
    | false =>
      simp only [wake] at h
      cases h
      exact ⟨prop, heard, s.queue, rfl, notified, rfl⟩
    | true =>
      simp only [wake, if_true] at h
      split at h
      · cases h
      · cases h
        exact ⟨prop, heard, _, rfl, notified, rfl⟩

namespace Allotted

theorem becomes_of_notify (allotted : s.Allotted) {x : Var} {e f : Event} {w : Watch} {prop : Propagator}
    {heard : Heard} (watch : (f, w) ∈ s.watches x) (found : s.propagators[w.propagator]? = some prop)
    (notified : prop.notify w.propagator s.store w.place e = .ok heard) :
    prop.Becomes heard.propagator s.store.cells heard.cells :=
  Propagator.becomes_of_notify (fun p same => allotted.regular _ p (found.trans (congrArg some same)))
    (fun p same => allotted.hears x _ watch p (found.trans (congrArg some same))) notified

/-- A notification leaves the ledgers of all packings alone. -/
theorem ledger_of_notify (allotted : s.Allotted) {x : Var} {e f : Event} {w : Watch} {prop : Propagator}
    {heard : Heard} (watch : (f, w) ∈ s.watches x) (found : s.propagators[w.propagator]? = some prop)
    (notified : prop.notify w.propagator s.store w.place e = .ok heard) {j : Nat} {p : Packer}
    (runs : s.Runs j p) : Store.ledger { s.store with cells := heard.cells } p = s.store.ledger p := by
  refine allotted.ledger_eq found (allotted.becomes_of_notify watch found notified).alters (fun q same => ?_) runs
  subst same
  obtain ⟨result, -, rfl⟩ := Propagator.notify_packing notified
  rfl

theorem tell (allotted : s.Allotted) {x : Var} {e f : Event} {w : Watch} (watch : (f, w) ∈ s.watches x)
    (h : s.tell e w = .ok t) : t.Allotted ∧ t.watchers = s.watchers := by
  obtain ⟨prop, heard, queue, found, notified, rfl⟩ := tell_eq_ok h
  exact ⟨allotted.becomes found (allotted.becomes_of_notify watch found notified) rfl rfl, rfl⟩

end Allotted

theorem registered_of_mem_announcements {v : Event × Watch} (h : v ∈ s.announcements) :
    ∃ x, v ∈ s.watches x := by
  obtain ⟨⟨e, x⟩, -, member⟩ := List.mem_flatMap.1 h
  exact ⟨x, (List.mem_filter.1 member).1⟩

/-! ## Calls -/

/-- The state after propagator `id` was called, with the queue without it. -/
def afterCalling (s : State) (id : Nat) (called : Called) (queue : Queue) : State :=
  { store := called.store
    watchers := s.watchers
    propagators := s.propagators.setIfInBounds id called.propagator
    queue
    totals := { s.totals with calls := s.totals.calls + 1 }
    notes := s.notes ++ called.notes.toArray }

theorem callPropagator_eq_ok {conflict : Option Conflict} {queue : Queue}
    (h : State.callPropagator { s with queue := queue } id = .ok (conflict, t)) :
    ∃ prop called, s.propagators[id]? = some prop ∧ prop.call id s.store = .ok called ∧
      (called.inconsistency = none ∧ conflict = none ∧
          (s.afterCalling id called queue).announce = .ok t ∨
        ∃ cause totals, called.inconsistency = some cause ∧ conflict = some ⟨id, cause⟩ ∧
          t = State.abandon { s.afterCalling id called queue with totals := totals } ∧
          totals.calls = s.totals.calls + 1) := by
  simp only [callPropagator, Table.fetch, bind, Except.bind, pure, Except.pure] at h
  cases found : s.propagators[id]? with
  | none => simp [found] at h
  | some prop =>
    simp only [found] at h
    cases call : prop.call id s.store with
    | error fault => simp [call] at h
    | ok called =>
      simp only [call] at h
      refine ⟨prop, called, rfl, call, ?_⟩
      cases fine : called.inconsistency with
      | none =>
        simp only [fine] at h
        split at h
        · cases h
        · rename_i u announced
          cases h
          exact .inl ⟨rfl, rfl, announced⟩
      | some cause =>
        simp only [fine, Except.ok.injEq, Prod.mk.injEq] at h
        exact .inr ⟨cause, _, rfl, h.1.symm, h.2.symm, rfl⟩

theorem propagate_eq_ok {conflict : Option Conflict} (h : s.propagate = .ok (conflict, t)) :
    ∃ u, s.announce = .ok u ∧ u.callWaiting u.callLimit = .ok (conflict, t) := by
  simp only [propagate, bind, Except.bind] at h
  split at h
  · cases h
  · rename_i u announced
    exact ⟨u, announced, h⟩

namespace Allotted

theorem becomes_of_call (allotted : s.Allotted) {prop : Propagator} {called : Called}
    (found : s.propagators[id]? = some prop) (call : prop.call id s.store = .ok called) :
    prop.Becomes called.propagator s.store.cells called.store.cells :=
  Propagator.becomes_of_call (fun p same => allotted.regular id p (found.trans (congrArg some same))) call

theorem afterCalling (allotted : s.Allotted) {prop : Propagator} {called : Called} {queue : Queue}
    (found : s.propagators[id]? = some prop) (call : prop.call id s.store = .ok called) :
    (s.afterCalling id called queue).Allotted :=
  allotted.becomes found (allotted.becomes_of_call found call) rfl rfl

/-! ## Checkpoints -/

/-- **A checkpoint keeps the cells allotted.** -/
theorem mark (allotted : s.Allotted) : State.Allotted { s with store := s.store.mark } := by
  refine allotted.step rfl rfl rfl (fun id p runs => ?_) fun id p runs k earlier => ?_
  · obtain ⟨wf, keeps, dynamic⟩ := allotted.regular id p runs
    exact ⟨wf, keeps.congr (Nat.le_refl _) fun _ _ => rfl, dynamic⟩
  · have before : k ≤ s.store.cells.checkpoint :=
      Nat.le_of_lt_succ (earlier.trans_eq (Trailed.checkpoint_mark s.store.cells))
    have view : Trailed.restore (Trailed.mark s.store.cells) k = s.store.cells.restore k :=
      Trailed.restore_mark s.store.cells before
    show p.Keeps (Trailed.restore (Trailed.mark s.store.cells) k)
    rw [view]
    rcases Nat.eq_or_lt_of_le before with same | less
    · rw [same, Trailed.restore_self]
      exact (allotted.regular id p runs).keeps
    · exact allotted.past id p runs k less

end Allotted

theorem found_of_discard {id : Nat} {st : Store} {new : Propagator}
    (h : ((s.propagators.mapIdx fun id prop => prop.discard id st).map (·.1))[id]? = some new) :
    ∃ prop, s.propagators[id]? = some prop ∧ (prop.discard id st).1 = new := by
  rw [Array.getElem?_map, Array.getElem?_mapIdx, Option.map_map] at h
  exact Option.map_eq_some_iff.1 h

theorem cores_discard (propagators : Array Propagator) (st : Store) :
    ((propagators.mapIdx fun id prop => prop.discard id st).map (·.1)).map Propagator.core =
      propagators.map Propagator.core := by
  refine Array.ext_getElem? fun id => ?_
  simp only [Array.getElem?_map, Array.getElem?_mapIdx, Option.map_map]
  cases propagators[id]? with
  | none => rfl
  | some prop => exact congrArg some (prop.core_discard id st)

/-- The cells go back, and the propagators discard what they had planned. -/
theorem Allotted.revert (allotted : s.Allotted) {k : Nat} {store : Store} (h : s.store.revert k = .ok store)
    (totals : Totals) : (State.discardPlans (State.abandon { s with store, totals })).Allotted := by
  simp only [Store.revert, bind, Except.bind, pure, Except.pure] at h
  split at h
  · cases h
  split at h
  · cases h
  rename_i cells reverted
  obtain ⟨earlier, rfl⟩ := Cells.revert_eq_ok reverted
  cases h
  refine allotted.step rfl (cores_discard _ _) (Trailed.size_restore _ _) (fun id q runs => ?_)
    fun id p runs j before => ?_
  · obtain ⟨prop, found, same⟩ := found_of_discard runs
    cases prop with
    | packing p =>
      cases same
      have past := allotted.past id p found k earlier
      exact ⟨(allotted.regular id p found).wf, past.of_eq rfl rfl, fun some => absurd rfl some⟩
    | precedence p => cases same
    | probe p => cases same
  · have less : j < k := by
      have checkpoint := before.trans_eq (Trailed.checkpoint_restore s.store.cells k)
      exact checkpoint.trans_le (Nat.min_le_left _ _)
    show p.Keeps (Trailed.restore (Trailed.restore s.store.cells k) j)
    rw [Trailed.restore_restore _ (Nat.le_of_lt less)]
    exact allotted.past id p runs j (less.trans earlier)

/-- **Going back keeps the cells allotted.** -/
theorem Allotted.restore (allotted : s.Allotted) {k : Nat} (h : s.restore k = .ok t) : t.Allotted := by
  simp only [State.restore, bind, Except.bind, pure, Except.pure] at h
  split at h
  · cases h
  split at h
  · cases h
    exact allotted
  split at h
  · cases h
  rename_i store reverted
  cases h
  exact allotted.revert reverted _

end State

end Stowage
