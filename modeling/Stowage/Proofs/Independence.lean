import Stowage.Constraint
import Stowage.Proofs.Separation

/-!
# Packings do not interfere

All packings of a state share its domains, its events, its queue and its checkpoints, and what they
remember is kept in one table of cells.  Yet a packing changes nothing that belongs to another propagator: a
call changes no domain but those of its own items and loads, and no cell but those that were allocated when
it was installed, and a notification changes none.  Two packings of different variables therefore show what
each of them shows in a state of its own.

* `State.Partitions` — every propagator has cells of its own, from the block that its installation allocated;
  `State.Recorded.partitions`.
* `State.LeavesAlone` — what does not change when a propagator is called; `State.Consistent.call_leaves_alone`.
* `State.Consistent.ledger_of_path`, `State.store_of_tell` — every moment of a call, and a notification.
* `State.Excerpt` — a state with the variables of one packing.
* `State.packings_do_not_interfere` — all of this in every state that can be reached, and after every script.
-/

set_option autoImplicit false

namespace Stowage

namespace State

section

variable {s t u : State} {id : Nat} {prop : Propagator} {p : Packer}

/-! ## Blocks of cells -/

/-- The cells of every propagator are from its block. -/
structure Housed (s : State) (blocks : List (Nat × Nat)) : Prop where
  length : blocks.length = s.propagators.size
  own : ∀ (id : Nat) (prop : Propagator), s.propagators[id]? = some prop → ∃ block,
    blocks[id]? = some block ∧ ∀ cell, prop.Owns cell → block.1 ≤ cell ∧ cell < block.2

/-- No cell holds two of the things that propagators keep, and the cells of a propagator exist and are from
its block. -/
structure Partitions (s : State) (blocks : List (Nat × Nat)) : Prop extends s.Housed blocks where
  apart : ∀ (id id' : Nat) (prop prop' : Propagator) (key key' : Propagator.Key) (cell : Nat),
    s.propagators[id]? = some prop → s.propagators[id']? = some prop' →
    prop.Has key cell → prop'.Has key' cell → id = id' ∧ key = key'
  exist : ∀ (id : Nat) (prop : Propagator), s.propagators[id]? = some prop →
    ∀ cell, prop.Owns cell → cell < s.store.cells.size

namespace Housed

variable {blocks : List (Nat × Nat)}

/-- Every propagator stays what it is, apart from what changes from call to call. -/
theorem of_cores (h : s.Housed blocks)
    (cores : t.propagators.map Propagator.core = s.propagators.map Propagator.core) : t.Housed blocks where
  length := h.length.trans (size_of_cores cores).symm
  own id new found := by
    obtain ⟨prop, before, core⟩ := found_of_cores cores found
    obtain ⟨block, place, inside⟩ := h.own id prop before
    exact ⟨block, place, fun cell ⟨key, has⟩ => inside cell ⟨key, (Propagator.has_of_core core).1 has⟩⟩

/-- A propagator is installed, and its cells are new. -/
theorem install (h : s.Housed blocks) (enlarges : Enlarges s t prop) :
    t.Housed (blocks ++ [(s.store.cells.size, t.store.cells.size)]) where
  length := by simp [enlarges.propagators, h.length]
  own id new found := by
    rcases enlarges.found found with before | ⟨rfl, rfl⟩
    · obtain ⟨block, place, inside⟩ := h.own id new before
      exact ⟨block, List.getElem?_append_left (List.getElem?_eq_some_iff.1 place).1 ▸ place, inside⟩
    · exact ⟨_, by rw [← h.length, List.getElem?_concat_length], enlarges.new⟩

end Housed

/-- **The cells of every propagator were allocated when it was installed.** -/
theorem Recorded.housed {broken : Bool} {h : History} (r : Recorded broken h s) : s.Housed h.blocks := by
  induction r with
  | empty => exact ⟨rfl, fun id prop found => by cases found⟩
  | create before step ih =>
    obtain ⟨-, -, rfl⟩ := create_eq_ok step
    exact ih.of_cores rfl
  | install before typed step ih =>
    obtain ⟨prop, installs⟩ := (before.invariant.2.2 rfl).1.installs typed step
    exact ih.install installs.toEnlarges
  | register before exist own step ih =>
    rw [(watch_eq_ok step).2]
    exact ih.of_cores rfl
  | post before step ih => exact ih.of_cores (evolves_post step).cores
  | announce before step ih =>
    obtain ⟨u, done, -, evolves, -⟩ := announce_spec (before.invariant.2.2 rfl).1
    cases step.symm.trans done
    exact ih.of_cores evolves.cores
  | call before quiet pop found call fine posts ih =>
    have cons := (before.invariant.2.2 rfl).1
    have calls := Propagator.call_spec cons.healthy (cons.ready_of_found found) call
    exact ih.of_cores (evolves_afterCalling found calls pop).cores
  | conflict before quiet pop step ih =>
    exact ih.of_cores (callPropagator_spec (before.invariant.2.2 rfl).1 quiet pop step).1.cores
  | checkpointed before step ih =>
    obtain ⟨-, rfl⟩ := checkpointed_eq_ok step
    exact ih.of_cores rfl
  | restore before earlier step ih =>
    rw [restore_eq before.invariant.1 earlier] at step
    cases step
    exact ih.of_cores (cores_discard _ _)

theorem Recorded.partitions {broken : Bool} {h : History} (r : Recorded broken h s) :
    s.Partitions h.blocks :=
  { r.housed with apart := r.invariant.1.allotted.apart, exist := r.invariant.1.allotted.allocated }

/-! ## Calls and notifications -/

/-- Nothing that belongs to others is different in the store: no domain but those that the propagator can
narrow, and no cell but its own. -/
structure LeavesAlone (s : State) (id : Nat) (prop : Propagator) (store : Store) : Prop where
  domains : ∀ x, x ∉ prop.scope → store.domains.table.get? x = s.domains.table.get? x
  size : store.cells.size = s.store.cells.size
  cells : ∀ cell, ¬prop.Owns cell → store.cells.read cell = s.store.cells.read cell
  ledgers : ∀ id' p, id' ≠ id → s.Runs id' p → store.ledger p = s.store.ledger p

/-- **A call leaves alone what belongs to others**, also if it finds an inconsistency. -/
theorem Consistent.call_leaves_alone (cons : s.Consistent) (found : s.propagators[id]? = some prop)
    {called : Called} (call : prop.call id s.store = .ok called) : s.LeavesAlone id prop called.store := by
  have ready := cons.ready_of_found found
  have calls := Propagator.call_spec cons.healthy ready call
  exact ⟨(Propagator.alters_call ready call).others, calls.alters.size, calls.alters.others,
    fun id' p other runs => cons.toFrame.ledger_of_calls found calls runs other⟩

/-- **At every moment of a call the cells hold the ledger** that the call goes by. -/
theorem Consistent.ledger_of_path (cons : s.Consistent) (runs : s.Runs id p) {desk : Desk}
    (path : Desk.Path p.packing (p.desk s.store) desk) : desk.store.ledger p = desk.ledger := by
  obtain ⟨⟨wf, keeps, -⟩, ready⟩ := cons.ready_of_found runs p rfl
  obtain ⟨valid, writes⟩ := path.writes wf ready.toValid
  exact (writes.shows valid.tracks.formed keeps.apart keeps.shows').2

/-- **A notification of a packing changes nothing that is restored on backtracking.** -/
theorem store_of_tell {e : Event} {w : Watch} (runs : s.Runs w.propagator p) (step : s.tell e w = .ok t) :
    t.store = s.store := by
  obtain ⟨prop, heard, queue, found, notify, rfl⟩ := tell_eq_ok step
  cases runs.symm.trans found
  obtain ⟨result, -, rfl⟩ := Propagator.notify_packing notify
  rfl

/-! ## Two packings -/

/-- A state of variables only, which has those of a packing under other names as another state has them. -/
structure Excerpt (t : State) (φ : Var → Var) (p : Packing) (s : State) : Prop where
  bare : t.Bare
  inj : Set.InjOn φ {x | x ∈ p.vars}
  same : ∀ x ∈ p.vars, t.domains.table.get? (φ x) = s.domains.table.get? x

/-- **Two packings of different variables show what each of them shows in a state of its own**, with any
script before, between and after their installations. -/
theorem Bare.accords_both {φ ψ : Var → Var} {kind kind' : PackingKind} {p r : Packing}
    {first mid last : List Move} {s' : State} (bare : s.Bare) (own : t.Excerpt φ p s)
    (own' : u.Excerpt ψ r s) (apart : ∀ x ∈ p.vars, x ∉ r.vars) (typed : (Blueprint.packing kind p).Typed)
    (typed' : (Blueprint.packing kind' r).Typed)
    (spares : ∀ m ∈ first ++ mid ++ last, m.Typed ∧ m.Spares p.vars ∧ m.Spares r.vars)
    (run : s.moves (first ++ .install (.packing kind p) :: (mid ++ .install (.packing kind' r) :: last)) =
      .ok (some s')) :
    (∃ t', t.moves (partOf φ p.vars first ++ .install (.packing kind (p.relabel φ)) ::
        partOf φ p.vars (mid ++ last)) = .ok (some t') ∧ s'.Accords φ p t') ∧
      ∃ u', u.moves (partOf ψ r.vars (first ++ mid) ++ .install (.packing kind' (r.relabel ψ)) ::
        partOf ψ r.vars last) = .ok (some u') ∧ s'.Accords ψ r u' := by
  simp only [List.mem_append, or_assoc] at spares
  -- to each packing, the installation of the other one is a step that spares its variables
  have others (m : Move) (member : m ∈ first ++ (mid ++ .install (.packing kind' r) :: last)) :
      m.Typed ∧ m.Spares p.vars := by
    simp only [List.mem_append, List.mem_cons] at member
    rcases member with old | old | rfl | old
    · exact (spares m (.inl old)).imp_right And.left
    · exact (spares m (.inr (.inl old))).imp_right And.left
    · exact ⟨typed', apart⟩
    · exact (spares m (.inr (.inr old))).imp_right And.left
  have others' (m : Move) (member : m ∈ (first ++ .install (.packing kind p) :: mid) ++ last) :
      m.Typed ∧ m.Spares r.vars := by
    simp only [List.mem_append, List.mem_cons] at member
    rcases member with (old | rfl | old) | old
    · exact (spares m (.inl old)).imp_right And.right
    · exact ⟨typed, fun x inside inside' => apart x inside' inside⟩
    · exact (spares m (.inr (.inl old))).imp_right And.right
    · exact (spares m (.inr (.inr old))).imp_right And.right
  constructor
  · obtain ⟨t', moves, accords⟩ := bare.accords own.bare own.inj own.same typed
      (fun m member => (others m member).1) (fun m member => (others m member).2) run
    rw [partOf_append, partOf_install, ← partOf_append] at moves
    exact ⟨t', moves, accords⟩
  · rw [← List.cons_append, ← List.append_assoc] at run
    obtain ⟨u', moves, accords⟩ := bare.accords own'.bare own'.inj own'.same typed'
      (fun m member => (others' m member).1) (fun m member => (others' m member).2) run
    rw [partOf_append, partOf_install, ← partOf_append] at moves
    exact ⟨u', moves, accords⟩

/-- **Packings do not interfere.**  A notification of a packing changes neither domains nor cells.  In every
state that can be reached, also during a propagation, each propagator has cells of its own, which were
allocated when it was installed; calls leave alone what belongs to others, and those of packings go by what
their cells hold.  Two packings of different variables, with any script around their installation, show what
each of them shows in a state of its own under its part of the script. -/
theorem packings_do_not_interfere :
    (∀ (s t : State) (e : Event) (w : Watch) (p : Packer),
      s.Runs w.propagator p → s.tell e w = .ok t → t.store = s.store) ∧
    (∀ broken h s, Recorded broken h s → s.Partitions h.blocks ∧ (broken = false →
      (∀ id prop called, s.propagators[id]? = some prop → prop.call id s.store = .ok called →
        s.LeavesAlone id prop called.store) ∧
      ∀ id p, s.Runs id p → (∃ called, (Propagator.packing p).call id s.store = .ok called) ∧
        ∀ desk, Desk.Path p.packing (p.desk s.store) desk → desk.store.ledger p = desk.ledger)) ∧
    ∀ (φ ψ : Var → Var) (kind kind' : PackingKind) (p r : Packing) (first mid last : List Move)
      (s t u s' : State), s.Bare → t.Excerpt φ p s → u.Excerpt ψ r s → (∀ x ∈ p.vars, x ∉ r.vars) →
      (Blueprint.packing kind p).Typed → (Blueprint.packing kind' r).Typed →
      (∀ m ∈ first ++ mid ++ last, m.Typed ∧ m.Spares p.vars ∧ m.Spares r.vars) →
      s.moves (first ++ .install (.packing kind p) :: (mid ++ .install (.packing kind' r) :: last)) =
        .ok (some s') →
      (∃ t', t.moves (partOf φ p.vars first ++ .install (.packing kind (p.relabel φ)) ::
          partOf φ p.vars (mid ++ last)) = .ok (some t') ∧ s'.Accords φ p t') ∧
      ∃ u', u.moves (partOf ψ r.vars (first ++ mid) ++ .install (.packing kind' (r.relabel ψ)) ::
          partOf ψ r.vars last) = .ok (some u') ∧ s'.Accords ψ r u' := by
  refine ⟨fun s t e w p runs step => store_of_tell runs step, fun broken h s recorded => ?_, ?_⟩
  · refine ⟨recorded.partitions, fun fine => ?_⟩
    subst fine
    have cons := (recorded.invariant.2.2 rfl).1
    refine ⟨fun id prop called found call => cons.call_leaves_alone found call, fun id p runs => ?_⟩
    obtain ⟨regular, ready⟩ := cons.ready_of_found runs p rfl
    obtain ⟨called, call, -⟩ := Packer.call_spec regular ready id
    exact ⟨⟨called, call⟩, fun desk path => cons.ledger_of_path runs path⟩
  · intro φ ψ kind kind' p r first mid last s t u s' bare own own' apart typed typed' spares run
    exact bare.accords_both own own' apart typed typed' spares run

end

/-! ## An example -/

/-- The three variables of the small example, twice. -/
def smallTwice : State := after ((after ((after (small.create (-1) 1)).create 0 5)).create 0 5)

/-- The small packing, of the second three variables. -/
def secondPacking : Packing := ⟨#[3], #[#[2]], #[#[4, 5]], .dynamic, by decide⟩

/-- The second item is placed, which is undone, and then the first one is placed. -/
def placeBoth : List Move :=
  [.propagate, .mark, .post (.atLeast 3 1), .propagate, .restore 0, .post (.atMost 0 0), .propagate]

theorem bare_small : small.Bare :=
  .create (.create (.create .empty (show State.empty.create (-1) 1 = .ok (0, _) by cbv))
    (show State.create _ 0 5 = .ok (1, _) by cbv)) (show State.create _ 0 5 = .ok (2, small) by cbv)

theorem bare_smallTwice : smallTwice.Bare :=
  .create (.create (.create bare_small (show small.create (-1) 1 = .ok (3, _) by cbv))
    (show State.create _ 0 5 = .ok (4, _) by cbv)) (show State.create _ 0 5 = .ok (5, smallTwice) by cbv)

/-- Both packings are installed and propagated, and then both are placed. -/
def smallScript : List Move :=
  .install (.packing .single smallPacking) :: .propagate ::
    .install (.packing .single secondPacking) :: placeBoth

/-- The state after the script. -/
def bothPlaced : State := ((smallTwice.moves smallScript).toOption.join).getD .empty

theorem moves_smallScript : smallTwice.moves smallScript = .ok (some bothPlaced) := by cbv

theorem reached_bothPlaced : Reached false bothPlaced :=
  bare_smallTwice.reached.moves (by simp [smallScript, placeBoth, Move.Typed, Blueprint.Typed])
    moves_smallScript

/-- The packings of the first and of the second three variables of one state show what each of them shows
in a state of three variables.  A call of the first one leaves alone what belongs to the second, and a
notification leaves everything alone. -/
theorem two_small_packings_do_not_interfere :
    ∃ t u, small.moves (.install (.packing .single (smallPacking.relabel id)) ::
        [.propagate, .propagate, .mark, .propagate, .restore 0, .post (.atMost 0 0), .propagate]) =
          .ok (some t) ∧ bothPlaced.Accords id smallPacking t ∧
      small.moves (.propagate :: .install (.packing .single (secondPacking.relabel (· - 3))) ::
        [.propagate, .mark, .post (.atLeast 0 1), .propagate, .restore 0, .propagate]) =
          .ok (some u) ∧ bothPlaced.Accords (· - 3) secondPacking u ∧
      ∃ h p q, Recorded false h bothPlaced ∧ bothPlaced.Partitions h.blocks ∧ bothPlaced.Runs 0 p ∧
        bothPlaced.Runs 1 q ∧
        (∃ called, (Propagator.packing p).call 0 bothPlaced.store = .ok called ∧
          bothPlaced.LeavesAlone 0 (.packing p) called.store ∧
          called.store.ledger q = bothPlaced.store.ledger q) ∧
        ∃ v, bothPlaced.tell .assign ⟨0, 0⟩ = .ok v ∧ v.store = bothPlaced.store := by
  obtain ⟨hears, separate, alone⟩ := packings_do_not_interfere
  have first : small.Excerpt id smallPacking smallTwice := by
    have vars : smallPacking.vars = [0, 1, 2] := rfl
    refine ⟨bare_small, Function.injective_id.injOn, ?_⟩
    simp only [vars, List.forall_mem_cons]
    refine ⟨?_, ?_, ?_, nofun⟩ <;> cbv
  have second : small.Excerpt (· - 3) secondPacking smallTwice := by
    have vars : secondPacking.vars = [3, 4, 5] := rfl
    have least : ∀ x ∈ secondPacking.vars, 3 ≤ x := by decide
    refine ⟨bare_small, fun x inside y inside' same => ?_, ?_⟩
    · exact (tsub_left_inj (least x inside) (least y inside')).1 same
    · simp only [vars, List.forall_mem_cons]
      refine ⟨?_, ?_, ?_, nofun⟩ <;> cbv
  obtain ⟨⟨t, run, accords⟩, u, run', accords'⟩ := alone id (· - 3) .single .single smallPacking
    secondPacking [] [.propagate] placeBoth smallTwice small small bothPlaced bare_smallTwice first second
    (by decide) trivial trivial (by simp [placeBoth, Move.Typed, Move.Spares]) moves_smallScript
  obtain ⟨h, recorded⟩ := reached_bothPlaced.recorded
  obtain ⟨partitions, leaves⟩ := separate false h bothPlaced recorded
  obtain ⟨calls, packs⟩ := leaves rfl
  obtain ⟨p, runs⟩ : ∃ p, bothPlaced.Runs 0 p :=
    ⟨_, by show bothPlaced.propagators[0]? = some (.packing _); cbv⟩
  obtain ⟨q, runs'⟩ : ∃ q, bothPlaced.Runs 1 q :=
    ⟨_, by show bothPlaced.propagators[1]? = some (.packing _); cbv⟩
  obtain ⟨⟨called, call⟩, -⟩ := packs 0 p runs
  have leaves := calls 0 _ called runs call
  obtain ⟨v, tell⟩ : ∃ v, bothPlaced.tell .assign ⟨0, 0⟩ = .ok v := ⟨_, by cbv⟩
  exact ⟨t, u, run, accords, run', accords', h, p, q, recorded, partitions, runs, runs',
    ⟨called, call, leaves, leaves.ledgers 1 q Nat.one_ne_zero runs'⟩, v, tell, hears _ v _ _ p runs tell⟩

end State

end Stowage
