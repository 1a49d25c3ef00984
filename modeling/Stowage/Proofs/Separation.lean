import Stowage.Proofs.Seating

/-!
# A packing in a state of its own

Other propagators may be installed beside a packing, of other variables.  Whatever script is then followed,
the packing shows what it shows in a state of its own under its part of the script.

* `Move`, `State.move`, `State.moves` — what a script does.
* `Move.part`, `partOf` — the part of a step, and of a script, that concerns some variables.
* `State.Mirrors.moves` — a script is followed in both states.
* `State.Bare` — states of variables only.
* `State.Accords`, `State.Bare.accords` — a packing shows the same among others and on its own.
-/

set_option autoImplicit false

namespace Stowage

/-- A step of a script. -/
inductive Move where
  | install (blueprint : Blueprint)
  | post (q : Predicate)
  | propagate
  /-- Adds a checkpoint. -/
  | mark
  /-- Goes back to checkpoint `k`. -/
  | restore (k : Nat)
  deriving Repr

/-- The part of a step that concerns some variables, under their other names.  Propagators are installed
separately. -/
def Move.part (φ : Var → Var) (vars : List Var) : Move → Option Move
  | .install _ => none
  | .post q => if q.var ∈ vars then some (.post (q.relabel φ)) else none
  | .propagate => some .propagate
  | .mark => some .mark
  | .restore k => some (.restore k)

/-- The part of a script that concerns some variables. -/
def partOf (φ : Var → Var) (vars : List Var) (script : List Move) : List Move :=
  script.filterMap (Move.part φ vars)

theorem partOf_append (φ : Var → Var) (vars : List Var) (script script' : List Move) :
    partOf φ vars (script ++ script') = partOf φ vars script ++ partOf φ vars script' :=
  List.filterMap_append

@[simp] theorem partOf_install (φ : Var → Var) (vars : List Var) (blueprint : Blueprint) (script : List Move) :
    partOf φ vars (.install blueprint :: script) = partOf φ vars script := rfl

/-- A propagator that the step installs has its type. -/
def Move.Typed : Move → Prop
  | .install blueprint => blueprint.Typed
  | _ => True

/-- A propagator that the step installs cannot narrow the variables. -/
def Move.Spares (vars : List Var) : Move → Prop
  | .install blueprint => ∀ x ∈ vars, x ∉ blueprint.scope
  | _ => True

namespace State

/-- Takes a step; there is no state afterwards if an inconsistency was met. -/
def move (s : State) : Move → Except Fault (Option State)
  | .install blueprint => do
    let (_, t) ← s.install blueprint
    return some t
  | .post q => do
    let (posting, t) ← s.post q
    return if posting = .emptied then none else some t
  | .propagate => do
    let (conflict, t) ← s.propagate
    return if conflict.isSome then none else some t
  | .mark => do
    let t ← s.checkpointed
    return some t
  | .restore k => do
    let t ← s.restore k
    return some t

/-- Follows a script until it ends or an inconsistency is met. -/
def moves (s : State) : List Move → Except Fault (Option State)
  | [] => return some s
  | m :: script => do
    match ← s.move m with
    | none => return none
    | some t => t.moves script

variable {φ : Var → Var} {p : Packing} {seat : Option Seat} {s t s' t' : State} {m : Move}
  {script : List Move}

theorem move_install {blueprint : Blueprint} (h : s.move (.install blueprint) = .ok (some t)) :
    ∃ id, s.install blueprint = .ok (id, t) := by
  simp only [move, bind, Except.bind, pure, Except.pure] at h
  split at h
  · cases h
  · rename_i result step
    cases h
    exact ⟨result.1, step⟩

theorem move_post {q : Predicate} (h : s.move (.post q) = .ok (some t)) :
    ∃ posting, s.post q = .ok (posting, t) ∧ posting ≠ .emptied := by
  simp only [move, bind, Except.bind, pure, Except.pure] at h
  split at h
  · cases h
  · rename_i result step
    split at h
    · cases h
    · rename_i left
      cases h
      exact ⟨result.1, step, left⟩

theorem move_propagate (h : s.move .propagate = .ok (some t)) : s.propagate = .ok (none, t) := by
  simp only [move, bind, Except.bind, pure, Except.pure] at h
  split at h
  · cases h
  · rename_i result step
    split at h
    · cases h
    · rename_i fine
      cases h
      obtain ⟨conflict, t⟩ := result
      cases conflict with
      | none => exact step
      | some c => exact absurd rfl fine

theorem move_mark (h : s.move .mark = .ok (some t)) : s.checkpointed = .ok t := by
  simp only [move, bind, Except.bind, pure, Except.pure] at h
  split at h
  · cases h
  · rename_i step
    cases h
    exact step

theorem move_restore {k : Nat} (h : s.move (.restore k) = .ok (some t)) : s.restore k = .ok t := by
  simp only [move, bind, Except.bind, pure, Except.pure] at h
  split at h
  · cases h
  · rename_i step
    cases h
    exact step

theorem moves_cons (h : s.moves (m :: script) = .ok (some t)) :
    ∃ u, s.move m = .ok (some u) ∧ u.moves script = .ok (some t) := by
  simp only [moves, bind, Except.bind, pure, Except.pure] at h
  split at h
  · cases h
  · rename_i result step
    cases result with
    | none => cases h
    | some u => exact ⟨u, step, h⟩

theorem moves_cons_eq (step : s.move m = .ok (some t)) : s.moves (m :: script) = t.moves script := by
  simp only [moves, step, bind, Except.bind]

theorem moves_append {first last : List Move} (h : s.moves (first ++ last) = .ok (some t)) :
    ∃ u, s.moves first = .ok (some u) ∧ u.moves last = .ok (some t) := by
  induction first generalizing s with
  | nil => exact ⟨s, rfl, h⟩
  | cons m first ih =>
    obtain ⟨v, step, rest⟩ := moves_cons h
    obtain ⟨u, before, after⟩ := ih rest
    exact ⟨u, (moves_cons_eq step).trans before, after⟩

theorem moves_append_eq {first last : List Move} (h : s.moves first = .ok (some t)) :
    s.moves (first ++ last) = t.moves last := by
  induction first generalizing s with
  | nil =>
    cases h
    rfl
  | cons m first ih =>
    obtain ⟨v, step, rest⟩ := moves_cons h
    rw [List.cons_append, moves_cons_eq step, ih rest]

/-- **A step without an inconsistency leads to a state that can be reached.** -/
theorem Reached.move (reached : Reached false s) (typed : m.Typed)
    (h : s.move m = .ok (some t)) : Reached false t := by
  cases m with
  | install blueprint =>
    obtain ⟨id, step⟩ := move_install h
    exact .install reached typed step
  | post q =>
    obtain ⟨posting, step, left⟩ := move_post h
    have after := Reached.post reached step
    rwa [decide_eq_false left] at after
  | propagate => exact .propagate reached (move_propagate h)
  | mark => exact .checkpointed reached (move_mark h)
  | restore k => exact .restore reached nofun (move_restore h)

theorem Reached.moves (reached : Reached false s) (typed : ∀ m ∈ script, m.Typed)
    (run : s.moves script = .ok (some t)) : Reached false t := by
  induction script generalizing s with
  | nil =>
    cases run
    exact reached
  | cons m script ih =>
    obtain ⟨u, step, rest⟩ := moves_cons run
    exact ih (reached.move (typed m List.mem_cons_self) step)
      (fun m member => typed m (List.mem_cons_of_mem _ member)) rest

/-! ## Scripts in both states -/

/-- **A step is taken in both states**, as far as it concerns the packing. -/
theorem Mirrors.move (h : s.Mirrors φ p seat t) (wf : p.WellFormed)
    (inj : Set.InjOn φ {x | x ∈ p.vars}) (reached : Reached false s) (reached' : Reached false t)
    (typed : m.Typed) (spares : m.Spares p.vars) (step : s.move m = .ok (some s')) :
    ∃ t', t.moves (m.part φ p.vars).toList = .ok (some t') ∧ Reached false t' ∧
      s'.Mirrors φ p seat t' := by
  have cons := reached.consistent
  have cons' := reached'.consistent
  cases m with
  | install blueprint =>
    obtain ⟨id, install⟩ := move_install step
    exact ⟨t, rfl, reached', h.install_other cons typed spares install⟩
  | post q =>
    obtain ⟨posting, post, left⟩ := move_post step
    by_cases inside : q.var ∈ p.vars
    · obtain ⟨t', post', mirrors⟩ := h.post_own inj cons cons' inside post
      have move' : t.move (.post (q.relabel φ)) = .ok (some t') := by
        simp only [State.move, post', bind, Except.bind, left, if_false]
        rfl
      refine ⟨t', ?_, .move reached' (by trivial) move', mirrors⟩
      rw [Move.part, if_pos inside]
      exact moves_cons_eq move'
    · refine ⟨t, ?_, reached', h.post_other cons cons' inside post⟩
      rw [Move.part, if_neg inside]
      rfl
  | propagate =>
    obtain ⟨t', propagate', mirrors⟩ := h.propagate wf inj cons cons' (move_propagate step)
    have move' : t.move .propagate = .ok (some t') := by
      simp only [State.move, propagate', bind, Except.bind]
      rfl
    exact ⟨t', moves_cons_eq move', .move reached' (by trivial) move', mirrors⟩
  | mark =>
    obtain ⟨t', mark', mirrors⟩ := h.checkpointed cons cons' (move_mark step)
    have move' : t.move .mark = .ok (some t') := by
      simp only [State.move, mark', bind, Except.bind]
      rfl
    exact ⟨t', moves_cons_eq move', .move reached' (by trivial) move', mirrors⟩
  | restore k =>
    obtain ⟨t', restore', mirrors⟩ := h.restore cons.toFrame cons'.toFrame (move_restore step)
    have move' : t.move (.restore k) = .ok (some t') := by
      simp only [State.move, restore', bind, Except.bind]
      rfl
    exact ⟨t', moves_cons_eq move', .move reached' (by trivial) move', mirrors⟩

/-- **A script is followed in both states**, as far as it concerns the packing. -/
theorem Mirrors.moves (h : s.Mirrors φ p seat t) (wf : p.WellFormed)
    (inj : Set.InjOn φ {x | x ∈ p.vars}) (reached : Reached false s) (reached' : Reached false t)
    (typed : ∀ m ∈ script, m.Typed) (spares : ∀ m ∈ script, m.Spares p.vars)
    (run : s.moves script = .ok (some s')) :
    ∃ t', t.moves (partOf φ p.vars script) = .ok (some t') ∧ Reached false s' ∧ Reached false t' ∧
      s'.Mirrors φ p seat t' := by
  induction script generalizing s t with
  | nil =>
    cases run
    exact ⟨t, rfl, reached, reached', h⟩
  | cons m script ih =>
    obtain ⟨u, step, rest⟩ := moves_cons run
    have typed' := typed m List.mem_cons_self
    obtain ⟨u', part, reachedU', mirrors⟩ := h.move wf inj reached reached' typed'
      (spares m List.mem_cons_self) step
    obtain ⟨t', parts, reachedS, reachedT, mirrors'⟩ := ih mirrors (reached.move typed' step) reachedU'
      (fun m member => typed m (List.mem_cons_of_mem _ member))
      (fun m member => spares m (List.mem_cons_of_mem _ member)) rest
    refine ⟨t', ?_, reachedS, reachedT, mirrors'⟩
    have split : partOf φ p.vars (m :: script) = (m.part φ p.vars).toList ++ partOf φ p.vars script := by
      unfold partOf
      rw [List.filterMap_cons]
      cases m.part φ p.vars <;> rfl
    rw [split, moves_append_eq part, parts]

/-! ## States of variables only -/

/-- The state has variables only. -/
inductive Bare : State → Prop
  | empty : Bare .empty
  | create {s t : State} {lower upper : Int} {x : Var} (before : Bare s)
      (step : s.create lower upper = .ok (x, t)) : Bare t

theorem Bare.reached (h : Bare s) : Reached false s := by
  induction h with
  | empty => exact .empty
  | create before step ih => exact .create ih step

/-- No propagator is there, none waits, no event waits, and nobody watches a variable. -/
theorem Bare.nothing (h : Bare s) : s.propagators = #[] ∧ s.queue.toList = [] ∧
    s.domains.pending = .empty ∧ s.checkpoint = 0 ∧ ∀ x, s.watches x = [] := by
  induction h with
  | empty => exact ⟨rfl, rfl, rfl, rfl, fun x => rfl⟩
  | create before step ih =>
    obtain ⟨-, -, rfl⟩ := create_eq_ok step
    obtain ⟨props, queue, pending, root, watches⟩ := ih
    exact ⟨props, queue, pending, root, fun x => (watches_withNew _ _ x).trans (watches x)⟩

/-- States of variables only mirror each other. -/
theorem Bare.mirrors (h : Bare s) (h' : Bare t)
    (same : ∀ x ∈ p.vars, t.domains.table.get? (φ x) = s.domains.table.get? x) :
    s.Mirrors φ p none t := by
  obtain ⟨props, queue, pending, root, -⟩ := h.nothing
  obtain ⟨props', queue', pending', root', watches'⟩ := h'.nothing
  have pending : s.store.domains.pending = .empty := pending
  have pending' : t.store.domains.pending = .empty := pending'
  refine ⟨⟨⟨⟨same, ?_⟩, nofun, ?_⟩, fun k hk => ?_, root'.trans root.symm⟩,
    ⟨fun x _ => (watches' _).trans (told_none _).symm, fun x _ => told_none _⟩,
    ⟨fun id prop found => ?_, nofun, fun id bound => ?_⟩, .empty queue queue'⟩
  · rw [pending, pending']
    rfl
  · rw [pending']
    exact fun w member => absurd member List.not_mem_nil
  · have hk : k < s.checkpoint := hk
    omega
  · rw [props] at found
    cases found
  · rw [props'] at bound
    cases bound

/-! ## A packing among others and on its own -/

/-- Both states show the same of a packing: the domains of its items and loads, and its ledger, with the
candidates and loads of every bin.  In the second state the packing is propagator 0. -/
structure Accords (φ : Var → Var) (p : Packing) (s t : State) : Prop where
  domains : ∀ x ∈ p.vars, t.domains.domain (φ x) = s.domains.domain x
  ledger : ∃ (id : Nat) (q q' : Packer), s.Runs id q ∧ q.packing = p ∧ t.propagators = #[.packing q'] ∧
    q'.packing = p.relabel φ ∧ t.store.ledger q' = s.store.ledger q
  checkpoint : t.checkpoint = s.checkpoint
  /-- At a fixed point both states are. -/
  quiet : s.Quiet → t.Quiet

theorem Mirrors.accords {a : Seat} (h : s.Mirrors φ p (some a) t) : s.Accords φ p t := by
  obtain ⟨q, here, packing, layout, there⟩ := h.staffed.seated a rfl
  subst packing
  refine ⟨fun x inside => h.store.now.domains.domain inside, ⟨a.id, q, q.relabel φ a.ownLayout, here,
    rfl, ?_, rfl, ?_⟩, h.store.checkpoint, h.quiet⟩
  swap
  · exact (h.store.now.ledger a rfl).trans (by rw [← layout]; rfl)
  have exist : 0 < t.propagators.size := (Array.getElem?_eq_some_iff.1 there).1
  have alone : t.propagators.size = 1 := by
    by_contra more
    exact absurd (h.staffed.sole 1 (by omega)).1 (by decide)
  obtain ⟨prop, shape⟩ := Array.size_eq_one_iff.1 alone
  rw [shape] at there ⊢
  cases there
  rfl

/-- **A packing shows what it shows in a state of its own**, where its part of the script is followed,
whatever is installed beside it that cannot narrow its variables. -/
theorem Bare.accords (bare : s.Bare) (bare' : t.Bare) {kind : PackingKind} {before after : List Move}
    (inj : Set.InjOn φ {x | x ∈ p.vars})
    (same : ∀ x ∈ p.vars, t.domains.table.get? (φ x) = s.domains.table.get? x)
    (kinded : (Blueprint.packing kind p).Typed) (typed : ∀ m ∈ before ++ after, m.Typed)
    (spares : ∀ m ∈ before ++ after, m.Spares p.vars)
    (run : s.moves (before ++ .install (.packing kind p) :: after) = .ok (some s')) :
    ∃ t', t.moves (partOf φ p.vars before ++
        .install (.packing kind (p.relabel φ)) :: partOf φ p.vars after) = .ok (some t') ∧
      s'.Accords φ p t' := by
  obtain ⟨u, first, rest⟩ := moves_append run
  obtain ⟨v, step, last⟩ := moves_cons rest
  obtain ⟨id, install⟩ := move_install step
  obtain ⟨shape, -⟩ := installPacking_eq_ok install
  obtain ⟨wf, -⟩ := Packing.wellFormed_of_checkShape shape
  obtain ⟨u', first', reachedU, reachedU', mirrorsU⟩ := (bare.mirrors bare' same).moves wf inj
    bare.reached bare'.reached (fun m member => typed m (List.mem_append_left _ member))
    (fun m member => spares m (List.mem_append_left _ member)) first
  obtain ⟨v', install', mirrorsV⟩ := mirrorsU.install_own inj reachedU.consistent reachedU'.consistent
    install
  have step' : u'.move (.install (.packing kind (p.relabel φ))) = .ok (some v') := by
    simp only [State.move, install', bind, Except.bind]
    rfl
  have kinded' : (Blueprint.packing kind (p.relabel φ)).Typed := by
    cases kind with
    | single => trivial
    | vector => exact kinded
  obtain ⟨t', last', -, -, mirrors⟩ := mirrorsV.moves wf inj (.install reachedU kinded install)
    (.install reachedU' kinded' install') (fun m member => typed m (List.mem_append_right _ member))
    (fun m member => spares m (List.mem_append_right _ member)) last
  refine ⟨t', ?_, mirrors.accords⟩
  rw [moves_append_eq first', moves_cons_eq step', last']

end State

end Stowage
