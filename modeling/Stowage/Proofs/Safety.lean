import Stowage.Session
import Stowage.Proofs.Scripts
import Stowage.Proofs.Stability

/-!
# Commands do not fault

A session creates variables, adds packings, posts, propagates, adds checkpoints, goes back and
recomputes.  As long as it keeps to what is documented, no access is out of range and no assertion
fails: the variables of a command exist, a checkpoint is added only after a propagation, and after an
inconsistency the state goes back to an earlier checkpoint or the session ends.  Only the range of the
values can be left, by an interval or by a post.

* `State.Packed` — the states such a session gets to, with one lemma for every command.
* `Stage` — a state with what the answers have told about it, and what may be asked next.
* `Stage.allInRange` — nothing that is asked leaves the range of the values.
* `Stage.Sound.step`, `Stage.Sound.run` — one command, and all of them.
* `Stage.documented_use_never_faults` — the theorem.
-/

set_option autoImplicit false

namespace Stowage

namespace State

variable {s t : State} {k : Nat} {broken : Bool}

/-- The state can be reached, and all its propagators are packings; the flag tells whether an
inconsistency is left in it. -/
structure Packed (broken : Bool) (s : State) : Prop where
  reached : Reached broken s
  only : s.OnlyPackings

theorem packed_empty : Packed false .empty := by
  refine ⟨.empty, fun id prop found => ?_⟩
  simp [State.empty] at found

/-! ## Recomputation -/

/-- **A recomputation does not fault**, whatever waits to be propagated. -/
theorem Packed.recompute (h : Packed false s) {id : Nat} (inside : id < s.propagators.size) :
    ∃ r, s.recompute id = .ok r := by
  have cons := h.reached.consistent
  have found := Array.getElem?_eq_getElem inside
  obtain ⟨p, same⟩ := h.only id _ found
  have installed := cons.installed id p (found.trans (congrArg some same))
  simp only [State.recompute, Table.fetch, found, same, Propagator.recompute, bind, Except.bind]
  rcases Packing.recompute_cases installed.wf cons.healthy installed.known with
    ⟨ds, result, -⟩ | ⟨cause, ds, result, -⟩
  · rw [result]
    exact ⟨_, rfl⟩
  · rw [result]
    exact ⟨_, rfl⟩

theorem Packed.areStable (h : Packed false s) {ids : List Nat}
    (inside : ∀ id ∈ ids, id < s.propagators.size) : ∃ stable, s.areStable ids = .ok stable := by
  induction ids with
  | nil => exact ⟨true, rfl⟩
  | cons id ids ih =>
    obtain ⟨⟨conflict, ds⟩, first⟩ := h.recompute (inside id List.mem_cons_self)
    obtain ⟨stable, rest⟩ := ih fun j member => inside j (List.mem_cons_of_mem _ member)
    simp only [State.areStable, first, rest, bind, Except.bind, pure, Except.pure]
    split
    · exact ⟨_, rfl⟩
    · exact ⟨_, rfl⟩

theorem Packed.isStable (h : Packed false s) : ∃ stable, s.isStable = .ok stable :=
  h.areStable fun _ member => List.mem_range.1 member

/-- Where nothing waits to be propagated, a recomputation finds nothing that was missed. -/
theorem Packed.isStable_of_quiet (h : Packed false s) (quiet : s.Quiet) : s.isStable = .ok true := by
  have unprobed : s.Unprobed := by
    intro id p found
    obtain ⟨q, same⟩ := h.only id _ found
    cases same
  apply areStable_of_recompute
  intro id member
  have inside := List.mem_range.1 member
  exact (h.reached.rooted h.only).recompute quiet unprobed (Array.getElem?_eq_getElem inside)

/-! ## Commands, one by one -/

theorem Packed.createMany (h : Packed false s) {lower upper : Int}
    {count : Nat} (proper : 0 < count → (Domain.interval lower upper).Proper) :
    ∃ xs t, s.createMany lower upper count = .ok (xs, t) ∧ Packed false t ∧ (s.Quiet → t.Quiet) := by
  induction count generalizing s with
  | zero => exact ⟨[], s, rfl, h, id⟩
  | succ count ih =>
    have first : s.create lower upper =
        .ok (s.domains.count, s.withNew (.interval lower upper)) := by
      simp only [State.create, Domains.create_of_proper s.domains (proper count.succ_pos), bind,
        Except.bind, pure, Except.pure]
      rfl
    have packed : Packed false (s.withNew (.interval lower upper)) :=
      ⟨.create h.reached first, h.only⟩
    obtain ⟨xs, t, rest, packedT, quietT⟩ := ih packed fun _ => proper count.succ_pos
    refine ⟨s.domains.count :: xs, t, ?_, packedT, fun quiet => ?_⟩
    · simp only [State.createMany, first, rest, bind, Except.bind, pure, Except.pure]
    · exact quietT ⟨quiet.queue, quiet.pending⟩

/-- Intervals with a value that is out of range are refused. -/
theorem createMany_overflows (s : State) {lower upper : Int} (bounds : lower ≤ upper)
    (outside : ¬(minValue ≤ lower ∧ upper ≤ maxValue)) {count : Nat} (new : 0 < count) :
    s.createMany lower upper count = .error .overflow := by
  obtain ⟨rest, rfl⟩ := Nat.exists_eq_succ_of_ne_zero (Nat.ne_of_gt new)
  have refused : s.domains.create lower upper = .error .overflow := by
    simp [Domains.create, require, bounds, outside, bind, Except.bind]
  simp only [State.createMany, State.create, refused, bind, Except.bind]

/-- A predicate about a variable that exists is posted. -/
theorem Packed.post (h : Packed false s) {q : Predicate} (exist : q.var < s.domains.count)
    (fits : s.domains.Fits q) :
    ∃ posting t, s.post q = .ok (posting, t) ∧ Packed (decide (posting = .emptied)) t ∧
      (posting = .unchanged → t = s) := by
  obtain ⟨posting, t, step, -⟩ := post_cases h.reached.consistent exist fits
  refine ⟨posting, t, step, ⟨.post h.reached step, ?_⟩, ?_⟩
  · exact onlyPackings_of_cores h.only (evolves_post step).cores
  · rintro rfl
    obtain ⟨ds, post, rfl⟩ := post_eq_ok step
    cases Domains.eq_of_post_unchanged post
    rfl

/-- A propagation ends, and leaves nothing to propagate unless it finds an inconsistency. -/
theorem Packed.propagate (h : Packed false s) :
    ∃ conflict t, s.propagate = .ok (conflict, t) ∧ Packed conflict.isSome t ∧
      (conflict = none → t.Quiet) := by
  have cons := h.reached.consistent
  obtain ⟨⟨conflict, t⟩, step⟩ := propagate_ok cons h.only.grounded
  obtain ⟨evolves, settled, -⟩ := propagate_spec cons step
  have only : t.OnlyPackings := onlyPackings_of_cores h.only evolves.cores
  exact ⟨conflict, t, step, ⟨.propagate h.reached step, only⟩, fun fine => (settled fine).2.1⟩

/-- A checkpoint is added where nothing waits to be propagated. -/
theorem Packed.checkpointed (h : Packed false s) (quiet : s.Quiet) :
    ∃ t, s.checkpointed = .ok t ∧ Packed false t ∧ t.Quiet := by
  have step := checkpointed_of_quiet quiet
  exact ⟨_, step, ⟨.checkpointed h.reached step, h.only⟩, quiet.queue, quiet.pending⟩

/-- The state goes back to a checkpoint that is not after the current one, and is before it if there is
an inconsistency. -/
theorem Packed.restore (h : Packed broken s) (bound : k ≤ s.checkpoint)
    (earlier : broken = true → k < s.checkpoint) :
    ∃ t, s.restore k = .ok t ∧ Packed false t ∧ (k < s.checkpoint ∨ s.Quiet → t.Quiet) := by
  have frame := h.reached.invariant.1
  rcases Nat.eq_or_lt_of_le bound with rfl | less
  · have step := restore_self s
    refine ⟨s, step, ⟨.restore h.reached earlier step, h.only⟩, ?_⟩
    rintro (less | quiet)
    · exact absurd less (Nat.lt_irrefl _)
    · exact quiet
  · have step := restore_eq frame less
    have quiet := (frame.restore step less).2
    refine ⟨_, step, ⟨.restore h.reached earlier step, ?_⟩, fun _ => quiet⟩
    exact onlyPackings_of_cores h.only (cores_discard s.propagators _)

/-- A packing of variables that exist is installed at the root. -/
theorem Packed.install (h : Packed false s) {kind : PackingKind} {p : Packing}
    (typed : kind = .vector → p.policy = .disabled) (root : s.checkpoint = 0) (wf : p.WellFormed)
    (known : p.Known s.domains) :
    ∃ id t, s.install (.packing kind p) = .ok (id, t) ∧ Packed false t := by
  have cons := h.reached.consistent
  have shape : p.checkShape s.checkpoint = .ok () := by
    rw [root]
    exact Packing.checkShape_of_wellFormed wf
  obtain ⟨⟨id, t⟩, step⟩ : ∃ r, s.install (.packing kind p) = .ok r :=
    installPacking_ok cons.toFrame shape known
  have installs : Installs s t (.packing (s.installedAs kind p)) := cons.installs_packing typed step
  refine ⟨id, t, step, .install h.reached ?_ step, ?_⟩
  · cases kind with
    | single => trivial
    | vector => exact typed rfl
  · intro j prop found
    rcases installs.found found with old | ⟨-, rfl⟩
    · exact h.only j prop old
    · exact ⟨_, rfl⟩

/-- **What a builder does**: it refuses what it is given, without a change; or it adds the packing, and
the propagation finds an inconsistency or leaves nothing to propagate. -/
theorem Packed.add (h : Packed false s) {request : Request}
    (exist : ∀ x ∈ request.packing.vars, x < s.domains.count) :
    ∃ result t, request.add s = .ok (result, t) ∧
      ((∃ error, result = .error error ∧ error ≠ .infeasiblePropagator ∧ t = s) ∨
        (result = .error .infeasiblePropagator ∧ Packed true t) ∨
        ∃ id, result = .ok id ∧ Packed false t ∧ t.Quiet) := by
  rw [Request.add_eq]
  cases checked : request.checked with
  | error error =>
    refine ⟨.error error, s, rfl, .inl ⟨error, rfl, ?_, rfl⟩⟩
    rintro rfl
    exact request.checked_ne_infeasible checked
  | ok p =>
    by_cases root : s.checkpoint = 0
    · obtain ⟨shaped, rfl⟩ := Request.checked_eq_ok checked
      have typed : request.kind = .vector → request.packing.sort.policy = .disabled :=
        Request.disabled_of_vector
      obtain ⟨id, m, install, packed⟩ := h.install typed root (Packing.wellFormed_sort shaped)
        (Packing.known_sort shaped exist)
      obtain ⟨conflict, t, propagate, packedT, quiet⟩ := packed.propagate
      simp only [addPacking, root, ne_eq, not_true_eq_false, if_false, install, propagate, bind,
        Except.bind, pure, Except.pure]
      cases conflict with
      | none => exact ⟨_, _, rfl, .inr (.inr ⟨id, rfl, packedT, quiet rfl⟩)⟩
      | some c => exact ⟨_, _, rfl, .inr (.inl ⟨rfl, packedT⟩)⟩
    · refine ⟨.error .notAtRoot, s, ?_, .inl ⟨.notAtRoot, rfl, fun same => (by cases same), rfl⟩⟩
      simp only [addPacking, ne_eq, root, not_false_eq_true, if_true]

end State

/-! ## What may be asked, and when -/

/-- What a command gives to a builder. -/
def Command.request? : Command → Option Request
  | .addBinPacking items sizes loads policy numbered =>
    some (.single items sizes loads (policy.getD .dynamic) numbered)
  | .addVectorBinPacking items sizes loads numbered => some (.vector items sizes loads numbered)
  | _ => none

/-- Whether a command leads back to a checkpoint before `k`. -/
def Command.goesBelow (k : Nat) : Command → Bool
  | .restore j => decide (j < k)
  | _ => false

/-- Whether an answer tells of a propagation that found no inconsistency. -/
def Answer.settles : Answer → Bool
  | .propagated none => true
  | .installed _ => true
  | _ => false

/-- Whether an answer tells of a change that is not propagated. -/
def Answer.unsettles : Answer → Bool
  | .posted .unchanged => false
  | .posted _ => true
  | answer => answer.breaks

/-- Whether a command on a state, answered so, leaves it with nothing to propagate; `isSettled` tells
whether there was nothing before. -/
def Command.settledAfter (c : Command) (answer : Answer) (checkpoint : Nat) (isSettled : Bool) : Bool :=
  !answer.unsettles && (answer.settles || c.goesBelow checkpoint || isSettled)

/-- The assertion at the end of a propagation: no propagator has missed anything. -/
def State.assertStable (s : State) : Except Fault Unit := do
  require (← s.isStable) .precondition

/-- A state with what the answers have told about it. -/
structure Stage where
  state : State
  /-- The checkpoint at which there is an inconsistency. -/
  brokenAt : Option Nat
  /-- Whether nothing waits to be propagated. -/
  isSettled : Bool

namespace Stage

def empty : Stage := ⟨.empty, none, true⟩

def after (s : Stage) (c : Command) (answer : Answer) (state : State) : Stage where
  state := state
  brokenAt := Session.brokenAfter s.brokenAt c answer state.checkpoint
  isSettled := c.settledAfter answer s.state.checkpoint s.isSettled

/-- Runs a command with all its assertions: a builder reads only what exists, and a propagation misses
nothing. -/
def step (s : Stage) (options : Option LogOptions) (c : Command) : Except Fault Stage := do
  require (c.request?.all Request.readsInside) .outOfRange
  let (answer, state) ← s.state.perform options c
  if answer.settles then state.assertStable
  return s.after c answer state

/-- Runs commands one after the other. -/
def run (s : Stage) (options : Option LogOptions) : List Command → Except Fault Stage
  | [] => return s
  | c :: script => do
    let t ← s.step options c
    t.run options script

/-- Whether a command is about variables and propagators that exist, an interval that holds a value, or a
checkpoint that is not after the current one; checkpoints are added to fixed points. -/
def suits (s : Stage) : Command → Bool
  | .create lower upper _ => decide (lower ≤ upper)
  | .post q => decide (q.var < s.state.domains.count)
  | .propagate => true
  | .checkpoint => s.isSettled
  | .restore k => decide (k ≤ s.state.checkpoint)
  | .check => true
  | .recompute id => decide (id < s.state.nextPropagator)
  | c => c.request?.any fun request => request.fits s.state.domains

/-- Whether a command may be asked now: one that suits the state, but after an inconsistency only the
return to an earlier checkpoint. -/
def allows (s : Stage) (c : Command) : Bool :=
  match s.brokenAt with
  | none => s.suits c
  | some broken => c.goesBelow broken

/-- Whether every command of a script may be asked when its turn comes. -/
def allowsAll (s : Stage) (options : Option LogOptions) : List Command → Bool
  | [] => true
  | c :: script =>
    s.allows c &&
      match s.step options c with
      | .ok t => t.allowsAll options script
      | .error _ => true

/-- Whether a command stays in the range of the values. -/
def inRange (s : Stage) : Command → Bool
  | .create lower upper count => decide (0 < count → minValue ≤ lower ∧ upper ≤ maxValue)
  | .post q => !(s.state.domains.domain q.var).overflows q.comparison q.value
  | _ => true

/-- Whether every command of a script stays in range when its turn comes. -/
def allInRange (s : Stage) (options : Option LogOptions) : List Command → Bool
  | [] => true
  | c :: script =>
    s.inRange c &&
      match s.step options c with
      | .ok t => t.allInRange options script
      | .error _ => true

/-! ## What the answers tell is true -/

/-- What the answers have told about a state is true of it. -/
structure Sound (s : Stage) : Prop where
  packed : s.state.Packed s.brokenAt.isSome
  level : ∀ broken ∈ s.brokenAt, broken = s.state.checkpoint
  quiet : s.isSettled = true → s.state.Quiet

/-- What is true after a command that was answered so. -/
structure Leads (s : Stage) (c : Command) (answer : Answer) (t : State) : Prop where
  packed : t.Packed answer.breaks
  quiet : c.settledAfter answer s.state.checkpoint s.isSettled = true → t.Quiet
  broken : Session.brokenAfter s.brokenAt c answer t.checkpoint =
    if answer.breaks then some t.checkpoint else none

variable {s t : Stage} {c : Command} {options : Option LogOptions}

theorem sound_empty : empty.Sound where
  packed := State.packed_empty
  level _ found := nomatch found
  quiet _ := ⟨rfl, rfl⟩

/-- An inconsistency that was not there before is at the current checkpoint. -/
theorem Leads.of_whole {answer : Answer} {t : State} (whole : s.brokenAt = none)
    (packed : t.Packed answer.breaks)
    (quiet : c.settledAfter answer s.state.checkpoint s.isSettled = true → t.Quiet) :
    s.Leads c answer t := by
  refine ⟨packed, quiet, ?_⟩
  unfold Session.brokenAfter
  rw [whole]
  split
  · rfl
  · cases c <;> rfl

theorem Sound.packed_of_whole (sound : s.Sound) (whole : s.brokenAt = none) : s.state.Packed false := by
  have packed := sound.packed
  rw [whole] at packed
  exact packed

/-- A command that gives something to a builder. -/
theorem Sound.perform_of_request (sound : s.Sound) (whole : s.brokenAt = none) {request : Request}
    (asked : c.request? = some request) (fits : request.fits s.state.domains = true)
    (same : s.state.perform options c = (request.add s.state).map fun (result, t) =>
      (State.answerConstraint result, t)) :
    ∃ answer t, s.state.perform options c = .ok (answer, t) ∧ s.Leads c answer t := by
  have packed := sound.packed_of_whole whole
  obtain ⟨result, t, added, outcome⟩ := packed.add (Request.fits_iff.1 fits)
  rw [same, added]
  refine ⟨_, t, rfl, ?_⟩
  rcases outcome with ⟨error, rfl, feasible, rfl⟩ | ⟨rfl, packedT⟩ | ⟨id, rfl, packedT, quietT⟩
  · have fine : (Answer.refused error).breaks = false := by
      cases error with
      | infeasiblePropagator => exact absurd rfl feasible
      | _ => rfl
    have stays : c.goesBelow s.state.checkpoint = false := by
      cases c with
      | restore k => cases asked
      | _ => rfl
    apply Leads.of_whole whole (fine.symm ▸ packed)
    intro settled
    simp only [Command.settledAfter, State.answerConstraint, Answer.settles, stays, Bool.false_or,
      Bool.and_eq_true] at settled
    exact sound.quiet settled.2
  · exact .of_whole whole packedT nofun
  · exact .of_whole whole packedT fun _ => quietT

/-- **A command that suits the state and stays in range is answered.** -/
theorem Sound.perform_of_suits (sound : s.Sound) (whole : s.brokenAt = none) (suits : s.suits c = true)
    (inside : s.inRange c = true) :
    ∃ answer t, s.state.perform options c = .ok (answer, t) ∧ s.Leads c answer t := by
  have packed := sound.packed_of_whole whole
  cases c with
  | create lower upper count =>
    have range : 0 < count → minValue ≤ lower ∧ upper ≤ maxValue := of_decide_eq_true inside
    obtain ⟨xs, t, step, packedT, quietT⟩ := packed.createMany fun new =>
      Domain.proper_interval (of_decide_eq_true suits) (range new).1 (range new).2
    refine ⟨.created xs, t, ?_, .of_whole whole packedT fun settled => quietT (sound.quiet settled)⟩
    simp only [State.perform, step, bind, Except.bind, pure, Except.pure]
  | post q =>
    have fits : s.state.domains.Fits q := by simpa [inRange, Domains.Fits] using inside
    obtain ⟨posting, t, step, packedT, same⟩ := packed.post (of_decide_eq_true suits) fits
    refine ⟨.posted posting, t, ?_, .of_whole whole ?_ ?_⟩
    · simp only [State.perform, step, bind, Except.bind, pure, Except.pure]
    · cases posting <;> exact packedT
    · cases posting with
      | unchanged =>
        intro settled
        rw [same rfl]
        exact sound.quiet settled
      | narrowed => exact nofun
      | emptied => exact nofun
  | propagate =>
    obtain ⟨conflict, t, step, packedT, quietT⟩ := packed.propagate
    refine ⟨.propagated conflict, t, ?_, .of_whole whole ?_ ?_⟩
    · simp only [State.perform, step, bind, Except.bind, pure, Except.pure]
    · cases conflict <;> exact packedT
    · cases conflict with
      | none => exact fun _ => quietT rfl
      | some c => exact nofun
  | checkpoint =>
    obtain ⟨t, step, packedT, quietT⟩ := packed.checkpointed (sound.quiet suits)
    refine ⟨.done, t, ?_, .of_whole whole packedT fun _ => quietT⟩
    simp only [State.perform, step, bind, Except.bind, pure, Except.pure]
  | restore k =>
    obtain ⟨t, step, packedT, quietT⟩ := packed.restore (of_decide_eq_true suits) nofun
    refine ⟨.done, t, ?_, .of_whole whole packedT fun settled => quietT ?_⟩
    · simp only [State.perform, step, bind, Except.bind, pure, Except.pure]
    · exact (Bool.or_eq_true_iff.1 settled).imp of_decide_eq_true sound.quiet
  | check =>
    obtain ⟨stable, step⟩ := packed.isStable
    refine ⟨.checked stable, s.state, ?_, .of_whole whole packed sound.quiet⟩
    simp only [State.perform, step, bind, Except.bind, pure, Except.pure]
  | recompute id =>
    obtain ⟨⟨conflict, ds⟩, step⟩ := packed.recompute (of_decide_eq_true suits)
    refine ⟨.recomputed conflict (changedSince s.state.domains.reports ds.reports), s.state, ?_,
      .of_whole whole packed sound.quiet⟩
    simp only [State.perform, State.recomputed, step, bind, Except.bind, pure, Except.pure]
  | addBinPacking items sizes loads policy numbered =>
    exact sound.perform_of_request whole rfl suits rfl
  | addVectorBinPacking items sizes loads numbered =>
    exact sound.perform_of_request whole rfl suits rfl
  | install blueprint => cases suits
  | query x values => cases suits
  | evaluate q => cases suits
  | kindOf id => cases suits
  | names => cases suits
  | statistics verbose => cases suits
  | search vars strategy maxNodes maxSolutions check => cases suits

/-- A command that suits the state and leaves the range is found to. -/
theorem perform_of_not_inRange (suits : s.suits c = true) (outside : s.inRange c = false) :
    s.state.perform options c = .error .overflow := by
  cases c with
  | create lower upper count =>
    have crossed : ¬(0 < count → minValue ≤ lower ∧ upper ≤ maxValue) := of_decide_eq_false outside
    obtain ⟨new, range⟩ := Classical.not_imp.1 crossed
    have refused := State.createMany_overflows s.state (of_decide_eq_true suits) range new
    simp only [State.perform, refused, bind, Except.bind]
  | post q =>
    have tight : ¬s.state.domains.Fits q := by simpa [inRange, Domains.Fits] using outside
    have refused := State.post_overflows (of_decide_eq_true suits) tight
    simp only [State.perform, refused, bind, Except.bind]
  | _ => cases outside

/-- **After an inconsistency the state can go back to an earlier checkpoint.** -/
theorem Sound.perform_of_goesBelow (sound : s.Sound) {broken : Nat} (here : s.brokenAt = some broken)
    (below : c.goesBelow broken = true) :
    ∃ answer t, s.state.perform options c = .ok (answer, t) ∧ s.Leads c answer t := by
  obtain rfl := sound.level broken here
  have packed : s.state.Packed true := by
    have packed := sound.packed
    rw [here] at packed
    exact packed
  cases c with
  | restore k =>
    have earlier : k < s.state.checkpoint := of_decide_eq_true below
    obtain ⟨t, step, packedT, quietT⟩ := packed.restore (Nat.le_of_lt earlier) fun _ => earlier
    refine ⟨.done, t, ?_, packedT, fun _ => quietT (.inl earlier), ?_⟩
    · simp only [State.perform, step, bind, Except.bind, pure, Except.pure]
    · simp [Session.brokenAfter, here, Answer.breaks, earlier]
  | _ => cases below

/-- A propagation that finds no inconsistency leaves nothing to propagate. -/
theorem Leads.assertStable {answer : Answer} {t : State} (leads : s.Leads c answer t)
    (settles : answer.settles = true) : t.assertStable = .ok () := by
  obtain ⟨fine, settled⟩ : answer.breaks = false ∧ answer.unsettles = false := by
    cases answer with
    | propagated conflict =>
      cases conflict with
      | none => exact ⟨rfl, rfl⟩
      | some c => cases settles
    | installed id => exact ⟨rfl, rfl⟩
    | _ => cases settles
  have packed : t.Packed false := fine ▸ leads.packed
  have quiet : t.Quiet := leads.quiet (by simp [Command.settledAfter, settles, settled])
  simp [State.assertStable, packed.isStable_of_quiet quiet, require, bind, Except.bind]

/-- **One command does not fault in range**, and what is told about the state afterwards is true of it. -/
theorem Sound.step (sound : s.Sound) (options : Option LogOptions) (allowed : s.allows c = true) :
    (∃ t, s.step options c = .ok t ∧ t.Sound) ∨
      s.step options c = .error .overflow ∧ s.inRange c = false := by
  have reads : c.request?.all Request.readsInside = true := by
    cases c.request? with
    | none => rfl
    | some request => exact request.readsInside_eq
  suffices answered : (∃ answer t, s.state.perform options c = .ok (answer, t) ∧ s.Leads c answer t) ∨
      s.state.perform options c = .error .overflow ∧ s.inRange c = false by
    rcases answered with ⟨answer, state, performed, leads⟩ | ⟨overflows, outside⟩
    · refine .inl ⟨s.after c answer state, ?_, ?_, ?_, leads.quiet⟩
      · simp only [Stage.step, require, reads, if_true, performed, bind, Except.bind]
        split
        · rename_i settles
          rw [leads.assertStable settles]
          rfl
        · rfl
      · have flag : (if answer.breaks = true then some state.checkpoint else none).isSome =
            answer.breaks := by
          cases answer.breaks <;> rfl
        simp only [after, leads.broken, flag]
        exact leads.packed
      · intro broken found
        simp only [after, leads.broken] at found
        split at found
        · exact (Option.some.inj found).symm
        · cases found
    · refine .inr ⟨?_, outside⟩
      simp only [Stage.step, require, reads, if_true, overflows, bind, Except.bind]
  unfold allows at allowed
  split at allowed
  · rename_i whole
    cases inside : s.inRange c with
    | true => exact .inl (sound.perform_of_suits whole allowed inside)
    | false => exact .inr ⟨perform_of_not_inRange allowed inside, rfl⟩
  · rename_i broken here
    exact .inl (sound.perform_of_goesBelow here allowed)

/-- **No command of a script faults in range**, and what is told about the state in the end is true of
it. -/
theorem Sound.run (sound : s.Sound) {script : List Command} (allowed : s.allowsAll options script = true) :
    (∃ last, s.run options script = .ok last ∧ last.Sound) ∨
      s.run options script = .error .overflow ∧ s.allInRange options script = false := by
  induction script generalizing s with
  | nil => exact .inl ⟨s, rfl, sound⟩
  | cons c script ih =>
    simp only [allowsAll, Bool.and_eq_true] at allowed
    obtain ⟨first, rest⟩ := allowed
    rcases sound.step options first with ⟨t, step, soundT⟩ | ⟨overflows, outside⟩
    · rw [step] at rest
      simp only [Stage.run, allInRange, step, bind, Except.bind, Bool.and_eq_false_iff]
      exact (ih soundT rest).imp_right fun ⟨overflows, outside⟩ => ⟨overflows, .inr outside⟩
    · simp only [Stage.run, allInRange, overflows, outside, bind, Except.bind, Bool.false_and]
      exact .inr ⟨trivial, trivial⟩

/-- **Documented use never faults.**  Where the variables of every command exist, new variables have a
value, checkpoints are added to fixed points, and an inconsistency is followed by the return to an
earlier checkpoint or by nothing, no access is out of range and no assertion fails, however the packings
look that the builders are given.  The only fault is the overflow of an interval or a post that leaves
the range of the values. -/
theorem documented_use_never_faults (options : Option LogOptions) (script : List Command)
    (allowed : empty.allowsAll options script = true) :
    (∃ last, empty.run options script = .ok last) ∨
      empty.run options script = .error .overflow ∧ empty.allInRange options script = false :=
  (sound_empty.run allowed).imp_left fun ⟨last, run, _⟩ => ⟨last, run⟩

/-- A packing without items and bins, and one of a single item that is listed twice and may be outside
the bins; a post that fails and the return from it, a packing that is added too late, a return to the
root, and an inconsistency in the end. -/
def smallScript : List Command :=
  [.create (-1) 1 1, .create 0 5 2, .addVectorBinPacking #[] #[#[]] #[#[]] (by decide),
    .addBinPacking #[0, 0] #[2, 1] #[1, 2] none State.smallPacking.numbered, .checkpoint,
    .post (.atLeast 0 1), .propagate, .checkpoint, .post (.equals 0 0), .restore 1,
    .addBinPacking #[0] #[2] #[1, 2] none State.smallPacking.numbered, .restore 0, .check,
    .post (.equals 1 1), .recompute 1, .propagate]

theorem smallScript_never_faults : ∃ last, empty.run none smallScript = .ok last := by
  have inside : empty.allInRange none smallScript = true := by cbv
  rcases documented_use_never_faults none smallScript (by cbv) with done | ⟨-, outside⟩
  · exact done
  · rw [inside] at outside
    cases outside

end Stage

end Stowage
