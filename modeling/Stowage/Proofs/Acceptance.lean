import Stowage.Proofs.Building
import Stowage.Proofs.Relisting

/-!
# What the builders accept

A builder refuses what is given to it exactly if one of its requirements fails, and leaves the state alone
then.  Otherwise the packing passes all checks of its installation: it becomes one more propagator, with
its items and their sizes in another order.

* `Request.Acceptable` — the requirements.
* `Packing.Rearranges` — the items of a packing in another order, by size and then as they were given.
* `Request.checked_eq_ok_iff` — the check of what is given.
* `Request.accepted_or_unchanged` — what a builder does in any state.
-/

set_option autoImplicit false

namespace Stowage

namespace Packing

/-! ## The order of the items -/

/-- An item with its size in every dimension. -/
def column (p : Packing) (i : Nat) : Var × List Int := (p.item i, p.dimList.map fun d => p.size d i)

def columns (p : Packing) : List (Var × List Int) := p.itemList.map p.column

def firstSize (column : Var × List Int) : Int := column.2.headD 0

/-- The packing `q` is `p` with its items by size in the first dimension; those of equal size are in the
order of `p`. -/
structure Rearranges (p q : Packing) : Prop where
  perm : q.columns.Perm p.columns
  sorted : q.columns.Pairwise fun a b => firstSize b ≤ firstSize a
  stable : ∀ size, q.columns.filter (fun c => decide (firstSize c = size)) =
    p.columns.filter fun c => decide (firstSize c = size)
  dims : q.numDims = p.numDims
  loads : q.loads = p.loads
  policy : q.policy = p.policy

variable {p : Packing}

theorem firstSize_column (dims : 0 < p.numDims) (i : Nat) : firstSize (p.column i) = p.size 0 i := by
  obtain ⟨n, more⟩ := Nat.exists_eq_succ_of_ne_zero dims.ne'
  simp [firstSize, column, dimList, more, List.range_succ_eq_map]

/-- The columns of a sorted packing are those of the packing, in the order of its first sizes. -/
theorem columns_sort (shaped : p.Shaped) :
    p.sort.columns = (orderOf (p.sizes[0]?.getD #[])).map p.column := by
  have dims : p.sort.dimList = p.dimList := congrArg List.range Array.size_map
  rw [columns, itemList, numItems_sort shaped, ← map_rename shaped, List.map_map]
  refine List.map_congr_left fun j member => ?_
  have inside := List.mem_range.1 member
  simp only [column, Function.comp, item_sort shaped inside, dims, size_sort shaped inside]

theorem rearranges_sort (shaped : p.Shaped) : p.Rearranges p.sort where
  perm := by
    rw [columns_sort shaped]
    exact (orderOf_firstRow shaped).map _
  sorted := by
    rw [columns_sort shaped, List.pairwise_map]
    refine (pairwise_orderOf _).imp fun ordered => ?_
    rw [firstSize_column shaped.dims, firstSize_column shaped.dims]
    exact ordered
  stable size := by
    -- positions of equal size may precede each other
    have kept : (orderOf (p.sizes[0]?.getD #[])).filter (fun i => decide (p.size 0 i = size)) =
        (List.range (p.sizes[0]?.getD #[]).size).filter fun i => decide (p.size 0 i = size) := by
      refine Sorting.filter_sort (fun i j first second => ?_) _
      have same := (of_decide_eq_true second).trans (of_decide_eq_true first).symm
      exact decide_eq_true (Int.le_of_eq same)
    rw [size_firstRow shaped] at kept
    have first : (fun c => decide (firstSize c = size)) ∘ p.column =
        fun i => decide (p.size 0 i = size) := by
      funext i
      rw [Function.comp, firstSize_column shaped.dims]
    rw [columns_sort shaped, columns, List.filter_map, List.filter_map, first, kept]
    rfl
  dims := Array.size_map
  loads := rfl
  policy := rfl

end Packing

theorem State.Grounded.withPacking {s : State} (grounded : s.Grounded) (kind : PackingKind)
    (p : Packing) (watchers : Array (List (Event × Watch))) (queue : Queue) :
    (s.withPacking kind p watchers queue).Grounded := by
  intro id prop found
  have there : (s.propagators.push (.packing (s.installedAs kind p)))[id]? = some prop := found
  rw [Array.getElem?_push] at there
  split at there
  · cases there
    trivial
  · exact grounded id prop there

/-! ## What is asked for -/

namespace Request

/-- The requirements of a builder. -/
structure Acceptable (request : Request) (s : State) : Prop where
  dims : 0 < request.packing.sizes.size
  loadRows : request.packing.loads.size = request.packing.sizes.size
  sizeRows : ∀ row ∈ request.packing.sizes, row.size = request.packing.items.size
  nonneg : ∀ row ∈ request.packing.sizes, ∀ size ∈ row, 0 ≤ size
  totals : ∀ row ∈ request.packing.sizes, row.toList.sum ≤ maxValue
  bins : ∀ row ∈ request.packing.loads, ∀ other ∈ request.packing.loads, row.size = other.size
  root : s.checkpoint = 0

theorem checkSizes_row_iff {n : Nat} {row : Array Int} :
    Packing.checkSizes n row.toList = .ok () ↔
      row.size = n ∧ (∀ size ∈ row, 0 ≤ size) ∧ row.toList.sum ≤ maxValue := by
  rw [Packing.checkSizes_eq_ok_iff, Packing.sumOf_eq_sum, Array.length_toList]
  simp only [Array.mem_toList_iff]

/-- The check of what is given asks for everything but the root. -/
theorem acceptable_iff {request : Request} {s : State} :
    request.Acceptable s ↔ (∃ p, request.checked = .ok p) ∧ s.checkpoint = 0 := by
  cases request with
  | single items sizes loads policy numbered =>
    simp only [checked, Packing.single?_eq_ok_iff, exists_and_left, exists_eq, and_true,
      checkSizes_row_iff]
    -- the only rows are those of the single dimension
    constructor
    · intro h
      have row : sizes ∈ #[sizes] := Array.mem_singleton.2 rfl
      exact ⟨⟨h.sizeRows sizes row, h.nonneg sizes row, h.totals sizes row⟩, h.root⟩
    · rintro ⟨⟨length, nonneg, total⟩, root⟩
      have rows {P : Array Int → Prop} (h : P sizes) : ∀ row ∈ #[sizes], P row := fun row member =>
        Array.mem_singleton.1 member ▸ h
      refine ⟨Nat.one_pos, rfl, rows length, rows nonneg, rows total, fun row member other member' => ?_,
        root⟩
      rw [Array.mem_singleton.1 member, Array.mem_singleton.1 member']
  | vector items sizes loads numbered =>
    simp only [checked, Packing.vector?_eq_ok_iff, exists_and_left, exists_eq, and_true,
      checkSizes_row_iff]
    constructor
    · intro h
      refine ⟨⟨h.dims, h.loadRows, fun row member =>
        ⟨h.sizeRows row member, h.nonneg row member, h.totals row member⟩, fun row member => ?_⟩, h.root⟩
      have first : 0 < loads.size := h.loadRows.symm ▸ h.dims
      rw [Array.getElem?_eq_getElem first, Option.getD_some]
      exact h.bins row member _ (Array.getElem_mem first)
    · rintro ⟨⟨dims, loadRows, rows, bins⟩, root⟩
      exact ⟨dims, loadRows, fun row member => (rows row member).1,
        fun row member => (rows row member).2.1, fun row member => (rows row member).2.2,
        fun row member other member' => (bins row member).trans (bins other member').symm, root⟩

/-- What was given is refused: the state stays as it is. -/
theorem add_eq_of_not_acceptable {request : Request} {s : State} (refused : ¬request.Acceptable s) :
    ∃ e, e ≠ .infeasiblePropagator ∧ request.add s = .ok (.error e, s) := by
  rw [add_eq]
  cases checked : request.checked with
  | error e => exact ⟨e, fun infeasible => request.checked_ne_infeasible (infeasible ▸ checked), rfl⟩
  | ok p =>
    have below : s.checkpoint ≠ 0 := fun root => refused (acceptable_iff.2 ⟨⟨p, checked⟩, root⟩)
    exact ⟨.notAtRoot, by simp, if_pos below⟩

/-- What is answered when the propagation is over. -/
def answerOf (id : Nat) (conflict : Option Conflict) : Except ConstraintError Nat :=
  if conflict.isNone then .ok id else .error .infeasiblePropagator

/-- What was given is accepted: the sorted packing is installed and propagated. -/
theorem add_eq_of_acceptable {request : Request} {s : State} (acceptable : request.Acceptable s) :
    request.packing.Shaped ∧ request.add s = (do
      let (id, m) ← s.install (.packing request.kind request.packing.sort)
      let (conflict, t) ← m.propagate
      return (answerOf id conflict, t)) := by
  obtain ⟨⟨p, checked⟩, root⟩ := acceptable_iff.1 acceptable
  obtain ⟨shaped, rfl⟩ := checked_eq_ok checked
  refine ⟨shaped, ?_⟩
  rw [add_eq, checked, State.addPacking]
  simp only [root, ne_eq, not_true_eq_false, if_false]
  refine congrArg _ (funext fun installed => congrArg _ (funext fun propagated => ?_))
  cases propagated.1 with
  | none => rfl
  | some c => rfl

/-- A builder finds a fault in what it is given if and only if a requirement fails. -/
theorem refused_iff (request : Request) (s : State) :
    (∃ e t, request.add s = .ok (.error e, t) ∧ e ≠ .infeasiblePropagator) ↔
      ¬request.Acceptable s := by
  constructor
  · rintro ⟨e, t, refused, feasible⟩ acceptable
    rw [(add_eq_of_acceptable acceptable).2] at refused
    simp only [bind, Except.bind, pure, Except.pure] at refused
    split at refused
    · cases refused
    · split at refused
      · cases refused
      · simp only [Except.ok.injEq, Prod.mk.injEq, answerOf] at refused
        split at refused
        · cases refused.1
        · cases refused.1
          exact feasible rfl
  · intro refused
    obtain ⟨e, feasible, answer⟩ := add_eq_of_not_acceptable refused
    exact ⟨e, s, answer, feasible⟩

/-- **A builder accepts what meets its requirements and refuses the rest without a trace.**  What is
accepted passes all checks of the installation and becomes one more propagator. -/
theorem accepted_or_unchanged (request : Request) (s : State) :
    ((∃ e t, request.add s = .ok (.error e, t) ∧ e ≠ .infeasiblePropagator) ↔
      ¬request.Acceptable s) ∧
    (∀ e t, request.add s = .ok (.error e, t) → e ≠ .infeasiblePropagator → t = s) ∧
    ∀ broken, State.Reached broken s → (∀ x ∈ request.packing.vars, x < s.domains.count) →
      request.Acceptable s → ∃ p m, request.packing.Rearranges p ∧
        p.checkShape s.checkpoint = .ok () ∧
        s.install (.packing request.kind p) = .ok (s.propagators.size, m) ∧
        m.propagators = s.propagators.push (.packing (s.installedAs request.kind p)) ∧
        request.add s = m.propagate.map (fun r => (answerOf s.propagators.size r.1, r.2)) ∧
        (broken = false → s.Grounded → ∃ conflict t, m.propagate = .ok (conflict, t) ∧
          t.propagators.map Propagator.core = m.propagators.map Propagator.core) := by
  refine ⟨refused_iff request s, fun e t answer feasible => ?_,
    fun broken reached exist acceptable => ?_⟩
  · obtain ⟨e', -, same⟩ := add_eq_of_not_acceptable ((refused_iff request s).1 ⟨e, t, answer, feasible⟩)
    cases same.symm.trans answer
    rfl
  · obtain ⟨shaped, add⟩ := add_eq_of_acceptable acceptable
    have shape : request.packing.sort.checkShape s.checkpoint = .ok () := by
      rw [acceptable.root]
      exact Packing.checkShape_of_wellFormed (Packing.wellFormed_sort shaped)
    obtain ⟨⟨id, m⟩, install⟩ : ∃ r, s.installPacking request.kind request.packing.sort = .ok r :=
      State.installPacking_ok reached.invariant.1 shape (Packing.known_sort shaped exist)
    obtain ⟨-, rfl, watchers, queue, rfl, -, -⟩ := State.installPacking_eq_ok install
    have installed : s.install (.packing request.kind request.packing.sort) =
        .ok (s.propagators.size, s.withPacking request.kind request.packing.sort watchers queue) :=
      install
    refine ⟨request.packing.sort, _, Packing.rearranges_sort shaped, shape, installed, rfl, ?_, ?_⟩
    · rw [add, installed]
      simp only [bind, Except.bind, pure, Except.pure]
      cases State.propagate _ with
      | error fault => rfl
      | ok r => rfl
    · rintro rfl grounded
      have typed : (Blueprint.packing request.kind request.packing.sort).Typed := by
        cases kind : request.kind with
        | single => trivial
        | vector => exact disabled_of_vector kind
      have cons := (State.Reached.install reached typed installed).consistent
      obtain ⟨⟨conflict, t⟩, propagated⟩ := State.propagate_ok cons (grounded.withPacking _ _ _ _)
      exact ⟨conflict, t, propagated, (State.propagate_spec cons propagated).1.cores⟩

/-- Three items for one bin; the last two are of equal size. -/
def smallRequest : Request := .single #[0, 1, 2] #[0, 2, 2] #[1] .disabled

theorem acceptable_smallRequest : smallRequest.Acceptable State.small :=
  acceptable_iff.2 ⟨⟨_, by rfl⟩, by cbv⟩

/-- The larger items come first, in the order in which they were given. -/
theorem small_accepted_or_unchanged :
    State.Reached false State.small ∧ (∀ x ∈ smallRequest.packing.vars, x < State.small.domains.count) ∧
      smallRequest.Acceptable State.small ∧ ∃ p m, smallRequest.packing.Rearranges p ∧
        State.small.install (.packing .single p) = .ok (0, m) ∧
        p.columns.filter (fun c => decide (Packing.firstSize c = 2)) = [(1, [2]), (2, [2])] ∧
        ∃ conflict t, smallRequest.add State.small = .ok (answerOf 0 conflict, t) := by
  have exist : ∀ x ∈ smallRequest.packing.vars, x < State.small.domains.count := by
    have count : State.small.domains.count = 3 := by cbv
    rw [count]
    decide
  have grounded : State.small.Grounded := State.grounded_of_all (by cbv)
  have root : State.small.propagators.size = 0 := by cbv
  obtain ⟨p, m, rearranges, -, installed, -, add, returns⟩ :=
    (accepted_or_unchanged smallRequest State.small).2.2 false State.reached_small exist
      acceptable_smallRequest
  obtain ⟨conflict, t, propagated, -⟩ := returns rfl grounded
  rw [root] at installed add
  rw [propagated] at add
  exact ⟨State.reached_small, exist, acceptable_smallRequest, p, m, rearranges, installed,
    (rearranges.stable 2).trans (by decide), conflict, t, add⟩

end Request

end Stowage
