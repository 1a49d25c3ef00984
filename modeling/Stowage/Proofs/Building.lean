import Stowage.Constraint
import Stowage.Proofs.Reachability
import Stowage.Proofs.Packing.Sorting
import Stowage.Proofs.Packing.Variables

/-!
# Building

A builder checks and sorts what it is given, installs the packing and propagates.  On a state without
other propagators, at the root, it always gets that far: the packing becomes the only propagator, and
the propagation returns.

* `Request` — what is given to a builder.
* `State.Hosts` — the packing is the only propagator of a state.
* `State.install_alone` — a packing is installed in a state without propagators.
* `State.addPacking_alone` — what a builder does there.
-/

set_option autoImplicit false

namespace Stowage

/-! ## What is given to a builder -/

/-- What is given to a builder: a packing with its items in any order. -/
inductive Request where
  | single (items : Array Var) (sizes : Array Int) (loads : Array Var) (policy : BigItems)
    (numbered : Numbered #[loads] := by decide)
  | vector (items : Array Var) (sizes : Array (Array Int)) (loads : Array (Array Var))
    (numbered : Numbered loads := by decide)

namespace Request

def packing : Request → Packing
  | .single items sizes loads policy numbered => ⟨items, #[sizes], #[loads], policy, numbered⟩
  | .vector items sizes loads numbered => ⟨items, sizes, loads, .disabled, numbered⟩

def kind : Request → PackingKind
  | .single .. => .single
  | .vector .. => .vector

def checked : Request → Except ConstraintError Packing
  | .single items sizes loads policy numbered => Packing.single? items sizes loads policy numbered
  | .vector items sizes loads numbered => Packing.vector? items sizes loads numbered

def add (s : State) : Request → Except Fault (Except ConstraintError Nat × State)
  | .single items sizes loads policy numbered => s.addBinPacking items sizes loads policy numbered
  | .vector items sizes loads numbered => s.addVectorBinPacking items sizes loads numbered

theorem add_eq (request : Request) (s : State) :
    request.add s = s.addPacking request.kind request.checked := by
  cases request <;> rfl

theorem checked_eq_ok {request : Request} {p : Packing} (h : request.checked = .ok p) :
    request.packing.Shaped ∧ p = request.packing.sort := by
  cases request with
  | single items sizes loads policy numbered => exact Packing.single?_eq_ok h
  | vector items sizes loads numbered => exact Packing.vector?_eq_ok h

theorem disabled_of_vector {request : Request} (vector : request.kind = .vector) :
    request.packing.policy = .disabled := by
  cases request with
  | single items sizes loads policy numbered => cases vector
  | vector items sizes loads numbered => rfl

/-- The check of what is given to a builder says nothing about feasibility. -/
theorem checked_ne_infeasible (request : Request) :
    request.checked ≠ .error .infeasiblePropagator := by
  intro h
  cases request with
  | single items sizes loads policy numbered =>
    simp only [checked, Packing.single?, bind, Except.bind] at h
    split at h
    · rename_i refused
      cases h
      exact Packing.checkSizes_ne_infeasible _ _ refused
    · cases h
  | vector items sizes loads numbered =>
    simp only [checked, Packing.vector?, bind, Except.bind] at h
    split at h
    · rename_i refused
      cases h
      cases Packing.demand_eq_error refused
    split at h
    · rename_i refused
      cases h
      cases Packing.demand_eq_error refused
    split at h
    · rename_i refused
      cases h
      obtain ⟨row, -, found⟩ := Packing.forM_eq_error refused
      exact Packing.checkSizes_ne_infeasible _ _ found
    · split at h
      · cases h
      · cases h

/-- Whether sorting what was checked reads the items and the sizes only at positions that exist. -/
def readsInside (request : Request) : Bool :=
  let p := request.packing
  request.checked.toOption.isNone ||
    (Packing.orderOf (p.sizes[0]?.getD #[])).all fun i =>
      decide (i < p.items.size) && p.sizes.all fun row => decide (i < row.size)

theorem readsInside_eq (request : Request) : request.readsInside = true := by
  unfold readsInside
  cases checked : request.checked with
  | error e => rfl
  | ok p =>
    obtain ⟨shaped, -⟩ := checked_eq_ok checked
    simp only [Except.toOption, Option.isNone_some, Bool.false_or, List.all_eq_true, Bool.and_eq_true,
      decide_eq_true_eq]
    intro i member
    have inside := Packing.inside_orderOf shaped i member
    refine ⟨inside, Array.all_eq_true'.2 fun row found => decide_eq_true ?_⟩
    rw [shaped.sizeRows row found]
    exact inside

/-- Whether the variables of the items and of the loads exist. -/
def fits (request : Request) (ds : Domains) : Bool :=
  request.packing.vars.all fun x => decide (x < ds.count)

theorem fits_iff {request : Request} {ds : Domains} :
    request.fits ds = true ↔ ∀ x ∈ request.packing.vars, x < ds.count := by
  simp only [fits, List.all_eq_true, decide_eq_true_eq]

end Request

namespace Packing

/-- The variables of a packing exist as well when its items are sorted. -/
theorem known_sort {p : Packing} {ds : Domains} (shaped : p.Shaped)
    (exist : ∀ x ∈ p.vars, x < ds.count) : p.sort.Known ds := by
  refine ⟨fun j hj => ?_, fun d hd b hb => ?_⟩
  · rw [numItems_sort shaped] at hj
    rw [item_sort shaped hj]
    exact exist _ (item_mem_vars (rename_lt shaped hj))
  · have dims : p.sort.numDims = p.numDims := Array.size_map
    exact exist _ (load_mem_vars shaped (dims ▸ hd) hb)

end Packing

/-! ## A state without propagators -/

namespace State

variable {s t : State} {p : Packing}

/-- The packing, with what it keeps between calls, is the only propagator. -/
def Hosts (s : State) (p : Packer) : Prop := s.propagators = #[.packing p]

theorem Hosts.runs {q : Packer} (h : s.Hosts q) : s.Runs 0 q := by
  rw [Runs, h]
  rfl

theorem Hosts.eq_of_runs {q r : Packer} {id : Nat} (h : s.Hosts q) (runs : s.Runs id r) :
    id = 0 ∧ r = q := by
  have bound := runs.lt
  rw [h] at bound
  obtain rfl : id = 0 := Nat.lt_one_iff.1 bound
  have same := h.runs.symm.trans runs
  simp only [Option.some.injEq, Propagator.packing.injEq] at same
  exact ⟨rfl, same.symm⟩

theorem Hosts.onlyPackings {q : Packer} (h : s.Hosts q) : s.OnlyPackings := by
  intro id prop found
  rw [h] at found
  have bound : id < 1 := (Array.getElem?_eq_some_iff.1 found).1
  obtain rfl : id = 0 := Nat.lt_one_iff.1 bound
  exact ⟨q, (Option.some.inj found).symm⟩

/-- The only propagator stays the packing it is. -/
theorem Hosts.of_cores {q : Packer} (h : s.Hosts q)
    (cores : t.propagators.map Propagator.core = s.propagators.map Propagator.core) :
    ∃ r, t.Hosts r ∧ r.kind = q.kind ∧ r.packing = q.packing ∧ r.layout = q.layout := by
  have size : t.propagators.size = 1 := by rw [size_of_cores cores, h]; rfl
  obtain ⟨prop, shape⟩ := Array.size_eq_one_iff.1 size
  have core : prop.core = (Propagator.packing q).core := by
    rw [shape, show s.propagators = #[.packing q] from h] at cores
    simpa using cores
  obtain ⟨r, rfl, same⟩ := Propagator.core_eq_packing core
  exact ⟨r, shape, same⟩

/-- **A packing is installed in a state without propagators.** -/
theorem install_alone (kind : PackingKind) (cons : s.Consistent) (alone : s.propagators = #[])
    (root : s.checkpoint = 0) (wf : p.WellFormed) (known : p.Known s.domains) :
    ∃ m, s.install (.packing kind p) = .ok (0, m) ∧ m.domains = s.domains ∧
      m.Hosts (s.installedAs kind p) ∧
      m.store.ledger (s.installedAs kind p) = Ledger.ofDomains p s.domains := by
  have shape : p.checkShape s.checkpoint = .ok () := by
    rw [root]
    exact Packing.checkShape_of_wellFormed wf
  obtain ⟨⟨id, m⟩, installed⟩ : ∃ r, s.installPacking kind p = .ok r :=
    installPacking_ok cons.toFrame shape known
  obtain ⟨-, rfl, watchers, queue, rfl, -, -⟩ := installPacking_eq_ok installed
  refine ⟨s.withPacking kind p watchers queue, ?_, rfl, ?_, ?_⟩
  · rw [alone] at installed
    exact installed
  · rw [Hosts, withPacking, alone]
    rfl
  · exact ledger_withPacking wf

/-- **What a builder does with a state without propagators.** -/
theorem addPacking_alone {kind : PackingKind} (typed : kind = .vector → p.policy = .disabled)
    (reached : Reached false s) (alone : s.propagators = #[]) (root : s.checkpoint = 0)
    (wf : p.WellFormed) (known : p.Known s.domains) :
    ∃ m conflict t, s.install (.packing kind p) = .ok (0, m) ∧ Reached false m ∧
      m.domains = s.domains ∧ m.Hosts (s.installedAs kind p) ∧
      m.store.ledger (s.installedAs kind p) = Ledger.ofDomains p s.domains ∧
      m.propagate = .ok (conflict, t) ∧
      s.addPacking kind (.ok p) =
        .ok (if conflict.isNone then .ok 0 else .error .infeasiblePropagator, t) := by
  obtain ⟨m, install, domains, hosts, ledger⟩ :=
    install_alone kind reached.consistent alone root wf known
  have reachedM : Reached false m := by
    refine .install reached ?_ install
    cases kind with
    | single => trivial
    | vector => exact typed rfl
  obtain ⟨⟨conflict, t⟩, propagate⟩ := propagate_ok reachedM.consistent hosts.onlyPackings.grounded
  refine ⟨m, conflict, t, install, reachedM, domains, hosts, ledger, propagate, ?_⟩
  simp only [addPacking, root, ne_eq, not_true_eq_false, if_false, install, propagate, bind,
    Except.bind]
  cases conflict with
  | none => rfl
  | some c => rfl

end State

end Stowage
