import Stowage.Search
import Stowage.Proofs.FixedPoints
import Stowage.Proofs.Returning

/-!
# Branching

A search splits the solutions of a settled state by the values of a variable.  For each value it finds
out, above a new checkpoint, that no solution has it, or it gets a settled state with just those
solutions.  A settled state in which all items are fixed has a single placement left, and it is a
solution: the loads are fixed to the sums of the sizes.

* `Domains.post_equals` — fixing a variable to one of its values.
* `State.Consistent.branch` — one branch.
* `State.unfixed`, `State.unfixed_lt` — how many variables are left, and that a branch leaves fewer.
* `State.Consistent.solution_lower` — the solution of a leaf.
-/

set_option autoImplicit false

namespace Stowage

namespace Domains

/-- **A variable is fixed to one of its values.** -/
theorem post_equals {ds : Domains} (healthy : ds.Healthy) {x : Var} (exist : x < ds.count) {v : Int}
    (member : v ∈ ds.domain x) : ∃ posting after, ds.post (.equals x v) = .ok (posting, after) ∧
      posting ≠ .emptied ∧
        ∀ y w, w ∈ after.domain y ↔ w ∈ ds.domain y ∧ (y = x → w = v) := by
  have holds (w : Int) : (Predicate.equals x v).holds w = true ↔ w = v := by
    simp [Predicate.holds, Predicate.equals, Comparison.holds]
  have self : (Predicate.equals x v).holds v = true := (holds v).2 rfl
  have members {posting : Posting} {after : Domains} (done : ds.post (.equals x v) = .ok (posting, after))
      (left : posting ≠ .emptied) (y : Var) (w : Int) :
      w ∈ after.domain y ↔ w ∈ ds.domain y ∧ (y = x → w = v) :=
    (mem_post_iff healthy done left y w).trans
      (and_congr_right fun _ => imp_congr_right fun _ => holds w)
  rcases post_cases (q := .equals x v) healthy exist (healthy.fits member self) with
    ⟨done, -⟩ | ⟨after, done, -⟩ | ⟨after, -, none⟩
  · have left : Posting.unchanged ≠ .emptied := by decide
    exact ⟨_, _, done, left, members done left⟩
  · have left : Posting.narrowed ≠ .emptied := by decide
    exact ⟨_, _, done, left, members done left⟩
  · rw [none v member] at self
    cases self

end Domains

namespace State

variable {s t : State} {x : Var} {v : Int}

/-- What a branch leads to: a settled state with the solutions of `s` that have value `v` for `x`, or
an inconsistency if there are none. -/
structure Branches (s : State) (x : Var) (v : Int) (conflict : Option Conflict) (t : State) : Prop where
  frame : t.Frame
  retains : Retains s t
  settled : conflict = none → t.Consistent ∧ t.Quiet ∧ t.domains.Within s.domains ∧
    ∀ w ∈ t.domains.domain x, w = v
  solutions : ∀ assignment, s.Solution assignment → assignment x = v →
    conflict = none ∧ t.Solution assignment

/-- **A branch.** -/
theorem Consistent.branch (cons : s.Consistent) (quiet : s.Quiet) (only : s.OnlyPackings)
    (exist : x < s.domains.count) (member : v ∈ s.domains.domain x) :
    ∃ conflict t, s.branch x v = .ok (conflict, t) ∧ Branches s x v conflict t := by
  have mark := checkpointed_of_quiet quiet
  have consM := cons.checkpointed mark
  have retainsM := cons.retains mark
  generalize same : { s with store := s.store.mark } = m at mark consM retainsM
  have domainsM : ∀ y, m.domains.domain y = s.domains.domain y := fun y => by rw [← same]; rfl
  have countM : m.domains.count = s.domains.count := by rw [← same]; rfl
  obtain ⟨posting, ds, post, left, members⟩ := Domains.post_equals (v := v) consM.healthy
    (countM ▸ exist) (domainsM x ▸ member)
  have step := post_ok post
  have consP := consM.post step left
  have evolvesP := evolves_post step
  have retainsP := retainsM.evolve consM.toFrame evolvesP
  obtain ⟨⟨conflict, t⟩, propagate⟩ := propagate_ok consP (onlyPackings_of_cores only retainsP.cores).grounded
  obtain ⟨evolves, settled, sound⟩ := propagate_spec consP propagate
  have retains := retainsP.evolve consP.toFrame evolves
  refine ⟨conflict, t, ?_, consP.toFrame.evolve evolves, retains, fun fine => ?_,
    fun assignment solution value => ?_⟩
  · simp only [State.branch, mark, step, bind, Except.bind]
    exact propagate
  · obtain ⟨consT, quietT, within⟩ := settled fine
    refine ⟨consT, quietT, fun y w hw => ?_, fun w hw => ?_⟩
    · exact domainsM y ▸ ((members y w).1 (within y w hw)).1
    · exact ((members x w).1 (within x w hw)).2 rfl
  · have admits : (m.withDomains ds).domains.Admits assignment := by
      intro y hy
      have inside : y < s.domains.count := by
        rw [evolvesP.count, countM] at hy
        exact hy
      refine (members y _).2 ⟨?_, fun own => own ▸ value⟩
      rw [domainsM]
      exact solution.admits y inside
    obtain ⟨fine, admitted⟩ := sound assignment (onlyPackings_of_cores only retainsP.cores)
      (solution.of_cores retainsP.cores admits)
    exact ⟨fine, solution.of_cores retains.cores admitted⟩

/-- **A branch without an inconsistency** has the solutions with its value and no others. -/
theorem Branches.solution_iff {conflict : Option Conflict} (h : Branches s x v conflict t)
    (fine : conflict = none) (exist : x < s.domains.count) {assignment : Var → Int} :
    t.Solution assignment ↔ s.Solution assignment ∧ assignment x = v := by
  obtain ⟨-, -, within, fixed⟩ := h.settled fine
  have count := h.retains.count
  constructor
  · intro solution
    refine ⟨solution.of_cores h.retains.cores.symm (within.admits count solution.admits), ?_⟩
    exact fixed _ (solution.admits x (count ▸ exist))
  · rintro ⟨solution, value⟩
    exact (h.solutions assignment solution value).2

/-! ## Progress -/

/-- How many of the given variables are not fixed. -/
def unfixed (s : State) (xs : List Var) : Nat :=
  (xs.filter fun x => !(s.domains.domain x).isFixed).length

theorem isFixed_of_within (cons : s.Consistent) (consT : t.Consistent)
    (within : t.domains.Within s.domains) {y : Var}
    (fixed : (s.domains.domain y).isFixed = true) : (t.domains.domain y).isFixed = true := by
  have same : ∀ w ∈ t.domains.domain y, w = (s.domains.domain y).lower := fun w hw =>
    ((cons.healthy y).mem_iff_of_isFixed fixed).1 (within y w hw)
  exact (consT.healthy y).isFixed_of_forall_eq same

/-- **A branch leaves fewer variables to be fixed.** -/
theorem Branches.unfixed_lt {conflict : Option Conflict} (h : Branches s x v conflict t)
    (fine : conflict = none) (cons : s.Consistent) {xs : List Var} (member : x ∈ xs)
    (loose : (s.domains.domain x).isFixed = false) : t.unfixed xs < s.unfixed xs := by
  obtain ⟨consT, -, within, value⟩ := h.settled fine
  have fixed : (t.domains.domain x).isFixed = true := (consT.healthy x).isFixed_of_forall_eq value
  -- the variables left in `t` are some of those left in `s`, and `x` is not among them
  have narrower : xs.filter (fun y => !(t.domains.domain y).isFixed) =
      (xs.filter fun y => !(s.domains.domain y).isFixed).filter
        fun y => !(t.domains.domain y).isFixed := by
    rw [List.filter_filter]
    refine List.filter_congr fun y _ => ?_
    by_cases before : (s.domains.domain y).isFixed = true
    · simp [isFixed_of_within cons consT within before]
    · simp [before]
  unfold unfixed
  rw [narrower, List.length_filter_lt_length_iff_exists]
  refine ⟨x, List.mem_filter.2 ⟨member, ?_⟩, ?_⟩
  · simp [loose]
  · simp [fixed]

/-! ## Leaves -/

/-- **Where all items are fixed, the lower bounds are a solution.**  No bin has a candidate left, so the
required load of a bin is also its total load, and its load variable is fixed to it. -/
theorem Consistent.solution_lower (cons : s.Consistent) (quiet : s.Quiet)
    (fixed : ∀ id p, s.Runs id p → ∀ i < p.packing.numItems,
      (s.domains.domain (p.packing.item i)).isFixed = true) : s.Solution s.domains.lower := by
  refine ⟨fun y _ => (cons.healthy y).lower_mem, fun id p runs => ?_⟩
  have installed := cons.installed id p runs
  have ledger : (s.store.ledger p).Matches p.packing s.domains :=
    (cons.revised quiet runs).matches quiet.pending installed.wf
  refine ⟨fun i hi => ledger.inBins i hi _ (cons.healthy _).lower_mem, fun d hd b hb => ?_⟩
  have none : ((s.store.ledger p).bin b).candidates = [] := by
    rw [List.eq_nil_iff_forall_not_mem]
    intro i candidate
    obtain ⟨hi, loose, -⟩ := (ledger.candidates b hb i).1 candidate
    rw [fixed id p runs i hi] at loose
    cases loose
  have required := ledger.required d hd b hb
  have low := ledger.required_le d hd b hb
  have between := ledger.lower_le_upper d hd b hb
  have high := ledger.upper_le_total d hd b hb
  have total := ledger.total_le d hd b hb
  rw [none, show p.packing.sizeOf d [] = 0 from rfl] at total
  have placed : p.packing.weigh d (p.packing.placedBy s.domains.lower b) = p.packing.weigh d fun i =>
      (s.domains.domain (p.packing.item i)).fixedValue? == some (b : Int) := by
    refine p.packing.weigh_congr fun i hi => ?_
    rw [Bool.eq_iff_iff, Packing.placedBy, beq_iff_eq, beq_iff_eq, Domain.fixedValue?_eq_some_iff]
    exact ⟨fun value => ⟨fixed id p runs i hi, value⟩, And.right⟩
  rw [placed, ← required]
  omega

end State

end Stowage
