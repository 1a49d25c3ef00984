import Stowage.Proofs.Intersection

/-!
# Evaluation foretells posting

Evaluating a predicate and posting it decide the same question in two ways.  Both bounds of a domain
that is not empty are values of it, so either of them is a value for or against the predicate; this is
what makes the two agree, whatever the history of the domains.

* `Domain.entails_iff_forall`, `Domain.evaluate_eq_some_false_iff` — the truth value says exactly
  whether all values, or none, satisfy the comparison.
* `Domains.Reached.evaluate_foretells` — the truth value of a predicate is the result of posting it.
-/

set_option autoImplicit false

namespace Stowage

namespace Domain

variable {d : Domain} {c : Comparison} {v : Int}

theorem entails_iff_forall (proper : d.Proper) :
    d.entails c v = true ↔ ∀ w ∈ d, c.holds w v = true := by
  refine ⟨fun entailed w member => holds_of_entails entailed member, fun all => ?_⟩
  by_contra open'
  obtain ⟨w, member, fails⟩ := exists_not_holds proper (Bool.eq_false_iff.2 open')
  rw [all w member] at fails
  cases fails

/-- A comparison evaluates to false when no value satisfies it: a bound is a value. -/
theorem evaluate_eq_some_false_iff (proper : d.Proper) :
    d.evaluate c v = some false ↔ ∀ w ∈ d, c.holds w v = false := by
  have ordered := proper.lower_le_upper
  cases c with
  | ge =>
    have decided : d.evaluate .ge v = some false ↔ d.upper < v := by
      simp only [evaluate]
      split
      next low => simp; omega
      next low => simp
    rw [decided]
    constructor
    · intro high w member
      have := le_upper_of_mem member
      exact decide_eq_false (by omega)
    · intro none
      exact not_le.1 (of_decide_eq_false (none _ proper.upper_mem))
  | le =>
    have decided : d.evaluate .le v = some false ↔ v < d.lower := by
      simp only [evaluate]
      split
      next high => simp; omega
      next high => simp
    rw [decided]
    constructor
    · intro low w member
      have := lower_le_of_mem member
      exact decide_eq_false (by omega)
    · intro none
      exact not_le.1 (of_decide_eq_false (none _ proper.lower_mem))
  | eq =>
    have decided : d.evaluate .eq v = some false ↔ v ∉ d := by
      rw [← contains_eq_false_iff]
      simp only [evaluate]
      split
      next absent => simpa using absent
      next present =>
        have present : d.contains v = true := by simpa using present
        split
        · simp [present]
        · simp [present]
    rw [decided]
    constructor
    · intro absent w member
      exact decide_eq_false fun same => absent (same ▸ member)
    · intro none member
      exact of_decide_eq_false (none v member) rfl
  | ne =>
    have decided : d.evaluate .ne v = some false ↔ v ∈ d ∧ d.lower = v ∧ d.upper = v := by
      rw [← contains_eq_true_iff]
      simp only [evaluate]
      split
      next absent => simp_all
      next present => simp_all
    rw [decided]
    constructor
    · rintro ⟨-, low, high⟩ w member
      have := lower_le_of_mem member
      have := le_upper_of_mem member
      exact decide_eq_false (by omega)
    · intro none
      have low : d.lower = v := by simpa [Comparison.holds] using none _ proper.lower_mem
      have high : d.upper = v := by simpa [Comparison.holds] using none _ proper.upper_mem
      exact ⟨low ▸ proper.lower_mem, low, high⟩

end Domain

namespace Domains

/-- A truth value of `q` is what the values of its variable say of `q`, and is the result of a post. -/
structure Foretells (ds : Domains) (q : Predicate) (truth : Option Bool) (posting : Posting) :
    Prop where
  /-- Every value satisfies the predicate. -/
  holds : truth = some true ↔ ∀ v ∈ (ds.domain q.var).toSet, q.holds v = true
  unchanged : truth = some true ↔ posting = .unchanged
  /-- No value satisfies the predicate. -/
  fails : truth = some false ↔ ∀ v ∈ (ds.domain q.var).toSet, q.holds v = false
  emptied : truth = some false ↔ posting = .emptied
  narrowed : truth = none ↔ posting = .narrowed

variable {ds : Domains} {q : Predicate}

/-- The result of a post, by the values that satisfy the predicate. -/
theorem post_result {before after : Set Int} {posting : Posting} (outcome : Outcome before after posting)
    (some : before.Nonempty) (inter : after = before ∩ q.solutions) :
    (posting = .unchanged ↔ ∀ v ∈ before, q.holds v = true) ∧
      (posting = .emptied ↔ ∀ v ∈ before, q.holds v = false) := by
  constructor
  · rw [outcome.unchanged_iff some, inter, Set.inter_eq_left]
    rfl
  · rw [outcome.emptied_iff some, inter, Set.eq_empty_iff_forall_notMem]
    refine forall_congr' fun v => ?_
    rw [Set.mem_inter_iff, not_and]
    exact imp_congr_right fun _ => (Bool.not_eq_true _).to_iff

/-- **Evaluation foretells posting**, whatever the history of the domains, as long as none is empty and
the upper bound of the variable has a successor: the truth value is exact, and it is true, false or
undecided as the post removes no value, all values or some of them. -/
theorem Reached.evaluate_foretells (reached : ds.Reached)
    (nonempty : ∀ x < ds.count, (ds.domain x).toSet.Nonempty) (exist : q.var < ds.count)
    (below : ds.upper q.var < maxValue) :
    ∃ truth posting after, ds.evaluate q = .ok truth ∧ ds.post q = .ok (posting, after) ∧
      Foretells ds q truth posting := by
  have some := nonempty _ exist
  have proper := (reached.orderly exist).proper_of_nonempty some
  obtain ⟨posting, after, step, -, ⟨inter, -⟩, outcome⟩ :=
    post_outcome exist proper (fits_of_upper_lt below)
  obtain ⟨unchanged, emptied⟩ := post_result outcome some inter
  have evaluated : ds.evaluate q = .ok ((ds.domain q.var).evaluate q.comparison q.value) := by
    rw [evaluate, fetch_eq exist]
    rfl
  generalize truth : (ds.domain q.var).evaluate q.comparison q.value = value at evaluated
  have holds : value = .some true ↔ ∀ v ∈ (ds.domain q.var).toSet, q.holds v = true := by
    rw [← truth, Domain.evaluate_eq_some_true_iff proper, Domain.entails_iff_forall proper]
    simp only [Domain.mem_toSet, Predicate.holds]
  have fails : value = .some false ↔ ∀ v ∈ (ds.domain q.var).toSet, q.holds v = false := by
    rw [← truth, Domain.evaluate_eq_some_false_iff proper]
    simp only [Domain.mem_toSet, Predicate.holds]
  have same : value = .some true ↔ posting = .unchanged := holds.trans unchanged.symm
  have none : value = .some false ↔ posting = .emptied := fails.trans emptied.symm
  refine ⟨value, posting, after, evaluated, step, holds, same, fails, none, ?_⟩
  -- the third result is the one that is neither of the others
  cases posting with
  | unchanged => simp [same.2 rfl]
  | emptied => simp [none.2 rfl]
  | narrowed =>
    have notTrue : value ≠ .some true := fun h => nomatch same.1 h
    have notFalse : value ≠ .some false := fun h => nomatch none.1 h
    rcases value with _ | _ | _
    · simp
    · exact absurd rfl notFalse
    · exact absurd rfl notTrue

/-- A hole that a return has brought back between the bounds counts in both. -/
theorem reopened_evaluate_foretells :
    reopened.Reached ∧ (∀ x < reopened.count, (reopened.domain x).toSet.Nonempty) ∧
      reopened.evaluate (.equals 0 4) = .ok (some false) ∧
      (∃ after, reopened.post (.equals 0 4) = .ok (.emptied, after)) ∧
      Foretells reopened (.equals 0 4) (some false) .emptied := by
  obtain ⟨truth, posting, after, evaluated, step, foretells⟩ :=
    reached_reopened.evaluate_foretells nonempty_reopened (q := .equals 0 4) (by decide) (by decide)
  have false' : reopened.evaluate (.equals 0 4) = .ok (some false) := rfl
  cases false'.symm.trans evaluated
  have emptied : reopened.post (.equals 0 4) = .ok (.emptied, _) := rfl
  cases emptied.symm.trans step
  exact ⟨reached_reopened, nonempty_reopened, evaluated, ⟨_, step⟩, foretells⟩

end Domains

end Stowage
