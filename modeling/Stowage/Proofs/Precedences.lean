import Stowage.Proofs.Posting
import Stowage.Proofs.Contract
import Stowage.Precedence

/-!
# Precedences

A call of a precedence narrows the domains until their bounds satisfy it, unless one of the bounds it
has read moves meanwhile.  Once the bounds satisfy it, a call does nothing.

* `Domains.impose_eq_ok`, `Domains.impose_of_all` — imposing a predicate.
* `Precedence.Holds` — the bounds satisfy the precedence.
* `Precedence.holds_of_revise`, `Precedence.revise_of_holds` — before and after a call.
-/

set_option autoImplicit false

namespace Stowage

namespace Domains

variable {ds after : Domains} {q : Predicate}

theorem impose_eq_ok (healthy : ds.Healthy) (h : impose q ds = .ok () after) :
    Narrows ds after ∧ ∀ v ∈ after.domain q.var, q.holds v = true := by
  obtain ⟨result, posted⟩ : ∃ result, ds.post q = .ok result := by
    unfold impose at h
    split at h
    · cases h
    · cases h
    · exact ⟨_, ‹_›⟩
  have exist := lt_count_of_post posted
  have fits := fits_of_post posted
  rcases imposes_impose healthy exist fits with ⟨result, all⟩ | ⟨_, result, narrows, -, members⟩ |
    ⟨_, result, -⟩
  · cases h.symm.trans result
    exact ⟨.refl healthy, all⟩
  · cases h.symm.trans result
    exact ⟨narrows, fun v member => ((members _ v).1 member).2 rfl⟩
  · cases h.symm.trans result

/-- Imposing a predicate that all values satisfy does nothing. -/
theorem impose_of_all (healthy : ds.Healthy) (exist : q.var < ds.count)
    (all : ∀ v ∈ ds.domain q.var, q.holds v = true) : impose q ds = .ok () ds := by
  have entails : (ds.domain q.var).entails q.comparison q.value = true := by
    by_contra open'
    obtain ⟨v, member, fails⟩ := Domain.exists_not_holds (healthy q.var) (by simpa using open')
    exact absurd ((all v member).symm.trans fails) (by decide)
  have fits : ds.Fits q := healthy.fits (healthy q.var).lower_mem (all _ (healthy q.var).lower_mem)
  simp [impose, post_of_fits exist fits, narrow, entails]

end Domains

namespace Call

variable {σ : Type} {v w : Int} {s t : σ}

theorem value_of_range (low : minValue ≤ v) (high : v ≤ maxValue) : value v s = .ok v s := by
  simp only [value, low, high, and_self, if_true]
  rfl

theorem value_eq_ok (h : value v s = .ok w t) : w = v ∧ s = t := by
  unfold value at h
  split at h
  · cases h
    exact ⟨rfl, rfl⟩
  · cases h

end Call

namespace Precedence

variable {p : Precedence} {ds after : Domains}

/-- The bounds satisfy the precedence. -/
def Holds (p : Precedence) (ds : Domains) : Prop :=
  ds.upper p.left < ds.upper p.right ∧ ds.lower p.left < ds.lower p.right

/-- **After a call the bounds satisfy the precedence, unless one of them has moved.**  One always
moves if the two variables are the same. -/
theorem holds_of_revise (healthy : ds.Healthy) (h : p.revise ds = .ok () after) :
    Domains.Narrows ds after ∧ (p.Holds after ∨ ∃ (x : Var) (place : Nat), p.vars[place]? = some x ∧
      (after.lower x ≠ ds.lower x ∨ after.upper x ≠ ds.upper x)) := by
  rw [revise, Call.get_bind_eq_ok_iff] at h
  obtain ⟨_, _, bound, h⟩ := Call.bind_eq_ok_iff.1 h
  obtain ⟨rfl, rfl⟩ := Call.value_eq_ok bound
  obtain ⟨_, mid, first, rest⟩ := Call.bind_eq_ok_iff.1 h
  rw [Call.get_bind_eq_ok_iff] at rest
  obtain ⟨_, _, bound', rest⟩ := Call.bind_eq_ok_iff.1 rest
  obtain ⟨rfl, rfl⟩ := Call.value_eq_ok bound'
  obtain ⟨narrows, most⟩ := Domains.impose_eq_ok healthy first
  obtain ⟨narrows', least⟩ := Domains.impose_eq_ok narrows.healthy rest
  refine ⟨narrows.trans narrows', ?_⟩
  by_cases upper : after.upper p.right = ds.upper p.right
  · by_cases lower : after.lower p.left = ds.lower p.left
    · left
      have high : mid.upper p.left ≤ ds.upper p.right - 1 :=
        of_decide_eq_true (most _ (narrows.healthy _).upper_mem)
      have low : mid.lower p.left + 1 ≤ after.lower p.right :=
        of_decide_eq_true (least _ (narrows'.healthy _).lower_mem)
      have := narrows'.upper_le p.left
      have := narrows.le_lower p.left
      exact ⟨by omega, by omega⟩
    · exact .inr ⟨p.left, 0, rfl, .inl lower⟩
  · exact .inr ⟨p.right, 1, rfl, .inr upper⟩

/-- A call does nothing if the bounds satisfy the precedence. -/
theorem revise_of_holds (healthy : ds.Healthy) (left : p.left < ds.count) (right : p.right < ds.count)
    (holds : p.Holds ds) : p.revise ds = .ok () ds := by
  obtain ⟨uppers, lowers⟩ := holds
  have first : Domains.impose (.atMost p.left (ds.upper p.right - 1)) ds = .ok () ds := by
    apply Domains.impose_of_all healthy left
    intro v member
    have high : v ≤ ds.upper p.left := Domain.le_upper_of_mem member
    exact decide_eq_true (show v ≤ ds.upper p.right - 1 by omega)
  have second : Domains.impose (.atLeast p.right (ds.lower p.left + 1)) ds = .ok () ds := by
    apply Domains.impose_of_all healthy right
    intro v member
    have low : ds.lower p.right ≤ v := Domain.lower_le_of_mem member
    exact decide_eq_true (show ds.lower p.left + 1 ≤ v by omega)
  -- the other variable has a value beyond each bound
  have below := (healthy p.left).minValue_le.trans (healthy p.left).lower_le_upper
  have above := (healthy p.right).lower_le_upper.trans (healthy p.right).le_maxValue
  have high := (healthy p.right).le_maxValue
  have low := (healthy p.left).minValue_le
  simp only [Domains.upper, Domains.lower] at uppers lowers
  have bound : Call.value (ds.upper p.right - 1) ds = .ok (ds.upper p.right - 1) ds :=
    Call.value_of_range (by simp only [Domains.upper]; omega) (by simp only [Domains.upper]; omega)
  have bound' : Call.value (ds.lower p.left + 1) ds = .ok (ds.lower p.left + 1) ds :=
    Call.value_of_range (by simp only [Domains.lower]; omega) (by simp only [Domains.lower]; omega)
  rw [revise, Call.get_bind_eq_ok_iff]
  refine Call.bind_eq_ok_iff.2 ⟨_, ds, bound, Call.bind_eq_ok_iff.2 ⟨(), ds, first, ?_⟩⟩
  rw [Call.get_bind_eq_ok_iff]
  exact Call.bind_eq_ok_iff.2 ⟨_, ds, bound', second⟩

end Precedence

end Stowage
