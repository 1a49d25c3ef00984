import Stowage.Proofs.BigItems
import Stowage.Proofs.Packing.Families
import Stowage.Proofs.Termination

/-!
# A recomputation finds the greatest closed domains

What a recomputation leaves does not depend on the order of its rules, on the tallies of its rounds
lagging behind the domains, or on the visit of a bin ending early.  It is the greatest closed family of
domains within the given ones; if there is none, the recomputation finds an inconsistency.

* `Packing.Recomputes` — a recomputation without a limit on its rounds.
* `Packing.recompute_ends` — a recomputation ends.
* `Packing.Greatest`, `Packing.greatest_of_recompute` — the greatest closed family within another one.
* `Packing.recompute_mono`, `Packing.recompute_keeps_solution` — what follows.
* `Packing.recompute_finds_greatest` — all of it.
-/

set_option autoImplicit false

namespace Stowage

namespace Packing

variable {p : Packing} {ds t : Domains} {f g : Var → Domain}

/-! ## It ends -/

/-- The items are restricted to the bins, then rounds follow until one changes nothing or an
inconsistency is found; the result is `r`. -/
inductive Recomputes (p : Packing) (ds : Domains) : EStateM.Result Halt Domains Unit → Prop
  | stopped {halt : Halt} {t : Domains} (first : p.confine ds = .error halt t) :
      Recomputes p ds (.error halt t)
  | rounds {t : Domains} {r : EStateM.Result Halt Domains Unit} (first : p.confine ds = .ok () t)
      (rest : Call.Repeats p.recomputeRound t r) : Recomputes p ds r

section

variable (wf : p.WellFormed) (healthy : ds.Healthy) (known : p.Known ds)

include wf healthy known

/-- **A recomputation ends**, without its limit having a part in it. -/
theorem recompute_ends : p.Recomputes ds (p.recompute ds) := by
  have unroll : p.recompute ds = (p.confine >>= fun _ => do
      let ds ← get
      Call.untilStable p.recomputeRound ds.roundLimit) ds := rfl
  cases first : p.confine ds with
  | error halt t =>
    simp only [bind, EStateM.bind, first] at unroll
    rw [unroll]
    exact .stopped first
  | ok _ t =>
    have result : p.recompute ds = Call.untilStable p.recomputeRound t.roundLimit t := by
      rw [unroll]
      simp only [bind, EStateM.bind, first]
      rfl
    rw [result]
    refine .rounds first (.of_untilStable _ fun u exhausted => ?_)
    rw [← result] at exhausted
    rcases recompute_cases wf healthy known with ⟨t, ok, -⟩ | ⟨cause, t, inconsistent, -⟩
    · cases exhausted.symm.trans ok
    · cases exhausted.symm.trans inconsistent

end

/-! ## What it finds -/

/-- The family `g` is closed, lies within `f`, and contains every other family for which this holds. -/
structure Greatest (p : Packing) (f g : Var → Domain) : Prop where
  closed : p.ClosedFamily g
  below : p.Below g f
  greatest : ∀ h, p.ClosedFamily h → p.Below h f → p.Below h g

section

variable (wf : p.WellFormed) (healthy : ds.Healthy) (known : p.Known ds)

include wf healthy known

/-- The domains left are closed, and contain all closed domains within the given ones. -/
theorem recompute_ok (ok : p.recompute ds = .ok () t) :
    Domains.Narrows ds t ∧ p.IsClosed t ∧
      ∀ inner, p.IsClosed inner → inner.Within ds → inner.Within t := by
  rcases recompute_cases wf healthy known with ⟨u, found, largest⟩ | ⟨cause, u, failed, -⟩
  · cases ok.symm.trans found
    exact largest
  · cases ok.symm.trans failed

/-- **The domains left form the greatest closed family within the given ones.** -/
theorem greatest_of_recompute (ok : p.recompute ds = .ok () t) : p.Greatest ds.domain t.domain := by
  obtain ⟨narrows, closed, keeps⟩ := recompute_ok wf healthy known ok
  refine ⟨(isClosed_iff wf narrows.healthy (known.narrow narrows)).1 closed,
    fun x _ => narrows.subset x, fun h family below x inside v member => ?_⟩
  obtain ⟨inner, isClosed, within, same⟩ := family.exists_isClosed wf healthy known below
  exact keeps inner isClosed within x v (same x inside ▸ member)

/-- **A closed family within the domains lets the recomputation succeed.** -/
theorem recompute_ok_of_below (family : p.ClosedFamily f) (below : p.Below f ds.domain) :
    ∃ t, p.recompute ds = .ok () t := by
  rcases recompute_cases wf healthy known with ⟨t, ok, -⟩ | ⟨cause, t, -, none⟩
  · exact ⟨t, ok⟩
  · obtain ⟨inner, isClosed, within, -⟩ := family.exists_isClosed wf healthy known below
    exact absurd within (none inner isClosed)

/-- A recomputation of what a recomputation has left changes nothing. -/
theorem recompute_idempotent (ok : p.recompute ds = .ok () t) : p.recompute t = .ok () t := by
  obtain ⟨narrows, closed, -⟩ := recompute_ok wf healthy known ok
  exact closed.recompute wf (known.narrow narrows)

theorem recompute_mono (ok : p.recompute ds = .ok () t) {wide : Domains} (healthy' : wide.Healthy)
    (known' : p.Known wide) (wider : p.Below ds.domain wide.domain) :
    ∃ u, p.recompute wide = .ok () u ∧ p.Below t.domain u.domain := by
  obtain ⟨closed, below, -⟩ := greatest_of_recompute wf healthy known ok
  have inside := below.trans wider
  obtain ⟨u, found⟩ := recompute_ok_of_below wf healthy' known' closed inside
  exact ⟨u, found, (greatest_of_recompute wf healthy' known' found).greatest _ closed inside⟩

/-- **A recomputation keeps every solution**: its values form a closed family. -/
theorem recompute_keeps_solution {a : Var → Int} (solution : p.Solution a)
    (admits : ∀ x ∈ p.vars, a x ∈ ds.domain x) :
    ∃ t, p.recompute ds = .ok () t ∧ ∀ x ∈ p.vars, a x ∈ t.domain x := by
  have family := solution.closedFamily wf.toShaped fun x inside =>
    (healthy x).proper_value (admits x inside)
  have within : p.Below (fun x => .interval (a x) (a x)) ds.domain := by
    intro x inside v member
    obtain ⟨low, high⟩ := Domain.mem_interval.1 member
    exact Int.le_antisymm high low ▸ admits x inside
  obtain ⟨t, ok⟩ := recompute_ok_of_below wf healthy known family within
  refine ⟨t, ok, fun x inside => ?_⟩
  have kept := (greatest_of_recompute wf healthy known ok).greatest _ family within
  exact kept x inside _ (Domain.mem_interval.2 ⟨Int.le_refl _, Int.le_refl _⟩)

/-- **A recomputation computes the greatest closed domains.**  It ends and does not fault; it succeeds
if and only if some closed family lies within the given domains, and leaves the greatest one.  So it is
idempotent and monotone, and keeps every solution. -/
theorem recompute_finds_greatest :
    p.Recomputes ds (p.recompute ds) ∧
    ((∃ t, p.recompute ds = .ok () t) ∨
      ∃ cause t, p.recompute ds = .error (.inconsistent cause) t) ∧
    ((∃ t, p.recompute ds = .ok () t) ↔ ∃ f, p.ClosedFamily f ∧ p.Below f ds.domain) ∧
    (∀ t, p.recompute ds = .ok () t →
      p.Greatest ds.domain t.domain ∧ p.recompute t = .ok () t ∧
      ∀ wide : Domains, wide.Healthy → p.Known wide → p.Below ds.domain wide.domain →
        ∃ u, p.recompute wide = .ok () u ∧ p.Below t.domain u.domain) ∧
    ∀ a, p.Solution a → (∀ x ∈ p.vars, a x ∈ ds.domain x) →
      ∃ t, p.recompute ds = .ok () t ∧ ∀ x ∈ p.vars, a x ∈ t.domain x := by
  refine ⟨recompute_ends wf healthy known, ?_, ⟨?_, ?_⟩, fun t ok => ⟨?_, ?_, ?_⟩, ?_⟩
  · refine (recompute_cases wf healthy known).imp ?_ ?_
    · rintro ⟨t, ok, -⟩
      exact ⟨t, ok⟩
    · rintro ⟨cause, t, inconsistent, -⟩
      exact ⟨cause, t, inconsistent⟩
  · rintro ⟨t, ok⟩
    have greatest := greatest_of_recompute wf healthy known ok
    exact ⟨t.domain, greatest.closed, greatest.below⟩
  · rintro ⟨f, family, below⟩
    exact recompute_ok_of_below wf healthy known family below
  · exact greatest_of_recompute wf healthy known ok
  · exact recompute_idempotent wf healthy known ok
  · exact fun wide healthy' known' wider => recompute_mono wf healthy known ok healthy' known' wider
  · exact fun a solution admits => recompute_keeps_solution wf healthy known solution admits

end

end Packing

namespace State

/-- The crowded bins, when the load of the first one cannot be 4. -/
def crowdedGap : State := after (crowded.post (.differs 3 4))

/-- The domains that a recomputation leaves of them. -/
def crowdedGapDomains : Domains :=
  match crowdedPacking.recompute crowdedGap.domains with
  | .ok _ t => t
  | .error _ t => t

/-- The first load has to be 4 at least, so 5; that leaves 5 at most to the other one. -/
theorem crowdedGap_recompute_finds_greatest :
    crowdedPacking.WellFormed ∧ crowdedGap.domains.Healthy ∧
      crowdedPacking.Known crowdedGap.domains ∧
      crowdedPacking.recompute crowdedGap.domains = .ok () crowdedGapDomains ∧
      crowdedGapDomains.lower 3 = 5 ∧ crowdedGapDomains.upper 4 = 5 ∧
      crowdedPacking.Greatest crowdedGap.domains.domain crowdedGapDomains.domain := by
  have reached : Reached false crowdedGap :=
    .post reached_crowded
      (show crowded.post (.differs 3 4) = .ok (.narrowed, crowdedGap) by cbv)
  have runs : crowdedGap.Runs 0 (crowdedVars.installedAs .single crowdedPacking) := by
    unfold Runs
    cbv
  obtain ⟨⟨wf, -, -⟩, ready⟩ := reached.consistent.ready_of_found runs _ rfl
  have healthy := reached.consistent.healthy
  have known : crowdedPacking.Known crowdedGap.domains := ready.toValid.known
  have ok : crowdedPacking.recompute crowdedGap.domains = .ok () crowdedGapDomains := by cbv
  have lower : crowdedGapDomains.lower 3 = 5 := by cbv
  have upper : crowdedGapDomains.upper 4 = 5 := by cbv
  exact ⟨wf, healthy, known, ok, lower, upper,
    ((Packing.recompute_finds_greatest wf healthy known).2.2.2.1 _ ok).1⟩

end State

end Stowage
