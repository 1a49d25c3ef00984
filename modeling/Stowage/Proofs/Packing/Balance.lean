import Stowage.Packing.Balance
import Stowage.Proofs.Packing.Desk

/-!
# Balancing is sound and ends

In every solution the loads of a dimension add up to the size of all items.  The sums of the bounds
last seen enclose the sums of the bounds, so what the other bins can take and need is never
overstated.

* `Packing.checkSum_runs` — a conflict is declared only if there is no solution.
* `Packing.leastLoad_le`, `Packing.le_greatestLoad` — every solution respects the bounds derived.
* `Packing.balance_runs` — balancing.
-/

set_option autoImplicit false

namespace Stowage

namespace Packing

variable {p : Packing} {s : Desk} {d b : Nat} {assignment : Var → Int}

section

variable (valid : s.Valid p) (solution : p.Solution assignment)
  (admits : s.domains.Admits assignment) (hd : d < p.numDims)

include valid solution admits hd

/-- What a solution puts in the bins other than `b` is at most the sum of the upper bounds last seen
without that of `b`. -/
theorem totalSize_sub_le (hb : b < p.numBins) :
    p.totalSize d - assignment (p.load d b) ≤
      (s.ledger.sum d).upper - s.domains.upper (p.load d b) := by
  have mem := Finset.mem_range.2 hb
  have others : ∑ c ∈ (Finset.range p.numBins).erase b, assignment (p.load d c) ≤
      ∑ c ∈ (Finset.range p.numBins).erase b, (s.ledger.entry d c).seenUpper :=
    Finset.sum_le_sum fun c hc => by
      have hc' := Finset.mem_range.1 (Finset.mem_of_mem_erase hc)
      exact (Ledger.load_le_upper valid.known admits hd hc').trans
        (valid.tracks.seenUpper d hd c hc')
  have here := valid.tracks.seenUpper d hd b hb
  rw [← solution.sum_loads hd, valid.tracks.sumUpper d hd,
    ← Finset.add_sum_erase _ (fun c => assignment (p.load d c)) mem,
    ← Finset.add_sum_erase _ (fun c => (s.ledger.entry d c).seenUpper) mem]
  omega

theorem le_totalSize_sub (hb : b < p.numBins) :
    (s.ledger.sum d).lower - s.domains.lower (p.load d b) ≤
      p.totalSize d - assignment (p.load d b) := by
  have mem := Finset.mem_range.2 hb
  have others : ∑ c ∈ (Finset.range p.numBins).erase b, (s.ledger.entry d c).seenLower ≤
      ∑ c ∈ (Finset.range p.numBins).erase b, assignment (p.load d c) :=
    Finset.sum_le_sum fun c hc => by
      have hc' := Finset.mem_range.1 (Finset.mem_of_mem_erase hc)
      exact (valid.tracks.seenLower d hd c hc').trans
        (Ledger.lower_le_load valid.known admits hd hc')
  have here := valid.tracks.seenLower d hd b hb
  rw [← solution.sum_loads hd, valid.tracks.sumLower d hd,
    ← Finset.add_sum_erase _ (fun c => assignment (p.load d c)) mem,
    ← Finset.add_sum_erase _ (fun c => (s.ledger.entry d c).seenLower) mem]
  omega

/-- The sums of the bounds last seen enclose the size of all items. -/
theorem totalSize_between :
    (s.ledger.sum d).lower ≤ p.totalSize d ∧ p.totalSize d ≤ (s.ledger.sum d).upper := by
  rw [← solution.sum_loads hd, valid.tracks.sumLower d hd, valid.tracks.sumUpper d hd]
  constructor
  · refine Finset.sum_le_sum fun c hc => ?_
    have hc' := Finset.mem_range.1 hc
    exact (valid.tracks.seenLower d hd c hc').trans
      (Ledger.lower_le_load valid.known admits hd hc')
  · refine Finset.sum_le_sum fun c hc => ?_
    have hc' := Finset.mem_range.1 hc
    exact (Ledger.load_le_upper valid.known admits hd hc').trans
      (valid.tracks.seenUpper d hd c hc')

variable (wf : p.WellFormed) (hb : b < p.numBins)

include wf hb

/-- **Every solution gives a bin at least its least load.** -/
theorem leastLoad_le : p.leastLoad s d b ≤ assignment (p.load d b) := by
  have required := valid.tracks.required_le wf valid.healthy valid.known solution admits hd hb
  have others := totalSize_sub_le valid solution admits hd hb
  exact max_le required (by omega)

/-- **Every solution gives a bin at most its greatest load.** -/
theorem le_greatestLoad : assignment (p.load d b) ≤ p.greatestLoad s d b := by
  have total := valid.tracks.le_total wf valid.healthy valid.known solution admits hd hb
  have others := le_totalSize_sub valid solution admits hd hb
  exact le_min total (by omega)

end

/-- The loads cannot add up to the size of the items, so there is no solution. -/
theorem checkSum_runs (valid : s.Valid p) (hd : d < p.numDims) :
    (Desk.tightening p).Runs (p.checkSum d) s fun _ t => t = s := by
  have inside : d < s.ledger.sums.size := by
    rw [valid.tracks.sums]
    exact hd
  apply Contract.Runs.ensure_bind (c := fun desk : Desk => decide (d < desk.ledger.sums.size))
    (decide_eq_true inside)
  refine .get_bind ?_
  refine .ite (fun overfull => .conflict ?_) fun _ =>
    .ite (fun underfull => .conflict ?_) fun _ => .pure valid rfl
  · refine ⟨fun a solution admits => ?_, .refl _, id⟩
    have := (totalSize_between valid solution admits hd).2
    omega
  · refine ⟨fun a solution admits => ?_, .refl _, id⟩
    have := (totalSize_between valid solution admits hd).1
    omega

theorem checkSums_runs (valid : s.Valid p) :
    (Desk.tightening p).Runs p.checkSums s fun _ t => t = s := by
  refine (Contract.Runs.forM (I := fun t => t = s) (K := fun _ _ => True) valid rfl
    (fun d hd t validT _ same => ?_) fun _ _ _ _ _ _ _ => trivial).mono fun _ t _ _ done => done.1
  refine (checkSum_runs validT (List.mem_range.1 hd)).mono fun _ u _ _ same' => ⟨?_, trivial⟩
  exact same'.trans same

theorem balanceLoad_runs (wf : p.WellFormed) (valid : s.Valid p) (hd : d < p.numDims)
    (hb : b < p.numBins) :
    (Desk.tightening p).Runs (p.balanceLoad b d) s fun changed t =>
      changed = true → t.domains.volume < s.domains.volume := by
  refine .get_bind ?_
  refine .bind valid (raiseLoad_runs wf valid hd hb fun a solution admits =>
    leastLoad_le valid solution admits hd wf hb) fun raised t validT relT ⟨_, raise, _⟩ => ?_
  refine .get_bind ?_
  refine .bind validT (sinkLoad_runs wf validT hd hb fun a solution admits =>
    le_greatestLoad validT solution admits hd wf hb) fun sunk u validU relU ⟨_, sink, _⟩ => ?_
  refine .pure validU fun changed => ?_
  have first := relT.narrows.volume
  have second := relU.narrows.volume
  rcases Bool.or_eq_true_iff.1 changed with h | h
  · have := raise h
    omega
  · have := sink h
    omega

/-- A sweep of rounds each of which narrows a domain when it changes something. -/
theorem sweep_runs {α : Type} {round : α → Call Desk Bool} {l : List α} (valid : s.Valid p)
    (step : ∀ a ∈ l, ∀ t, t.Valid p → Desk.Tightens p s t → (Desk.tightening p).Runs (round a) t
      fun changed u => changed = true → u.domains.volume < t.domains.volume) :
    (Desk.tightening p).Runs (Call.sweep round l) s fun changed t =>
      changed = true → t.domains.volume < s.domains.volume := by
  refine (Contract.Runs.sweep (I := fun _ => True) (N := fun _ _ => True) (K := fun _ _ => True)
    (m := fun t : Desk => t.domains.volume) valid trivial
    (fun _ _ (rel : Desk.Tightens p _ _) => rel.narrows.volume)
    (fun _ => trivial) (fun _ _ _ _ _ => trivial) (fun a ha t validT rel _ => ?_)
    fun _ _ _ _ _ _ => trivial).mono fun _ _ _ _ done => done.2.1
  exact (step a ha t validT rel).mono fun _ _ _ _ less =>
    ⟨trivial, less, fun _ => ⟨trivial, trivial⟩⟩

theorem balanceRound_runs (wf : p.WellFormed) (valid : s.Valid p) :
    (Desk.tightening p).Runs p.balanceRound s fun changed t =>
      changed = true → t.domains.volume < s.domains.volume := by
  refine .bind valid (checkSums_runs valid) fun _ t validT _ same => ?_
  subst same
  refine .get_bind (sweep_runs validT fun b hb t validT relT => ?_)
  have inside := ((valid.tracks.available b).1 hb).1
  exact sweep_runs validT fun d hd u validU _ =>
    balanceLoad_runs wf validU (List.mem_range.1 hd) inside

/-- **Balancing ends, and loses no solution.** -/
theorem balance_runs (wf : p.WellFormed) (valid : s.Valid p) :
    (Desk.tightening p).Runs p.balance s fun _ _ => True := by
  refine .get_bind ?_
  refine (Contract.Runs.untilStable (I := fun _ => True) (F := fun _ => True)
    (m := fun t : Desk => t.domains.volume) valid trivial (Nat.lt_succ_self _) fun t validT _ _ => ?_).mono
    fun _ _ _ _ _ => trivial
  exact (balanceRound_runs wf validT).mono fun _ _ _ _ less => ⟨trivial, less, fun _ => trivial⟩

end Packing

end Stowage
