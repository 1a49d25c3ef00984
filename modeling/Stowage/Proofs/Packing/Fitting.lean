import Stowage.Packing.Fitting
import Stowage.Proofs.Packing.Items

/-!
# Fitting is sound and ends

A candidate that does not fit is in the bin in no solution, and a candidate that the bin needs is in
it in every solution.  Whenever a round changes something, a value or a candidate disappears.

* `Desk.effort` — the measure.
* `Desk.Confined` — an item has only bins left, so that placing it leaves the range of the values
  nowhere.
* `Packing.visitItems_runs` — visiting the candidates of a bin.
* `Packing.fitRound_runs` — a round; when it changes nothing, no available bin is marked any more.
-/

set_option autoImplicit false

namespace Stowage

/-! ## The measure -/

namespace Ledger

theorem candidateCount_eq_sum (l : Ledger) :
    l.candidateCount = ∑ b ∈ Finset.range l.bins.size, (l.bin b).candidates.length := by
  have bins : l.bins.toList = (List.range l.bins.size).map l.bin := by
    apply List.ext_getElem
    · simp
    · intro b hb _
      have bound : b < l.bins.size := by simpa using hb
      simp [bin, bound]
  rw [candidateCount, bins, List.map_map]
  exact Packing.sum_map_range _ _

theorem candidateCount_le {l m : Ledger} (size : m.bins.size = l.bins.size)
    (fewer : ∀ b, (m.bin b).candidates.Sublist (l.bin b).candidates) :
    m.candidateCount ≤ l.candidateCount := by
  rw [candidateCount_eq_sum, candidateCount_eq_sum, size]
  exact Finset.sum_le_sum fun b _ => (fewer b).length_le

theorem candidateCount_lt {l m : Ledger} (size : m.bins.size = l.bins.size)
    (fewer : ∀ b, (m.bin b).candidates.Sublist (l.bin b).candidates) {b i : Nat}
    (hb : b < l.bins.size) (before : i ∈ (l.bin b).candidates) (after : i ∉ (m.bin b).candidates) :
    m.candidateCount < l.candidateCount := by
  rw [candidateCount_eq_sum, candidateCount_eq_sum, size]
  refine Finset.sum_lt_sum (fun b _ => (fewer b).length_le) ⟨b, Finset.mem_range.2 hb, ?_⟩
  refine lt_of_le_of_ne (fewer b).length_le fun same => after ?_
  rw [(fewer b).eq_of_length same]
  exact before

end Ledger

namespace Desk

/-- The number of values and candidates that are left. -/
def effort (desk : Desk) : Nat := desk.domains.volume + desk.ledger.candidateCount

variable {p : Packing} {s t : Desk}

theorem Moves.effort_le (h : Moves p s t) : t.effort ≤ s.effort := by
  have := h.narrows.volume
  have := Ledger.candidateCount_le h.bins h.candidates
  simp only [effort]
  omega

theorem Moves.effort_lt_of_volume (h : Moves p s t) (less : t.domains.volume < s.domains.volume) :
    t.effort < s.effort := by
  have := Ledger.candidateCount_le h.bins h.candidates
  simp only [effort]
  omega

theorem Moves.effort_lt_of_gone (h : Moves p s t) (valid : s.Valid p) {b i : Nat}
    (hb : b < p.numBins) (before : i ∈ (s.ledger.bin b).candidates)
    (after : i ∉ (t.ledger.bin b).candidates) : t.effort < s.effort := by
  have := h.narrows.volume
  have := Ledger.candidateCount_lt h.bins h.candidates (by rw [valid.tracks.bins]; exact hb) before
    after
  simp only [effort]
  omega

/-! ## Items in the bins -/

/-- All values of item `i` are bins. -/
def Confined (p : Packing) (desk : Desk) (i : Nat) : Prop :=
  ∀ v ∈ desk.domains.domain (p.item i), 0 ≤ v ∧ v < p.numBins

theorem Confined.narrow (h : Domains.Narrows s.domains t.domains) {i : Nat}
    (confined : s.Confined p i) : t.Confined p i :=
  fun v member => confined v (h.subset _ v member)

/-- The bins are values, so that nothing is posted of a confined item that leaves their range. -/
theorem Confined.upper_lt {i : Nat} (confined : s.Confined p i) (healthy : s.domains.Healthy) :
    s.domains.upper (p.item i) < maxValue :=
  lt_of_lt_of_le (confined _ (healthy _).upper_mem).2 p.numBins_le

end Desk

namespace Packing

variable {p : Packing} {s : Desk} {b i : Nat}

/-! ## The two tests -/

/-- An item that does not fit is in the bin in no solution. -/
theorem ne_of_not_fits (wf : p.WellFormed) (valid : s.Valid p) (hb : b < p.numBins)
    (hi : i ∈ (s.ledger.bin b).candidates) (h : p.fits s b i = false) {assignment : Var → Int}
    (solution : p.Solution assignment) (admits : s.domains.Admits assignment) :
    assignment (p.item i) ≠ b := by
  intro inside
  simp only [fits, List.all_eq_false, decide_eq_true_eq, not_le] at h
  obtain ⟨d, hd, full⟩ := h
  have hd' := List.mem_range.1 hd
  have need := valid.tracks.required_add_le wf valid.healthy valid.known solution admits hd' hb hi
    inside
  have room := Ledger.load_le_upper valid.known admits hd' hb
  omega

/-- An item that the bin needs is in it in every solution. -/
theorem eq_of_isNeeded (wf : p.WellFormed) (valid : s.Valid p) (hb : b < p.numBins)
    (hi : i ∈ (s.ledger.bin b).candidates) (h : p.isNeeded s b i = true) {assignment : Var → Int}
    (solution : p.Solution assignment) (admits : s.domains.Admits assignment) :
    assignment (p.item i) = b := by
  by_contra outside
  simp only [isNeeded, List.all_eq_true, decide_eq_true_eq] at h
  have short := h 0 (List.mem_range.2 wf.dims)
  have most := valid.tracks.le_total_without wf valid.healthy valid.known solution admits wf.dims hb
    hi outside
  have least := Ledger.lower_le_load valid.known admits wf.dims hb
  omega

/-! ## Visiting a bin -/

/-- The bin is taken away from an item that no solution places in it. -/
theorem excludeItem_runs (wf : p.WellFormed) (valid : s.Valid p) (hb : b < p.numBins)
    (hi : i < p.numItems) (confined : s.Confined p i)
    (sound : ∀ assignment, p.Solution assignment → s.domains.Admits assignment →
      assignment (p.item i) ≠ b) :
    (Desk.progressing p).Runs (p.excludeItem b i) s fun _ t => i ∉ (t.ledger.bin b).candidates := by
  have exist := valid.known.items i hi
  refine .bind valid (Desk.progress_of_tightening (Desk.onDomains_runs valid exist
    (Domains.imposes_impose (q := .differs (p.item i) b) valid.healthy exist
      (Domains.fits_of_upper_lt (confined.upper_lt valid.healthy)))
    fun a solution admits => decide_eq_true (sound a solution admits))) fun _ t validT _ post => ?_
  have gone : (b : Int) ∉ t.domains.domain (p.item i) := by
    intro member
    rcases post with ⟨_, rfl, all⟩ | ⟨_, _, _, members⟩
    · exact of_decide_eq_true (all _ member) rfl
    · exact of_decide_eq_true (((members _ _).1 member).2 rfl) rfl
  refine .bind validT (Desk.progress_of_tightening (Desk.count_runs validT _))
    fun _ u validU _ same => ?_
  refine (synchroniseItem_runs wf validU hi).mono fun _ v _ _ stays member => gone ?_
  have inside := (stays b hb member).1
  rwa [same] at inside

/-- An item is placed in the bin in which every solution places it. -/
theorem forceItem_runs (wf : p.WellFormed) (valid : s.Valid p) (hb : b < p.numBins)
    (hi : i < p.numItems) (confined : s.Confined p i)
    (sound : ∀ assignment, p.Solution assignment → s.domains.Admits assignment →
      assignment (p.item i) = b) :
    (Desk.progressing p).Runs (p.forceItem b i) s fun _ t => i ∉ (t.ledger.bin b).candidates := by
  have exist := valid.known.items i hi
  refine .bind valid (Desk.progress_of_tightening (Desk.onDomains_runs valid exist
    (Domains.imposes_impose (q := .equals (p.item i) b) valid.healthy exist
      (Domains.fits_of_upper_lt (confined.upper_lt valid.healthy)))
    fun a solution admits => decide_eq_true (sound a solution admits))) fun _ t validT _ post => ?_
  have only : ∀ v ∈ t.domains.domain (p.item i), v = b := by
    intro v member
    rcases post with ⟨_, rfl, all⟩ | ⟨_, _, _, members⟩
    · exact of_decide_eq_true (all v member)
    · exact of_decide_eq_true (((members _ _).1 member).2 rfl)
  have fixed : (t.domains.domain (p.item i)).fixedValue? = some (b : Int) :=
    Domain.fixedValue?_eq_some_iff.2 ⟨(validT.healthy _).isFixed_of_forall_eq only,
      only _ (validT.healthy _).lower_mem⟩
  refine .bind validT (Desk.progress_of_tightening (Desk.count_runs validT _))
    fun _ u validU _ same => ?_
  refine (synchroniseItem_runs wf validU hi).mono fun _ v _ _ stays member => ?_
  have open' := (stays b hb member).2
  rw [same] at open'
  exact open' fixed

/-- **Visiting items.** -/
theorem visitItems_runs (wf : p.WellFormed) (valid : s.Valid p) (hb : b < p.numBins)
    (confined : ∀ i < p.numItems, s.Confined p i) {items : List Nat}
    (bounded : ∀ i ∈ items, i < p.numItems) :
    (Desk.progressing p).Runs (p.visitItems b items) s fun changed t =>
      (changed = true → t.effort < s.effort) ∧ (changed = false → t = s) := by
  induction items generalizing s with
  | nil => exact .pure valid ⟨(fun h => by cases h), fun _ => rfl⟩
  | cons i rest ih =>
    obtain ⟨hi, later⟩ := List.forall_mem_cons.1 bounded
    refine ensureItem_runs wf valid (ensureBin_runs wf valid ?_ hb) hi
    refine .get_bind (.ite (fun _ => ih valid confined later) fun candidate => ?_)
    have member : i ∈ (s.ledger.bin b).candidates := by simpa [Bin.isCandidate] using candidate
    -- whatever happens to the item, it is no candidate of the bin afterwards
    have visited : ∀ {call : Call Desk Unit}, (Desk.progressing p).Runs call s (fun _ t =>
        i ∉ (t.ledger.bin b).candidates) →
        (Desk.progressing p).Runs (do
          call
          let _ ← p.visitItems b rest
          return true) s fun changed t =>
            (changed = true → t.effort < s.effort) ∧ (changed = false → t = s) := by
      intro call runs
      refine .bind valid runs fun _ t validT rel gone => ?_
      refine .bind validT (ih validT (fun j hj => (confined j hj).narrow rel.narrows) later) fun _ u validU relU _ =>
        .pure validU ⟨fun _ => ?_, fun h => by cases h⟩
      exact lt_of_le_of_lt relU.toMoves.effort_le
        (rel.toMoves.effort_lt_of_gone valid hb member gone)
    refine .ite (fun fails => visited (excludeItem_runs wf valid hb hi (confined i hi) fun a solution admits =>
      ne_of_not_fits wf valid hb member (by simpa using fails) solution admits)) fun _ => ?_
    refine .ite (fun needed => visited (forceItem_runs wf valid hb hi (confined i hi) fun a solution admits =>
      eq_of_isNeeded wf valid hb member needed solution admits)) fun _ => ?_
    exact .ite (fun _ => .pure valid ⟨(fun h => by cases h), fun _ => rfl⟩) fun _ => ih valid confined later

theorem fitBin_runs (wf : p.WellFormed) (valid : s.Valid p) (hb : b < p.numBins)
    (confined : ∀ i < p.numItems, s.Confined p i) :
    (Desk.progressing p).Runs (p.fitBin b) s fun changed t =>
      (changed = true → t.effort < s.effort) ∧ (changed = false → t = s) :=
  ensureBin_runs wf valid (.get_bind (visitItems_runs wf valid hb confined
    (valid.tracks.accounts b hb).bounded)) hb

/-! ## Extending the big items -/

/-- The desk after the big items of bin `b` were extended. -/
def extended (p : Packing) (s : Desk) (b : Nat) : Desk :=
  let free := p.freeSpace s.ledger s.domains 0 b
  s.enter p (s.ledger.put b ((s.ledger.bin b).extendBig p free).2)
    (Ledger.extension p free b (s.ledger.bin b))

theorem ledger_extended (p : Packing) (s : Desk) (b : Nat) : (p.extended s b).ledger =
    s.ledger.put b ((s.ledger.bin b).extendBig p (p.freeSpace s.ledger s.domains 0 b)).2 := rfl

/-- **The big items of a bin are extended.**  Its load stays tight, since the load is sunk whenever the
total load decreases. -/
theorem extendBin_runs (wf : p.WellFormed) (valid : s.Valid p) (enabled : p.policy ≠ .disabled)
    (hb : b < p.numBins) :
    (Desk.progressing p).Runs (p.extendBin b) s fun changed t =>
      (changed = true → t.effort < s.effort) ∧
      (changed = false → t.ledger.available = s.ledger.available ∧ t.agenda = s.agenda) := by
  refine ensureBin_runs wf valid ?_ hb
  refine .bind valid (Desk.progress_of_tightening (Desk.count_runs valid _))
    fun _ t validT _ same => ?_
  have size : b < t.ledger.bins.size := by rw [validT.tracks.bins]; exact hb
  obtain ⟨fits, candidates⟩ := validT.tracks.fits_extendBig wf enabled hb
  have accounts := validT.tracks.accounts b hb
  have moves : Desk.Moves p t (p.extended t b) :=
    Desk.moves_replace (a := t.agenda) validT fits (Ledger.bin_put t.ledger size _)
      Array.size_setIfInBounds id _
  have valid' : (p.extended t b).Valid p :=
    ⟨validT.healthy, validT.known, validT.tracks.put hb fits candidates, validT.marks, validT.dynamic⟩
  have entry : ∀ d < p.numDims, (p.extended t b).ledger.entry d b =
      { t.ledger.entry d b with
        total := (t.ledger.entry d b).total -
          if d = 0 then ((t.ledger.bin b).extendBig p (p.freeSpace t.ledger t.domains 0 b)).1 else 0 } := by
    intro d hd
    rw [Ledger.entry, ledger_extended, Ledger.bin_put t.ledger size, if_pos rfl,
      accounts.entry_extendBig _ hd]
    rfl
  -- the call after the ledger was changed
  have rest : (Desk.tightening p).Runs
      (if ((t.ledger.bin b).extendBig p (p.freeSpace t.ledger t.domains 0 b)).1 = 0 then return false
      else p.sinkToTotal 0 b) (p.extended t b) fun changed u =>
        (changed = true → u.domains.volume < t.domains.volume) ∧
        (changed = false → u.ledger.available = t.ledger.available ∧ u.agenda = t.agenda) ∧
        ∀ d < p.numDims, t.TightAt p d b → u.TightAt p d b := by
    refine .ite (fun zero => .pure valid'
      ⟨(fun h => by cases h), fun _ => ⟨rfl, rfl⟩, fun d hd tight => ?_⟩)
      fun _ => (sinkToTotal_runs wf valid' wf.dims hb).mono fun changed u _ rel post =>
        ⟨post.2.1, fun h => by rw [post.2.2 h]; exact ⟨rfl, rfl⟩, fun d hd tight => ?_⟩
    · rw [Desk.TightAt, entry d hd]
      simp only [zero, ite_self, sub_zero]
      exact tight
    · by_cases zero : d = 0
      · subst zero
        refine ⟨?_, post.1⟩
        rw [(rel.entries 0 b).1, entry 0 hd]
        exact tight.1.trans (rel.narrows.le_lower _)
      · refine rel.tight d hd b hb ?_
        rw [Desk.TightAt, entry d hd]
        simp only [zero, if_false, sub_zero]
        exact tight
  subst same
  refine rest.transfer rfl (fun changed u validU rel post => ?_) fun u fail => moves.refutes fail
  obtain ⟨less, quiet, tight⟩ := post
  have progress := Desk.progress_of_replace moves (Ledger.bin_put _ size _) rfl rel tight
  exact ⟨validU, progress, fun h => progress.toMoves.effort_lt_of_volume (less h), quiet⟩

/-! ## A round -/

/-- No bin has become available or marked. -/
def Quiet (s t : Desk) : Prop :=
  t.ledger.available = s.ledger.available ∧ ∀ b ∈ t.agenda.marked, b ∈ s.agenda.marked

theorem Quiet.refl (s : Desk) : Quiet s s := ⟨rfl, fun _ h => h⟩

theorem Quiet.trans {s t u : Desk} (h : Quiet s t) (h' : Quiet t u) : Quiet s u :=
  ⟨h'.1.trans h.1, fun b hb => h.2 b (h'.2 b hb)⟩

theorem extendIfMarked_runs (wf : p.WellFormed) (valid : s.Valid p) (hb : b < p.numBins) :
    (Desk.progressing p).Runs (p.extendIfMarked b) s fun changed t =>
      (changed = true → t.effort < s.effort) ∧
      (changed = false → Quiet s t ∧ b ∉ t.agenda.marked) := by
  refine .get_bind (.ite (fun marked => ?_) fun unmarked => ?_)
  · have member : b ∈ s.agenda.marked := by simpa using marked
    have enabled := valid.dynamic (List.ne_nil_of_mem member)
    refine .bind valid (Desk.progress_of_tightening (Desk.plan_runs valid rfl (valid.marks.erase b)
      fun _ => enabled)) fun _ t validT rel same => ?_
    refine (extendBin_runs wf validT (by rw [enabled]; exact fun h => by cases h) hb).mono
      fun changed u _ _ ⟨less, quiet⟩ => ⟨fun h => ?_, fun h => ?_⟩
    · exact lt_of_lt_of_le (less h) rel.toMoves.effort_le
    · obtain ⟨available, agenda⟩ := quiet h
      rw [same] at available agenda
      rw [Quiet, available, agenda]
      refine ⟨⟨rfl, fun c hc => List.mem_of_mem_erase hc⟩, ?_⟩
      exact valid.marks.not_mem_erase
  · exact .pure valid ⟨(fun h => by cases h), fun _ => ⟨.refl s, by simpa using unmarked⟩⟩

theorem visitBin_runs (wf : p.WellFormed) (valid : s.Valid p) (hb : b < p.numBins)
    (confined : ∀ i < p.numItems, s.Confined p i) :
    (Desk.progressing p).Runs (p.visitBin b) s fun changed t =>
      (changed = true → t.effort < s.effort) ∧
      (changed = false → Quiet s t ∧ (b ∈ t.ledger.available → b ∉ t.agenda.marked)) := by
  refine .get_bind (.ite (fun _ => ?_) fun unavailable => ?_)
  · refine .bind valid (extendIfMarked_runs wf valid hb) fun first t validT relT ⟨less, quiet⟩ => ?_
    refine .bind validT (fitBin_runs wf validT hb fun i hi => (confined i hi).narrow relT.narrows)
      fun second u validU relU ⟨less', same⟩ => ?_
    refine .pure validU ⟨fun h => ?_, fun h => ?_⟩
    · rcases Bool.or_eq_true_iff.1 h with h | h
      · exact lt_of_le_of_lt relU.toMoves.effort_le (less h)
      · exact lt_of_lt_of_le (less' h) relT.toMoves.effort_le
    · obtain ⟨h, h'⟩ := Bool.or_eq_false_iff.1 h
      rw [same h']
      exact ⟨(quiet h).1, fun _ => (quiet h).2⟩
  · refine .pure valid ⟨(fun h => by cases h), fun _ => ⟨.refl s, fun member => ?_⟩⟩
    exact absurd (by simpa [Ledger.isAvailable] using member) unavailable

/-- **A round.**  When it changes nothing, no available bin is marked any more. -/
theorem fitRound_runs (wf : p.WellFormed) (valid : s.Valid p)
    (confined : ∀ i < p.numItems, s.Confined p i) :
    (Desk.progressing p).Runs p.fitRound s fun changed t =>
      (changed = true → t.effort < s.effort) ∧
      (changed = false → ∀ b ∈ t.ledger.available, b ∉ t.agenda.marked) := by
  refine .get_bind ((Contract.Runs.sweep (I := fun t => ∀ i < p.numItems, t.Confined p i) (N := Quiet)
    (K := fun b t => b ∈ t.ledger.available → b ∉ t.agenda.marked) (m := Desk.effort) valid confined
    (fun _ _ (rel : Desk.Progress p _ _) => rel.toMoves.effort_le) Quiet.refl
    (fun _ _ _ => Quiet.trans) (fun b hb t validT _ inside => ?_) fun b _ t u quiet here member => ?_).mono
    fun changed t _ _ ⟨_, less, quiet⟩ => ⟨less, fun h b hb => ?_⟩)
  · have exist := ((valid.tracks.available b).1 hb).1
    exact (visitBin_runs wf validT exist inside).mono fun _ _ _ rel post =>
      ⟨fun i hi => (inside i hi).narrow rel.narrows, post⟩
  · intro marked
    exact here (quiet.1 ▸ member) (quiet.2 b marked)
  · obtain ⟨same, unmarked⟩ := quiet h
    exact unmarked b (same.1 ▸ hb) hb

end Packing

end Stowage
