import Stowage.Packing.Revision
import Stowage.Proofs.Packing.Balance
import Stowage.Proofs.Packing.Fitting

/-!
# A revision is sound, ends, and settles everything

* `Agenda.Tidy` — agendas that list no item twice and whose flags say which items are listed.
* `Desk.Ready` — desks on which a revision can start: whatever the ledger does not know is on the
  agenda.
* `Desk.Revised` — desks at the end of a revision: nothing is left on the agenda, the items are
  confined to the bins, and all loads are tight.
* `Packing.call_runs` — a call leads from the one to the other, loses no solution, does not fault, and
  finds an inconsistency only if there is no solution.
-/

set_option autoImplicit false

namespace Stowage

namespace Agenda

/-- No item is listed twice, and the flags say which items are listed. -/
structure Tidy (a : Agenda) : Prop where
  nodup : a.items.Nodup
  flags : a.flagged.Perm a.items

variable {a : Agenda}

theorem tidy_of_empty (items : a.items = []) (flagged : a.flagged = []) : a.Tidy := by
  constructor
  · rw [items]
    exact List.nodup_nil
  · rw [items, flagged]

theorem Tidy.mem_flagged (tidy : a.Tidy) {i : Nat} : i ∈ a.flagged ↔ i ∈ a.items :=
  tidy.flags.mem_iff

theorem Tidy.noFlags (tidy : a.Tidy) (noItems : a.items = []) : a.flagged = [] := by
  have flags := tidy.flags
  rw [noItems] at flags
  exact flags.eq_nil

/-- The flag keeps an item from being listed twice. -/
theorem Tidy.addItem (tidy : a.Tidy) (i : Nat) : (a.addItem i).Tidy := by
  unfold Agenda.addItem
  split
  · exact tidy
  · rename_i absent
    rw [List.contains_iff_mem, tidy.mem_flagged] at absent
    exact ⟨List.nodup_cons.2 ⟨absent, tidy.nodup⟩, tidy.flags.cons i⟩

theorem Tidy.dropItem (tidy : a.Tidy) {i : Nat} {rest : List Nat} (top : a.items = i :: rest) :
    (a.dropItem i rest).Tidy := by
  have nodup := tidy.nodup
  have flags := tidy.flags.erase i
  rw [top, List.erase_cons_head] at flags
  rw [top, List.nodup_cons] at nodup
  exact ⟨nodup.2, flags⟩

end Agenda

namespace Desk

/-- Desks on which a revision can start. -/
structure Ready (p : Packing) (desk : Desk) : Prop extends Valid p desk where
  tidy : desk.agenda.Tidy
  listed : ∀ i ∈ desk.agenda.items, i < p.numItems
  items : ∀ i < p.numItems, i ∈ desk.agenda.items ∨ desk.KnowsItem p i
  loads : ∀ d < p.numDims, ∀ b < p.numBins, desk.agenda.loadsMoved = true ∨ desk.KnowsLoad p d b
  tight : desk.agenda.started = true → ∀ d < p.numDims, ∀ b < p.numBins, desk.TightAt p d b
  confined : desk.agenda.started = true → ∀ i < p.numItems, desk.Confined p i

/-- Desks at the end of a revision. -/
structure Revised (p : Packing) (desk : Desk) : Prop extends Ready p desk where
  noItems : desk.agenda.items = []
  noLoads : desk.agenda.loadsMoved = false
  started : desk.agenda.started = true
  /-- No bin that is still available has its big items to be extended. -/
  unmarked : ∀ b ∈ desk.ledger.available, b ∉ desk.agenda.marked

variable {p : Packing} {s t : Desk}

/-- A desk of other domains can be revised if they agree on the variables of the packing and the
events that wait.  Where the ledger is kept does not matter. -/
theorem Ready.congr (ready : s.Ready p) (wf : p.WellFormed) {ds : Domains} {cells : Cells}
    {layout : Layout} {counters : Counters}
    (healthy : ds.Healthy) (known : p.Known ds) (pending : ds.pending = s.domains.pending)
    (items : ∀ i < p.numItems, ds.domain (p.item i) = s.domains.domain (p.item i))
    (loads : ∀ d < p.numDims, ∀ b < p.numBins,
      ds.domain (p.load d b) = s.domains.domain (p.load d b)) :
    Ready p ⟨ds, cells, layout, s.ledger, s.agenda, counters⟩ := by
  have lower : ∀ d < p.numDims, ∀ b < p.numBins,
      ds.lower (p.load d b) = s.domains.lower (p.load d b) :=
    fun d hd b hb => by rw [Domains.lower, loads d hd b hb, Domains.lower]
  have upper : ∀ d < p.numDims, ∀ b < p.numBins,
      ds.upper (p.load d b) = s.domains.upper (p.load d b) :=
    fun d hd b hb => by rw [Domains.upper, loads d hd b hb, Domains.upper]
  refine ⟨⟨healthy, known, ready.tracks.congr wf items loads, ready.marks, ready.dynamic⟩,
    ready.tidy, ready.listed, fun i hi => ?_, fun d hd b hb => ?_, fun first d hd b hb => ?_,
    fun first i hi => ?_⟩
  · refine (ready.items i hi).imp id fun knows => ?_
    simp only [KnowsItem, Packing.isSynchronised, pending, items i hi]
    exact knows
  · refine (ready.loads d hd b hb).imp id fun knows => ?_
    simp only [KnowsLoad, pending, lower d hd b hb, upper d hd b hb]
    exact knows
  · have tight := ready.tight first d hd b hb
    simp only [TightAt, lower d hd b hb, upper d hd b hb]
    exact tight
  · have confined := ready.confined first i hi
    simp only [Confined, items i hi]
    exact confined

theorem Ready.of_eq (ready : s.Ready p) (domains : t.domains = s.domains) (ledger : t.ledger = s.ledger)
    (agenda : t.agenda = s.agenda) : t.Ready p := by
  obtain ⟨ds, cells, layout, l, a, counters⟩ := t
  subst domains ledger agenda
  exact ⟨⟨ready.healthy, ready.known, ready.tracks, ready.marks, ready.dynamic⟩, ready.tidy, ready.listed,
    ready.items, ready.loads, ready.tight, ready.confined⟩

theorem Revised.of_eq (revised : s.Revised p) (domains : t.domains = s.domains)
    (ledger : t.ledger = s.ledger) (agenda : t.agenda = s.agenda) : t.Revised p where
  toReady := revised.toReady.of_eq domains ledger agenda
  noItems := agenda ▸ revised.noItems
  noLoads := agenda ▸ revised.noLoads
  started := agenda ▸ revised.started
  unmarked := agenda ▸ ledger ▸ revised.unmarked

/-- Narrowing the domains leaves the desk ready, as long as it is announced. -/
theorem Ready.narrow (ready : s.Ready p) {ds : Domains} (h : Domains.Narrows s.domains ds) :
    Ready p { s with domains := ds } :=
  ⟨ready.toValid.narrow h, ready.tidy, ready.listed, fun i hi => (ready.items i hi).imp id (·.narrow h),
    fun d hd b hb => (ready.loads d hd b hb).imp id (·.narrow h),
    fun first d hd b hb => (ready.tight first d hd b hb).narrow h,
    fun first i hi => Confined.narrow (t := { s with domains := ds }) h (ready.confined first i hi)⟩

/-- A desk with nothing left to do has nothing left to do with any counters, and with other domains
that agree on the variables of the packing; the marks of unavailable bins do not matter. -/
theorem Revised.congr (revised : s.Revised p) (wf : p.WellFormed) {ds : Domains} {cells : Cells}
    {layout : Layout} {a : Agenda} {counters : Counters} (healthy : ds.Healthy) (known : p.Known ds)
    (pending : ds.pending = s.domains.pending)
    (items : ∀ i < p.numItems, ds.domain (p.item i) = s.domains.domain (p.item i))
    (loads : ∀ d < p.numDims, ∀ b < p.numBins,
      ds.domain (p.load d b) = s.domains.domain (p.load d b))
    (agenda : a = s.agenda ∨ a = ⟨[], [], [], false, true⟩) :
    Revised p ⟨ds, cells, layout, s.ledger, a, counters⟩ := by
  have ready : Ready p ⟨ds, cells, layout, s.ledger, s.agenda, counters⟩ :=
    revised.toReady.congr wf healthy known pending items loads
  rcases agenda with rfl | rfl
  · exact ⟨ready, revised.noItems, revised.noLoads, revised.started, revised.unmarked⟩
  · refine ⟨⟨⟨healthy, known, ready.tracks, List.nodup_nil, fun h => absurd rfl h⟩,
      Agenda.tidy_of_empty rfl rfl, (fun _ h => by cases h), fun i hi => .inr ?_, fun d hd b hb => .inr ?_,
      fun _ => ready.tight revised.started, fun _ => ready.confined revised.started⟩, rfl, rfl, rfl,
      fun _ _ => List.not_mem_nil⟩
    · refine (ready.items i hi).resolve_left ?_
      simp only [revised.noItems]
      exact List.not_mem_nil
    · refine (ready.loads d hd b hb).resolve_left ?_
      simp only [revised.noLoads]
      exact fun h => by cases h

theorem Revised.narrow (revised : s.Revised p) {ds : Domains}
    (h : Domains.Narrows s.domains ds) : Revised p { s with domains := ds } :=
  ⟨revised.toReady.narrow h, revised.noItems, revised.noLoads, revised.started, revised.unmarked⟩

/-- Operations that change the ledger keep to the contract of those that work from agenda to
agenda. -/
theorem advance_of_progress {α : Type} {call : Call Desk α} {Q : α → Desk → Prop}
    (h : (progressing p).Runs call s Q) :
    (advancing p).Runs call s fun a t =>
      t.agenda = { s.agenda with marked := t.agenda.marked } ∧ Q a t :=
  h.transfer rfl (fun _ _ inv rel post => ⟨inv, rel.toAdvances, rel.agenda, post⟩)
    fun _ fail => fail

theorem replan_runs (valid : s.Valid p) {change : Agenda → Agenda}
    (marks : (change s.agenda).marked = s.agenda.marked)
    (started : s.agenda.started = true → (change s.agenda).started = true) :
    (advancing p).Runs (plan change) s fun _ t => t = { s with agenda := change s.agenda } := by
  refine .intro rfl ⟨valid.healthy, valid.known, valid.tracks, ?_, ?_⟩
    ⟨⟨.refl valid.healthy, fun _ _ h => h, rfl, fun _ => .refl _, fun _ h => h,
      fun _ _ _ _ h => h, started⟩, fun _ _ _ _ h => h⟩ rfl
  · show (change s.agenda).marked.Nodup
    rw [marks]
    exact valid.marks
  · show (change s.agenda).marked ≠ [] → _
    rw [marks]
    exact valid.dynamic

end Desk

namespace Packing

variable {p : Packing} {s : Desk} {i : Nat}

/-! ## The first revision -/

theorem foldl_markBin (bins : List Nat) (a : Agenda) :
    bins.foldl (fun a b => p.markBin b a) a =
      { a with marked := (bins.foldl (fun a b => p.markBin b a) a).marked } := by
  induction bins generalizing a with
  | nil => rfl
  | cons b bins ih =>
    rw [List.foldl_cons, ih, Desk.markBin_frame]

theorem foldl_markBin_marked (bins : List Nat) {a : Agenda} (nodup : a.marked.Nodup)
    (dynamic : a.marked ≠ [] → p.policy = .dynamic) :
    (bins.foldl (fun a b => p.markBin b a) a).marked.Nodup ∧
      ((bins.foldl (fun a b => p.markBin b a) a).marked ≠ [] → p.policy = .dynamic) := by
  induction bins generalizing a with
  | nil => exact ⟨nodup, dynamic⟩
  | cons b bins ih =>
    have marked := Desk.markBin_marked b nodup dynamic
    exact ih marked.1 marked.2

/-- Every solution confines the items to the bins. -/
theorem confineItem_runs (wf : p.WellFormed) (valid : s.Valid p) (hi : i < p.numItems) :
    (Desk.progressing p).Runs (p.confineItem i) s fun _ t => t.Confined p i := by
  have exist := valid.known.items i hi
  refine .bind valid (Desk.progress_of_tightening (Desk.onDomains_runs valid exist
    (Domains.imposes_impose (q := .atLeast (p.item i) 0) valid.healthy exist
      (Domains.fits_atLeast _ _ _))
    fun a solution admits => decide_eq_true (solution.inBins i hi).1)) fun _ t validT relT low => ?_
  have exist' := validT.known.items i hi
  refine .bind validT (Desk.progress_of_tightening (Desk.onDomains_runs validT exist'
    (Domains.imposes_impose (q := .atMost (p.item i) p.lastBin) validT.healthy exist'
      (Domains.fits_atMost _ _ _))
    fun a solution admits => decide_eq_true (Int.le_sub_one_of_lt (solution.inBins i hi).2)))
    fun _ u validU relU high => ?_
  have lower : ∀ v ∈ t.domains.domain (p.item i), 0 ≤ v := by
    intro v member
    rcases low with ⟨_, rfl, all⟩ | ⟨_, _, _, members⟩
    · exact of_decide_eq_true (all v member)
    · exact of_decide_eq_true (((members _ _).1 member).2 rfl)
  have upper : ∀ v ∈ u.domains.domain (p.item i), v ≤ p.lastBin := by
    intro v member
    rcases high with ⟨_, rfl, all⟩ | ⟨_, _, _, members⟩
    · exact of_decide_eq_true (all v member)
    · exact of_decide_eq_true (((members _ _).1 member).2 rfl)
  refine (synchroniseItem_runs wf validU hi).mono fun _ w _ rel _ v member => ?_
  have before := rel.narrows.subset _ v member
  exact ⟨lower v (relU.narrows.subset _ v before), Int.lt_of_le_sub_one (upper v before)⟩

theorem start_runs (wf : p.WellFormed) (valid : s.Valid p) :
    (Desk.progressing p).Runs p.start s fun _ t =>
      (∀ i < p.numItems, t.Confined p i) ∧
      ∀ d < p.numDims, ∀ b < p.numBins, t.TightAt p d b := by
  have marks := foldl_markBin_marked p.binList valid.marks valid.dynamic
  refine .bind valid (Desk.progress_of_tightening (Desk.plan_runs valid (foldl_markBin p.binList _)
    marks.1 marks.2)) fun _ t validT _ _ => ?_
  refine .bind validT (Contract.Runs.forM (I := fun _ => True) (K := fun i t => t.Confined p i)
    validT trivial (fun i hi u validU _ _ => (confineItem_runs wf validU (List.mem_range.1 hi)).mono
      fun _ _ _ _ post => ⟨trivial, post⟩)
    fun i _ u v _ (rel : Desk.Progress p u v) confined => confined.narrow rel.narrows)
    fun _ u validU _ ⟨_, confined⟩ => ?_
  refine (Contract.Runs.forM (I := fun _ => True)
    (K := fun b t => ∀ d < p.numDims, t.TightAt p d b) validU trivial (fun b hb v validV _ _ => ?_)
    fun b hb v w _ rel tight d hd => rel.tight d hd b (List.mem_range.1 hb) (tight d hd)).mono
    fun _ v _ rel ⟨_, tight⟩ => ⟨fun i hi => ?_, fun d hd b hb => tight b (List.mem_range.2 hb) d hd⟩
  · refine (Contract.Runs.forM (I := fun _ => True) (K := fun d t => t.TightAt p d b) validV trivial
      (fun d hd w validW _ _ => ?_) fun d hd v w _ rel => rel.tight d (List.mem_range.1 hd) b
        (List.mem_range.1 hb)).mono
      fun _ _ _ _ ⟨_, tight⟩ => ⟨trivial, fun d hd => tight d (List.mem_range.2 hd)⟩
    exact Desk.progress_of_tightening ((tightenToEntry_runs wf validW (List.mem_range.1 hd)
      (List.mem_range.1 hb)).mono fun _ _ _ _ post => ⟨trivial, post⟩)
  · exact (confined i (List.mem_range.2 hi)).narrow rel.narrows

/-! ## The parts of a revision -/

theorem recordLoads_runs (wf : p.WellFormed) (valid : s.Valid p) :
    (Desk.tightening p).Runs p.recordLoads s fun _ t =>
      t.domains = s.domains ∧ ∀ d < p.numDims, ∀ b < p.numBins, t.KnowsLoad p d b := by
  refine (Contract.Runs.forM (I := fun t => t.domains = s.domains)
    (K := fun d t => ∀ b < p.numBins, t.KnowsLoad p d b) valid rfl (fun d hd t validT _ same => ?_)
    fun d hd t u _ (rel : Desk.Tightens p t u) known b hb =>
      rel.loads d (List.mem_range.1 hd) b hb (known b hb)).mono
    fun _ t _ _ ⟨same, known⟩ => ⟨same, fun d hd => known d (List.mem_range.2 hd)⟩
  refine (Contract.Runs.forM (I := fun t => t.domains = s.domains) (K := fun b t => t.KnowsLoad p d b)
    validT same (fun b hb u validU _ same => ?_) fun b hb t u _ rel =>
      rel.loads d (List.mem_range.1 hd) b (List.mem_range.1 hb)).mono
    fun _ _ _ _ ⟨same, known⟩ => ⟨same, fun b hb => known b (List.mem_range.2 hb)⟩
  exact (recordLoad_runs wf validU (List.mem_range.1 hd) (List.mem_range.1 hb)).mono
    fun _ _ _ _ ⟨domains, _, recorded⟩ => ⟨domains.trans same, .inl recorded⟩

/-- **The items on the agenda are worked off.** -/
theorem workOff_runs (wf : p.WellFormed) (valid : s.Valid p) (items : List Nat)
    (listed : ∀ i ∈ items, i < p.numItems) (tidy : s.agenda.Tidy) (top : s.agenda.items = items) :
    (Desk.advancing p).Runs (p.workOff items) s fun _ t =>
      t.agenda = { s.agenda with items := [], flagged := [], marked := t.agenda.marked } ∧
      ∀ i ∈ items, t.KnowsItem p i := by
  induction items generalizing s with
  | nil =>
    refine .pure valid ⟨?_, by simp⟩
    have noFlags := tidy.noFlags top
    revert top noFlags
    cases s.agenda
    rintro rfl rfl
    rfl
  | cons i rest ih =>
    have hi := listed i List.mem_cons_self
    refine .bind valid (Desk.replan_runs valid rfl id) fun _ t validT _ same => ?_
    refine .bind validT (Desk.advance_of_progress ((synchroniseItem_runs wf validT hi).mono
      fun _ u _ rel stays => knowsItem_of_staysOnly rel.toMoves stays))
      fun _ u validU _ ⟨agenda, known⟩ => ?_
    have rest' : u.agenda.items = rest := by
      rw [agenda, same]
      rfl
    have tidyU : u.agenda.Tidy := by
      have dropped := tidy.dropItem top
      rw [agenda, same]
      exact ⟨dropped.nodup, dropped.flags⟩
    refine (ih validU (fun j hj => listed j (List.mem_cons_of_mem _ hj)) tidyU rest').mono
      fun _ v _ rel ⟨agenda', known'⟩ => ⟨?_, fun j hj => ?_⟩
    · rw [agenda', agenda, same]
      rfl
    · rcases List.mem_cons.1 hj with rfl | hj
      · exact rel.items _ known
      · exact known' j hj

theorem settleRound_runs (wf : p.WellFormed) (valid : s.Valid p)
    (confined : ∀ i < p.numItems, s.Confined p i) :
    (Desk.progressing p).Runs p.settleRound s fun changed t =>
      (changed = true → t.effort < s.effort) ∧
      (changed = false → ∀ b ∈ t.ledger.available, b ∉ t.agenda.marked) := by
  refine .bind valid (Desk.progress_of_tightening (balance_runs wf valid)) fun _ t validT rel _ => ?_
  refine (fitRound_runs wf validT fun i hi => (confined i hi).narrow rel.narrows).mono
    fun changed u _ _ ⟨less, quiet⟩ => ⟨fun h => ?_, quiet⟩
  exact lt_of_lt_of_le (less h) rel.toMoves.effort_le

/-- **The rounds end.**  Each but the last removes a value or a candidate. -/
theorem settle_runs (wf : p.WellFormed) (valid : s.Valid p)
    (confined : ∀ i < p.numItems, s.Confined p i) :
    (Desk.progressing p).Runs (Call.untilStable p.settleRound (settleLimit s)) s fun _ t =>
      ∀ b ∈ t.ledger.available, b ∉ t.agenda.marked := by
  refine (Contract.Runs.untilStable (I := fun t => ∀ i < p.numItems, t.Confined p i)
    (m := Desk.effort) (F := fun t => ∀ b ∈ t.ledger.available, b ∉ t.agenda.marked) valid confined
    (Nat.lt_succ_self _) fun t validT _ inside => ?_).mono fun _ _ _ _ done => done.2
  exact (settleRound_runs wf validT inside).mono fun _ _ _ rel ⟨less, quiet⟩ =>
    ⟨fun i hi => (inside i hi).narrow rel.narrows, less, quiet⟩

/-! ## The whole revision -/

/-- The part of a revision after the loads were recorded and the items were confined. -/
def finish (p : Packing) : Call Desk Unit := do
  let desk ← get
  p.workOff desk.agenda.items
  let desk ← get
  Call.untilStable p.settleRound (settleLimit desk)

theorem finish_runs (wf : p.WellFormed) (ready : s.Ready p) (recorded : s.agenda.loadsMoved = false)
    (started : s.agenda.started = true) :
    (Desk.advancing p).Runs p.finish s fun _ t => t.Revised p := by
  refine .get_bind (.bind ready.toValid (workOff_runs wf ready.toValid _ ready.listed ready.tidy rfl)
    fun _ t validT relT ⟨agenda, known⟩ => .get_bind ?_)
  refine (Desk.advance_of_progress (settle_runs wf validT fun i hi =>
    (ready.confined started i hi).narrow relT.narrows)).mono
    fun _ u validU relU ⟨agenda', unmarked⟩ => ?_
  have rel := relT.trans relU
  have noItems : u.agenda.items = [] := by rw [agenda', agenda]
  have noFlags : u.agenda.flagged = [] := by rw [agenda', agenda]
  have stays : u.agenda.started = true := rel.started started
  refine ⟨⟨validU, Agenda.tidy_of_empty noItems noFlags, fun i hi => ?_, fun i hi => .inr ?_,
    fun d hd b hb => .inr ?_, fun _ d hd b hb => rel.tight d hd b hb (ready.tight started d hd b hb),
    fun _ i hi => (ready.confined started i hi).narrow rel.narrows⟩, noItems, ?_, stays, unmarked⟩
  · rw [noItems] at hi
    cases hi
  · rcases ready.items i hi with listed | before
    · exact relU.items i (known i listed)
    · exact rel.items i before
  · refine rel.loads d hd b hb ((ready.loads d hd b hb).resolve_left ?_)
    rw [recorded]
    exact fun h => by cases h
  · rw [agenda', agenda]
    exact recorded

/-- The part of a revision after the loads were recorded. -/
theorem begin_runs (wf : p.WellFormed) (ready : s.Ready p)
    (recorded : s.agenda.loadsMoved = false) :
    (Desk.advancing p).Runs
      (if !s.agenda.started then do
        p.start
        Desk.plan fun a => { a with started := true }
        p.finish
      else p.finish) s fun _ t => t.Revised p := by
  refine .ite (fun _ => ?_) fun started => finish_runs wf ready recorded (by simpa using started)
  refine .bind ready.toValid (Desk.advance_of_progress (start_runs wf ready.toValid))
    fun _ t validT relT ⟨agenda, confined, tight⟩ => ?_
  refine .bind validT (Desk.replan_runs validT rfl fun _ => rfl) fun _ u validU relU same => ?_
  have rel := relT.trans relU
  refine finish_runs wf ⟨validU, ?_, fun i hi => ?_, fun i hi => ?_, fun d hd b hb => ?_,
    fun _ d hd b hb => relU.tight d hd b hb (tight d hd b hb),
    fun _ i hi => (confined i hi).narrow relU.narrows⟩ ?_ (by rw [same])
  · rw [same, agenda]
    exact ⟨ready.tidy.nodup, ready.tidy.flags⟩
  · rw [same, agenda] at hi
    exact ready.listed i hi
  · refine (ready.items i hi).imp (fun listed => ?_) (rel.items i)
    rw [same, agenda]
    exact listed
  · refine .inr (rel.loads d hd b hb ((ready.loads d hd b hb).resolve_left ?_))
    rw [recorded]
    exact fun h => by cases h
  · rw [same, agenda]
    exact recorded

/-- **A revision.** -/
theorem revise_runs (wf : p.WellFormed) (ready : s.Ready p) :
    (Desk.advancing p).Runs p.revise s fun _ t => t.Revised p := by
  refine .get_bind (.ite (fun moved => ?_) fun recorded => ?_)
  · refine .bind ready.toValid (Desk.advance_of_progress (Desk.progress_of_tightening
      (recordLoads_runs wf ready.toValid))) fun _ t validT relT ⟨agenda, _, known⟩ => ?_
    refine .bind validT (Desk.replan_runs validT rfl id) fun _ u validU relU same => ?_
    have rel := relT.trans relU
    have started : u.agenda.started = s.agenda.started := by rw [same, agenda]
    have later := begin_runs wf (s := u) ⟨validU, ?_, fun i hi => ?_, fun i hi => ?_,
      fun d hd b hb => .inr (relU.loads d hd b hb (known d hd b hb)), fun first d hd b hb => ?_,
      fun first i hi => ?_⟩ (by rw [same])
    · rw [started] at later
      exact later
    · rw [same, agenda]
      exact ⟨ready.tidy.nodup, ready.tidy.flags⟩
    · rw [same, agenda] at hi
      exact ready.listed i hi
    · refine (ready.items i hi).imp (fun listed => ?_) (rel.items i)
      rw [same, agenda]
      exact listed
    · exact rel.tight d hd b hb (ready.tight (started ▸ first) d hd b hb)
    · exact (ready.confined (started ▸ first) i hi).narrow rel.narrows
  · exact begin_runs wf ready (by simpa using recorded)

/-- **A call.**  It does not fault, and finds an inconsistency only if there is no solution. -/
theorem call_runs (wf : p.WellFormed) (ready : s.Ready p) :
    (Desk.advancing p).Runs p.call s fun _ t => t.Revised p := by
  refine .bind ready.toValid (Desk.advance_of_progress (Desk.progress_of_tightening
    (Desk.count_runs ready.toValid _))) fun _ t validT relT ⟨_, same⟩ => ?_
  have ready' : t.Ready p := by
    rw [same]
    exact ⟨⟨ready.healthy, ready.known, ready.tracks, ready.marks, ready.dynamic⟩, ready.tidy,
      ready.listed, ready.items, ready.loads, ready.tight, ready.confined⟩
  have revised := revise_runs wf ready'
  unfold Contract.Runs at revised ⊢
  unfold countConflict
  cases result : p.revise t with
  | ok a u =>
    rw [result] at revised
    exact revised
  | error halt u =>
    rw [result] at revised
    cases halt with
    | fault fault => exact revised.elim
    | inconsistent cause => exact ⟨revised.refuted, revised.undoable, revised.started⟩

end Packing

end Stowage
