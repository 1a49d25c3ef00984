import Stowage.Packing.Bookkeeping
import Stowage.Proofs.Contract
import Stowage.Proofs.Packing.Tracking

/-!
# Working on a desk

What every operation of a revision keeps to.  The domains are narrowed without losing a solution of
the packing, the ledger goes on tracking them, and whatever the ledger does not know of the domains
has left an event that will be announced.

* `Desk.Valid` — the invariant.
* `Desk.KnowsItem`, `Desk.KnowsLoad`, `Desk.TightAt` — what an operation keeps for every item and load.
* `Desk.Moves`, `Desk.Advances`, `Desk.Progress`, `Desk.Tightens` — how the desks before and after an
  operation are related, from the loosest to the closest relation.
* `Desk.Refutes` — an operation found that the domains admit no solution.
* `Packing.raiseLoad_runs`, `Packing.sinkLoad_runs` — tightening a load.
-/

set_option autoImplicit false

namespace Stowage

namespace Desk

/-- Desks on which a packing can be revised. -/
structure Valid (p : Packing) (desk : Desk) : Prop where
  healthy : desk.domains.Healthy
  known : p.Known desk.domains
  tracks : desk.ledger.Tracks p desk.domains
  marks : desk.agenda.marked.Nodup
  dynamic : desk.agenda.marked ≠ [] → p.policy = .dynamic

/-- The ledger is in line with the domain of item `i`, unless an event of it waits. -/
def KnowsItem (p : Packing) (desk : Desk) (i : Nat) : Prop :=
  p.isSynchronised desk.ledger desk.domains i = true ∨ ∃ e, desk.domains.pending.Has e (p.item i)

/-- The bounds of a load are those last seen, unless an event of it waits. -/
def KnowsLoad (p : Packing) (desk : Desk) (d b : Nat) : Prop :=
  desk.ledger.isRecorded d b (desk.domains.lower (p.load d b)) (desk.domains.upper (p.load d b)) =
      true ∨
    ∃ e ∈ Event.bounds, desk.domains.pending.Has e (p.load d b)

/-- The load of bin `b` lies between the required and the total load. -/
def TightAt (p : Packing) (desk : Desk) (d b : Nat) : Prop :=
  (desk.ledger.entry d b).required ≤ desk.domains.lower (p.load d b) ∧
    desk.domains.upper (p.load d b) ≤ (desk.ledger.entry d b).total

/-- No solution is lost, no candidate comes back, and the ledger knows no less than before. -/
structure Moves (p : Packing) (s t : Desk) : Prop where
  narrows : Domains.Narrows s.domains t.domains
  solutions : ∀ assignment, p.Solution assignment → s.domains.Admits assignment →
    t.domains.Admits assignment
  bins : t.ledger.bins.size = s.ledger.bins.size
  candidates : ∀ b, (t.ledger.bin b).candidates.Sublist (s.ledger.bin b).candidates
  items : ∀ i, s.KnowsItem p i → t.KnowsItem p i
  loads : ∀ d < p.numDims, ∀ b < p.numBins, s.KnowsLoad p d b → t.KnowsLoad p d b
  started : s.agenda.started = true → t.agenda.started = true

/-- Beyond that, loads that are tight stay tight. -/
structure Advances (p : Packing) (s t : Desk) : Prop extends Moves p s t where
  tight : ∀ d < p.numDims, ∀ b < p.numBins, s.TightAt p d b → t.TightAt p d b

/-- Beyond that, of the agenda only the marks change. -/
structure Progress (p : Packing) (s t : Desk) : Prop extends Advances p s t where
  agenda : t.agenda = { s.agenda with marked := t.agenda.marked }

/-- Beyond that, of the ledger only the bounds last seen change. -/
structure Tightens (p : Packing) (s t : Desk) : Prop extends Progress p s t where
  sameCandidates : ∀ b, (t.ledger.bin b).candidates = (s.ledger.bin b).candidates
  entries : ∀ d b, (t.ledger.entry d b).required = (s.ledger.entry d b).required ∧
    (t.ledger.entry d b).total = (s.ledger.entry d b).total
  available : t.ledger.available = s.ledger.available

/-- The domains before the operation admit no solution; going back undoes what it did. -/
structure Refutes (p : Packing) (s t : Desk) : Prop where
  refuted : ∀ assignment, p.Solution assignment → ¬s.domains.Admits assignment
  undoable : Domains.Undoable s.domains t.domains
  started : s.agenda.started = true → t.agenda.started = true

variable {p : Packing} {s t u : Desk}

theorem Moves.refl (healthy : s.domains.Healthy) : Moves p s s :=
  ⟨.refl healthy, fun _ _ h => h, rfl, fun _ => .refl _, fun _ h => h, fun _ _ _ _ h => h, id⟩

theorem Moves.trans (h : Moves p s t) (h' : Moves p t u) : Moves p s u where
  narrows := h.narrows.trans h'.narrows
  solutions a solution admits := h'.solutions a solution (h.solutions a solution admits)
  bins := h'.bins.trans h.bins
  candidates b := (h'.candidates b).trans (h.candidates b)
  items i known := h'.items i (h.items i known)
  loads d hd b hb known := h'.loads d hd b hb (h.loads d hd b hb known)
  started first := h'.started (h.started first)

theorem Moves.refutes (h : Moves p s t) (h' : Refutes p t u) : Refutes p s u where
  refuted a solution admits := h'.refuted a solution (h.solutions a solution admits)
  undoable := .after_narrows h.narrows h'.undoable
  started first := h'.started (h.started first)

theorem Advances.refl (healthy : s.domains.Healthy) : Advances p s s :=
  ⟨.refl healthy, fun _ _ _ _ h => h⟩

theorem Advances.trans (h : Advances p s t) (h' : Advances p t u) : Advances p s u :=
  ⟨h.toMoves.trans h'.toMoves, fun d hd b hb tight => h'.tight d hd b hb (h.tight d hd b hb tight)⟩

theorem Progress.refl (healthy : s.domains.Healthy) : Progress p s s := ⟨.refl healthy, rfl⟩

theorem Progress.trans (h : Progress p s t) (h' : Progress p t u) : Progress p s u :=
  ⟨h.toAdvances.trans h'.toAdvances, by rw [h'.agenda, h.agenda]⟩

theorem Tightens.refl (healthy : s.domains.Healthy) : Tightens p s s :=
  ⟨.refl healthy, fun _ => rfl, fun _ _ => ⟨rfl, rfl⟩, rfl⟩

theorem Tightens.trans (h : Tightens p s t) (h' : Tightens p t u) : Tightens p s u where
  toProgress := h.toProgress.trans h'.toProgress
  sameCandidates b := (h'.sameCandidates b).trans (h.sameCandidates b)
  entries d b := ⟨(h'.entries d b).1.trans (h.entries d b).1,
    (h'.entries d b).2.trans (h.entries d b).2⟩
  available := h'.available.trans h.available

/-- The contract of operations that work from agenda to agenda. -/
def advancing (p : Packing) : Contract Desk :=
  ⟨Valid p, Advances p, Refutes p, fun inv => .refl inv.healthy, .trans,
    fun _ rel => rel.toMoves.refutes⟩

/-- The contract of operations that change the ledger. -/
def progressing (p : Packing) : Contract Desk :=
  ⟨Valid p, Progress p, Refutes p, fun inv => .refl inv.healthy, .trans,
    fun _ rel => rel.toMoves.refutes⟩

/-- The contract of operations that tighten loads. -/
def tightening (p : Packing) : Contract Desk :=
  ⟨Valid p, Tightens p, Refutes p, fun inv => .refl inv.healthy, .trans,
    fun _ rel => rel.toMoves.refutes⟩

/-! ## Changes of the domains -/

/-- The ledger knows what has happened to an item, as long as it is announced. -/
theorem KnowsItem.narrow {ds : Domains} (h : Domains.Narrows s.domains ds) {i : Nat}
    (known : s.KnowsItem p i) : KnowsItem p { s with domains := ds } i := by
  rcases known with known | ⟨e, waits⟩
  · rcases h.changed (p.item i) with same | waits
    · left
      simpa [Packing.isSynchronised, same] using known
    · exact .inr waits
  · exact .inr ⟨e, h.pending e _ waits⟩

theorem KnowsLoad.narrow {ds : Domains} (h : Domains.Narrows s.domains ds) {d b : Nat}
    (known : s.KnowsLoad p d b) : KnowsLoad p { s with domains := ds } d b := by
  rcases known with known | ⟨e, bound, waits⟩
  · rcases h.lower (p.load d b) with lower | waits
    · rcases h.upper (p.load d b) with upper | waits
      · left
        simpa [lower, upper] using known
      · exact .inr ⟨.upperBound, by simp [Event.bounds], waits⟩
    · exact .inr ⟨.lowerBound, by simp [Event.bounds], waits⟩
  · exact .inr ⟨e, bound, h.pending e _ waits⟩

/-- Where no event waits, what is known of a load are its bounds. -/
theorem KnowsLoad.seen_eq {d b : Nat} (known : s.KnowsLoad p d b)
    (quiet : s.domains.pending = .empty) :
    (s.ledger.entry d b).seenLower = s.domains.lower (p.load d b) ∧
      (s.ledger.entry d b).seenUpper = s.domains.upper (p.load d b) := by
  rcases known with known | ⟨e, -, waits⟩
  · simp only [Ledger.isRecorded, Bool.and_eq_true, beq_iff_eq] at known
    exact ⟨known.1.symm, known.2.symm⟩
  · rw [quiet] at waits
    exact absurd waits (Pending.not_has_empty e _)

theorem TightAt.narrow {ds : Domains} (h : Domains.Narrows s.domains ds) {d b : Nat}
    (tight : s.TightAt p d b) : TightAt p { s with domains := ds } d b :=
  ⟨tight.1.trans (h.le_lower _), (h.upper_le _).trans tight.2⟩

theorem Valid.hasItem (valid : s.Valid p) (wf : p.WellFormed) {i : Nat} (hi : i < p.numItems) :
    p.hasItem s.domains i = true :=
  valid.known.hasItem wf.toShaped hi

theorem Valid.hasEntry (valid : s.Valid p) (wf : p.WellFormed) {d b : Nat} (hd : d < p.numDims)
    (hb : b < p.numBins) : p.hasEntry s.domains s.ledger d b = true :=
  valid.tracks.hasEntry wf.toShaped valid.known hd hb

theorem Valid.hasBin (valid : s.Valid p) (wf : p.WellFormed) {b : Nat} (hb : b < p.numBins) :
    p.hasBin s.domains s.ledger b = true :=
  valid.tracks.hasBin wf.toShaped valid.known hb

theorem Valid.narrow {ds : Domains} (valid : s.Valid p) (h : Domains.Narrows s.domains ds) :
    Valid p { s with domains := ds } :=
  ⟨h.healthy, valid.known.narrow h, valid.tracks.narrow valid.healthy h, valid.marks, valid.dynamic⟩

theorem tightens_of_narrows {ds : Domains} (h : Domains.Narrows s.domains ds)
    (solutions : ∀ assignment, p.Solution assignment → s.domains.Admits assignment →
      ds.Admits assignment) : Tightens p s { s with domains := ds } :=
  ⟨⟨⟨⟨h, solutions, rfl, fun _ => .refl _, fun _ known => known.narrow h,
    fun _ _ _ _ known => known.narrow h, id⟩, fun _ _ _ _ tight => tight.narrow h⟩, rfl⟩,
    fun _ => rfl, fun _ _ => ⟨rfl, rfl⟩, rfl⟩

/-- **Imposing a predicate that all solutions satisfy.** -/
theorem onDomains_runs {α : Type} {call : Call Domains α} {q : Predicate} {quiet loud : α}
    (valid : s.Valid p) (exist : q.var < s.domains.count)
    (imposes : Domains.Imposes q call quiet loud s.domains)
    (sound : ∀ assignment, p.Solution assignment → s.domains.Admits assignment →
      q.holds (assignment q.var) = true) :
    (tightening p).Runs (onDomains call) s fun result t =>
      (result = quiet ∧ t = s ∧ ∀ v ∈ s.domains.domain q.var, q.holds v = true) ∨
      (result = loud ∧ t = { s with domains := t.domains } ∧
        t.domains.volume < s.domains.volume ∧
        ∀ x v, v ∈ t.domains.domain x ↔
          v ∈ s.domains.domain x ∧ (x = q.var → q.holds v = true)) := by
  rcases imposes with ⟨done, all⟩ | ⟨after, done, narrows, less, members⟩ | ⟨after, done, undoable, none⟩
  · exact .intro (by simp only [onDomains, Call.focus, done]) valid (.refl valid.healthy)
      (.inl ⟨rfl, rfl, all⟩)
  · refine .intro (t := { s with domains := after }) (by simp only [onDomains, Call.focus, done])
      (valid.narrow narrows) (tightens_of_narrows narrows fun a solution admits x hx => ?_)
      (.inr ⟨rfl, rfl, less, members⟩)
    rw [narrows.count] at hx
    exact (members x _).2 ⟨admits x hx, fun same => same ▸ sound a solution admits⟩
  · refine .intro_fail (t := { s with domains := after })
      (by simp only [onDomains, Call.focus, done]; rfl) ⟨fun a solution admits => ?_, undoable, id⟩
    have holds := sound a solution admits
    rw [none _ (admits _ exist)] at holds
    cases holds

/-- Changing the counters changes nothing that matters. -/
theorem count_runs (valid : s.Valid p) (change : Counters → Counters) :
    (tightening p).Runs (Desk.count change) s fun _ t =>
      t = { s with counters := change s.counters } :=
  .intro rfl ⟨valid.healthy, valid.known, valid.tracks, valid.marks, valid.dynamic⟩
    ⟨⟨⟨⟨.refl valid.healthy, fun _ _ h => h, rfl, fun _ => .refl _, fun _ h => h,
      fun _ _ _ _ h => h, id⟩, fun _ _ _ _ h => h⟩, rfl⟩, fun _ => rfl, fun _ _ => ⟨rfl, rfl⟩, rfl⟩
    rfl

theorem plan_runs (valid : s.Valid p) {change : Agenda → Agenda}
    (frame : change s.agenda = { s.agenda with marked := (change s.agenda).marked })
    (marks : (change s.agenda).marked.Nodup)
    (dynamic : (change s.agenda).marked ≠ [] → p.policy = .dynamic) :
    (tightening p).Runs (plan change) s fun _ t => t = { s with agenda := change s.agenda } := by
  refine .intro rfl ⟨valid.healthy, valid.known, valid.tracks, marks, dynamic⟩
    ⟨⟨⟨⟨.refl valid.healthy, fun _ _ h => h, rfl, fun _ => .refl _, fun _ h => h,
      fun _ _ _ _ h => h, fun first => ?_⟩, fun _ _ _ _ h => h⟩, frame⟩, fun _ => rfl,
      fun _ _ => ⟨rfl, rfl⟩, rfl⟩ rfl
  show (change s.agenda).started = true
  rw [frame]
  exact first

theorem markBin_frame (p : Packing) (b : Nat) (a : Agenda) :
    p.markBin b a = { a with marked := (p.markBin b a).marked } := by
  unfold Packing.markBin Agenda.mark
  split
  · split <;> rfl
  · rfl

/-- A mark is set once, and only where big items are extended. -/
theorem markBin_marked {a : Agenda} (b : Nat) (nodup : a.marked.Nodup)
    (dynamic : a.marked ≠ [] → p.policy = .dynamic) :
    (p.markBin b a).marked.Nodup ∧ ((p.markBin b a).marked ≠ [] → p.policy = .dynamic) := by
  unfold Packing.markBin Agenda.mark
  split
  · rename_i enabled
    refine ⟨?_, fun _ => enabled⟩
    split
    · exact nodup
    · rename_i absent
      exact List.nodup_cons.2 ⟨by simpa using absent, nodup⟩
  · exact ⟨nodup, dynamic⟩

theorem markBin_runs (valid : s.Valid p) (b : Nat) :
    (tightening p).Runs (plan (p.markBin b)) s fun _ t =>
      t = { s with agenda := p.markBin b s.agenda } :=
  plan_runs valid (markBin_frame p b _) (markBin_marked b valid.marks valid.dynamic).1
    (markBin_marked b valid.marks valid.dynamic).2

end Desk

namespace Packing

variable {p : Packing} {s : Desk} {d b : Nat}

/-! ## Accesses -/

section

variable {C : Contract Desk} {α : Type} {f : Unit → Call Desk α} {R : α → Desk → Prop}
  (wf : p.WellFormed) (valid : s.Valid p) (h : C.Runs (f ()) s R)

include wf valid h

theorem ensureItem_runs {i : Nat} (hi : i < p.numItems) : C.Runs (p.ensureItem i >>= f) s R :=
  .ensure_bind (valid.hasItem wf hi) h

theorem ensureEntry_runs (hd : d < p.numDims) (hb : b < p.numBins) :
    C.Runs (p.ensureEntry d b >>= f) s R :=
  .ensure_bind (valid.hasEntry wf hd hb) h

theorem ensureBin_runs (hb : b < p.numBins) : C.Runs (p.ensureBin b >>= f) s R :=
  .ensure_bind (valid.hasBin wf hb) h

end

/-- Where there is an entry, the bounds of the load are recorded in it. -/
theorem recordLoad_eq (possible : p.hasEntry s.domains s.ledger d b = true) :
    p.recordLoad d b s = .ok ⟨⟩ (p.recorded d b s) := by
  have checked : p.recordLoad d b s = _ := Call.ensure_bind possible
  rw [checked]
  rfl

theorem noteTightening_eq (possible : p.hasEntry s.domains s.ledger d b = true) :
    p.noteTightening d b s = .ok ⟨⟩
      { p.recorded d b s with
        counters :=
          { s.counters with boundTightenings := s.counters.boundTightenings + 1 } } := by
  simp only [noteTightening, bind, EStateM.bind, recordLoad_eq possible]
  rfl

/-! ## Tightening a load -/

/-- A desk where the bounds of a load have been recorded, and nothing else has changed. -/
theorem tightens_of_record {t : Desk} (valid : s.Valid p) (hd : d < p.numDims) (hb : b < p.numBins)
    (domains : t.domains = s.domains) (agenda : t.agenda = s.agenda)
    (ledger : t.ledger = s.ledger.record d b (s.domains.lower (p.load d b))
      (s.domains.upper (p.load d b))) : s.Tightens p t := by
  have sizeB : b < s.ledger.bins.size := hb.trans_eq valid.tracks.bins.symm
  have sizeD : d < (s.ledger.bin b).entries.size :=
    hd.trans_eq (valid.tracks.accounts b hb).entries.symm
  have candidates : ∀ c, (t.ledger.bin c).candidates = (s.ledger.bin c).candidates := fun c => by
    rw [ledger]
    exact Ledger.candidates_record s.ledger sizeB d _ _ c
  have amounts : ∀ e c, (t.ledger.entry e c).required = (s.ledger.entry e c).required ∧
      (t.ledger.entry e c).total = (s.ledger.entry e c).total := fun e c => by
    rw [ledger]
    exact Ledger.amounts_entry_record s.ledger sizeB d _ _ e c
  have bins : t.ledger.bins.size = s.ledger.bins.size := by
    rw [ledger]
    exact Array.size_modify
  have available : t.ledger.available = s.ledger.available := by rw [ledger]; rfl
  have items : ∀ i, s.KnowsItem p i → t.KnowsItem p i := fun i known => by
    simpa only [Desk.KnowsItem, isSynchronised, Bin.isCandidate, domains, candidates, available,
      bins] using known
  have loads : ∀ e c, s.KnowsLoad p e c → t.KnowsLoad p e c := fun e c known => by
    simp only [Desk.KnowsLoad, domains] at known ⊢
    refine known.imp (fun known => ?_) id
    rw [ledger, Ledger.isRecorded, Ledger.entry_record _ sizeB sizeD]
    split
    · rename_i same
      simp [same.1, same.2]
    · exact known
  refine ⟨⟨⟨⟨?_, fun a _ admits => domains ▸ admits, bins, fun c => (candidates c).symm ▸ .refl _,
    items, fun e _ c _ => loads e c, fun first => agenda ▸ first⟩, fun e _ c _ tight => ?_⟩, ?_⟩,
    candidates, amounts, available⟩
  · rw [domains]
    exact .refl valid.healthy
  · simpa only [Desk.TightAt, domains, (amounts e c).1, (amounts e c).2] using tight
  · rw [agenda]

theorem recordLoad_runs (wf : p.WellFormed) (valid : s.Valid p) (hd : d < p.numDims)
    (hb : b < p.numBins) :
    (Desk.tightening p).Runs (p.recordLoad d b) s fun _ t =>
      t.domains = s.domains ∧ t.agenda = s.agenda ∧
      t.ledger.isRecorded d b (t.domains.lower (p.load d b)) (t.domains.upper (p.load d b)) = true := by
  have validT : (p.recorded d b s).Valid p :=
    ⟨valid.healthy, valid.known, valid.tracks.record hd hb, valid.marks, valid.dynamic⟩
  refine .intro (recordLoad_eq (valid.hasEntry wf hd hb)) validT
    (tightens_of_record valid hd hb rfl rfl rfl) ⟨rfl, rfl, ?_⟩
  have entry := Ledger.entry_record s.ledger (hb.trans_eq valid.tracks.bins.symm)
    (hd.trans_eq (valid.tracks.accounts b hb).entries.symm) (s.domains.lower (p.load d b))
    (s.domains.upper (p.load d b))
  simp [recorded, Ledger.isRecorded, entry]

theorem noteTightening_runs (wf : p.WellFormed) (valid : s.Valid p) (hd : d < p.numDims)
    (hb : b < p.numBins) :
    (Desk.tightening p).Runs (p.noteTightening d b) s fun _ t =>
      t.domains = s.domains ∧ t.agenda = s.agenda := by
  refine .bind valid (recordLoad_runs wf valid hd hb) fun _ t validT _ ⟨domains, agenda, _⟩ => ?_
  refine (Desk.count_runs validT _).mono fun _ u _ _ same => ?_
  rw [same]
  exact ⟨domains, agenda⟩

/-- **A load is raised to a bound that all solutions reach.** -/
theorem raiseLoad_runs (wf : p.WellFormed) (valid : s.Valid p) (hd : d < p.numDims)
    (hb : b < p.numBins) {bound : Int}
    (sound : ∀ assignment, p.Solution assignment → s.domains.Admits assignment →
      bound ≤ assignment (p.load d b)) :
    (Desk.tightening p).Runs (p.raiseLoad d b bound) s fun changed t =>
      bound ≤ t.domains.lower (p.load d b) ∧
      (changed = true → t.domains.volume < s.domains.volume) ∧ (changed = false → t = s) := by
  have exist := valid.known.loads d hd b hb
  refine ensureEntry_runs wf valid ?_ hd hb
  refine .bind valid (Desk.onDomains_runs valid exist
    (Domains.imposes_raise valid.healthy exist bound)
    fun a solution admits => decide_eq_true (sound a solution admits)) fun changed t validT rel post => ?_
  rcases post with ⟨rfl, rfl, all⟩ | ⟨rfl, same, less, members⟩
  · refine .pure valid ⟨?_, (fun h => by cases h), fun _ => rfl⟩
    exact of_decide_eq_true (all _ (valid.healthy _).lower_mem)
  · refine .bind validT (noteTightening_runs wf validT hd hb) fun _ u validU _ ⟨domains, _⟩ => ?_
    refine .pure validU ⟨?_, fun _ => by rw [domains]; exact less, fun h => by cases h⟩
    rw [domains]
    exact of_decide_eq_true (((members _ _).1 (validT.healthy _).lower_mem).2 rfl)

/-- **A load is sunk to a bound that no solution exceeds.** -/
theorem sinkLoad_runs (wf : p.WellFormed) (valid : s.Valid p) (hd : d < p.numDims)
    (hb : b < p.numBins) {bound : Int}
    (sound : ∀ assignment, p.Solution assignment → s.domains.Admits assignment →
      assignment (p.load d b) ≤ bound) :
    (Desk.tightening p).Runs (p.sinkLoad d b bound) s fun changed t =>
      t.domains.upper (p.load d b) ≤ bound ∧
      (changed = true → t.domains.volume < s.domains.volume) ∧ (changed = false → t = s) := by
  have exist := valid.known.loads d hd b hb
  refine ensureEntry_runs wf valid ?_ hd hb
  refine .bind valid (Desk.onDomains_runs valid exist
    (Domains.imposes_sink valid.healthy exist bound)
    fun a solution admits => decide_eq_true (sound a solution admits)) fun changed t validT rel post => ?_
  rcases post with ⟨rfl, rfl, all⟩ | ⟨rfl, same, less, members⟩
  · refine .pure valid ⟨?_, (fun h => by cases h), fun _ => rfl⟩
    exact of_decide_eq_true (all _ (valid.healthy _).upper_mem)
  · refine .bind validT (noteTightening_runs wf validT hd hb) fun _ u validU _ ⟨domains, _⟩ => ?_
    have low : u.domains.upper (p.load d b) ≤ bound := by
      rw [domains]
      exact of_decide_eq_true (((members _ _).1 (validT.healthy _).upper_mem).2 rfl)
    have small : u.domains.volume < s.domains.volume := by
      rw [domains]
      exact less
    by_cases zero : d = 0
    · simp only [zero, if_true]
      refine .bind validU (Desk.markBin_runs validU b) fun _ v validV _ marked => ?_
      rw [marked] at validV ⊢
      exact .pure validV ⟨zero ▸ low, fun _ => small, fun h => by cases h⟩
    · simp only [zero, if_false]
      exact .pure validU ⟨low, fun _ => small, fun h => by cases h⟩

theorem raiseToRequired_runs (wf : p.WellFormed) (valid : s.Valid p) (hd : d < p.numDims)
    (hb : b < p.numBins) :
    (Desk.tightening p).Runs (p.raiseToRequired d b) s fun _ t =>
      (t.ledger.entry d b).required ≤ t.domains.lower (p.load d b) :=
  .get_bind <| (raiseLoad_runs wf valid hd hb fun _ solution admits =>
    valid.tracks.required_le wf valid.healthy valid.known solution admits hd hb).mono
      fun _ t _ rel post => by
        rw [(rel.entries d b).1]
        exact post.1

theorem sinkToTotal_runs (wf : p.WellFormed) (valid : s.Valid p) (hd : d < p.numDims)
    (hb : b < p.numBins) :
    (Desk.tightening p).Runs (p.sinkToTotal d b) s fun changed t =>
      t.domains.upper (p.load d b) ≤ (t.ledger.entry d b).total ∧
      (changed = true → t.domains.volume < s.domains.volume) ∧ (changed = false → t = s) :=
  .get_bind <| (sinkLoad_runs wf valid hd hb fun _ solution admits =>
    valid.tracks.le_total wf valid.healthy valid.known solution admits hd hb).mono
      fun _ t _ rel post => by
        rw [(rel.entries d b).2]
        exact post

theorem tightenToEntry_runs (wf : p.WellFormed) (valid : s.Valid p) (hd : d < p.numDims)
    (hb : b < p.numBins) :
    (Desk.tightening p).Runs (p.tightenToEntry d b) s fun _ t => t.TightAt p d b := by
  refine .bind valid (raiseToRequired_runs wf valid hd hb) fun _ t validT _ raised => ?_
  refine .bind validT (sinkToTotal_runs wf validT hd hb) fun _ u validU rel ⟨sunk, _⟩ => ?_
  refine .pure validU ⟨?_, sunk⟩
  rw [(rel.entries d b).1]
  exact raised.trans (rel.narrows.le_lower _)

end Packing

end Stowage
