import Stowage.Proofs.Packing.Revision
import Stowage.Proofs.Packing.Variables

/-!
# The steps of a revision

A revision is a sequence of small steps: a rule narrows a domain, a candidate leaves a bin or moves into
it, candidates become big, and notes are made.  What every step preserves, a whole call preserves.

* `Desk.Rule` — the predicates that a desk allows to be imposed.
* `Desk.Step`, `Desk.Path`, `Desk.Blocked` — a step, several steps, and desks where a step finds an
  inconsistency.
* `Desk.Step.valid` — every step keeps the invariant.
* `Desk.Leads` — several steps that belong together: a load that is tightened is also taken note of.
* `Packing.call_permits` — a call takes steps, and finds an inconsistency only where a step does.
-/

set_option autoImplicit false

namespace Stowage

/-- The domains were narrowed to the values that satisfy a predicate. -/
structure Domains.NarrowedBy (q : Predicate) (before after : Domains) : Prop where
  narrows : Domains.Narrows before after
  members : ∀ x v, v ∈ after.domain x ↔ v ∈ before.domain x ∧ (x = q.var → q.holds v = true)

theorem Domains.NarrowedBy.bounds_eq {q : Predicate} {before after : Domains}
    (narrowed : NarrowedBy q before after) (healthy : before.Healthy) {x : Var} (other : x ≠ q.var) :
    after.lower x = before.lower x ∧ after.upper x = before.upper x := by
  have same : ∀ v, v ∈ after.domain x ↔ v ∈ before.domain x := fun v =>
    (narrowed.members x v).trans (and_iff_left fun h => absurd h other)
  exact ⟨le_antisymm (Domain.lower_le_of_mem ((same _).2 (healthy x).lower_mem))
      (narrowed.narrows.le_lower x),
    le_antisymm (narrowed.narrows.upper_le x)
      (Domain.le_upper_of_mem ((same _).2 (healthy x).upper_mem))⟩

/-- The running sums of dimension `d` are the sums of the bounds that the loads of the bins have. -/
structure Ledger.SumsUp (p : Packing) (ds : Domains) (l : Ledger) (d : Nat) : Prop where
  lower : (l.sum d).lower = ∑ b ∈ Finset.range p.numBins, ds.lower (p.load d b)
  upper : (l.sum d).upper = ∑ b ∈ Finset.range p.numBins, ds.upper (p.load d b)

namespace Packing

/-- Marks a bin, if there is one to be marked. -/
def markAny (p : Packing) (bin? : Option Nat) (a : Agenda) : Agenda :=
  bin?.elim a fun b => p.markBin b a

end Packing

namespace Desk

/-- The predicates that can be imposed, each with the bin that has to be marked then. -/
inductive Rule (p : Packing) (s : Desk) : Predicate → Option Nat → Prop
  | raise {d b : Nat} {bound : Int} (hd : d < p.numDims) (hb : b < p.numBins)
      (le : bound ≤ p.leastLoad s d b) : Rule p s (.atLeast (p.load d b) bound) none
  | sink {d b : Nat} {bound : Int} (hd : d < p.numDims) (hb : b < p.numBins)
      (le : p.greatestLoad s d b ≤ bound) :
      Rule p s (.atMost (p.load d b) bound) (if d = 0 then some b else none)
  | confineLow {i : Nat} (hi : i < p.numItems) : Rule p s (.atLeast (p.item i) 0) none
  | confineHigh {i : Nat} (hi : i < p.numItems) : Rule p s (.atMost (p.item i) p.lastBin) none
  | exclude {b i : Nat} (hb : b < p.numBins) (hi : i ∈ (s.ledger.bin b).candidates)
      (full : p.fits s b i = false) : Rule p s (.differs (p.item i) (b : Int)) none
  | force {b i : Nat} (hb : b < p.numBins) (hi : i ∈ (s.ledger.bin b).candidates)
      (needed : p.isNeeded s b i = true) : Rule p s (.equals (p.item i) (b : Int)) none

/-- A step of a revision. -/
inductive Step (p : Packing) (s : Desk) : Desk → Prop
  | narrow {q : Predicate} {bin? : Option Nat} {ds : Domains} (rule : Rule p s q bin?)
      (narrowed : Domains.NarrowedBy q s.domains ds) :
      Step p s { s with domains := ds, agenda := p.markAny bin? s.agenda }
  | withdraw {b i : Nat} (hb : b < p.numBins) (hi : i ∈ (s.ledger.bin b).candidates)
      (lost : (b : Int) ∉ s.domains.domain (p.item i)) :
      Step p s
        (enter p (s.ledger.update b ((s.ledger.bin b).withdraw p i)) (s.ledger.withdrawal p b i)
          { s with agenda := p.markBin b s.agenda })
  | place {b i : Nat} {new : Bin} (hb : b < p.numBins) (hi : i ∈ (s.ledger.bin b).candidates)
      (fixed : (s.domains.domain (p.item i)).fixedValue? = some (b : Int))
      (placed : (s.ledger.bin b).place p i = some new) :
      Step p s
        (enter p (s.ledger.update b new) (s.ledger.placement p b i)
          { s with agenda := p.markBin b s.agenda })
  | extend {b : Nat} (hb : b < p.numBins) (marked : b ∈ s.agenda.marked) :
      Step p s { p.extended s b with agenda := s.agenda.unmark b }
  | record {d b : Nat} (hd : d < p.numDims) (hb : b < p.numBins) : Step p s (p.recorded d b s)
  | mark (b : Nat) : Step p s { s with agenda := p.markBin b s.agenda }
  | plan {a : Agenda} (marked : a.marked = s.agenda.marked) : Step p s { s with agenda := a }
  | count (counters : Counters) : Step p s { s with counters := counters }

/-- Several steps. -/
abbrev Path (p : Packing) : Desk → Desk → Prop := Relation.ReflTransGen (Step p)

/-- A step finds that the domains admit no solution. -/
inductive Blocked (p : Packing) (s : Desk) : Prop
  | narrow {q : Predicate} {bin? : Option Nat} (rule : Rule p s q bin?)
      (none : ∀ v ∈ s.domains.domain q.var, q.holds v = false)
  | sum {d : Nat} (hd : d < p.numDims)
      (outside : (s.ledger.sum d).upper < p.totalSize d ∨ p.totalSize d < (s.ledger.sum d).lower)
  | place {b i : Nat} (hb : b < p.numBins) (hi : i ∈ (s.ledger.bin b).candidates)
      (fixed : (s.domains.domain (p.item i)).fixedValue? = some (b : Int))
      (excluded : (s.ledger.bin b).place p i = none)

variable {p : Packing} {s t : Desk} {q : Predicate} {bin? : Option Nat}

theorem Rule.var_lt (rule : Rule p s q bin?) (valid : s.Valid p) : q.var < s.domains.count := by
  cases rule with
  | raise hd hb => exact valid.known.loads _ hd _ hb
  | sink hd hb => exact valid.known.loads _ hd _ hb
  | confineLow hi => exact valid.known.items _ hi
  | confineHigh hi => exact valid.known.items _ hi
  | exclude hb hi => exact valid.known.items _ ((valid.tracks.accounts _ hb).bounded _ hi)
  | force hb hi => exact valid.known.items _ ((valid.tracks.accounts _ hb).bounded _ hi)

theorem markAny_marked {a : Agenda} (bin? : Option Nat) (nodup : a.marked.Nodup)
    (dynamic : a.marked ≠ [] → p.policy = .dynamic) :
    (p.markAny bin? a).marked.Nodup ∧ ((p.markAny bin? a).marked ≠ [] → p.policy = .dynamic) := by
  cases bin? with
  | none => exact ⟨nodup, dynamic⟩
  | some b => exact markBin_marked b nodup dynamic

/-- Big items are only extended where that is enabled. -/
theorem Valid.enabled (valid : s.Valid p) {b : Nat} (marked : b ∈ s.agenda.marked) :
    p.policy ≠ .disabled := by
  rw [valid.dynamic (List.ne_nil_of_mem marked)]
  exact fun h => by cases h

/-- **Every step keeps the invariant.** -/
theorem Step.valid (wf : p.WellFormed) (valid : s.Valid p) (step : Step p s t) : t.Valid p := by
  cases step with
  | @narrow q bin? ds rule narrowed =>
    have after := valid.narrow narrowed.narrows
    have marks := markAny_marked bin? valid.marks valid.dynamic
    exact ⟨after.healthy, after.known, after.tracks, marks.1, marks.2⟩
  | @withdraw b i hb hi lost =>
    have marks := markBin_marked b valid.marks valid.dynamic
    have fits := valid.tracks.fits_withdraw wf hb hi lost
    exact ⟨valid.healthy, valid.known, valid.tracks.update hb fits, marks.1, marks.2⟩
  | @place b i new hb hi fixed placed =>
    have marks := markBin_marked b valid.marks valid.dynamic
    obtain ⟨isFixed, value⟩ := Domain.fixedValue?_eq_some_iff.1 fixed
    have inside : (b : Int) ∈ s.domains.domain (p.item i) := value ▸ (valid.healthy _).lower_mem
    have fits := valid.tracks.fits_place wf hb hi inside isFixed (Bin.placement_of_place placed)
    exact ⟨valid.healthy, valid.known, valid.tracks.update hb fits, marks.1, marks.2⟩
  | @extend b hb marked =>
    obtain ⟨fits, candidates⟩ := valid.tracks.fits_extendBig wf (valid.enabled marked) hb
    exact ⟨valid.healthy, valid.known, valid.tracks.put hb fits candidates, valid.marks.erase b,
      fun _ => valid.dynamic (List.ne_nil_of_mem marked)⟩
  | record hd hb =>
    exact ⟨valid.healthy, valid.known, valid.tracks.record hd hb, valid.marks, valid.dynamic⟩
  | mark b =>
    have marks := markBin_marked b valid.marks valid.dynamic
    exact ⟨valid.healthy, valid.known, valid.tracks, marks.1, marks.2⟩
  | @plan a marked =>
    refine ⟨valid.healthy, valid.known, valid.tracks, ?_, ?_⟩
    · show a.marked.Nodup
      rw [marked]
      exact valid.marks
    · show a.marked ≠ [] → _
      rw [marked]
      exact valid.dynamic
  | count counters =>
    exact ⟨valid.healthy, valid.known, valid.tracks, valid.marks, valid.dynamic⟩

/-- **What every step preserves, several steps preserve.** -/
theorem Path.preserves {P : Desk → Prop} (wf : p.WellFormed)
    (keep : ∀ t u, t.Valid p → P t → Step p t u → P u) (valid : s.Valid p) (start : P s)
    (path : Path p s t) : t.Valid p ∧ P t := by
  induction path with
  | refl => exact ⟨valid, start⟩
  | tail _ step ih => exact ⟨step.valid wf ih.1, keep _ _ ih.1 ih.2 step⟩

theorem Step.narrows (valid : s.Valid p) (step : Step p s t) : Domains.Narrows s.domains t.domains := by
  cases step with
  | narrow rule narrowed => exact narrowed.narrows
  | withdraw hb hi lost => exact .refl valid.healthy
  | place hb hi fixed placed => exact .refl valid.healthy
  | extend hb marked => exact .refl valid.healthy
  | record hd hb => exact .refl valid.healthy
  | mark b => exact .refl valid.healthy
  | plan marked => exact .refl valid.healthy
  | count counters => exact .refl valid.healthy

theorem Path.narrows (wf : p.WellFormed) (valid : s.Valid p) (path : Path p s t) :
    Domains.Narrows s.domains t.domains :=
  (path.preserves (P := fun u => Domains.Narrows s.domains u.domains) wf
    (fun _ _ validT before step => before.trans (step.narrows validT)) valid (.refl valid.healthy)).2

/-! ## Steps that belong together -/

/-- The bounds of all loads are those last seen. -/
def Recorded (p : Packing) (desk : Desk) : Prop := ∀ d < p.numDims, ∀ b < p.numBins,
  (desk.ledger.entry d b).seenLower = desk.domains.lower (p.load d b) ∧
    (desk.ledger.entry d b).seenUpper = desk.domains.upper (p.load d b)

/-- **The sums are those of the bounds of the loads**, if these are the bounds last seen. -/
theorem Recorded.sumsUp (recorded : s.Recorded p) (valid : s.Valid p) {d : Nat} (hd : d < p.numDims) :
    s.ledger.SumsUp p s.domains d := by
  refine ⟨(valid.tracks.sumLower d hd).trans ?_, (valid.tracks.sumUpper d hd).trans ?_⟩
  · exact Finset.sum_congr rfl fun b hb => (recorded d hd b (Finset.mem_range.1 hb)).1
  · exact Finset.sum_congr rfl fun b hb => (recorded d hd b (Finset.mem_range.1 hb)).2

/-- The loads have the same bounds on both desks. -/
def SameLoads (p : Packing) (s t : Desk) : Prop := ∀ d < p.numDims, ∀ b < p.numBins,
  t.domains.lower (p.load d b) = s.domains.lower (p.load d b) ∧
    t.domains.upper (p.load d b) = s.domains.upper (p.load d b)

/-- Once the bounds of one load are taken note of, the others matter. -/
theorem Valid.recorded_of_record (valid : s.Valid p) {d b : Nat} (hd : d < p.numDims)
    (hb : b < p.numBins)
    (ledger : t.ledger =
      s.ledger.record d b (t.domains.lower (p.load d b)) (t.domains.upper (p.load d b)))
    (others : ∀ e < p.numDims, ∀ c < p.numBins, ¬(e = d ∧ c = b) →
      (s.ledger.entry e c).seenLower = t.domains.lower (p.load e c) ∧
        (s.ledger.entry e c).seenUpper = t.domains.upper (p.load e c)) : t.Recorded p := by
  intro e he c hc
  rw [ledger, Ledger.entry_record s.ledger (by rw [valid.tracks.bins]; exact hb)
    (by rw [(valid.tracks.accounts b hb).entries]; exact hd)]
  split
  · rename_i here
    rw [here.1, here.2]
    exact ⟨rfl, rfl⟩
  · exact others e he c hc ‹_›

/-- Where the loads keep their bounds, those last seen remain right. -/
theorem Step.recorded (wf : p.WellFormed) (valid : s.Valid p) (step : Step p s t)
    (same : SameLoads p s t) (recorded : s.Recorded p) : t.Recorded p := by
  have replaced {b : Nat} {new : Bin} {m : Ledger} (hb : b < p.numBins)
      (fits : s.ledger.Fits p s.domains b new) (bins : m.bins = (s.ledger.put b new).bins) :
      ∀ d < p.numDims, ∀ c < p.numBins,
        (m.entry d c).seenLower = s.domains.lower (p.load d c) ∧
          (m.entry d c).seenUpper = s.domains.upper (p.load d c) := by
    intro d hd c hc
    obtain ⟨lower, upper⟩ := fits.seen_eq (by rw [valid.tracks.bins]; exact hb) bins hd c
    rw [lower, upper]
    exact recorded d hd c hc
  cases step with
  | narrow rule narrowed =>
    intro d hd b hb
    rw [(same d hd b hb).1, (same d hd b hb).2]
    exact recorded d hd b hb
  | withdraw hb hi lost => exact replaced hb (valid.tracks.fits_withdraw wf hb hi lost) rfl
  | @place b i new hb hi fixed placed =>
    obtain ⟨isFixed, value⟩ := Domain.fixedValue?_eq_some_iff.1 fixed
    have inside : (b : Int) ∈ s.domains.domain (p.item i) := value ▸ (valid.healthy _).lower_mem
    exact replaced hb (valid.tracks.fits_place wf hb hi inside isFixed
      (Bin.placement_of_place placed)) rfl
  | extend hb marked =>
    exact replaced hb (valid.tracks.fits_extendBig wf (valid.enabled marked) hb).1 rfl
  | record hd hb =>
    exact valid.recorded_of_record hd hb rfl fun e he c hc _ => recorded e he c hc
  | mark b => exact recorded
  | plan marked => exact recorded
  | count counters => exact recorded

/-- Several steps that belong together: if their variables are distinct and the bounds of all loads were
those last seen before, they are so again. -/
structure Leads (p : Packing) (s t : Desk) : Prop where
  path : Path p s t
  recorded : p.vars.Nodup → s.Recorded p → t.Recorded p

theorem Leads.refl : Leads p s s := ⟨.refl, fun _ h => h⟩

theorem Leads.trans {u : Desk} (h : Leads p s t) (h' : Leads p t u) : Leads p s u :=
  ⟨h.path.trans h'.path, fun distinct recorded => h'.recorded distinct (h.recorded distinct recorded)⟩

/-- A step after which the loads have the bounds they had. -/
theorem Step.leads (wf : p.WellFormed) (valid : s.Valid p) (step : Step p s t)
    (same : p.vars.Nodup → SameLoads p s t) : Leads p s t :=
  ⟨.single step, fun distinct recorded => step.recorded wf valid (same distinct) recorded⟩

theorem SameLoads.of_domains (same : t.domains = s.domains) : SameLoads p s t :=
  fun _ _ _ _ => by simp only [same, and_self]

theorem Step.leads_of_domains (wf : p.WellFormed) (valid : s.Valid p) (step : Step p s t)
    (same : t.domains = s.domains) : Leads p s t := step.leads wf valid fun _ => .of_domains same

/-- What holds after each step holds after several. -/
theorem Leads.valid (h : Leads p s t) (wf : p.WellFormed) (valid : s.Valid p) : t.Valid p :=
  (h.path.preserves (P := fun _ => True) wf (fun _ _ _ _ _ => trivial) valid trivial).1

/-- The ledger is the same, and so are the cells and where it is in them. -/
structure SameLedger (s t : Desk) : Prop where
  ledger : t.ledger = s.ledger
  cells : t.cells = s.cells
  layout : t.layout = s.layout

/-- The contract of operations that take steps.  An inconsistency leaves the ledger as it was before the
step that finds it. -/
def stepping (p : Packing) : Contract Desk :=
  ⟨Valid p, Leads p, fun s t => ∃ u, Leads p s u ∧ Blocked p u ∧ SameLedger u t, fun _ => .refl,
    .trans, fun _ leads ⟨u, later, blocked⟩ => ⟨u, leads.trans later, blocked⟩⟩

theorem permits_of_step {α : Type} {call : Call Desk α} {a : α} (wf : p.WellFormed)
    (valid : s.Valid p) (step : Step p s t) (same : p.vars.Nodup → SameLoads p s t)
    (h : call s = .ok a t) : (stepping p).Permits call s :=
  .intro h (step.valid wf valid) (step.leads wf valid same)

theorem count_permits (wf : p.WellFormed) (valid : s.Valid p) (change : Counters → Counters) :
    (stepping p).Permits (count change) s :=
  permits_of_step wf valid (.count (change s.counters)) (fun _ => .of_domains rfl) rfl

theorem replan_permits (wf : p.WellFormed) (valid : s.Valid p) {change : Agenda → Agenda}
    (marks : (change s.agenda).marked = s.agenda.marked) :
    (stepping p).Permits (plan change) s :=
  permits_of_step wf valid (.plan marks) (fun _ => .of_domains rfl) rfl

/-- **A rule for an item is applied.** -/
theorem impose_permits {i : Nat} (wf : p.WellFormed) (valid : s.Valid p) (rule : Rule p s q none)
    (hi : i < p.numItems) (var : q.var = p.item i) :
    (stepping p).Permits (onDomains (Domains.impose q)) s := by
  have exist := rule.var_lt valid
  by_cases fits : s.domains.Fits q
  · rcases Domains.imposes_impose valid.healthy exist fits with
      ⟨done, -⟩ | ⟨after, done, narrows, -, members⟩ | ⟨after, done, -, none⟩
    · refine .intro (a := ()) (t := s) ?_ valid .refl
      simp only [onDomains, Call.focus, done]
    · have narrowed : Domains.NarrowedBy q s.domains after := ⟨narrows, members⟩
      refine permits_of_step (a := ()) wf valid (.narrow rule narrowed)
        (fun distinct d hd b hb => narrowed.bounds_eq valid.healthy fun same => ?_) ?_
      · exact Packing.item_ne_load wf.toShaped distinct hi hd hb (var.symm.trans same.symm)
      · simp only [onDomains, Call.focus, done]
        rfl
    · have stops : onDomains (Domains.impose q) s =
          .error (.inconsistent .emptyDomain) { s with domains := after } := by
        simp only [onDomains, Call.focus, done]
      exact .intro_fail stops ⟨s, .refl, .narrow rule none, ⟨rfl, rfl, rfl⟩⟩
  · have stops : onDomains (Domains.impose q) s = .error (.fault .overflow) s := by
      simp only [onDomains, Call.focus, Domains.impose_of_not_fits exist fits]
    exact .intro_fault stops

end Desk

namespace Packing

variable {p : Packing} {s : Desk} {d b i : Nat}

section

variable (wf : p.WellFormed) (valid : s.Valid p)

include wf valid

/-! ## Loads -/

theorem recordLoad_permits (hd : d < p.numDims) (hb : b < p.numBins) :
    (Desk.stepping p).Permits (p.recordLoad d b) s :=
  .ensure_bind (Desk.permits_of_step wf valid (.record hd hb) (fun _ => .of_domains rfl) rfl)

theorem recordLoads_permits : (Desk.stepping p).Permits p.recordLoads s := by
  refine .forM valid fun d hd t validT _ => .forM validT fun b hb u validU _ => ?_
  exact recordLoad_permits wf validU (List.mem_range.1 hd) (List.mem_range.1 hb)

/-- The desk after a load was tightened and its bounds were noted. -/
def tightened (p : Packing) (s : Desk) (d b : Nat) (ds : Domains) (bin? : Option Nat) : Desk :=
  p.recorded d b
    { s with
      domains := ds
      agenda := p.markAny bin? s.agenda
      counters := { s.counters with boundTightenings := s.counters.boundTightenings + 1 } }

section

variable {q : Predicate} {bin? : Option Nat} (rule : Desk.Rule p s q bin?) (hd : d < p.numDims)
  (hb : b < p.numBins) (var : q.var = p.load d b)

include rule hd hb var

/-- A load is narrowed, then its bounds are recorded.  In between they are not those last seen, so the
steps belong together. -/
theorem tightened_leads {ds : Domains} (narrowed : Domains.NarrowedBy q s.domains ds) :
    Desk.Leads p s (p.tightened s d b ds bin?) := by
  have narrow : Desk.Step p s { s with domains := ds, agenda := p.markAny bin? s.agenda } :=
    .narrow rule narrowed
  have count : Desk.Step p { s with domains := ds, agenda := p.markAny bin? s.agenda } _ :=
    .count { s.counters with boundTightenings := s.counters.boundTightenings + 1 }
  refine ⟨((Relation.ReflTransGen.single narrow).tail count).tail (.record hd hb),
    fun distinct recorded => valid.recorded_of_record hd hb rfl fun e he c hc other => ?_⟩
  have apart : p.load e c ≠ q.var := fun same =>
    other (load_inj wf.toShaped distinct he hc hd hb (same.trans var))
  obtain ⟨lower, upper⟩ := narrowed.bounds_eq valid.healthy apart
  show (s.ledger.entry e c).seenLower = ds.lower _ ∧ (s.ledger.entry e c).seenUpper = ds.upper _
  rw [lower, upper]
  exact recorded e he c hc

/-- **A load is tightened**, and what is done then takes note of it. -/
theorem tighten_permits {call : Call Domains Bool} {note : Call Desk Bool}
    (imposes : Domains.Imposes q call false true s.domains)
    (notes : ∀ ds, Desk.Valid p { s with domains := ds } →
      note { s with domains := ds } = .ok true (p.tightened s d b ds bin?)) :
    (Desk.stepping p).Permits
      (Desk.onDomains call >>= fun changed => if changed = true then note else pure false) s := by
  rcases imposes with ⟨done, -⟩ | ⟨after, done, narrows, -, members⟩ | ⟨after, done, -, none⟩
  · refine .intro (a := false) (t := s) ?_ valid .refl
    simp only [Desk.onDomains, Call.focus, done, bind, EStateM.bind]
    rfl
  · have leads := tightened_leads wf valid rule hd hb var ⟨narrows, members⟩
    refine .intro (a := true) ?_ (leads.valid wf valid) leads
    simp only [Desk.onDomains, Call.focus, done, bind, EStateM.bind, if_true]
    exact notes after (valid.narrow narrows)
  · apply Contract.Permits.intro_fail (t := { s with domains := after })
    · simp only [Desk.onDomains, Call.focus, done, bind, EStateM.bind]
      rfl
    · exact ⟨s, .refl, .narrow rule none, ⟨rfl, rfl, rfl⟩⟩

end

theorem raiseLoad_permits (hd : d < p.numDims) (hb : b < p.numBins) {bound : Int}
    (le : bound ≤ p.leastLoad s d b) : (Desk.stepping p).Permits (p.raiseLoad d b bound) s := by
  have exist := valid.known.loads d hd b hb
  refine .ensure_bind (tighten_permits wf valid (.raise hd hb le) hd hb rfl
    (Domains.imposes_raise valid.healthy exist bound) fun ds validN => ?_)
  simp only [bind, EStateM.bind, noteTightening_eq (validN.hasEntry wf hd hb)]
  rfl

/-- The mark is set after the bounds are recorded, but it is part of the step that narrows the domain:
no other step comes between. -/
theorem sinkLoad_permits (hd : d < p.numDims) (hb : b < p.numBins) {bound : Int}
    (le : p.greatestLoad s d b ≤ bound) : (Desk.stepping p).Permits (p.sinkLoad d b bound) s := by
  have exist := valid.known.loads d hd b hb
  refine .ensure_bind (tighten_permits wf valid (.sink hd hb le) hd hb rfl
    (Domains.imposes_sink valid.healthy exist bound) fun ds validN => ?_)
  simp only [bind, EStateM.bind, noteTightening_eq (validN.hasEntry wf hd hb), tightened]
  by_cases zero : d = 0
  · simp only [zero, if_true]
    rfl
  · simp only [zero, if_false]
    rfl

theorem raiseToRequired_permits (hd : d < p.numDims) (hb : b < p.numBins) :
    (Desk.stepping p).Permits (p.raiseToRequired d b) s :=
  .get_bind (raiseLoad_permits wf valid hd hb (le_max_left _ _))

theorem sinkToTotal_permits (hd : d < p.numDims) (hb : b < p.numBins) :
    (Desk.stepping p).Permits (p.sinkToTotal d b) s :=
  .get_bind (sinkLoad_permits wf valid hd hb (min_le_left _ _))

theorem tightenToEntry_permits (hd : d < p.numDims) (hb : b < p.numBins) :
    (Desk.stepping p).Permits (p.tightenToEntry d b) s := by
  refine .bind valid (raiseToRequired_permits wf valid hd hb) fun _ t validT _ => ?_
  exact .bind validT (sinkToTotal_permits wf validT hd hb) fun _ _ validU _ => .pure validU

/-! ## Items -/

theorem assignItem_permits (hb : b < p.numBins)
    (fixed : (s.domains.domain (p.item i)).fixedValue? = some (b : Int)) :
    (Desk.stepping p).Permits (p.assignItem i b) s := by
  refine .ensure_bind (.ensure_bind (.get_bind (.ite (fun candidate => ?_) fun _ => .pure valid)))
  have member := Bin.isCandidate_iff.1 candidate
  cases placed : (s.ledger.bin b).place p i with
  | none => exact .conflict ⟨s, .refl, .place hb member fixed placed, ⟨rfl, rfl, rfl⟩⟩
  | some new =>
    have step := Desk.Step.place hb member fixed placed
    have leads := step.leads_of_domains wf valid rfl
    refine .bind valid (.set (step.valid wf valid) leads) fun _ t validT _ => ?_
    exact .forM validT fun d hd u validU _ =>
      tightenToEntry_permits wf validU (List.mem_range.1 hd) hb

theorem removeItem_permits (hb : b < p.numBins)
    (lost : (b : Int) ∉ s.domains.domain (p.item i)) :
    (Desk.stepping p).Permits (p.removeItem i b) s := by
  refine .ensure_bind (.ensure_bind (.get_bind (.ite (fun candidate => ?_) fun _ => .pure valid)))
  have step := Desk.Step.withdraw hb (Bin.isCandidate_iff.1 candidate) lost
  have leads := step.leads_of_domains wf valid rfl
  refine .bind valid (.set (step.valid wf valid) leads) fun _ t validT _ => ?_
  exact .forM validT fun d hd u validU _ =>
    .bind validU (sinkToTotal_permits wf validU (List.mem_range.1 hd) hb)
      fun _ _ validV _ => .pure validV

theorem synchroniseItem_permits (i : Nat) : (Desk.stepping p).Permits (p.synchroniseItem i) s := by
  refine .ensure_bind (.bind valid (.forM valid fun b hb t validT _ => ?_) fun _ t validT _ => ?_)
  · refine .ensure_bind <| .get_bind (.ite (fun both => ?_) fun _ => .pure validT)
    simp only [Bool.and_eq_true, Bool.not_eq_true'] at both
    exact removeItem_permits wf validT (List.mem_range.1 hb) (Domain.contains_eq_false_iff.1 both.2)
  · refine .get_bind ?_
    cases placement : p.placement? t.domains i with
    | none => exact .pure validT
    | some b =>
      obtain ⟨fixed, hb⟩ := placement?_eq_some_iff.1 placement
      exact assignItem_permits wf validT hb fixed

/-! ## Balancing -/

omit wf in
theorem checkSum_permits (hd : d < p.numDims) : (Desk.stepping p).Permits (p.checkSum d) s :=
  .ensure_bind <| .get_bind <|
    .ite (fun overfull => .conflict ⟨s, .refl, .sum hd (.inl overfull), ⟨rfl, rfl, rfl⟩⟩) fun _ =>
      .ite (fun underfull => .conflict ⟨s, .refl, .sum hd (.inr underfull), ⟨rfl, rfl, rfl⟩⟩) fun _ => .pure valid

theorem balanceLoad_permits (hd : d < p.numDims) (hb : b < p.numBins) :
    (Desk.stepping p).Permits (p.balanceLoad b d) s := by
  refine .get_bind (.bind valid (raiseLoad_permits wf valid hd hb (Int.le_refl _))
    fun _ t validT _ => .get_bind ?_)
  exact .bind validT (sinkLoad_permits wf validT hd hb (Int.le_refl _)) fun _ _ validU _ =>
    .pure validU

theorem balanceRound_permits : (Desk.stepping p).Permits p.balanceRound s := by
  refine .bind valid (.forM valid fun d hd t validT _ =>
    checkSum_permits validT (List.mem_range.1 hd)) fun _ t validT _ => .get_bind ?_
  refine .sweep validT fun b hb u validU _ => .sweep validU fun d hd v validV _ => ?_
  exact balanceLoad_permits wf validV (List.mem_range.1 hd) ((validT.tracks.available b).1 hb).1

theorem balance_permits : (Desk.stepping p).Permits p.balance s :=
  .get_bind (.untilStable valid fun _ validT _ => balanceRound_permits wf validT)

/-! ## Fitting -/

theorem excludeItem_permits (hb : b < p.numBins) (hi : i ∈ (s.ledger.bin b).candidates)
    (full : p.fits s b i = false) : (Desk.stepping p).Permits (p.excludeItem b i) s := by
  have rule : Desk.Rule p s (.differs (p.item i) (b : Int)) none := .exclude hb hi full
  have bound := (valid.tracks.accounts b hb).bounded i hi
  refine .bind valid (Desk.impose_permits wf valid rule bound rfl) fun _ t validT _ => ?_
  exact .bind validT (Desk.count_permits wf validT _) fun _ _ validU _ =>
    synchroniseItem_permits wf validU i

theorem forceItem_permits (hb : b < p.numBins) (hi : i ∈ (s.ledger.bin b).candidates)
    (needed : p.isNeeded s b i = true) : (Desk.stepping p).Permits (p.forceItem b i) s := by
  have rule : Desk.Rule p s (.equals (p.item i) (b : Int)) none := .force hb hi needed
  have bound := (valid.tracks.accounts b hb).bounded i hi
  refine .bind valid (Desk.impose_permits wf valid rule bound rfl) fun _ t validT _ => ?_
  exact .bind validT (Desk.count_permits wf validT _) fun _ _ validU _ =>
    synchroniseItem_permits wf validU i

theorem visitItems_permits (hb : b < p.numBins) (items : List Nat) :
    (Desk.stepping p).Permits (p.visitItems b items) s := by
  induction items generalizing s with
  | nil => exact .pure valid
  | cons i rest ih =>
    have go : ∀ t, t.Valid p → (Desk.stepping p).Permits
        (do let _ ← p.visitItems b rest; return true) t :=
      fun t validT => .bind validT (ih validT) fun _ _ validU _ => .pure validU
    refine .ensure_bind (.ensure_bind (.get_bind (.ite (fun _ => ih valid) fun candidate => ?_)))
    have member : i ∈ (s.ledger.bin b).candidates := by simpa [Bin.isCandidate] using candidate
    refine .ite (fun full => ?_) fun _ => .ite (fun needed => ?_) fun _ =>
      .ite (fun _ => .pure valid) fun _ => ih valid
    · exact .bind valid (excludeItem_permits wf valid hb member (by simpa using full))
        fun _ t validT _ => go t validT
    · exact .bind valid (forceItem_permits wf valid hb member needed)
        fun _ t validT _ => go t validT

theorem extendIfMarked_permits (hb : b < p.numBins) :
    (Desk.stepping p).Permits (p.extendIfMarked b) s := by
  refine .get_bind (.ite (fun marked => ?_) fun _ => .pure valid)
  have extend := Desk.Step.extend hb (List.contains_iff_mem.1 marked)
  have count := Desk.Step.count (p := p) (s := { p.extended s b with agenda := s.agenda.unmark b })
    { s.counters with bigItemExtensions := s.counters.bigItemExtensions + 1 }
  have validE := extend.valid wf valid
  have validC := count.valid wf validE
  have leads := (extend.leads_of_domains wf valid rfl).trans (count.leads_of_domains wf validE rfl)
  have later : (Desk.stepping p).Permits
      (if ((s.ledger.bin b).extendBig p (p.freeSpace s.ledger s.domains 0 b)).1 = 0 then return false
        else p.sinkToTotal 0 b) _ :=
    .ite (fun _ => .pure validC) fun _ => sinkToTotal_permits wf validC wf.dims hb
  refine .from_state ?_ valid leads later
  have checked : p.extendBin b { s with agenda := s.agenda.unmark b } = _ :=
    Call.ensure_bind (valid.hasBin wf hb)
  show p.extendBin b { s with agenda := s.agenda.unmark b } = _
  rw [checked]
  rfl

theorem fitRound_permits : (Desk.stepping p).Permits p.fitRound s := by
  refine .get_bind (.sweep valid fun b hb t validT _ => .get_bind (.ite (fun _ => ?_)
    fun _ => .pure validT))
  have inside := ((valid.tracks.available b).1 hb).1
  refine .bind validT (extendIfMarked_permits wf validT inside) fun _ u validU _ => ?_
  exact .bind validU (.ensure_bind (.get_bind (visitItems_permits wf validU inside _)))
    fun _ _ validV _ => .pure validV

/-! ## A whole call -/

theorem confineItem_permits (hi : i < p.numItems) :
    (Desk.stepping p).Permits (p.confineItem i) s := by
  have low : Desk.Rule p s (.atLeast (p.item i) 0) none := .confineLow hi
  refine .bind valid (Desk.impose_permits wf valid low hi rfl) fun _ t validT _ => ?_
  have high : Desk.Rule p t (.atMost (p.item i) p.lastBin) none := .confineHigh hi
  exact .bind validT (Desk.impose_permits wf validT high hi rfl) fun _ _ validU _ =>
    synchroniseItem_permits wf validU i

theorem leads_foldl_markBin (bins : List Nat) :
    Desk.Leads p s { s with agenda := bins.foldl (fun a b => p.markBin b a) s.agenda } := by
  induction bins generalizing s with
  | nil => exact .refl
  | cons b bins ih =>
    have mark : Desk.Step p s { s with agenda := p.markBin b s.agenda } := .mark b
    exact (mark.leads_of_domains wf valid rfl).trans (ih (mark.valid wf valid))

theorem markBins_permits : (Desk.stepping p).Permits
    (Desk.plan fun a => p.binList.foldl (fun a b => p.markBin b a) a) s := by
  have marks := foldl_markBin_marked p.binList valid.marks valid.dynamic
  exact .intro rfl ⟨valid.healthy, valid.known, valid.tracks, marks.1, marks.2⟩
    (leads_foldl_markBin wf valid p.binList)

theorem tightenAll_permits : (Desk.stepping p).Permits
    (p.binList.forM fun b => p.dimList.forM fun d => p.tightenToEntry d b) s := by
  refine .forM valid fun b hb t validT _ => .forM validT fun d hd u validU _ => ?_
  exact tightenToEntry_permits wf validU (List.mem_range.1 hd) (List.mem_range.1 hb)

theorem start_permits : (Desk.stepping p).Permits p.start s := by
  refine .bind valid (markBins_permits wf valid) fun _ t validT _ => ?_
  exact .bind validT (.forM validT fun i hi u validU _ =>
    confineItem_permits wf validU (List.mem_range.1 hi)) fun _ u validU _ =>
    tightenAll_permits wf validU

theorem workOff_permits (items : List Nat) : (Desk.stepping p).Permits (p.workOff items) s := by
  induction items generalizing s with
  | nil => exact .pure valid
  | cons i rest ih =>
    refine .bind valid (Desk.replan_permits wf valid rfl) fun _ t validT _ => ?_
    exact .bind validT (synchroniseItem_permits wf validT i) fun _ _ validU _ => ih validU

theorem finish_permits : (Desk.stepping p).Permits p.finish s := by
  refine .get_bind (.bind valid (workOff_permits wf valid _) fun _ t validT _ => .get_bind ?_)
  refine .untilStable validT fun u validU _ => ?_
  exact .bind validU (balance_permits wf validU) fun _ _ validV _ => fitRound_permits wf validV

/-- The part of a revision after the loads were recorded. -/
theorem begin_permits (first : Bool) :
    (Desk.stepping p).Permits
      (if first then do
        p.start
        Desk.plan fun a => { a with started := true }
        p.finish
      else p.finish) s := by
  apply Contract.Permits.ite
  · intro _
    refine .bind valid (start_permits wf valid) fun _ t validT _ => ?_
    exact .bind validT (Desk.replan_permits wf validT rfl) fun _ _ validU _ =>
      finish_permits wf validU
  · intro _
    exact finish_permits wf valid

theorem revise_permits : (Desk.stepping p).Permits p.revise s := by
  refine .get_bind (.ite (fun _ => ?_) fun _ => begin_permits wf valid _)
  refine .bind valid (recordLoads_permits wf valid) fun _ t validT _ => ?_
  exact .bind validT (Desk.replan_permits wf validT rfl) fun _ _ validU _ => begin_permits wf validU _

/-- **A call takes steps.**  It finds an inconsistency only where a step finds one. -/
theorem call_permits : (Desk.stepping p).Permits p.call s := by
  refine .bind valid (Desk.count_permits wf valid _) fun _ t validT _ => ?_
  have revised := revise_permits wf validT
  unfold Contract.Permits at revised ⊢
  unfold countConflict
  cases result : p.revise t with
  | ok a u =>
    rw [result] at revised
    exact revised
  | error halt u =>
    rw [result] at revised
    cases halt with
    | fault fault => trivial
    | inconsistent cause =>
      obtain ⟨v, leads, blocked, same⟩ := revised
      exact ⟨v, leads, blocked, ⟨same.ledger, same.cells, same.layout⟩⟩

end

end Packing

end Stowage
