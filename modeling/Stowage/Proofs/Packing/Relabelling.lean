import Stowage.Proofs.Relabelling
import Stowage.Proofs.Termination

/-!
# Packings under other names

A packing can be stated about other variables.  Where these mirror its own, a call does to both what it
does to one: it gets the same outcome, leaves the same ledger, agenda and counters, and narrows the
domains alike.  It alters nothing but the variables of the packing.

* `Packing.relabel` — the packing of the variables under their other names.
* `Desk.Follows` — the desks differ in the names of the variables, and in what both have not altered.
* `Packing.matched_call` — a call.
* `Packing.notify_relabel` — a notification.
* `Packing.alters_call` — a call alters the variables of the packing only.
-/

set_option autoImplicit false

namespace Stowage

/-- Loops agree if their rounds do, as often as they are repeated, in states with an invariant that the
rounds keep. -/
theorem Call.Repeats.agree {σ τ : Type} {R : σ → τ → Prop} {I : σ → Prop} {J : τ → Prop}
    {round : Call σ Bool} {round' : Call τ Bool}
    (step : ∀ s t, R s t → I s → J t → Agree R (round s) (round' t))
    (keep : ∀ s s', I s → round s = .ok true s' → I s')
    (keep' : ∀ t t', J t → round' t = .ok true t' → J t') {s : σ} {t : τ}
    {r : EStateM.Result Halt σ Unit} {r' : EStateM.Result Halt τ Unit} (h : Repeats round s r)
    (h' : Repeats round' t r') (rel : R s t) (here : I s) (there : J t) : Agree R r r' := by
  induction h generalizing t r' with
  | stable last =>
    have agree := step _ _ rel here there
    rw [last] at agree
    cases h' with
    | stable last' =>
      rw [last'] at agree
      cases agree with
      | ok _ rel => exact .ok () rel
    | stopped last' =>
      rw [last'] at agree
      cases agree
    | again first' =>
      rw [first'] at agree
      cases agree
  | stopped last =>
    have agree := step _ _ rel here there
    rw [last] at agree
    cases h' with
    | stable last' =>
      rw [last'] at agree
      cases agree
    | stopped last' =>
      rw [last'] at agree
      cases agree with
      | error _ rel => exact .error _ rel
    | again first' =>
      rw [first'] at agree
      cases agree
  | again first rest ih =>
    have agree := step _ _ rel here there
    rw [first] at agree
    cases h' with
    | stable last' =>
      rw [last'] at agree
      cases agree
    | stopped last' =>
      rw [last'] at agree
      cases agree
    | again first' rest' =>
      rw [first'] at agree
      cases agree with
      | ok _ rel => exact ih rest' rel (keep _ _ here first) (keep' _ _ there first')

namespace Packing

variable {p : Packing} {φ : Var → Var} {d b i : Nat}

theorem numbered_map {loads : Array (Array Var)} (numbered : Numbered loads) (φ : Var → Var) :
    Numbered (loads.map fun row => row.map φ) := by
  intro row member
  obtain ⟨old, inside, rfl⟩ := Array.mem_map.1 (Array.mem_toList_iff.1 member)
  rw [Array.size_map]
  exact numbered old (Array.mem_toList_iff.2 inside)

/-- The packing of the variables under their other names. -/
def relabel (φ : Var → Var) (p : Packing) : Packing :=
  { p with
    items := p.items.map φ
    loads := p.loads.map fun row => row.map φ
    numbered := numbered_map p.numbered φ }

section

variable (p φ)

@[simp] theorem numItems_relabel : (p.relabel φ).numItems = p.numItems := Array.size_map ..

@[simp] theorem numBins_relabel : (p.relabel φ).numBins = p.numBins := by
  unfold numBins relabel
  rw [Array.getElem?_map]
  cases p.loads[0]? with
  | none => rfl
  | some row => exact Array.size_map ..

@[simp] theorem itemList_relabel : (p.relabel φ).itemList = p.itemList := by
  rw [itemList, numItems_relabel, itemList]

@[simp] theorem binList_relabel : (p.relabel φ).binList = p.binList := by
  rw [binList, numBins_relabel, binList]

theorem dimList_relabel : (p.relabel φ).dimList = p.dimList := rfl

theorem lastBin_relabel : (p.relabel φ).lastBin = p.lastBin := by
  rw [lastBin, numBins_relabel, lastBin]

theorem totalSize_relabel (d : Nat) : (p.relabel φ).totalSize d = p.totalSize d := by
  rw [totalSize, itemList_relabel]
  rfl

theorem loadOfPlace_relabel (place : Nat) : (p.relabel φ).loadOfPlace place = p.loadOfPlace place := by
  unfold loadOfPlace
  rw [numItems_relabel, numBins_relabel]
  rfl

theorem rename_id : p.relabel id = p := by
  simp [relabel]

end

theorem item_relabel (hi : i < p.numItems) : (p.relabel φ).item i = φ (p.item i) := by
  have bound : i < p.items.size := hi
  simp [item, relabel, bound]

theorem load_relabel (shaped : p.Shaped) (hd : d < p.numDims) (hb : b < p.numBins) :
    (p.relabel φ).load d b = φ (p.load d b) := by
  have bound : d < p.loads.size := shaped.loadRows.1.symm ▸ hd
  have width : b < p.loads[d].size := by
    rw [shaped.loadRows.2 _ (Array.getElem_mem bound)]
    exact hb
  simp [load, relabel, bound, width]

theorem shaped_relabel (shaped : p.Shaped) : (p.relabel φ).Shaped where
  dims := shaped.dims
  sizeRows row member := by
    rw [numItems_relabel]
    exact shaped.sizeRows row member
  loadRows := by
    refine ⟨(Array.size_map ..).trans shaped.loadRows.1, fun row member => ?_⟩
    obtain ⟨row', member', rfl⟩ := Array.mem_map.1 member
    rw [numBins_relabel, Array.size_map]
    exact shaped.loadRows.2 row' member'
  nonneg := shaped.nonneg
  single := shaped.single

theorem wellFormed_relabel (wf : p.WellFormed) : (p.relabel φ).WellFormed where
  toShaped := shaped_relabel wf.toShaped
  antitone i j le hj := wf.antitone i j le (by rwa [numItems_relabel] at hj)

/-! ## What can be accessed -/

theorem lt_of_hasItem {ds : Domains} (h : p.hasItem ds i = true) : i < p.numItems := by
  simp only [hasItem, Bool.and_eq_true, decide_eq_true_eq] at h
  exact h.1.1

section

variable (shaped : p.Shaped)

include shaped

theorem hasLoad_iff {ds : Domains} : p.hasLoad ds d b = true ↔
    d < p.numDims ∧ b < p.numBins ∧ ds.has (p.load d b) = true := by
  simp only [hasLoad, Bool.and_eq_true, decide_eq_true_eq, shaped.loadRows.1, and_assoc]
  refine and_congr_right fun hd => and_congr_left fun _ => ?_
  have bound : d < p.loads.size := shaped.loadRows.1.symm ▸ hd
  rw [Array.getElem?_eq_getElem bound, Option.getD_some,
    shaped.loadRows.2 _ (Array.getElem_mem bound)]

theorem lt_of_hasEntry {ds : Domains} {ledger : Ledger} (h : p.hasEntry ds ledger d b = true) :
    d < p.numDims ∧ b < p.numBins := by
  simp only [hasEntry, Bool.and_eq_true] at h
  have load := (hasLoad_iff shaped).1 h.1.1.1
  exact ⟨load.1, load.2.1⟩

end

theorem lt_of_hasBin {ds : Domains} {ledger : Ledger} (h : p.hasBin ds ledger b = true) :
    b < p.numBins := by
  simp only [hasBin, Bool.and_eq_true, decide_eq_true_eq] at h
  exact h.1.1

end Packing

namespace Domains.Mirrors

open Packing

variable {p : Packing} {φ : Var → Var} {ds es : Domains} (h : Mirrors φ p.vars ds es)

include h

theorem hasItem (i : Nat) : (p.relabel φ).hasItem es i = p.hasItem ds i := by
  unfold Packing.hasItem
  rw [numItems_relabel]
  by_cases hi : i < p.numItems
  · rw [item_relabel hi, h.has (item_mem_vars hi)]
    rfl
  · simp [hi]

theorem item {i : Nat} (hi : i < p.numItems) :
    es.domain ((p.relabel φ).item i) = ds.domain (p.item i) := by
  rw [item_relabel hi, h.domain (item_mem_vars hi)]

theorem placement? {i : Nat} (hi : i < p.numItems) :
    (p.relabel φ).placement? es i = p.placement? ds i := by
  unfold Packing.placement?
  rw [h.item hi, numBins_relabel]

section

variable (shaped : p.Shaped)

include shaped

theorem load {d b : Nat} (hd : d < p.numDims) (hb : b < p.numBins) :
    es.lower ((p.relabel φ).load d b) = ds.lower (p.load d b) ∧
      es.upper ((p.relabel φ).load d b) = ds.upper (p.load d b) := by
  have inside := load_mem_vars shaped hd hb
  rw [load_relabel shaped hd hb]
  exact ⟨h.lower inside, h.upper inside⟩

theorem hasEntry (ledger : Ledger) (d b : Nat) :
    (p.relabel φ).hasEntry es ledger d b = p.hasEntry ds ledger d b := by
  have same : (p.relabel φ).hasLoad es d b = p.hasLoad ds d b := by
    rw [Bool.eq_iff_iff, hasLoad_iff (shaped_relabel shaped), hasLoad_iff shaped, numBins_relabel]
    refine and_congr_right fun hd => and_congr_right fun hb => ?_
    rw [load_relabel shaped hd hb, h.has (load_mem_vars shaped hd hb)]
  rw [Packing.hasEntry, Packing.hasEntry, same]

theorem hasBin (ledger : Ledger) (b : Nat) :
    (p.relabel φ).hasBin es ledger b = p.hasBin ds ledger b := by
  have items : (p.relabel φ).hasItem es = p.hasItem ds := funext h.hasItem
  have entries : (fun d => (p.relabel φ).hasEntry es ledger d b) =
      fun d => p.hasEntry ds ledger d b := funext fun d => h.hasEntry shaped ledger d b
  rw [Packing.hasBin, Packing.hasBin, numBins_relabel, dimList_relabel, entries, items]

end

end Domains.Mirrors

namespace Desk

variable {φ : Var → Var} {p : Packing} {before before' : Domains} {s t : Desk} {α : Type}

/-- The desks differ in the names of the variables only, and in what neither has altered. -/
structure Follows (φ : Var → Var) (p : Packing) (before before' : Domains) (s t : Desk) : Prop where
  domains : Domains.Follows φ p.vars before before' s.domains t.domains
  ledger : t.ledger = s.ledger
  agenda : t.agenda = s.agenda
  counters : t.counters = s.counters

theorem matched_onDomains {call call' : Call Domains α}
    (h : Call.Matched (Domains.Follows φ p.vars before before') call call') :
    Call.Matched (Follows φ p before before') (onDomains call) (onDomains call') :=
  .focus h (fun _ _ rel => rel.domains)
    fun _ _ _ _ rel domains => ⟨domains, rel.ledger, rel.agenda, rel.counters⟩

theorem matched_count (change : Counters → Counters) :
    Call.Matched (Follows φ p before before') (count change) (count change) :=
  .modify fun _ _ rel => ⟨rel.domains, rel.ledger, rel.agenda, congrArg change rel.counters⟩

theorem matched_plan {change change' : Agenda → Agenda} (same : ∀ a, change' a = change a) :
    Call.Matched (Follows φ p before before') (plan change) (plan change') :=
  .modify fun _ _ rel => ⟨rel.domains, rel.ledger, by rw [same, rel.agenda], rel.counters⟩

end Desk

namespace Packing

variable {p : Packing} {φ : Var → Var} {before before' : Domains} {d b i : Nat}

section

variable (wf : p.WellFormed) (inj : Set.InjOn φ {x | x ∈ p.vars})

include wf inj

/-! ## Loads -/

omit inj in
theorem matched_recordLoad (d b : Nat) : Call.Matched (Desk.Follows φ p before before')
    (p.recordLoad d b) ((p.relabel φ).recordLoad d b) := by
  refine .ensure_bind (fun s t rel => ?_) fun s t rel has => .ok _ ⟨rel.domains, ?_, rel.agenda, rel.counters⟩
  · rw [rel.ledger, rel.domains.mirrors.hasEntry wf.toShaped]
  · obtain ⟨hd, hb⟩ := lt_of_hasEntry wf.toShaped has
    obtain ⟨lower, upper⟩ := rel.domains.mirrors.load wf.toShaped hd hb
    rw [ledger_recorded, ledger_recorded, rel.ledger, lower, upper]

omit inj in
theorem matched_recordLoads : Call.Matched (Desk.Follows φ p before before')
    p.recordLoads (p.relabel φ).recordLoads := by
  unfold recordLoads
  rw [binList_relabel]
  exact .forM fun d _ => .forM fun b _ => matched_recordLoad wf d b

omit inj in
theorem matched_noteTightening (d b : Nat) : Call.Matched (Desk.Follows φ p before before')
    (p.noteTightening d b) ((p.relabel φ).noteTightening d b) :=
  (matched_recordLoad wf d b).bind fun _ => Desk.matched_count _

/-- The bounds have to be the same for a load that exists. -/
theorem matched_raiseLoad (d b : Nat) {bound bound' : Int}
    (same : d < p.numDims → b < p.numBins → bound' = bound) :
    Call.Matched (Desk.Follows φ p before before')
      (p.raiseLoad d b bound) ((p.relabel φ).raiseLoad d b bound') := by
  refine .ensure_bind (fun s t rel => ?_) fun s t rel has => ?_
  · rw [rel.ledger, rel.domains.mirrors.hasEntry wf.toShaped]
  · obtain ⟨hd, hb⟩ := lt_of_hasEntry wf.toShaped has
    rw [same hd hb, load_relabel wf.toShaped hd hb]
    have raised : Call.Matched (Domains.Follows φ p.vars before before') _ _ :=
      Domains.matched_raise inj (load_mem_vars wf.toShaped hd hb) bound
    refine (Desk.matched_onDomains raised).bind (fun changed => .ite ?_ (.pure false)) s t rel
    exact (matched_noteTightening wf d b).bind fun _ => .pure true

theorem matched_sinkLoad (d b : Nat) {bound bound' : Int}
    (same : d < p.numDims → b < p.numBins → bound' = bound) :
    Call.Matched (Desk.Follows φ p before before')
      (p.sinkLoad d b bound) ((p.relabel φ).sinkLoad d b bound') := by
  refine .ensure_bind (fun s t rel => ?_) fun s t rel has => ?_
  · rw [rel.ledger, rel.domains.mirrors.hasEntry wf.toShaped]
  · obtain ⟨hd, hb⟩ := lt_of_hasEntry wf.toShaped has
    rw [same hd hb, load_relabel wf.toShaped hd hb]
    have sunk : Call.Matched (Domains.Follows φ p.vars before before') _ _ :=
      Domains.matched_sink inj (load_mem_vars wf.toShaped hd hb) bound
    refine (Desk.matched_onDomains sunk).bind (fun changed => .ite ?_ (.pure false)) s t rel
    refine (matched_noteTightening wf d b).bind fun _ => ?_
    exact .ite ((Desk.matched_plan fun _ => rfl).bind fun _ => .pure true) (.pure true)

theorem matched_raiseToRequired (d b : Nat) : Call.Matched (Desk.Follows φ p before before')
    (p.raiseToRequired d b) ((p.relabel φ).raiseToRequired d b) := by
  refine fun s t rel => .get_bind ?_
  exact matched_raiseLoad wf inj d b (fun _ _ => by rw [rel.ledger]) s t rel

theorem matched_sinkToTotal (d b : Nat) : Call.Matched (Desk.Follows φ p before before')
    (p.sinkToTotal d b) ((p.relabel φ).sinkToTotal d b) := by
  refine fun s t rel => .get_bind ?_
  exact matched_sinkLoad wf inj d b (fun _ _ => by rw [rel.ledger]) s t rel

theorem matched_tightenToEntry (d b : Nat) : Call.Matched (Desk.Follows φ p before before')
    (p.tightenToEntry d b) ((p.relabel φ).tightenToEntry d b) :=
  (matched_raiseToRequired wf inj d b).bind fun _ =>
    (matched_sinkToTotal wf inj d b).bind fun _ => .pure _

/-! ## Items -/

theorem matched_assignItem (i b : Nat) : Call.Matched (Desk.Follows φ p before before')
    (p.assignItem i b) ((p.relabel φ).assignItem i b) := by
  refine .ensure_bind (fun s t rel => (rel.domains.mirrors.hasItem i).symm) fun s t rel _ => ?_
  refine (?_ : Call.Matched (Desk.Follows φ p before before') _ _) s t rel
  refine .ensure_bind (fun s t rel => ?_) fun s t rel _ => .get_bind ?_
  · rw [rel.ledger, rel.domains.mirrors.hasBin wf.toShaped]
  · rw [rel.ledger]
    refine .ite ?_ (.ok _ rel)
    have same : (s.ledger.bin b).place (p.relabel φ) i = (s.ledger.bin b).place p i := rfl
    rw [same]
    cases (s.ledger.bin b).place p i with
    | none => exact .error _ rel
    | some bin =>
      refine Call.Matched.forM (fun d _ => matched_tightenToEntry wf inj d b) _ _ ?_
      exact ⟨rel.domains, rfl, congrArg (p.markBin b) rel.agenda, rel.counters⟩

theorem matched_removeItem (i b : Nat) : Call.Matched (Desk.Follows φ p before before')
    (p.removeItem i b) ((p.relabel φ).removeItem i b) := by
  refine .ensure_bind (fun s t rel => (rel.domains.mirrors.hasItem i).symm) fun s t rel _ => ?_
  refine (?_ : Call.Matched (Desk.Follows φ p before before') _ _) s t rel
  refine .ensure_bind (fun s t rel => ?_) fun s t rel _ => .get_bind ?_
  · rw [rel.ledger, rel.domains.mirrors.hasBin wf.toShaped]
  · rw [rel.ledger]
    refine .ite ?_ (.ok _ rel)
    refine Call.Matched.forM (fun d _ => (matched_sinkToTotal wf inj d b).bind fun _ => .pure _) _ _ ?_
    exact ⟨rel.domains, rfl, congrArg (p.markBin b) rel.agenda, rel.counters⟩

theorem matched_synchroniseItem (i : Nat) : Call.Matched (Desk.Follows φ p before before')
    (p.synchroniseItem i) ((p.relabel φ).synchroniseItem i) := by
  refine .ensure_bind (fun s t rel => (rel.domains.mirrors.hasItem i).symm) fun s t rel has => ?_
  have hi := lt_of_hasItem has
  rw [binList_relabel]
  refine Call.Matched.bind (.forM fun b _ => ?_) (fun _ => ?_) s t rel
  · refine .ensure_bind (fun s t rel => ?_) fun s t rel _ => .get_bind ?_
    · rw [rel.ledger, rel.domains.mirrors.hasBin wf.toShaped]
    · rw [rel.ledger, rel.domains.mirrors.item hi]
      exact .ite (matched_removeItem wf inj i b s t rel) (.ok _ rel)
  · refine fun s t rel => .get_bind ?_
    rw [rel.domains.mirrors.placement? hi]
    cases p.placement? s.domains i with
    | none => exact .ok _ rel
    | some b => exact matched_assignItem wf inj i b s t rel

/-! ## Balancing -/

omit wf inj in
theorem matched_checkSum (d : Nat) : Call.Matched (Desk.Follows φ p before before')
    (p.checkSum d) ((p.relabel φ).checkSum d) := by
  refine .ensure_bind (fun s t rel => by rw [rel.ledger]) fun s t rel _ => .get_bind ?_
  simp only [rel.ledger, totalSize_relabel]
  exact .ite (.error _ rel) (.ite (.error _ rel) (.ok _ rel))

theorem matched_balanceLoad (b d : Nat) : Call.Matched (Desk.Follows φ p before before')
    (p.balanceLoad b d) ((p.relabel φ).balanceLoad b d) := by
  refine fun s t rel => .get_bind (.bind (matched_raiseLoad wf inj d b (fun hd hb => ?_) s t rel)
    fun raised s t rel => .get_bind (.bind (matched_sinkLoad wf inj d b (fun hd hb => ?_) s t rel)
    fun sunk s t rel => .ok _ rel))
  · obtain ⟨-, upper⟩ := rel.domains.mirrors.load wf.toShaped hd hb
    rw [leastLoad, leastLoad, rel.ledger, totalSize_relabel, upper]
  · obtain ⟨lower, -⟩ := rel.domains.mirrors.load wf.toShaped hd hb
    rw [greatestLoad, greatestLoad, rel.ledger, totalSize_relabel, lower]

theorem matched_balanceRound : Call.Matched (Desk.Follows φ p before before')
    p.balanceRound (p.relabel φ).balanceRound := by
  refine .bind (.forM fun d _ => matched_checkSum d) fun _ s t rel => .get_bind ?_
  rw [rel.ledger]
  exact Call.Matched.sweep (fun b _ => .sweep fun d _ => matched_balanceLoad wf inj b d) s t rel

/-! ## Fitting -/

theorem matched_excludeItem (b : Nat) (hi : i < p.numItems) :
    Call.Matched (Desk.Follows φ p before before') (p.excludeItem b i)
      ((p.relabel φ).excludeItem b i) := by
  have imposed : Call.Matched (Domains.Follows φ p.vars before before') _ _ :=
    Domains.matched_impose inj (q := .differs (p.item i) (b : Int)) (item_mem_vars hi)
  unfold excludeItem
  rw [item_relabel hi]
  exact (Desk.matched_onDomains imposed).bind fun _ => (Desk.matched_count _).bind fun _ =>
    matched_synchroniseItem wf inj i

theorem matched_forceItem (b : Nat) (hi : i < p.numItems) :
    Call.Matched (Desk.Follows φ p before before') (p.forceItem b i)
      ((p.relabel φ).forceItem b i) := by
  have imposed : Call.Matched (Domains.Follows φ p.vars before before') _ _ :=
    Domains.matched_impose inj (q := .equals (p.item i) (b : Int)) (item_mem_vars hi)
  unfold forceItem
  rw [item_relabel hi]
  exact (Desk.matched_onDomains imposed).bind fun _ => (Desk.matched_count _).bind fun _ =>
    matched_synchroniseItem wf inj i

omit inj in
/-- The tests of a candidate read the loads of its bin. -/
theorem tests_relabel {s t : Desk} (rel : Desk.Follows φ p before before' s t) (hb : b < p.numBins) :
    (p.relabel φ).fits t b i = p.fits s b i ∧ (p.relabel φ).isNeeded t b i = p.isNeeded s b i := by
  have loads {d : Nat} (member : d ∈ p.dimList) :=
    rel.domains.mirrors.load wf.toShaped (List.mem_range.1 member) hb
  unfold fits isNeeded
  rw [rel.ledger, dimList_relabel]
  constructor
  · rw [Bool.eq_iff_iff, List.all_eq_true, List.all_eq_true]
    refine forall₂_congr fun d member => ?_
    rw [(loads member).2]
    rfl
  · rw [Bool.eq_iff_iff, List.all_eq_true, List.all_eq_true]
    refine forall₂_congr fun d member => ?_
    rw [(loads member).1]
    rfl

theorem matched_visitItems (b : Nat) (items : List Nat) :
    Call.Matched (Desk.Follows φ p before before') (p.visitItems b items)
      ((p.relabel φ).visitItems b items) := by
  induction items with
  | nil => exact .pure false
  | cons i rest ih =>
    refine .ensure_bind (fun s t rel => (rel.domains.mirrors.hasItem i).symm) fun s t rel has => ?_
    have hi := lt_of_hasItem has
    refine (?_ : Call.Matched (Desk.Follows φ p before before') _ _) s t rel
    refine .ensure_bind (fun s t rel => ?_) fun s t rel has => .get_bind ?_
    · rw [rel.ledger, rel.domains.mirrors.hasBin wf.toShaped]
    · obtain ⟨sameFits, sameNeeded⟩ := tests_relabel wf rel (i := i) (lt_of_hasBin has)
      rw [rel.ledger, sameFits, sameNeeded]
      refine Call.Matched.ite ih (.ite ?_ (.ite ?_ (.ite (.pure false) ih))) s t rel
      · exact (matched_excludeItem wf inj b hi).bind fun _ => ih.bind fun _ => .pure true
      · exact (matched_forceItem wf inj b hi).bind fun _ => ih.bind fun _ => .pure true

theorem matched_fitBin (b : Nat) : Call.Matched (Desk.Follows φ p before before')
    (p.fitBin b) ((p.relabel φ).fitBin b) := by
  refine .ensure_bind (fun s t rel => ?_) fun s t rel _ => .get_bind ?_
  · rw [rel.ledger, rel.domains.mirrors.hasBin wf.toShaped]
  · rw [rel.ledger]
    exact matched_visitItems wf inj b _ s t rel

theorem matched_extendBin (b : Nat) : Call.Matched (Desk.Follows φ p before before')
    (p.extendBin b) ((p.relabel φ).extendBin b) := by
  refine .ensure_bind (fun s t rel => ?_) fun s t rel has => ?_
  · rw [rel.ledger, rel.domains.mirrors.hasBin wf.toShaped]
  refine .bind (Desk.matched_count _ s t rel) fun _ s t rel => .get_bind ?_
  have space : (p.relabel φ).freeSpace t.ledger t.domains 0 b = p.freeSpace s.ledger s.domains 0 b := by
    obtain ⟨-, upper⟩ := rel.domains.mirrors.load wf.toShaped wf.dims (lt_of_hasBin has)
    rw [freeSpace, freeSpace, rel.ledger, upper]
  have same (bin : Bin) (free : Int) : bin.extendBig (p.relabel φ) free = bin.extendBig p free := rfl
  rw [space, rel.ledger, same]
  refine Call.Matched.ite (.pure false) (matched_sinkToTotal wf inj 0 b) _ _ ?_
  exact ⟨rel.domains, rfl, rel.agenda, rel.counters⟩

theorem matched_extendIfMarked (b : Nat) : Call.Matched (Desk.Follows φ p before before')
    (p.extendIfMarked b) ((p.relabel φ).extendIfMarked b) := by
  refine fun s t rel => .get_bind ?_
  rw [rel.agenda]
  refine .ite ?_ (.ok _ rel)
  exact ((Desk.matched_plan fun _ => rfl).bind fun _ => matched_extendBin wf inj b) s t rel

theorem matched_visitBin (b : Nat) : Call.Matched (Desk.Follows φ p before before')
    (p.visitBin b) ((p.relabel φ).visitBin b) := by
  refine fun s t rel => .get_bind ?_
  rw [rel.ledger]
  refine .ite ?_ (.ok _ rel)
  exact ((matched_extendIfMarked wf inj b).bind fun extended =>
    (matched_fitBin wf inj b).bind fun fitted => .pure (extended || fitted)) s t rel

theorem matched_fitRound : Call.Matched (Desk.Follows φ p before before')
    p.fitRound (p.relabel φ).fitRound := by
  refine fun s t rel => .get_bind ?_
  rw [rel.ledger]
  exact Call.Matched.sweep (fun b _ => matched_visitBin wf inj b) s t rel

/-! ## Before the loop of a revision -/

theorem matched_confineItem (hi : i < p.numItems) :
    Call.Matched (Desk.Follows φ p before before') (p.confineItem i)
      ((p.relabel φ).confineItem i) := by
  have low : Call.Matched (Domains.Follows φ p.vars before before') _ _ :=
    Domains.matched_impose inj (q := .atLeast (p.item i) 0) (item_mem_vars hi)
  have high : Call.Matched (Domains.Follows φ p.vars before before') _ _ :=
    Domains.matched_impose inj (q := .atMost (p.item i) p.lastBin) (item_mem_vars hi)
  unfold confineItem
  rw [item_relabel hi, lastBin_relabel]
  exact (Desk.matched_onDomains low).bind fun _ => (Desk.matched_onDomains high).bind fun _ =>
    matched_synchroniseItem wf inj i

theorem matched_start : Call.Matched (Desk.Follows φ p before before')
    p.start (p.relabel φ).start := by
  unfold start
  rw [binList_relabel, itemList_relabel]
  refine (Desk.matched_plan fun _ => rfl).bind fun _ => ?_
  refine .bind (.forM fun i member => matched_confineItem wf inj (List.mem_range.1 member)) fun _ => ?_
  exact .forM fun b _ => .forM fun d _ => matched_tightenToEntry wf inj d b

theorem matched_workOff (items : List Nat) : Call.Matched (Desk.Follows φ p before before')
    (p.workOff items) ((p.relabel φ).workOff items) := by
  induction items with
  | nil => exact .pure _
  | cons i rest ih =>
    exact (Desk.matched_plan fun _ => rfl).bind fun _ =>
      (matched_synchroniseItem wf inj i).bind fun _ => ih

end

/-! ## Loops, on desks with the invariant -/

/-- What keeps to the contract of steps keeps the invariant. -/
theorem valid_of_permits {α : Type} {call : Call Desk α} {s t : Desk} {a : α}
    (permits : (Desk.stepping p).Permits call s) (h : call s = .ok a t) : t.Valid p := by
  unfold Contract.Permits at permits
  rw [h] at permits
  exact permits.1

section

variable (wf : p.WellFormed) (inj : Set.InjOn φ {x | x ∈ p.vars}) {s t : Desk}
  (rel : Desk.Follows φ p before before' s t) (valid : s.Valid p) (valid' : t.Valid (p.relabel φ))

include wf inj rel valid valid'

theorem agree_balance : Call.Agree (Desk.Follows φ p before before') (p.balance s)
    ((p.relabel φ).balance t) :=
  (valid.balance_ends wf).agree (I := fun _ => True) (J := fun _ => True)
    (fun s t rel _ _ => matched_balanceRound wf inj s t rel) (fun _ _ _ _ => trivial)
    (fun _ _ _ _ => trivial) (valid'.balance_ends (wellFormed_relabel wf)) rel trivial trivial

theorem agree_settleRound : Call.Agree (Desk.Follows φ p before before') (p.settleRound s)
    ((p.relabel φ).settleRound t) :=
  .bind (agree_balance wf inj rel valid valid') fun _ s t rel => matched_fitRound wf inj s t rel

omit wf inj valid valid' in
theorem confined_relabel (confined : ∀ i < p.numItems, s.Confined p i) :
    ∀ i < (p.relabel φ).numItems, t.Confined (p.relabel φ) i := by
  intro i hi
  rw [numItems_relabel] at hi
  rw [Desk.Confined, numBins_relabel, rel.domains.mirrors.item hi]
  exact confined i hi

theorem agree_settle (confined : ∀ i < p.numItems, s.Confined p i) :
    Call.Agree (Desk.Follows φ p before before')
      (Call.untilStable p.settleRound (settleLimit s) s)
      (Call.untilStable (p.relabel φ).settleRound (settleLimit t) t) := by
  have wf' := wellFormed_relabel (φ := φ) wf
  have confined' := confined_relabel rel confined
  refine (valid.settle_ends wf confined).agree
    (I := fun s => s.Valid p) (J := fun t => t.Valid (p.relabel φ))
    (fun s t rel here there => agree_settleRound wf inj rel here there) (fun s s' here done => ?_)
    (fun t t' there done => ?_) (valid'.settle_ends wf' confined') rel valid valid'
  · exact valid_of_permits (.bind here (balance_permits wf here) fun _ _ valid _ =>
      fitRound_permits wf valid) done
  · exact valid_of_permits (.bind there (balance_permits wf' there) fun _ _ valid _ =>
      fitRound_permits wf' valid) done

theorem agree_finish (confined : ∀ i < p.numItems, s.Confined p i) :
    Call.Agree (Desk.Follows φ p before before') (p.finish s) ((p.relabel φ).finish t) := by
  refine .get_bind ?_
  rw [rel.agenda]
  refine .bind_of_ok (matched_workOff wf inj _ s t rel) fun _ s' t' here there rel => .get_bind ?_
  have narrows := ((workOff_permits wf valid _).ok here).2.path.narrows wf valid
  exact agree_settle wf inj rel (valid_of_permits (workOff_permits wf valid _) here)
    (valid_of_permits (workOff_permits (wellFormed_relabel wf) valid' _) there)
    fun i hi => (confined i hi).narrow narrows

/-- The part of a revision after the loads were recorded. -/
theorem agree_begin (first : Bool)
    (confined : first = false → ∀ i < p.numItems, s.Confined p i) :
    Call.Agree (Desk.Follows φ p before before')
    ((if first then do
        p.start
        Desk.plan fun a => { a with started := true }
        p.finish
      else p.finish) s)
    ((if first then do
        (p.relabel φ).start
        Desk.plan fun a => { a with started := true }
        (p.relabel φ).finish
      else (p.relabel φ).finish) t) := by
  have wf' := wellFormed_relabel (φ := φ) wf
  cases first with
  | false => exact agree_finish wf inj rel valid valid' (confined rfl)
  | true =>
  refine .bind_of_ok (matched_start wf inj s t rel) fun _ s' t' here there rel => ?_
  have inside := ((start_runs wf valid).ok here).2.2.1
  have validS := valid_of_permits (start_permits wf valid) here
  have validT := valid_of_permits (start_permits wf' valid') there
  refine .bind_of_ok (Desk.matched_plan (fun _ => rfl) s' t' rel) fun _ s'' t'' here there rel => ?_
  have narrows := ((Desk.replan_permits wf validS rfl).ok here).2.path.narrows wf validS
  exact agree_finish wf inj rel
    (valid_of_permits (Desk.replan_permits wf validS rfl) here)
    (valid_of_permits (Desk.replan_permits wf' validT rfl) there)
    fun i hi => (inside i hi).narrow narrows

theorem agree_revise (confined : s.agenda.started = true → ∀ i < p.numItems, s.Confined p i) :
    Call.Agree (Desk.Follows φ p before before') (p.revise s) ((p.relabel φ).revise t) := by
  have wf' := wellFormed_relabel (φ := φ) wf
  have before : (!s.agenda.started) = false → ∀ i < p.numItems, s.Confined p i :=
    fun started => confined (by simpa using started)
  refine .get_bind ?_
  rw [rel.agenda]
  refine .ite ?_ (agree_begin wf inj rel valid valid' _ before)
  refine .bind_of_ok (matched_recordLoads wf s t rel) fun _ s' t' here there rel => ?_
  have validS := valid_of_permits (recordLoads_permits wf valid) here
  have validT := valid_of_permits (recordLoads_permits wf' valid') there
  have narrows := ((recordLoads_permits wf valid).ok here).2.path.narrows wf valid
  refine .bind_of_ok (Desk.matched_plan (fun _ => rfl) s' t' rel) fun _ s'' t'' here there rel => ?_
  have narrows' := ((Desk.replan_permits wf validS rfl).ok here).2.path.narrows wf validS
  exact agree_begin wf inj rel
    (valid_of_permits (Desk.replan_permits wf validS rfl) here)
    (valid_of_permits (Desk.replan_permits wf' validT rfl) there) _
    fun started i hi => (before started i hi).narrow (narrows.trans narrows')

/-- **A call does the same to both.** -/
theorem agree_call (confined : s.agenda.started = true → ∀ i < p.numItems, s.Confined p i) :
    Call.Agree (Desk.Follows φ p before before') (p.call s) ((p.relabel φ).call t) := by
  have wf' := wellFormed_relabel (φ := φ) wf
  refine .bind_of_ok (Desk.matched_count _ s t rel) fun _ s' t' here there rel => ?_
  have same := ((Desk.count_runs valid _).ok here).2.2
  have inside : s'.agenda.started = true → ∀ i < p.numItems, s'.Confined p i := by
    rw [same]
    exact confined
  have revised := agree_revise wf inj rel
    (valid_of_permits (Desk.count_permits wf valid _) here)
    (valid_of_permits (Desk.count_permits wf' valid' _) there) inside
  unfold countConflict
  generalize p.revise s' = first at revised ⊢
  generalize (p.relabel φ).revise t' = second at revised ⊢
  cases revised with
  | ok a rel => exact .ok a rel
  | error halt rel =>
    cases halt with
    | fault fault => exact .error _ rel
    | inconsistent cause =>
      refine .error _ ⟨rel.domains, rel.ledger, rel.agenda, ?_⟩
      rw [rel.counters]

end

/-! ## Notifications -/

theorem notify_relabel (wf : p.WellFormed) {ds es : Domains} (mirrors : Domains.Mirrors φ p.vars ds es)
    (ledger : Ledger) (agenda : Agenda) (place : Nat) :
    (p.relabel φ).notify ledger es agenda place = p.notify ledger ds agenda place := by
  unfold notify
  rw [numItems_relabel, binList_relabel, loadOfPlace_relabel]
  have bins : (fun b => (p.relabel φ).hasBin es ledger b) = fun b => p.hasBin ds ledger b :=
    funext fun b => mirrors.hasBin wf.toShaped ledger b
  split
  · rename_i hi
    have synchronised : (p.relabel φ).isSynchronised ledger es place =
        p.isSynchronised ledger ds place := by
      unfold isSynchronised
      rw [mirrors.item hi, binList_relabel]
    rw [bins, mirrors.hasItem, synchronised]
  · cases p.loadOfPlace place with
    | error fault => rfl
    | ok load =>
      obtain ⟨d, b⟩ := load
      simp only [bind, Except.bind]
      rw [mirrors.hasEntry wf.toShaped]
      by_cases has : p.hasEntry ds ledger d b = true
      · obtain ⟨hd, hb⟩ := lt_of_hasEntry wf.toShaped has
        obtain ⟨lower, upper⟩ := mirrors.load wf.toShaped hd hb
        rw [lower, upper]
        rfl
      · simp [has, require]

/-! ## What a call alters -/

/-- **A call alters the variables of the packing only.** -/
theorem alters_call (wf : p.WellFormed) {s : Desk} (ready : s.Ready p) :
    Domains.Alters p.vars s.domains (Call.final (p.call s)).domains := by
  have self : Domains.Mirrors id p.vars s.domains s.domains :=
    ⟨fun _ _ => rfl, by simp⟩
  have agree := agree_call wf (φ := id) (Set.injOn_id _)
    ⟨self.follows, rfl, rfl, rfl⟩ ready.toValid (by rw [rename_id]; exact ready.toValid) ready.confined
  generalize p.call s = first at agree ⊢
  generalize (p.relabel id).call s = second at agree
  cases agree with
  | ok a rel => exact rel.domains.here
  | error halt rel => exact rel.domains.here

end Packing

end Stowage
