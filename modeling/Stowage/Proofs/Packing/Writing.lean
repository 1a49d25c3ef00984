import Stowage.Proofs.Packing.Layouts
import Stowage.Proofs.Packing.Steps

/-!
# A call writes to the cells of its packing

Whatever changes the ledger in a call writes the change to the cells, at their places in the table.  So after a
call the cells of the packing hold the ledger that is on the desk, and no other cell has changed.  Nothing but
the form of the ledger is needed for that: it holds whatever the domains are, and also where a call finds an
inconsistency or follows one.

* `Desk.Formed` — the ledger has its form, and bins are marked only where marks are read.
* `Desk.Writes` — the ledger and the cells have changed by the same writes.
* `Desk.writing` — the contract of operations that write what they change; `Packing.call_writes` — calls
  keep to it.
* `Packing.call_alters`, `Packing.call_shows` — a call changes the cells of the packing only, and these hold
  the ledger after it.
* `Desk.Path.writes` — so does every part of a revision.
-/

set_option autoImplicit false

namespace Stowage

namespace Desk

/-- The ledger has its form, and only packings that extend big items mark bins for that. -/
structure Formed (p : Packing) (s : Desk) : Prop where
  ledger : s.ledger.Formed p
  dynamic : s.agenda.marked ≠ [] → p.policy = .dynamic

/-- The ledger has changed by writes to the sets and integers of the packing, and the cells by the same
writes at the places of these. -/
structure Writes (p : Packing) (s t : Desk) : Prop where
  layout : t.layout = s.layout
  writes : ∃ ws : List Write, (∀ w ∈ ws, w.Within p) ∧ t.ledger.page = s.ledger.page.writes ws ∧
    t.cells = s.layout.writes p s.cells ws

variable {p : Packing} {s t u : Desk} {ledger : Ledger} {ws : List Write}

theorem Writes.of_eq (layout : t.layout = s.layout) (same : t.ledger = s.ledger) (cells : t.cells = s.cells) :
    Writes p s t :=
  ⟨layout, [], fun _ member => absurd member List.not_mem_nil, by rw [same, Page.writes_nil], cells⟩

theorem Writes.trans (h : Writes p s t) (h' : Writes p t u) : Writes p s u := by
  obtain ⟨layout, ws, within, page, cells⟩ := h
  obtain ⟨layout', ws', within', page', cells'⟩ := h'
  refine ⟨layout'.trans layout, ws ++ ws', fun w member => ?_, by rw [page', page, Page.writes_append], ?_⟩
  · exact (List.mem_append.1 member).elim (within w) (within' w)
  · rw [cells', cells, layout, Layout.writes, Layout.writes, Layout.writes, List.foldl_append]

/-- No cell but those of the packing has changed. -/
theorem Writes.alters (h : Writes p s t) : Cells.Alters (s.layout.Owns p) s.cells t.cells := by
  obtain ⟨-, ws, within, -, cells⟩ := h
  rw [cells]
  exact Layout.alters_writes within

theorem Writes.shows (h : Writes p s t) (formed : t.ledger.Formed p) (apart : s.layout.Apart p)
    (shows' : s.layout.Shows p s.cells s.ledger.page) :
    s.layout.Shows p t.cells t.ledger.page ∧ s.layout.ledger p t.cells = t.ledger := by
  obtain ⟨-, ws, within, page, cells⟩ := h
  have after : s.layout.Shows p t.cells t.ledger.page := by
    rw [page, cells]
    exact shows'.writes apart within
  exact ⟨after, Layout.ledger_of_shows after formed⟩

/-- The contract of operations that write what they change. -/
def writing (p : Packing) : Contract Desk :=
  ⟨Formed p, Writes p, fun s t => Formed p t ∧ Writes p s t, fun _ => .of_eq rfl rfl rfl, .trans,
    fun _ writes ⟨formed, writes'⟩ => ⟨formed, writes.trans writes'⟩⟩

theorem permits_enter (form : ledger.Formed p) (within : ∀ w ∈ ws, w.Within p)
    (page : ledger.page = s.ledger.page.writes ws) {agenda : Agenda}
    (dynamic : agenda.marked ≠ [] → p.policy = .dynamic) :
    (writing p).Permits (set (Desk.enter p ledger ws { s with agenda }) : Call Desk PUnit) s :=
  .set ⟨form, dynamic⟩ ⟨rfl, ws, within, page, rfl⟩

theorem Formed.onDomains {α : Type} (formed : s.Formed p) (call : Call Domains α) :
    (writing p).Permits (onDomains call) s := by
  unfold Contract.Permits Desk.onDomains Call.focus
  cases call s.domains with
  | ok a ds => exact ⟨⟨formed.ledger, formed.dynamic⟩, .of_eq rfl rfl rfl⟩
  | error halt ds =>
    cases halt with
    | inconsistent cause => exact ⟨⟨formed.ledger, formed.dynamic⟩, .of_eq rfl rfl rfl⟩
    | fault fault => trivial

theorem Formed.count (formed : s.Formed p) (change : Counters → Counters) :
    (writing p).Permits (count change) s :=
  .intro rfl ⟨formed.ledger, formed.dynamic⟩ (.of_eq rfl rfl rfl)

theorem Formed.plan (formed : s.Formed p) {change : Agenda → Agenda}
    (dynamic : (change s.agenda).marked ≠ [] → p.policy = .dynamic) : (writing p).Permits (plan change) s :=
  .intro rfl ⟨formed.ledger, dynamic⟩ (.of_eq rfl rfl rfl)

/-- Only packings that extend big items mark bins. -/
theorem dynamic_markBin {a : Agenda} (dynamic : a.marked ≠ [] → p.policy = .dynamic) (b : Nat) :
    (p.markBin b a).marked ≠ [] → p.policy = .dynamic := by
  unfold Packing.markBin
  split
  · exact fun _ => ‹_›
  · exact dynamic

theorem dynamic_markBins {a : Agenda} (dynamic : a.marked ≠ [] → p.policy = .dynamic) (bins : List Nat) :
    (bins.foldl (fun a b => p.markBin b a) a).marked ≠ [] → p.policy = .dynamic := by
  induction bins generalizing a with
  | nil => exact dynamic
  | cons b bins ih => exact ih (dynamic_markBin dynamic b)

/-- Big items are only extended where that is enabled. -/
theorem Formed.enabled (formed : s.Formed p) {b : Nat} (marked : s.agenda.marked.contains b = true) :
    p.policy ≠ .disabled := by
  rw [formed.dynamic (List.ne_nil_of_mem (List.contains_iff_mem.1 marked))]
  exact fun h => by cases h

end Desk

namespace Packing

variable {p : Packing} {s t : Desk} {d b i : Nat}

section

variable (wf : p.WellFormed) (formed : s.Formed p)

include formed

/-! ## Loads -/

theorem recordLoad_writes (hd : d < p.numDims) (hb : b < p.numBins) :
    (Desk.writing p).Permits (p.recordLoad d b) s :=
  .ensure_bind (.intro rfl ⟨formed.ledger.record hb _ _, formed.dynamic⟩
    ⟨rfl, _, Ledger.within_noting hd hb _ _, Ledger.page_record formed.ledger hd hb _ _, rfl⟩)

theorem noteTightening_writes (hd : d < p.numDims) (hb : b < p.numBins) :
    (Desk.writing p).Permits (p.noteTightening d b) s :=
  .bind formed (recordLoad_writes formed hd hb) fun _ _ formedT _ => formedT.count _

theorem raiseLoad_writes (hd : d < p.numDims) (hb : b < p.numBins) (bound : Int) :
    (Desk.writing p).Permits (p.raiseLoad d b bound) s :=
  .ensure_bind <| .bind formed (formed.onDomains _) fun _ _ formedT _ => .ite
    (fun _ => .bind formedT (noteTightening_writes formedT hd hb) fun _ _ formedU _ => .pure formedU)
    fun _ => .pure formedT

theorem sinkLoad_writes (hd : d < p.numDims) (hb : b < p.numBins) (bound : Int) :
    (Desk.writing p).Permits (p.sinkLoad d b bound) s := by
  refine .ensure_bind (.bind formed (formed.onDomains _) fun _ t formedT _ => .ite (fun _ => ?_)
    fun _ => .pure formedT)
  refine .bind formedT (noteTightening_writes formedT hd hb) fun _ u formedU _ => .ite (fun _ => ?_)
    fun _ => .pure formedU
  exact .bind formedU (formedU.plan (Desk.dynamic_markBin formedU.dynamic b)) fun _ _ formedV _ =>
    .pure formedV

theorem sinkToTotal_writes (hd : d < p.numDims) (hb : b < p.numBins) :
    (Desk.writing p).Permits (p.sinkToTotal d b) s := .get_bind (sinkLoad_writes formed hd hb _)

theorem tightenToEntry_writes (hd : d < p.numDims) (hb : b < p.numBins) :
    (Desk.writing p).Permits (p.tightenToEntry d b) s :=
  .bind formed (.get_bind (raiseLoad_writes formed hd hb _)) fun _ _ formedT _ =>
    .bind formedT (sinkToTotal_writes formedT hd hb) fun _ _ formedU _ => .pure formedU

/-! ## Items -/

theorem removeItem_writes (hb : b < p.numBins) : (Desk.writing p).Permits (p.removeItem i b) s := by
  refine .ensure_bind (.ensure_bind (.get_bind (.ite (fun _ => ?_) fun _ => .pure formed)))
  have form := formed.ledger.update hb ((formed.ledger.bin b hb).withdraw i)
  refine .bind formed (Desk.permits_enter form (Ledger.within_withdrawal formed.ledger hb)
    (Ledger.page_withdraw formed.ledger hb) (Desk.dynamic_markBin formed.dynamic b)) fun _ t formedT _ => ?_
  exact .forM formedT fun d hd u formedU _ =>
    .bind formedU (sinkToTotal_writes formedU (List.mem_range.1 hd) hb) fun _ _ formedV _ => .pure formedV

include wf

theorem assignItem_writes (hb : b < p.numBins) : (Desk.writing p).Permits (p.assignItem i b) s := by
  refine .ensure_bind (.ensure_bind (.get_bind (.ite (fun _ => ?_) fun _ => .pure formed)))
  cases placed : (s.ledger.bin b).place p i with
  | none => exact .conflict ⟨formed, .of_eq rfl rfl rfl⟩
  | some new =>
    have form := formed.ledger.update hb ((formed.ledger.bin b hb).place placed)
    refine .bind formed (Desk.permits_enter form (Ledger.within_placement formed.ledger wf hb)
      (Ledger.page_place formed.ledger wf hb placed) (Desk.dynamic_markBin formed.dynamic b))
      fun _ t formedT _ => ?_
    exact .forM formedT fun d hd u formedU _ => tightenToEntry_writes formedU (List.mem_range.1 hd) hb

theorem synchroniseItem_writes (i : Nat) : (Desk.writing p).Permits (p.synchroniseItem i) s := by
  refine .ensure_bind (.bind formed (.forM formed fun b hb t formedT _ => ?_) fun _ t formedT _ => ?_)
  · exact .ensure_bind <| .get_bind <|
      .ite (fun _ => removeItem_writes formedT (List.mem_range.1 hb)) fun _ => .pure formedT
  · refine .get_bind ?_
    cases placement : p.placement? t.domains i with
    | none => exact .pure formedT
    | some b => exact assignItem_writes wf formedT (placement?_eq_some_iff.1 placement).2

/-! ## Balancing -/

omit wf in
theorem balanceRound_writes : (Desk.writing p).Permits p.balanceRound s := by
  refine .bind formed (.forM formed fun d _ t formedT _ => ?_) fun _ t formedT _ => .get_bind ?_
  · have stops : Desk.Formed p t ∧ Desk.Writes p t t := ⟨formedT, .of_eq rfl rfl rfl⟩
    exact .ensure_bind <| .get_bind <| .ite (fun _ => .conflict stops) fun _ =>
      .ite (fun _ => .conflict stops) fun _ => .pure formedT
  · refine .sweep formedT fun b hb u formedU _ => .sweep formedU fun d hd v formedV _ => .get_bind ?_
    have inside := formedT.ledger.below b hb
    refine .bind formedV (raiseLoad_writes formedV (List.mem_range.1 hd) inside _) fun _ w formedW _ =>
      .get_bind ?_
    exact .bind formedW (sinkLoad_writes formedW (List.mem_range.1 hd) inside _) fun _ _ formedX _ =>
      .pure formedX

omit wf in
theorem balance_writes : (Desk.writing p).Permits p.balance s :=
  .get_bind (.untilStable formed fun _ formedT _ => balanceRound_writes formedT)

/-! ## Fitting -/

theorem visitItems_writes (b : Nat) (items : List Nat) :
    (Desk.writing p).Permits (p.visitItems b items) s := by
  induction items generalizing s with
  | nil => exact .pure formed
  | cons i rest ih =>
    have visited {call : Call Domains Unit} {change : Counters → Counters} : (Desk.writing p).Permits
        (do
          Desk.onDomains call
          Desk.count change
          p.synchroniseItem i) s :=
      .bind formed (formed.onDomains _) fun _ _ formedT _ => .bind formedT (formedT.count _)
        fun _ _ formedU _ => synchroniseItem_writes wf formedU i
    have go : ∀ t, t.Formed p → (Desk.writing p).Permits
        (do let _ ← p.visitItems b rest; return true) t :=
      fun t formedT => .bind formedT (ih formedT) fun _ _ formedU _ => .pure formedU
    refine .ensure_bind (.ensure_bind (.get_bind (.ite (fun _ => ih formed) fun _ => ?_)))
    refine .ite (fun _ => ?_) fun _ => .ite (fun _ => ?_) fun _ =>
      .ite (fun _ => .pure formed) fun _ => ih formed
    · exact .bind formed visited fun _ t formedT _ => go t formedT
    · exact .bind formed visited fun _ t formedT _ => go t formedT

theorem extendIfMarked_writes (hb : b < p.numBins) :
    (Desk.writing p).Permits (p.extendIfMarked b) s := by
  refine .get_bind (.ite (fun marked => ?_) fun _ => .pure formed)
  have enabled := formed.enabled marked
  have unmarked : (s.agenda.unmark b).marked ≠ [] → p.policy = .dynamic := fun some =>
    formed.dynamic fun none => some (by rw [Agenda.unmark, none]; rfl)
  refine .bind formed (formed.plan unmarked) fun _ t formedT _ => .ensure_bind ?_
  refine .bind formedT (formedT.count _) fun _ u formedU _ => .get_bind ?_
  have form := formedU.ledger.put hb ((formedU.ledger.bin b hb).extendBig enabled
    (p.freeSpace u.ledger u.domains 0 b))
  have exist := formedU.ledger.lt_size hb
  refine .bind formedU (Desk.permits_enter form (Ledger.within_extension wf enabled hb _ _)
    (Ledger.page_extend exist (formedU.ledger.bin b hb).entries wf _) formedU.dynamic) fun _ v formedV _ => ?_
  exact .ite (fun _ => .pure formedV) fun _ => sinkToTotal_writes formedV wf.dims hb

theorem fitRound_writes : (Desk.writing p).Permits p.fitRound s := by
  refine .get_bind (.sweep formed fun b hb t formedT _ => .get_bind (.ite (fun _ => ?_)
    fun _ => .pure formedT))
  refine .bind formedT (extendIfMarked_writes wf formedT (formed.ledger.below b hb)) fun _ u formedU _ => ?_
  exact .bind formedU (.ensure_bind (.get_bind (visitItems_writes wf formedU b _)))
    fun _ _ formedV _ => .pure formedV

/-! ## A whole call -/

theorem start_writes : (Desk.writing p).Permits p.start s := by
  refine .bind formed (formed.plan (Desk.dynamic_markBins formed.dynamic _)) fun _ t formedT _ => ?_
  refine .bind formedT (.forM formedT fun i _ u formedU _ => ?_) fun _ u formedU _ =>
    .forM formedU fun b hb v formedV _ => .forM formedV fun d hd w formedW _ =>
      tightenToEntry_writes formedW (List.mem_range.1 hd) (List.mem_range.1 hb)
  exact .bind formedU (formedU.onDomains _) fun _ _ formedV _ => .bind formedV (formedV.onDomains _)
    fun _ _ formedW _ => synchroniseItem_writes wf formedW i

theorem workOff_writes (items : List Nat) : (Desk.writing p).Permits (p.workOff items) s := by
  induction items generalizing s with
  | nil => exact .pure formed
  | cons i rest ih =>
    refine .bind formed (formed.plan formed.dynamic) fun _ t formedT _ => ?_
    exact .bind formedT (synchroniseItem_writes wf formedT i) fun _ _ formedU _ => ih formedU

/-- The part of a revision after the loads were recorded and the first call has begun. -/
theorem finish_writes : (Desk.writing p).Permits p.finish s := by
  refine .get_bind (.bind formed (workOff_writes wf formed _) fun _ t formedT _ => .get_bind ?_)
  refine .untilStable formedT fun u formedU _ => ?_
  exact .bind formedU (balance_writes formedU) fun _ _ formedV _ => fitRound_writes wf formedV

theorem begin_writes (first : Bool) :
    (Desk.writing p).Permits
      (if first then do
        p.start
        Desk.plan fun a => { a with started := true }
        p.finish
      else p.finish) s :=
  .ite (fun _ => .bind formed (start_writes wf formed) fun _ _ formedT _ =>
      .bind formedT (formedT.plan formedT.dynamic) fun _ _ formedU _ => finish_writes wf formedU)
    fun _ => finish_writes wf formed

theorem revise_writes : (Desk.writing p).Permits p.revise s := by
  refine .get_bind (.ite (fun _ => ?_) fun _ => begin_writes wf formed _)
  refine .bind formed (.forM formed fun d hd t formedT _ => .forM formedT fun b hb u formedU _ =>
    recordLoad_writes formedU (List.mem_range.1 hd) (List.mem_range.1 hb)) fun _ t formedT _ => ?_
  exact .bind formedT (formedT.plan formedT.dynamic) fun _ _ formedU _ => begin_writes wf formedU _

/-- **A call writes what it changes.** -/
theorem call_writes : (Desk.writing p).Permits p.call s := by
  refine .bind formed (formed.count _) fun _ t formedT _ => ?_
  have writes := revise_writes wf formedT
  unfold Contract.Permits countConflict at *
  cases result : p.revise t with
  | ok a u => simpa only [result] using writes
  | error halt u =>
    cases halt with
    | inconsistent cause =>
      rw [result] at writes
      obtain ⟨formedU, writes⟩ := writes
      exact ⟨⟨formedU.ledger, formedU.dynamic⟩, writes.trans (.of_eq rfl rfl rfl)⟩
    | fault fault => trivial

end

section

variable (wf : p.WellFormed) (formed : s.Formed p)
  (h : p.call s = .ok () t ∨ ∃ cause, p.call s = .error (.inconsistent cause) t)

include wf formed h

/-- **A call changes the ledger and the cells alike**, also if it finds an inconsistency. -/
theorem writes_of_call : t.Formed p ∧ Desk.Writes p s t := by
  have writes := call_writes wf formed
  rcases h with done | ⟨cause, stops⟩
  · exact writes.ok done
  · exact writes.inconsistent stops

/-- **A call changes no cell but those of the packing.** -/
theorem call_alters : Cells.Alters (s.layout.Owns p) s.cells t.cells := (writes_of_call wf formed h).2.alters

/-- **The cells hold the ledger after a call.** -/
theorem call_shows (apart : s.layout.Apart p) (shows' : s.layout.Shows p s.cells s.ledger.page) :
    s.layout.Shows p t.cells t.ledger.page ∧ s.layout.ledger p t.cells = t.ledger := by
  obtain ⟨formedT, writes⟩ := writes_of_call wf formed h
  exact writes.shows formedT.ledger apart shows'

end

end Packing

/-! ## Steps -/

namespace Desk

variable {p : Packing} {s t : Desk}

/-- **Every step of a revision writes what it changes.** -/
theorem Step.writes (wf : p.WellFormed) (valid : s.Valid p) (step : Step p s t) : Writes p s t := by
  have formed := valid.tracks.formed
  cases step with
  | narrow rule narrowed => exact .of_eq rfl rfl rfl
  | withdraw hb hi lost => exact ⟨rfl, _, Ledger.within_withdrawal formed hb, Ledger.page_withdraw formed hb, rfl⟩
  | place hb hi fixed placed =>
    exact ⟨rfl, _, Ledger.within_placement formed wf hb, Ledger.page_place formed wf hb placed, rfl⟩
  | extend hb marked =>
    exact ⟨rfl, _, Ledger.within_extension wf (valid.enabled marked) hb _ _,
      Ledger.page_extend (formed.lt_size hb) (formed.bin _ hb).entries wf _, rfl⟩
  | record hd hb => exact ⟨rfl, _, Ledger.within_noting hd hb _ _, Ledger.page_record formed hd hb _ _, rfl⟩
  | mark b => exact .of_eq rfl rfl rfl
  | plan marked => exact .of_eq rfl rfl rfl
  | count counters => exact .of_eq rfl rfl rfl

theorem Path.writes (wf : p.WellFormed) (valid : s.Valid p) (path : Path p s t) : t.Valid p ∧ Writes p s t :=
  path.preserves wf (fun _ _ validU writes step => writes.trans (step.writes wf validU)) valid
    (.of_eq rfl rfl rfl)

end Desk

end Stowage
