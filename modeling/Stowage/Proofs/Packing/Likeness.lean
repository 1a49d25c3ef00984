import Stowage.Proofs.Agreement
import Stowage.Proofs.Packing.Revision

/-!
# Desks that look alike

A revision reads the marks of available bins only, and never the counters.  So it does the same on
two desks that differ in nothing but the marks of other bins and the counters: it imposes the same
predicates, leaves the same ledger, and ends in the same way.

A bin that is no longer available does not become available again, so the marks that do not matter
stay those that do not matter.

* `Agenda.Like`, `Desk.Like` — agendas and desks that look alike.
* `Packing.blind_revise`, `Packing.blind_call` — a revision cannot tell such desks apart.
* `Packing.notify_like` — neither can a notification.
-/

set_option autoImplicit false

namespace Stowage

namespace Agenda

/-- The agendas differ at most in the marks of bins that are not listed. -/
structure Like (bins : List Nat) (a b : Agenda) : Prop where
  items : a.items = b.items
  flagged : a.flagged = b.flagged
  loadsMoved : a.loadsMoved = b.loadsMoved
  started : a.started = b.started
  marked : ∀ x ∈ bins, x ∈ a.marked ↔ x ∈ b.marked
  left : a.marked.Nodup
  right : b.marked.Nodup

variable {bins fewer : List Nat} {a b : Agenda}

theorem Like.mono (h : Like bins a b) (sub : ∀ x ∈ fewer, x ∈ bins) : Like fewer a b :=
  { h with marked := fun x hx => h.marked x (sub x hx) }

theorem mem_mark {x c : Nat} : x ∈ (a.mark c).marked ↔ x = c ∨ x ∈ a.marked := by
  unfold mark
  split
  · rename_i present
    rw [List.contains_iff_mem] at present
    constructor
    · exact .inr
    · rintro (rfl | member)
      · exact present
      · exact member
  · exact List.mem_cons

theorem nodup_mark (nodup : a.marked.Nodup) (c : Nat) : (a.mark c).marked.Nodup := by
  unfold mark
  split
  · exact nodup
  · rename_i absent
    rw [List.contains_iff_mem] at absent
    exact List.nodup_cons.2 ⟨absent, nodup⟩

theorem mark_frame (a : Agenda) (c : Nat) : a.mark c = { a with marked := (a.mark c).marked } := by
  unfold mark
  split <;> rfl

theorem Like.mark (h : Like bins a b) (c : Nat) : Like bins (a.mark c) (b.mark c) := by
  refine ⟨?_, ?_, ?_, ?_, fun x hx => ?_, nodup_mark h.left c, nodup_mark h.right c⟩
  · rw [mark_frame a, mark_frame b]
    exact h.items
  · rw [mark_frame a, mark_frame b]
    exact h.flagged
  · rw [mark_frame a, mark_frame b]
    exact h.loadsMoved
  · rw [mark_frame a, mark_frame b]
    exact h.started
  · rw [mem_mark, mem_mark, h.marked x hx]

theorem Like.unmark (h : Like bins a b) (c : Nat) : Like bins (a.unmark c) (b.unmark c) := by
  refine ⟨h.items, h.flagged, h.loadsMoved, h.started, fun x hx => ?_, h.left.erase c, h.right.erase c⟩
  show x ∈ a.marked.erase c ↔ x ∈ b.marked.erase c
  rw [h.left.mem_erase_iff, h.right.mem_erase_iff, h.marked x hx]

theorem Like.addItem (h : Like bins a b) (i : Nat) : Like bins (a.addItem i) (b.addItem i) := by
  unfold Agenda.addItem
  rw [h.items, h.flagged]
  split
  · exact h
  · exact { h with items := rfl, flagged := rfl }

theorem Like.dropItem (h : Like bins a b) (i : Nat) (rest : List Nat) :
    Like bins (a.dropItem i rest) (b.dropItem i rest) :=
  { h with items := rfl, flagged := congrArg (·.erase i) h.flagged }

theorem Like.markBin (h : Like bins a b) (p : Packing) (c : Nat) :
    Like bins (p.markBin c a) (p.markBin c b) := by
  unfold Packing.markBin
  split
  · exact h.mark c
  · exact h

end Agenda

namespace Ledger

theorem mem_available_update {l : Ledger} {b c : Nat} {bin : Bin}
    (h : c ∈ (l.update b bin).available) : c ∈ l.available := by
  unfold update at h
  simp only at h
  split at h
  · exact List.mem_of_mem_erase h
  · exact h

end Ledger

namespace Desk

/-- The desks differ at most in the marks of bins that are not available, and in the counters.  The
available bins are among the listed ones. -/
structure Like (bins : List Nat) (s t : Desk) : Prop where
  domains : s.domains = t.domains
  cells : s.cells = t.cells
  layout : s.layout = t.layout
  ledger : s.ledger = t.ledger
  agenda : s.agenda.Like s.ledger.available t.agenda
  within : ∀ b ∈ s.ledger.available, b ∈ bins

variable {bins : List Nat} {s t : Desk} {α : Type}

theorem Like.cells_enter (like : s.Like bins t) (p : Packing) (ledger : Ledger) (ws : List Write) :
    (s.enter p ledger ws).cells = (t.enter p ledger ws).cells := by
  simp only [enter, like.cells, like.layout]

/-- The ledger is replaced by one with as many bins available. -/
theorem Like.enter (like : s.Like bins t) (p : Packing) {ledger : Ledger} (ws : List Write)
    (available : ledger.available = t.ledger.available) :
    Like bins (s.enter p ledger ws) (t.enter p ledger ws) := by
  have agenda := like.agenda
  have within := like.within
  rw [like.ledger, ← available] at agenda within
  exact ⟨like.domains, like.cells_enter p ledger ws, like.layout, rfl, agenda, within⟩

theorem blind_onDomains (call : Call Domains α) : Call.Blind (Like bins) (onDomains call) :=
  .focus call (fun _ _ like => like.domains)
    fun _ _ _ like => ⟨rfl, like.cells, like.layout, like.ledger, like.agenda, like.within⟩

theorem blind_count (change : Counters → Counters) : Call.Blind (Like bins) (count change) :=
  .modify fun _ _ like =>
    ⟨like.domains, like.cells, like.layout, like.ledger, like.agenda, like.within⟩

theorem blind_plan {change : Agenda → Agenda}
    (h : ∀ bins a b, Agenda.Like bins a b → Agenda.Like bins (change a) (change b)) :
    Call.Blind (Like bins) (plan change) :=
  .modify fun _ _ like =>
    ⟨like.domains, like.cells, like.layout, like.ledger, h _ _ _ like.agenda, like.within⟩

/-- A call that reads the domains and the ledger first. -/
theorem blind_get {f : Desk → Call Desk α}
    (reads : ∀ s t : Desk, s.domains = t.domains → s.ledger = t.ledger → f s = f t)
    (rest : ∀ s, Call.Blind (Like bins) (f s)) : Call.Blind (Like bins) (get >>= f) :=
  .get_bind (fun s t like => reads s t like.domains like.ledger) rest

theorem blind_ensure {c : Desk → Bool}
    (reads : ∀ s t : Desk, s.domains = t.domains → s.ledger = t.ledger → c s = c t) :
    Call.Blind (Like bins) (Call.ensure c) :=
  .ensure fun s t like => reads s t like.domains like.ledger

end Desk

namespace Packing

variable {bins : List Nat} (p : Packing)

/-! ## Accesses -/

theorem blind_ensureItem (i : Nat) : Call.Blind (Desk.Like bins) (p.ensureItem i) :=
  Desk.blind_ensure fun s t domains _ => by rw [domains]

theorem blind_ensureEntry (d b : Nat) : Call.Blind (Desk.Like bins) (p.ensureEntry d b) :=
  Desk.blind_ensure fun s t domains ledger => by rw [domains, ledger]

theorem blind_ensureBin (b : Nat) : Call.Blind (Desk.Like bins) (p.ensureBin b) :=
  Desk.blind_ensure fun s t domains ledger => by rw [domains, ledger]

/-! ## Loads -/

theorem blind_recordLoad (d b : Nat) : Call.Blind (Desk.Like bins) (p.recordLoad d b) := by
  refine (p.blind_ensureEntry d b).bind fun _ => ?_
  refine .modify fun s t like => ?_
  simp only [recorded, like.domains, like.ledger]
  exact like.enter p _ rfl

theorem blind_recordLoads : Call.Blind (Desk.Like bins) p.recordLoads :=
  .forM fun d _ => .forM fun b _ => p.blind_recordLoad d b

theorem blind_noteTightening (d b : Nat) : Call.Blind (Desk.Like bins) (p.noteTightening d b) :=
  (p.blind_recordLoad d b).bind fun _ => Desk.blind_count _

theorem blind_raiseLoad (d b : Nat) (bound : Int) :
    Call.Blind (Desk.Like bins) (p.raiseLoad d b bound) := by
  refine (p.blind_ensureEntry d b).bind fun _ => ?_
  refine (Desk.blind_onDomains _).bind fun raised => .ite ?_ (.pure false)
  exact (p.blind_noteTightening d b).bind fun _ => .pure true

theorem blind_planMark (b : Nat) : Call.Blind (Desk.Like bins) (Desk.plan (p.markBin b)) :=
  Desk.blind_plan fun _ _ _ like => like.markBin p b

theorem blind_sinkLoad (d b : Nat) (bound : Int) :
    Call.Blind (Desk.Like bins) (p.sinkLoad d b bound) := by
  refine (p.blind_ensureEntry d b).bind fun _ => ?_
  refine (Desk.blind_onDomains _).bind fun sunk => .ite ?_ (.pure false)
  refine (p.blind_noteTightening d b).bind fun _ => ?_
  exact .ite ((p.blind_planMark b).bind fun _ => .pure true) (.pure true)

theorem blind_raiseToRequired (d b : Nat) : Call.Blind (Desk.Like bins) (p.raiseToRequired d b) :=
  Desk.blind_get (fun s t _ ledger => by rw [ledger]) fun _ => p.blind_raiseLoad d b _

theorem blind_sinkToTotal (d b : Nat) : Call.Blind (Desk.Like bins) (p.sinkToTotal d b) :=
  Desk.blind_get (fun s t _ ledger => by rw [ledger]) fun _ => p.blind_sinkLoad d b _

theorem blind_tightenToEntry (d b : Nat) : Call.Blind (Desk.Like bins) (p.tightenToEntry d b) :=
  (p.blind_raiseToRequired d b).bind fun _ => (p.blind_sinkToTotal d b).bind fun _ => .pure _

/-! ## Items -/

/-- A bin is replaced, and marked for an extension of its big items. -/
theorem like_replace {s t : Desk} (like : s.Like bins t) (b : Nat) (bin : Bin) (ws : List Write) :
    Desk.Like bins (Desk.enter p (t.ledger.update b bin) ws { s with agenda := p.markBin b s.agenda })
      (Desk.enter p (t.ledger.update b bin) ws { t with agenda := p.markBin b t.agenda }) := by
  have before : ∀ c ∈ (t.ledger.update b bin).available, c ∈ s.ledger.available := by
    intro c hc
    rw [like.ledger]
    exact Ledger.mem_available_update hc
  exact ⟨like.domains, like.cells_enter p (t.ledger.update b bin) ws, like.layout, rfl,
    (like.agenda.markBin p b).mono before, fun c hc => like.within c (before c hc)⟩

theorem blind_assignItem (i b : Nat) : Call.Blind (Desk.Like bins) (p.assignItem i b) := by
  refine (p.blind_ensureItem i).bind fun _ => (p.blind_ensureBin b).bind fun _ => ?_
  intro s t like
  refine .get_bind ?_
  rw [like.ledger]
  refine .ite ?_ (.ok _ like)
  cases (t.ledger.bin b).place p i with
  | none => exact .error _ like
  | some bin =>
    exact Call.Matched.forM (fun d _ => p.blind_tightenToEntry d b) _ _ (p.like_replace like b bin _)

theorem blind_removeItem (i b : Nat) : Call.Blind (Desk.Like bins) (p.removeItem i b) := by
  refine (p.blind_ensureItem i).bind fun _ => (p.blind_ensureBin b).bind fun _ => ?_
  intro s t like
  refine .get_bind ?_
  rw [like.ledger]
  refine .ite ?_ (.ok _ like)
  refine Call.Matched.forM (fun d _ => ?_) _ _ (p.like_replace like b _ _)
  exact (p.blind_sinkToTotal d b).bind fun _ => .pure _

theorem blind_synchroniseItem (i : Nat) : Call.Blind (Desk.Like bins) (p.synchroniseItem i) := by
  refine (p.blind_ensureItem i).bind fun _ => .bind (.forM fun b _ => ?_) fun _ => ?_
  · refine (p.blind_ensureBin b).bind fun _ => ?_
    refine Desk.blind_get (fun s t domains ledger => by rw [domains, ledger]) fun _ => ?_
    exact .ite (p.blind_removeItem i b) (.pure _)
  · refine Desk.blind_get (fun s t domains ledger => by rw [domains]) fun desk => ?_
    cases p.placement? desk.domains i with
    | none => exact .pure _
    | some b => exact p.blind_assignItem i b

/-! ## Balancing -/

theorem blind_checkSum (d : Nat) : Call.Blind (Desk.Like bins) (p.checkSum d) := by
  refine (Desk.blind_ensure fun s t _ ledger => by rw [ledger]).bind fun _ => ?_
  refine Desk.blind_get (fun s t _ ledger => by rw [ledger]) fun _ => ?_
  exact .ite (.conflict _) (.ite (.conflict _) (.pure _))

theorem blind_balanceLoad (b d : Nat) : Call.Blind (Desk.Like bins) (p.balanceLoad b d) := by
  unfold balanceLoad
  refine Desk.blind_get (fun s t domains ledger => ?_) fun _ => ?_
  · simp only [leastLoad, domains, ledger]
  refine (p.blind_raiseLoad d b _).bind fun raised => ?_
  refine Desk.blind_get (fun s t domains ledger => ?_) fun _ => ?_
  · simp only [greatestLoad, domains, ledger]
  exact (p.blind_sinkLoad d b _).bind fun sunk => .pure (raised || sunk)

theorem blind_balanceRound : Call.Blind (Desk.Like bins) p.balanceRound := by
  refine (Call.Matched.forM fun d _ => p.blind_checkSum d).bind fun _ => ?_
  refine Desk.blind_get (fun s t _ ledger => by rw [ledger]) fun _ => ?_
  exact .sweep fun b _ => .sweep fun d _ => p.blind_balanceLoad b d

theorem blind_balance : Call.Blind (Desk.Like bins) p.balance :=
  Desk.blind_get (fun s t domains _ => by rw [domains]) fun _ => .untilStable p.blind_balanceRound _

/-! ## Fitting -/

theorem blind_excludeItem (b i : Nat) : Call.Blind (Desk.Like bins) (p.excludeItem b i) :=
  (Desk.blind_onDomains _).bind fun _ =>
    (Desk.blind_count _).bind fun _ => p.blind_synchroniseItem i

theorem blind_forceItem (b i : Nat) : Call.Blind (Desk.Like bins) (p.forceItem b i) :=
  (Desk.blind_onDomains _).bind fun _ =>
    (Desk.blind_count _).bind fun _ => p.blind_synchroniseItem i

theorem blind_visitItems (b : Nat) (items : List Nat) :
    Call.Blind (Desk.Like bins) (p.visitItems b items) := by
  induction items with
  | nil => exact .pure false
  | cons i rest ih =>
    refine (p.blind_ensureItem i).bind fun _ => (p.blind_ensureBin b).bind fun _ => ?_
    refine Desk.blind_get (fun s t domains ledger => ?_) fun _ => ?_
    · have sameFits : p.fits s b i = p.fits t b i := by simp only [fits, domains, ledger]
      have sameNeeded : p.isNeeded s b i = p.isNeeded t b i := by
        simp only [isNeeded, domains, ledger]
      rw [sameFits, sameNeeded, ledger]
    refine .ite ih (.ite ?_ (.ite ?_ (.ite (.pure false) ih)))
    · exact (p.blind_excludeItem b i).bind fun _ => ih.bind fun _ => .pure true
    · exact (p.blind_forceItem b i).bind fun _ => ih.bind fun _ => .pure true

theorem blind_fitBin (b : Nat) : Call.Blind (Desk.Like bins) (p.fitBin b) := by
  refine (p.blind_ensureBin b).bind fun _ => ?_
  exact Desk.blind_get (fun s t _ ledger => by rw [ledger]) fun _ => p.blind_visitItems b _

theorem blind_extendBin (b : Nat) : Call.Blind (Desk.Like bins) (p.extendBin b) := by
  refine (p.blind_ensureBin b).bind fun _ => (Desk.blind_count _).bind fun _ => ?_
  intro s t like
  refine .get_bind ?_
  rw [like.ledger, like.domains]
  refine Call.Matched.ite (.pure false) (p.blind_sinkToTotal 0 b) _ _ ?_
  exact like.enter p _ rfl

/-- The mark of an available bin is read, and only that. -/
theorem agree_extendIfMarked {b : Nat} {s t : Desk} (like : s.Like bins t)
    (available : b ∈ s.ledger.available) :
    Call.Agree (Desk.Like bins) (p.extendIfMarked b s) (p.extendIfMarked b t) := by
  refine .get_bind ?_
  have same : s.agenda.marked.contains b = t.agenda.marked.contains b := by
    rw [Bool.eq_iff_iff, List.contains_iff_mem, List.contains_iff_mem]
    exact like.agenda.marked b available
  rw [same]
  refine .ite ?_ (.ok _ like)
  have unmarked : Call.Blind (Desk.Like bins) (Desk.plan fun a => a.unmark b) :=
    Desk.blind_plan fun _ _ _ like => like.unmark b
  exact (unmarked.bind fun _ => p.blind_extendBin b) s t like

theorem blind_visitBin (b : Nat) : Call.Blind (Desk.Like bins) (p.visitBin b) := by
  intro s t like
  refine .get_bind ?_
  by_cases available : s.ledger.isAvailable b = true
  · rw [if_pos available, if_pos (like.ledger ▸ available)]
    refine .bind (p.agree_extendIfMarked like ?_) fun extended s' t' like' => ?_
    · rwa [Ledger.isAvailable, List.contains_iff_mem] at available
    · exact ((p.blind_fitBin b).bind fun fitted => .pure (extended || fitted)) s' t' like'
  · rw [if_neg available, if_neg (like.ledger ▸ available)]
    exact .ok _ like

theorem blind_fitRound : Call.Blind (Desk.Like bins) p.fitRound :=
  Desk.blind_get (fun s t _ ledger => by rw [ledger]) fun _ => .sweep fun b _ => p.blind_visitBin b

/-! ## Revisions -/

theorem blind_confineItem (i : Nat) : Call.Blind (Desk.Like bins) (p.confineItem i) :=
  (Desk.blind_onDomains _).bind fun _ =>
    (Desk.blind_onDomains _).bind fun _ => p.blind_synchroniseItem i

theorem like_foldl_markBin (bins marked : List Nat) {a b : Agenda} (like : a.Like bins b) :
    Agenda.Like bins (marked.foldl (fun a c => p.markBin c a) a)
      (marked.foldl (fun a c => p.markBin c a) b) := by
  induction marked generalizing a b with
  | nil => exact like
  | cons c marked ih => exact ih (like.markBin p c)

theorem blind_start : Call.Blind (Desk.Like bins) p.start := by
  refine (Desk.blind_plan fun bins _ _ like => ?_).bind fun _ => ?_
  · exact p.like_foldl_markBin bins _ like
  refine (Call.Matched.forM fun i _ => p.blind_confineItem i).bind fun _ => ?_
  exact .forM fun b _ => .forM fun d _ => p.blind_tightenToEntry d b

theorem blind_workOff (items : List Nat) : Call.Blind (Desk.Like bins) (p.workOff items) := by
  induction items with
  | nil => exact .pure _
  | cons i rest ih =>
    refine (Desk.blind_plan fun _ _ _ like => like.dropItem i rest).bind fun _ => ?_
    exact (p.blind_synchroniseItem i).bind fun _ => ih

theorem blind_settleRound : Call.Blind (Desk.Like bins) p.settleRound :=
  p.blind_balance.bind fun _ => p.blind_fitRound

theorem blind_finish : Call.Blind (Desk.Like bins) p.finish := by
  refine .get_bind (fun s t like => ?_) fun desk => ?_
  · rw [like.agenda.items]
  refine (p.blind_workOff desk.agenda.items).bind fun _ => ?_
  refine Desk.blind_get (fun s t domains ledger => ?_) fun _ => .untilStable p.blind_settleRound _
  rw [settleLimit, domains, ledger]
  rfl

/-- **A revision cannot tell desks apart that look alike.** -/
theorem blind_revise : Call.Blind (Desk.Like bins) p.revise := by
  have begun (started : Bool) : Call.Blind (Desk.Like bins)
      (if !started then do
        p.start
        Desk.plan fun a => { a with started := true }
        p.finish
      else p.finish) := by
    refine .ite (p.blind_start.bind fun _ => ?_) p.blind_finish
    refine (Desk.blind_plan fun _ _ _ like => ?_).bind fun _ => p.blind_finish
    exact { like with started := rfl }
  intro s t like
  refine .get_bind ?_
  rw [like.agenda.loadsMoved, like.agenda.started]
  refine Call.Matched.ite (p.blind_recordLoads.bind fun _ => ?_) (begun _) s t like
  refine (Desk.blind_plan fun _ _ _ like => ?_).bind fun _ => begun _
  exact { like with loadsMoved := rfl }

theorem blind_countConflict {call : Call Desk Unit} (blind : Call.Blind (Desk.Like bins) call) :
    Call.Blind (Desk.Like bins) (countConflict call) := by
  intro s t like
  have agree := blind s t like
  unfold countConflict
  generalize call s = first at agree ⊢
  generalize call t = second at agree ⊢
  cases agree with
  | ok a rel => exact .ok a rel
  | error halt rel =>
    cases halt with
    | fault fault => exact .error _ rel
    | inconsistent cause => 
      exact .error _ ⟨rel.domains, rel.cells, rel.layout, rel.ledger, rel.agenda, rel.within⟩

/-- **Neither can a call.** -/
theorem blind_call : Call.Blind (Desk.Like bins) p.call :=
  (Desk.blind_count _).bind fun _ => blind_countConflict p.blind_revise

/-! ## Notifications -/

/-- A notification leaves alike agendas alike, and wakes the packing in both cases or in neither. -/
theorem notify_like {a b : Agenda} (like : a.Like bins b) (ledger : Ledger)
    (ds : Domains) (place : Nat) :
    Parallel (Option.Rel (Agenda.Like bins)) (p.notify ledger ds a place)
      (p.notify ledger ds b place) := by
  unfold notify
  split
  · apply Parallel.require_bind
    split
    · exact .ok .none
    · exact .ok (.some (like.addItem place))
  · refine .bind (.refl (fun _ => rfl) (p.loadOfPlace place)) fun load _ same => ?_
    subst same
    obtain ⟨d, bin⟩ := load
    apply Parallel.require_bind
    simp only
    split
    · exact .ok .none
    · refine .ok (.some ?_)
      have moved := { like with loadsMoved := rfl : Agenda.Like bins
        { a with loadsMoved := true } { b with loadsMoved := true } }
      split
      · exact moved.markBin p bin
      · exact moved

end Packing

end Stowage
