import Stowage.Proofs.Packing.Steps

/-!
# The journal of a call

A call of a packing is done once more, with a journal in which every item that was placed, every candidate
that left, every extension of the big items and every look at the sums is noted, with the desk of that
moment.  The journal changes nothing: the call does what it does without.  So what is noted are the
moments of the call, and since its steps lead from one to the next, what steps preserve holds at all of
them.

* `Remark`, `Journaled` — an entry of the journal, and a desk with its journal.
* `Packing.Noted.call`, `Packing.journal` — the call with its journal, and the journal.
* `Desk.Along` — several steps, through the desks that were noted.
* `Desk.Retells` — a computation with a journal does what another does without.
* `Packing.call_with_journal`, `Packing.journal_along` — the call with its journal is the call, and steps
  lead through the journal.
-/

set_option autoImplicit false

namespace Stowage

/-- What is noted of a call. -/
inductive Moment where
  /-- Item `i` has been placed in bin `b`, if it was a candidate. -/
  | assigned (i b : Nat)
  /-- Item `i` has been removed from the candidates of bin `b`, if it was one. -/
  | removed (i b : Nat)
  /-- The big items of bin `b` have been extended. -/
  | extended (b : Nat)
  /-- The sums of dimension `d` are about to be read. -/
  | summing (d : Nat)
  deriving DecidableEq, Repr

/-- An entry of the journal. -/
structure Remark where
  moment : Moment
  /-- The desk at that moment. -/
  desk : Desk
  deriving Repr

/-- A desk, and the journal that is kept of the work on it. -/
structure Journaled where
  desk : Desk
  notes : List Remark
  deriving Repr

namespace Journaled

variable {α : Type}

/-- Runs a call without noting anything. -/
def quietly (call : Call Desk α) : Call Journaled α :=
  Call.focus desk (fun desk j => { j with desk }) call

def look : Call Journaled Desk := quietly get

def note (moment : Moment) : Call Journaled Unit :=
  modify fun j => { j with notes := j.notes ++ [⟨moment, j.desk⟩] }

/-- The outcome of a call, with a journal. -/
def outcome (notes : List Remark) : EStateM.Result Halt Desk α → EStateM.Result Halt Journaled α
  | .ok a desk => .ok a ⟨desk, notes⟩
  | .error halt desk => .error halt ⟨desk, notes⟩

/-- What has been noted when a call ends. -/
def notesOf : EStateM.Result Halt Journaled α → List Remark
  | .ok _ j => j.notes
  | .error _ j => j.notes

@[simp] theorem notesOf_outcome (notes : List Remark) (result : EStateM.Result Halt Desk α) :
    notesOf (outcome notes result) = notes := by
  cases result <;> rfl

end Journaled

/-! ## Calls with a journal -/

namespace Packing.Noted

open Journaled

def assignItem (p : Packing) (i b : Nat) : Call Journaled Unit := do
  quietly (p.assignItem i b)
  note (.assigned i b)

/-- Removes an item from the candidates of a bin. -/
def removeItem (p : Packing) (i b : Nat) : Call Journaled Unit := do
  quietly (p.removeItem i b)
  note (.removed i b)

/-- Brings the ledger in line with the domain of item `i`. -/
def synchroniseItem (p : Packing) (i : Nat) : Call Journaled Unit := do
  quietly (p.ensureItem i)
  p.binList.forM fun b => do
    quietly (p.ensureBin b)
    let desk ← look
    if (desk.ledger.bin b).isCandidate i && !(desk.domains.domain (p.item i)).contains (b : Int) then
      removeItem p i b
  let desk ← look
  match p.placement? desk.domains i with
  | none => pure ()
  | some b => assignItem p i b

/-! ### Balancing -/

/-- Compares the sums with the size of the items. -/
def checkSum (p : Packing) (d : Nat) : Call Journaled Unit := do
  note (.summing d)
  quietly (p.checkSum d)

/-- Tightens the load of bin `b` in dimension `d`; returns whether it changed. -/
def balanceLoad (p : Packing) (b d : Nat) : Call Journaled Bool := do
  note (.summing d)
  let desk ← look
  let raised ← quietly (p.raiseLoad d b (p.leastLoad desk d b))
  note (.summing d)
  let desk ← look
  let sunk ← quietly (p.sinkLoad d b (p.greatestLoad desk d b))
  return raised || sunk

/-- Tightens the loads of the available bins once; returns whether one changed. -/
def balanceRound (p : Packing) : Call Journaled Bool := do
  p.dimList.forM (checkSum p)
  let desk ← look
  Call.sweep (fun b => Call.sweep (balanceLoad p b) p.dimList) desk.ledger.available

/-- Tightens the loads of the available bins until nothing changes. -/
def balance (p : Packing) : Call Journaled Unit := do
  let desk ← look
  Call.untilStable (balanceRound p) desk.domains.roundLimit

/-! ### Fitting -/

/-- Takes the bin away from an item that does not fit. -/
def excludeItem (p : Packing) (b i : Nat) : Call Journaled Unit := do
  quietly (Desk.onDomains (Domains.impose (.differs (p.item i) (b : Int))))
  quietly (Desk.count fun c => { c with removals := c.removals + 1 })
  synchroniseItem p i

/-- Places an item in the bin that needs it. -/
def forceItem (p : Packing) (b i : Nat) : Call Journaled Unit := do
  quietly (Desk.onDomains (Domains.impose (.equals (p.item i) (b : Int))))
  quietly (Desk.count fun c => { c with forcedAssignments := c.forcedAssignments + 1 })
  synchroniseItem p i

/-- Visits items in the given order, those that are still candidates of bin `b`. -/
def visitItems (p : Packing) (b : Nat) : List Nat → Call Journaled Bool
  | [] => pure false
  | i :: rest => do
    quietly (p.ensureItem i)
    quietly (p.ensureBin b)
    let desk ← look
    if !(desk.ledger.bin b).isCandidate i then visitItems p b rest
    else if !p.fits desk b i then
      excludeItem p b i
      let _ ← visitItems p b rest
      return true
    else if p.isNeeded desk b i then
      forceItem p b i
      let _ ← visitItems p b rest
      return true
    else if p.numDims == 1 && !(desk.ledger.bin b).isBig i then return false
    else visitItems p b rest

def fitBin (p : Packing) (b : Nat) : Call Journaled Bool := do
  quietly (p.ensureBin b)
  let desk ← look
  visitItems p b (desk.ledger.bin b).candidates

/-- Extends the big items of bin `b` and sinks its load to the new total load. -/
def extendBin (p : Packing) (b : Nat) : Call Journaled Bool := do
  quietly (p.ensureBin b)
  quietly (Desk.count fun c => { c with bigItemExtensions := c.bigItemExtensions + 1 })
  let desk ← look
  let free := p.freeSpace desk.ledger desk.domains 0 b
  let (decrease, bin) := (desk.ledger.bin b).extendBig p free
  quietly (set (desk.enter p (desk.ledger.put b bin) (Ledger.extension p free b (desk.ledger.bin b))))
  note (.extended b)
  if decrease = 0 then return false else quietly (p.sinkToTotal 0 b)

/-- Extends the big items of bin `b` if it is marked. -/
def extendIfMarked (p : Packing) (b : Nat) : Call Journaled Bool := do
  let desk ← look
  if desk.agenda.marked.contains b then
    quietly (Desk.plan fun a => a.unmark b)
    extendBin p b
  else return false

/-- Extends the big items of bin `b` if due and visits its candidates, if it is still available. -/
def visitBin (p : Packing) (b : Nat) : Call Journaled Bool := do
  let desk ← look
  if desk.ledger.isAvailable b then
    let extended ← extendIfMarked p b
    let fitted ← fitBin p b
    return extended || fitted
  else return false

/-- Visits the bins that are available now. -/
def fitRound (p : Packing) : Call Journaled Bool := do
  let desk ← look
  Call.sweep (visitBin p) desk.ledger.available

/-! ### A whole call -/

def confineItem (p : Packing) (i : Nat) : Call Journaled Unit := do
  quietly (Desk.onDomains (Domains.impose (.atLeast (p.item i) 0)))
  quietly (Desk.onDomains (Domains.impose (.atMost (p.item i) p.lastBin)))
  synchroniseItem p i

/-- Restricts the items to the bins and tightens all loads to the ledger. -/
def start (p : Packing) : Call Journaled Unit := do
  quietly (Desk.plan fun a => p.binList.foldl (fun a b => p.markBin b a) a)
  p.itemList.forM (confineItem p)
  quietly (p.binList.forM fun b => p.dimList.forM fun d => p.tightenToEntry d b)

/-- Takes the given items off the agenda, and brings the ledger in line with each. -/
def workOff (p : Packing) : List Nat → Call Journaled Unit
  | [] => pure ()
  | i :: rest => do
    quietly (Desk.plan fun a => a.dropItem i rest)
    synchroniseItem p i
    workOff p rest

/-- Balances the loads and fits the items. -/
def settleRound (p : Packing) : Call Journaled Bool := do
  balance p
  fitRound p

/-- Works off the agenda, and narrows the domains until nothing changes. -/
def finish (p : Packing) : Call Journaled Unit := do
  let desk ← look
  workOff p desk.agenda.items
  let desk ← look
  Call.untilStable (settleRound p) (settleLimit desk)

/-- Brings the ledger in line with the domains, and narrows them until nothing changes. -/
def revise (p : Packing) : Call Journaled Unit := do
  let desk ← look
  if desk.agenda.loadsMoved then
    quietly p.recordLoads
    quietly (Desk.plan fun a => { a with loadsMoved := false })
  if !desk.agenda.started then
    start p
    quietly (Desk.plan fun a => { a with started := true })
  finish p

/-- Counts a call that ends with an inconsistency. -/
def countConflict (call : Call Journaled Unit) : Call Journaled Unit := fun j =>
  match call j with
  | .error (.inconsistent cause) j =>
    .error (.inconsistent cause)
      { j with
        desk :=
          { j.desk with
            counters := { j.desk.counters with conflicts := j.desk.counters.conflicts + 1 } } }
  | result => result

def call (p : Packing) : Call Journaled Unit := do
  quietly (Desk.count fun c => { c with calls := c.calls + 1 })
  countConflict (revise p)

end Packing.Noted

def Packing.journal (p : Packing) (s : Desk) : List Remark :=
  Journaled.notesOf (Packing.Noted.call p ⟨s, []⟩)

/-! ## The journal changes nothing -/

namespace Desk

variable {α β : Type} {p : Packing} {s t u : Desk}

/-- Several steps, which pass through the desks that were noted, in their order. -/
inductive Along (p : Packing) : Desk → List Remark → Desk → Prop
  | leads {s t : Desk} (leads : Leads p s t) : Along p s [] t
  | note {s t : Desk} {n : Remark} {more : List Remark} (leads : Leads p s n.desk)
      (rest : Along p n.desk more t) : Along p s (n :: more) t

theorem Along.from_leads {notes : List Remark} (leads : Leads p s t) (h : Along p t notes u) :
    Along p s notes u := by
  cases h with
  | leads later => exact .leads (leads.trans later)
  | note later rest => exact .note (leads.trans later) rest

theorem Along.trans {notes more : List Remark} (h : Along p s notes t) (h' : Along p t more u) :
    Along p s (notes ++ more) u := by
  induction h with
  | leads leads => exact h'.from_leads leads
  | note leads _ ih => exact .note leads (ih h')

theorem Along.to_leads {notes : List Remark} (h : Along p s notes t) : Leads p s t := by
  induction h with
  | leads leads => exact leads
  | note leads _ ih => exact leads.trans ih

theorem Along.mem {notes : List Remark} (h : Along p s notes t) {n : Remark} (member : n ∈ notes) :
    Leads p s n.desk := by
  induction h with
  | leads => cases member
  | note leads _ ih =>
    rcases List.mem_cons.1 member with rfl | later
    · exact leads
    · exact leads.trans (ih later)

/-- A computation ends at the desk.  If it found an inconsistency, the ledger is the one of the desk. -/
def EndsAt : EStateM.Result Halt Desk α → Desk → Prop
  | .ok _ u, t => u = t
  | .error (.inconsistent _) u, t => u.ledger = t.ledger
  | .error (.fault _) _, _ => True

/-- From desk `s` the first computation does what the second does, whatever is in the journal already,
and adds notes that steps pass through. -/
def Retells (p : Packing) (told : Call Journaled α) (call : Call Desk α) (s : Desk) : Prop :=
  ∀ notes, ∃ more t, told ⟨s, notes⟩ = Journaled.outcome (notes ++ more) (call s) ∧
    Along p s more t ∧ EndsAt (call s) t

namespace Retells

theorem pure (a : α) : Retells p (Pure.pure a) (Pure.pure a) s := by
  intro notes
  refine ⟨[], s, ?_, .leads .refl, rfl⟩
  rw [List.append_nil]
  rfl

theorem fault (fault : Fault) :
    Retells p (throw (.fault fault) : Call Journaled α) (throw (.fault fault)) s := by
  intro notes
  refine ⟨[], s, ?_, .leads .refl, trivial⟩
  rw [List.append_nil]
  rfl

theorem quietly {call : Call Desk α} (h : (stepping p).Permits call s) :
    Retells p (Journaled.quietly call) call s := by
  intro notes
  have told (t : Desk) (leads : Leads p s t) (ends : EndsAt (call s) t) :
      ∃ more t, Journaled.quietly call ⟨s, notes⟩ = Journaled.outcome (notes ++ more) (call s) ∧
        Along p s more t ∧ EndsAt (call s) t := by
    refine ⟨[], t, ?_, .leads leads, ends⟩
    rw [List.append_nil]
    simp only [Journaled.quietly, Call.focus]
    cases call s <;> rfl
  cases result : call s with
  | ok a t => exact result ▸ told t (h.ok result).2 (by rw [result]; rfl)
  | error halt t =>
    cases halt with
    | fault fault => exact result ▸ told s .refl (by rw [result]; trivial)
    | inconsistent cause =>
      obtain ⟨u, leads, -, same⟩ := h.inconsistent result
      exact result ▸ told u leads (by rw [result]; exact same.ledger)

/-- A computation that goes on from another desk, with a note or without. -/
theorem from_desk {told rest : Call Journaled α} {call later : Call Desk α}
    (h : Retells p rest later t) (first : List Remark) (along : Along p s first t)
    (same : ∀ notes, told ⟨s, notes⟩ = rest ⟨t, notes ++ first⟩) (calls : call s = later t) :
    Retells p told call s := by
  intro notes
  obtain ⟨more, u, result, path, ends⟩ := h (notes ++ first)
  refine ⟨first ++ more, u, ?_, along.trans path, by rw [calls]; exact ends⟩
  rw [same, result, calls, List.append_assoc]

theorem note_bind {told : Unit → Call Journaled α} {call : Call Desk α} (moment : Moment)
    (h : Retells p (told ()) call s) : Retells p (Journaled.note moment >>= told) call s :=
  h.from_desk [⟨moment, s⟩] (.note .refl (.leads .refl)) (fun _ => rfl) rfl

/-- Sequences are told one part after the other. -/
theorem bind {told : Call Journaled α} {call : Call Desk α} {f : α → Call Journaled β}
    {g : α → Call Desk β} (wf : p.WellFormed) (valid : s.Valid p) (first : Retells p told call s)
    (rest : ∀ a t, t.Valid p → Retells p (f a) (g a) t) :
    Retells p (told >>= f) (call >>= g) s := by
  intro notes
  obtain ⟨more, t, result, along, ends⟩ := first notes
  cases done : call s with
  | ok a u =>
    rw [done] at result ends
    obtain rfl : u = t := ends
    have validU := along.to_leads.valid wf valid
    have goes : (call >>= g) s = g a u := by
      simp only [Bind.bind, EStateM.bind, done]
    obtain ⟨more', v, result', along', ends'⟩ := rest a u validU (notes ++ more)
    refine ⟨more ++ more', v, ?_, along.trans along', by rw [goes]; exact ends'⟩
    rw [goes, ← List.append_assoc, ← result']
    simp only [Bind.bind, EStateM.bind, result, Journaled.outcome]
  | error halt u =>
    rw [done] at result ends
    have stops : (call >>= g) s = .error halt u := by
      simp only [Bind.bind, EStateM.bind, done]
    refine ⟨more, t, ?_, along, by rw [stops]; cases halt <;> exact ends⟩
    rw [stops]
    simp only [Bind.bind, EStateM.bind, result, Journaled.outcome]

theorem bind_note {told : Call Journaled Unit} {call : Call Desk Unit} (wf : p.WellFormed)
    (valid : s.Valid p) (moment : Moment) (h : Retells p told call s) :
    Retells p (told >>= fun _ => Journaled.note moment) call s := by
  have noted (t : Desk) : Retells p (Journaled.note moment) (Pure.pure ()) t :=
    (pure ()).note_bind moment
  have both := h.bind wf valid fun _ t _ => noted t
  rwa [bind_pure_unit] at both

theorem look_bind {told : Desk → Call Journaled α} {call : Desk → Call Desk α}
    (h : Retells p (told s) (call s) s) : Retells p (Journaled.look >>= told) (get >>= call) s := h

theorem ensure_bind {c : Desk → Bool} {told : Unit → Call Journaled α} {call : Unit → Call Desk α}
    (h : Retells p (told ()) (call ()) s) :
    Retells p (Journaled.quietly (Call.ensure c) >>= told) (Call.ensure c >>= call) s := by
  by_cases possible : c s = true
  · refine h.from_desk [] (.leads .refl) (fun notes => ?_) (Call.ensure_bind possible)
    rw [List.append_nil]
    simp only [Bind.bind, EStateM.bind, Journaled.quietly, Call.focus, Call.ensure, possible, if_true]
  · intro notes
    have stops : (Call.ensure c >>= call) s = .error (.fault .outOfRange) s := by
      simp [Bind.bind, EStateM.bind, Call.ensure, possible]
    refine ⟨[], s, ?_, .leads .refl, by rw [stops]; trivial⟩
    rw [List.append_nil, stops]
    simp [Bind.bind, EStateM.bind, Journaled.quietly, Call.focus, Call.ensure, possible,
      Journaled.outcome]

theorem ite {c : Prop} [Decidable c] {told told' : Call Journaled α} {call call' : Call Desk α}
    (yes : c → Retells p told call s) (no : ¬c → Retells p told' call' s) :
    Retells p (if c then told else told') (if c then call else call') s := by
  split
  · exact yes ‹_›
  · exact no ‹_›

theorem countConflict {told : Call Journaled Unit} {call : Call Desk Unit}
    (h : Retells p told call s) :
    Retells p (Packing.Noted.countConflict told) (Packing.countConflict call) s := by
  intro notes
  obtain ⟨more, t, result, along, ends⟩ := h notes
  unfold Packing.Noted.countConflict Packing.countConflict
  refine ⟨more, t, ?_, along, ?_⟩
  · rw [result]
    cases call s with
    | ok a u => rfl
    | error halt u => cases halt <;> rfl
  · cases done : call s with
    | ok a u =>
      rw [done] at ends
      exact ends
    | error halt u =>
      rw [done] at ends
      cases halt <;> exact ends

/-! ### Loops -/

section

variable (wf : p.WellFormed) (valid : s.Valid p)

include wf valid

theorem forM {l : List α} {told : α → Call Journaled PUnit} {call : α → Call Desk PUnit}
    (step : ∀ a ∈ l, ∀ t, t.Valid p → Retells p (told a) (call a) t) :
    Retells p (l.forM told) (l.forM call) s := by
  induction l generalizing s with
  | nil => exact pure _
  | cons a l ih =>
    refine bind wf valid (step a List.mem_cons_self s valid) fun _ t validT => ?_
    exact ih validT fun b hb => step b (List.mem_cons_of_mem _ hb)

theorem sweep {l : List α} {told : α → Call Journaled Bool} {call : α → Call Desk Bool}
    (step : ∀ a ∈ l, ∀ t, t.Valid p → Retells p (told a) (call a) t) :
    Retells p (Call.sweep told l) (Call.sweep call l) s := by
  induction l generalizing s with
  | nil => exact pure _
  | cons a l ih =>
    refine bind wf valid (step a List.mem_cons_self s valid) fun _ t validT => ?_
    exact bind wf validT (ih validT fun b hb => step b (List.mem_cons_of_mem _ hb))
      fun _ _ _ => pure _

theorem untilStable {told : Call Journaled Bool} {call : Call Desk Bool} {limit : Nat}
    (step : ∀ t, t.Valid p → Retells p told call t) :
    Retells p (Call.untilStable told limit) (Call.untilStable call limit) s := by
  induction limit generalizing s with
  | zero => exact fault _
  | succ limit ih =>
    exact bind wf valid (step s valid) fun _ t validT => ite (fun _ => ih validT) fun _ => pure _

end

end Retells

end Desk

/-! ## The call with its journal -/

/-- The desk after the big items of a marked bin were extended. -/
def Packing.widened (p : Packing) (s : Desk) (b : Nat) : Desk :=
  { p.extended s b with
    agenda := s.agenda.unmark b
    counters := { s.counters with bigItemExtensions := s.counters.bigItemExtensions + 1 } }

namespace Packing.Noted

open Desk (Retells)

variable {p : Packing} {s : Desk} {d b i : Nat}

section

variable (wf : p.WellFormed) (valid : s.Valid p)

include wf valid

theorem assignItem_retells (hb : b < p.numBins)
    (fixed : (s.domains.domain (p.item i)).fixedValue? = some (b : Int)) :
    Retells p (assignItem p i b) (p.assignItem i b) s :=
  (Retells.quietly (assignItem_permits wf valid hb fixed)).bind_note wf valid _

theorem removeItem_retells (hb : b < p.numBins)
    (lost : (b : Int) ∉ s.domains.domain (p.item i)) :
    Retells p (removeItem p i b) (p.removeItem i b) s :=
  (Retells.quietly (removeItem_permits wf valid hb lost)).bind_note wf valid _

theorem synchroniseItem_retells (i : Nat) :
    Retells p (synchroniseItem p i) (p.synchroniseItem i) s := by
  refine .ensure_bind (.bind wf valid (.forM wf valid fun b hb t validT => ?_) fun _ t validT => ?_)
  · refine .ensure_bind (.look_bind (.ite (fun both => ?_) fun _ => .pure _))
    simp only [Bool.and_eq_true, Bool.not_eq_true'] at both
    exact removeItem_retells wf validT (List.mem_range.1 hb) (Domain.contains_eq_false_iff.1 both.2)
  · refine .look_bind ?_
    cases placement : p.placement? t.domains i with
    | none => exact .pure _
    | some b =>
      obtain ⟨fixed, hb⟩ := placement?_eq_some_iff.1 placement
      exact assignItem_retells wf validT hb fixed

theorem balanceLoad_retells (hd : d < p.numDims) (hb : b < p.numBins) :
    Retells p (balanceLoad p b d) (p.balanceLoad b d) s := by
  refine .note_bind _ (.look_bind (.bind wf valid
    (.quietly (raiseLoad_permits wf valid hd hb (Int.le_refl _))) fun _ t validT => ?_))
  refine .note_bind _ (.look_bind (.bind wf validT
    (.quietly (sinkLoad_permits wf validT hd hb (Int.le_refl _))) fun _ _ _ => .pure _))

theorem balanceRound_retells : Retells p (balanceRound p) p.balanceRound s := by
  refine .bind wf valid (.forM wf valid fun d hd t validT => .note_bind _
    (.quietly (checkSum_permits validT (List.mem_range.1 hd)))) fun _ t validT => .look_bind ?_
  refine .sweep wf validT fun b hb u validU => .sweep wf validU fun d hd v validV => ?_
  exact balanceLoad_retells wf validV (List.mem_range.1 hd) ((validT.tracks.available b).1 hb).1

theorem impose_retells {q : Predicate} (rule : Desk.Rule p s q none) (hi : i < p.numItems)
    (var : q.var = p.item i) :
    Retells p (Journaled.quietly (Desk.onDomains (Domains.impose q)))
      (Desk.onDomains (Domains.impose q)) s :=
  .quietly (Desk.impose_permits wf valid rule hi var)

/-- A rule for an item is applied and counted, and the ledger follows. -/
theorem applyRule_retells {q : Predicate} (rule : Desk.Rule p s q none) (hi : i < p.numItems)
    (var : q.var = p.item i) (f : Counters → Counters) :
    Retells p
      (do
        Journaled.quietly (Desk.onDomains (Domains.impose q))
        Journaled.quietly (Desk.count f)
        synchroniseItem p i)
      (do
        Desk.onDomains (Domains.impose q)
        Desk.count f
        p.synchroniseItem i) s := by
  refine .bind wf valid (impose_retells wf valid rule hi var) fun _ t validT => ?_
  exact .bind wf validT (.quietly (Desk.count_permits wf validT _)) fun _ _ validU =>
    synchroniseItem_retells wf validU i

theorem visitItems_retells (hb : b < p.numBins) (items : List Nat) :
    Retells p (visitItems p b items) (p.visitItems b items) s := by
  induction items generalizing s with
  | nil => exact .pure _
  | cons i rest ih =>
    have go : ∀ t, t.Valid p → Retells p (do let _ ← visitItems p b rest; return true)
        (do let _ ← p.visitItems b rest; return true) t :=
      fun t validT => .bind wf validT (ih validT) fun _ _ _ => .pure _
    refine .ensure_bind (.ensure_bind (.look_bind (.ite (fun _ => ih valid) fun candidate => ?_)))
    have member : i ∈ (s.ledger.bin b).candidates := by simpa [Bin.isCandidate] using candidate
    have hi := (valid.tracks.accounts b hb).bounded i member
    refine .ite (fun full => ?_) fun _ => .ite (fun needed => ?_) fun _ =>
      .ite (fun _ => .pure _) fun _ => ih valid
    · have rule : Desk.Rule p s (.differs (p.item i) (b : Int)) none :=
        .exclude hb member (by simpa using full)
      exact .bind wf valid (applyRule_retells wf valid rule hi rfl _) fun _ t validT => go t validT
    · have rule : Desk.Rule p s (.equals (p.item i) (b : Int)) none := .force hb member needed
      exact .bind wf valid (applyRule_retells wf valid rule hi rfl _) fun _ t validT => go t validT

/-- The mark is taken away before the big items are extended, but it is part of the step that extends
them. -/
theorem extendIfMarked_retells (hb : b < p.numBins) :
    Retells p (extendIfMarked p b) (p.extendIfMarked b) s := by
  refine .look_bind (.ite (fun marked => ?_) fun _ => .pure _)
  have extend := Desk.Step.extend hb (List.contains_iff_mem.1 marked)
  have count : Desk.Step p { p.extended s b with agenda := s.agenda.unmark b } (p.widened s b) :=
    .count _
  have validE := extend.valid wf valid
  have validW := count.valid wf validE
  have leads := (extend.leads_of_domains wf valid rfl).trans (count.leads_of_domains wf validE rfl)
  have later : Retells p
      (if ((s.ledger.bin b).extendBig p (p.freeSpace s.ledger s.domains 0 b)).1 = 0 then return false
        else Journaled.quietly (p.sinkToTotal 0 b))
      (if ((s.ledger.bin b).extendBig p (p.freeSpace s.ledger s.domains 0 b)).1 = 0 then return false
        else p.sinkToTotal 0 b) (p.widened s b) :=
    .ite (fun _ => .pure _) fun _ => .quietly (sinkToTotal_permits wf validW wf.dims hb)
  have possible := valid.hasBin wf hb
  refine later.from_desk [⟨.extended b, p.widened s b⟩]
    (.note leads (.leads .refl)) (fun notes => ?_) ?_
  · have checked : (p.ensureBin b { s with agenda := s.agenda.unmark b } : EStateM.Result ..) =
        .ok () { s with agenda := s.agenda.unmark b } := if_pos possible
    show extendBin p b ⟨{ s with agenda := s.agenda.unmark b }, notes⟩ = _
    simp only [extendBin, Bind.bind, EStateM.bind, Journaled.quietly, Call.focus, checked]
    rfl
  · have checked : p.extendBin b { s with agenda := s.agenda.unmark b } = _ :=
      Call.ensure_bind possible
    show p.extendBin b { s with agenda := s.agenda.unmark b } = _
    rw [checked]
    rfl

theorem fitRound_retells : Retells p (fitRound p) p.fitRound s := by
  refine .look_bind (.sweep wf valid fun b hb t validT => .look_bind (.ite (fun _ => ?_)
    fun _ => .pure _))
  have inside := ((valid.tracks.available b).1 hb).1
  refine .bind wf validT (extendIfMarked_retells wf validT inside) fun _ u validU => ?_
  exact .bind wf validU (.ensure_bind (.look_bind (visitItems_retells wf validU inside _)))
    fun _ _ _ => .pure _

theorem confineItem_retells (hi : i < p.numItems) :
    Retells p (confineItem p i) (p.confineItem i) s := by
  refine .bind wf valid (impose_retells wf valid (.confineLow hi) hi rfl) fun _ t validT => ?_
  exact .bind wf validT (impose_retells wf validT (.confineHigh hi) hi rfl) fun _ _ validU =>
    synchroniseItem_retells wf validU i

theorem start_retells : Retells p (start p) p.start s := by
  refine .bind wf valid (.quietly (markBins_permits wf valid)) fun _ t validT => ?_
  refine .bind wf validT (.forM wf validT fun i hi u validU =>
    confineItem_retells wf validU (List.mem_range.1 hi)) fun _ u validU => .quietly ?_
  exact tightenAll_permits wf validU

theorem workOff_retells (items : List Nat) : Retells p (workOff p items) (p.workOff items) s := by
  induction items generalizing s with
  | nil => exact .pure _
  | cons i rest ih =>
    refine .bind wf valid (.quietly (Desk.replan_permits wf valid rfl)) fun _ t validT => ?_
    exact .bind wf validT (synchroniseItem_retells wf validT i) fun _ _ validU => ih validU

theorem finish_retells : Retells p (finish p) p.finish s := by
  refine .look_bind (.bind wf valid (workOff_retells wf valid _) fun _ t validT => .look_bind ?_)
  refine .untilStable wf validT fun u validU => ?_
  refine .bind wf validU (.look_bind (.untilStable wf validU fun v validV => ?_))
    fun _ v validV => fitRound_retells wf validV
  exact balanceRound_retells wf validV

/-- The part of a revision after the loads were recorded. -/
theorem begin_retells (first : Bool) :
    Retells p
      (if first then do
        start p
        Journaled.quietly (Desk.plan fun a => { a with started := true })
        finish p
      else finish p)
      (if first then do
        p.start
        Desk.plan fun a => { a with started := true }
        p.finish
      else p.finish) s := by
  refine .ite (fun _ => ?_) fun _ => finish_retells wf valid
  refine .bind wf valid (start_retells wf valid) fun _ t validT => ?_
  exact .bind wf validT (.quietly (Desk.replan_permits wf validT rfl)) fun _ _ validU =>
    finish_retells wf validU

theorem revise_retells : Retells p (revise p) p.revise s := by
  refine .look_bind (.ite (fun _ => ?_) fun _ => begin_retells wf valid _)
  refine .bind wf valid (.quietly (recordLoads_permits wf valid)) fun _ t validT => ?_
  exact .bind wf validT (.quietly (Desk.replan_permits wf validT rfl)) fun _ _ validU =>
    begin_retells wf validU _

/-- **The call with its journal is the call.** -/
theorem call_retells : Retells p (call p) p.call s := by
  refine .bind wf valid (.quietly (Desk.count_permits wf valid _)) fun _ t validT => ?_
  exact (revise_retells wf validT).countConflict

end

end Packing.Noted

namespace Packing

variable {p : Packing} {s : Desk} (wf : p.WellFormed) (valid : s.Valid p)

include wf valid

/-- Apart from its journal, the call with a journal is the call. -/
theorem call_with_journal : Noted.call p ⟨s, []⟩ = Journaled.outcome (p.journal s) (p.call s) := by
  obtain ⟨notes, t, same, -⟩ := Noted.call_retells wf valid []
  rw [journal, same, Journaled.notesOf_outcome]

/-- **Steps lead through the desks of the journal**, in their order, to the desk where the call ends. -/
theorem journal_along : ∃ t, Desk.Along p s (p.journal s) t ∧ Desk.EndsAt (p.call s) t := by
  obtain ⟨notes, t, same, along, ends⟩ := Noted.call_retells wf valid []
  rw [journal, same, Journaled.notesOf_outcome]
  exact ⟨t, along, ends⟩

/-- The invariant holds at all moments of the call. -/
theorem journal_valid {n : Remark} (member : n ∈ p.journal s) : n.desk.Valid p := by
  obtain ⟨t, along, -⟩ := journal_along wf valid
  exact (along.mem member).valid wf valid

end Packing

end Stowage
