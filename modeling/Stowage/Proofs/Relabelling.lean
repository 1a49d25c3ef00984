import Stowage.Proofs.Agreement
import Stowage.Proofs.Posting

/-!
# Variables under other names

Some variables may be known under other names in other domains.  As long as they have the same domains
there, and the same events wait, a post has the same outcome under both names, and alters nothing but
these variables.

* `Predicate.relabel` — the predicate about the variable under its other name.
* `Domains.Alters` — nothing but the given variables has changed.
* `Domains.Confines` — calls that alter the given variables only.
* `Domains.Mirrors` — the given variables have the same domains and events under their other names.
* `Domains.Follows` — both have changed, and nothing else has.
* `Domains.matched_impose`, `Domains.matched_raise`, `Domains.matched_sink` — the ways to narrow a domain.
-/

set_option autoImplicit false

namespace Stowage

def Call.final {σ α : Type} : EStateM.Result Halt σ α → σ
  | .ok _ s => s
  | .error _ s => s

/-- The predicate about the variable under its other name. -/
def Predicate.relabel (φ : Var → Var) (q : Predicate) : Predicate := { q with var := φ q.var }

/-! ## The events of some variables -/

namespace Pending

variable {p q : Pending} {x : Var} {e : Event} {events : List Event} {P : Var → Prop} [DecidablePred P]

/-- The events of some variables that wait, in the order of their first occurrence. -/
def among (P : Var → Prop) [DecidablePred P] (p : Pending) : List (Event × Var) :=
  p.entries.toList.filter fun w => decide (P w.2)

@[simp] theorem among_empty : empty.among P = [] := rfl

theorem mem_among {w : Event × Var} : w ∈ p.among P ↔ p.Has w.1 w.2 ∧ P w.2 := by
  simp [among, Has]

/-- If no events of other variables wait, these are all. -/
theorem among_eq_self (all : ∀ w ∈ p.entries.toList, P w.2) : p.among P = p.entries.toList :=
  List.filter_eq_self.2 fun w member => decide_eq_true (all w member)

theorem among_of_among {Q : Var → Prop} [DecidablePred Q] (narrower : ∀ x, Q x → P x)
    (same : p.among P = q.among P) : p.among Q = q.among Q := by
  have part (p : Pending) : p.among Q = (p.among P).filter fun w => decide (Q w.2) := by
    rw [among, among, List.filter_filter]
    refine List.filter_congr fun w _ => ?_
    by_cases inside : Q w.2
    · simp [inside, narrower _ inside]
    · simp [inside]
  rw [part, part, same]

theorem among_add (x : Var) (e : Event) : (p.add x e).among P =
    if P x ∧ (e, x) ∉ p.among P then p.among P ++ [(e, x)] else p.among P := by
  unfold add
  split
  next waits =>
    rw [if_neg]
    exact fun h => h.2 (mem_among.2 ⟨mem_present.1 waits, h.1⟩)
  next new =>
    have absent : (e, x) ∉ p.among P := fun member => new (mem_present.2 (mem_among.1 member).1)
    unfold among at absent ⊢
    rw [Array.toList_push, List.filter_append]
    by_cases inside : P x
    · simp [inside, absent]
    · simp [inside]

theorem among_addAll_of_not (outside : ¬P x) : (p.addAll x events).among P = p.among P := by
  unfold addAll
  induction events generalizing p with
  | nil => rfl
  | cons e events ih =>
    rw [List.foldl_cons, ih, among_add, if_neg fun h => outside h.1]

end Pending

namespace Domains

/-! ## What has changed -/

/-- Nothing but the given variables has changed: not the domains of others, nor the events of others
that wait. -/
structure Alters (vars : List Var) (before after : Domains) : Prop where
  others : ∀ x, x ∉ vars → after.table.get? x = before.table.get? x
  pending : after.pending.among (· ∉ vars) = before.pending.among (· ∉ vars)

variable {vars more : List Var} {ds es us : Domains}

namespace Alters

theorem refl (ds : Domains) : Alters vars ds ds := ⟨fun _ _ => rfl, rfl⟩

theorem trans (h : Alters vars ds es) (h' : Alters vars es us) : Alters vars ds us :=
  ⟨fun x outside => (h'.others x outside).trans (h.others x outside), h'.pending.trans h.pending⟩

theorem mono (h : Alters vars ds es) (sub : vars ⊆ more) : Alters more ds es :=
  ⟨fun x outside => h.others x fun inside => outside (sub inside),
    Pending.among_of_among (P := (· ∉ vars)) (fun _ outside inside => outside (sub inside)) h.pending⟩

theorem domain (h : Alters vars ds es) {x : Var} (outside : x ∉ vars) : es.domain x = ds.domain x := by
  rw [Domains.domain, Domains.domain, h.others x outside]

/-- If only events of these variables waited, this is still so. -/
theorem pending_mem (h : Alters vars ds es) (own : ∀ w ∈ ds.pending.entries.toList, w.2 ∈ vars) :
    ∀ w ∈ es.pending.entries.toList, w.2 ∈ vars := by
  have none : ds.pending.among (· ∉ vars) = [] :=
    List.filter_eq_nil_iff.2 fun w member => by simpa using own w member
  rw [← h.pending] at none
  exact fun w member => by simpa using List.filter_eq_nil_iff.1 none w member

end Alters

/-- A post alters the variable of its predicate. -/
theorem alters_narrow (ds : Domains) (q : Predicate) (d : Domain) :
    Alters [q.var] ds (ds.narrow q d).2 := by
  unfold narrow
  have table (keep : Domain → Domain.Change) (a : Domain) (x : Var) (other : x ∉ [q.var]) :
      (ds.table.overwrite q.var keep a).get? x = ds.table.get? x := by
    rw [Trailed.get?_overwrite, if_neg fun here => other (by simp [here.1])]
  split
  · exact .refl ds
  · simp only
    split
    · exact ⟨table _ _, rfl⟩
    · exact ⟨table _ _, Pending.among_addAll_of_not (by simp)⟩

theorem alters_post {q : Predicate} {posting : Posting} (h : ds.post q = .ok (posting, es)) :
    Alters [q.var] ds es := by
  have after := ds.alters_narrow q (ds.domain q.var)
  rwa [narrow_of_post h] at after

/-! ## Calls that alter some variables only -/

/-- However a run of the call ends, it has altered the given variables only. -/
def Confines {α : Type} (vars : List Var) (call : Call Domains α) : Prop :=
  ∀ ds, Alters vars ds (Call.final (call ds))

namespace Confines

variable {α β : Type}

theorem pure (a : α) : Confines vars (Pure.pure a : Call Domains α) := .refl

theorem bind {x : Call Domains α} {f : α → Call Domains β} (first : Confines vars x)
    (rest : ∀ a, Confines vars (f a)) : Confines vars (x >>= f) := by
  intro ds
  show Alters vars ds (Call.final (EStateM.bind x f ds))
  unfold EStateM.bind
  have before := first ds
  cases done : x ds with
  | ok a mid =>
    rw [done] at before
    exact before.trans (rest a mid)
  | error halt mid =>
    rw [done] at before
    exact before

theorem get_bind {f : Domains → Call Domains α} (h : ∀ ds, Confines vars (f ds)) :
    Confines vars (get >>= f) := fun ds => h ds ds

theorem forM {f : α → Call Domains PUnit} {l : List α} (h : ∀ a ∈ l, Confines vars (f a)) :
    Confines vars (l.forM f) := by
  induction l with
  | nil => exact pure _
  | cons a l ih =>
    exact (h a List.mem_cons_self).bind fun _ => ih fun b member => h b (List.mem_cons_of_mem _ member)

theorem impose {q : Predicate} (inside : q.var ∈ vars) : Confines vars (Domains.impose q) := by
  intro ds
  have altered (result : Posting × Domains) (post : ds.post q = .ok result) :
      Alters vars ds result.2 := (alters_post post).mono (by simpa using inside)
  unfold Domains.impose
  generalize ds.post q = posted at altered ⊢
  cases posted with
  | error fault => exact .refl ds
  | ok result =>
    obtain ⟨posting, after⟩ := result
    cases posting with
    | unchanged => exact altered _ rfl
    | narrowed => exact altered _ rfl
    | emptied => exact altered _ rfl

theorem value (v : Int) : Confines vars (Call.value v) := by
  intro ds
  unfold Call.value
  split
  · exact .refl ds
  · exact .refl ds

end Confines

/-! ## The same variables under other names -/

/-- The given variables have the same domains under their other names, and the same events wait. -/
structure Mirrors (φ : Var → Var) (vars : List Var) (ds es : Domains) : Prop where
  same : ∀ x ∈ vars, es.table.get? (φ x) = ds.table.get? x
  pending : es.pending.among (· ∈ vars.map φ) = (ds.pending.among (· ∈ vars)).map (Prod.map id φ)

variable {φ : Var → Var} {q : Predicate} {x : Var}

namespace Mirrors

theorem fetch (h : Mirrors φ vars ds es) (inside : x ∈ vars) : es.fetch (φ x) = ds.fetch x := by
  have same : es.table.values[φ x]? = ds.table.values[x]? := h.same x inside
  rw [Domains.fetch, Domains.fetch, Table.fetch, Table.fetch, same]

theorem domain (h : Mirrors φ vars ds es) (inside : x ∈ vars) : es.domain (φ x) = ds.domain x := by
  rw [Domains.domain, Domains.domain, h.same x inside]

theorem lower (h : Mirrors φ vars ds es) (inside : x ∈ vars) : es.lower (φ x) = ds.lower x :=
  congrArg Domain.lower (h.domain inside)

theorem upper (h : Mirrors φ vars ds es) (inside : x ∈ vars) : es.upper (φ x) = ds.upper x :=
  congrArg Domain.upper (h.domain inside)

theorem has (h : Mirrors φ vars ds es) (inside : x ∈ vars) : es.has (φ x) = ds.has x := by
  have same : es.table.values[φ x]? = ds.table.values[x]? := h.same x inside
  refine decide_eq_decide.2 (not_iff_not.1 ?_)
  show ¬φ x < es.table.values.size ↔ ¬x < ds.table.values.size
  rw [Nat.not_lt, Nat.not_lt, ← Array.getElem?_eq_none_iff, ← Array.getElem?_eq_none_iff, same]

/-- Variables that are altered elsewhere only stay the same. -/
theorem alters (h : Mirrors φ vars ds es) {elsewhere : List Var} (alters : Alters elsewhere ds us)
    (apart : ∀ x ∈ vars, x ∉ elsewhere) : Mirrors φ vars us es where
  same x inside := (h.same x inside).trans (alters.others x (apart x inside)).symm
  pending := by
    have kept : us.pending.among (· ∈ vars) = ds.pending.among (· ∈ vars) :=
      Pending.among_of_among apart alters.pending
    rw [kept]
    exact h.pending

section

variable (inj : Set.InjOn φ {x | x ∈ vars})

include inj

/-- An event waits under both names or under neither. -/
theorem mem_pending (h : Mirrors φ vars ds es) (inside : x ∈ vars) (e : Event) :
    (e, φ x) ∈ es.pending.among (· ∈ vars.map φ) ↔ (e, x) ∈ ds.pending.among (· ∈ vars) := by
  rw [h.pending, List.mem_map]
  constructor
  · rintro ⟨⟨e', y⟩, member, same⟩
    simp only [Prod.map_apply, id_eq, Prod.mk.injEq] at same
    obtain ⟨rfl, same⟩ := same
    rwa [← inj (Pending.mem_among.1 member).2 inside same]
  · intro member
    exact ⟨(e, x), member, rfl⟩

theorem add (h : Mirrors φ vars ds es) (inside : x ∈ vars) (e : Event) :
    Mirrors φ vars { ds with pending := ds.pending.add x e }
      { es with pending := es.pending.add (φ x) e } where
  same := h.same
  pending := by
    simp only
    rw [Pending.among_add, Pending.among_add]
    have there : φ x ∈ vars.map φ := List.mem_map_of_mem inside
    by_cases waits : (e, x) ∈ ds.pending.among (· ∈ vars)
    · rw [if_neg fun new => new.2 ((h.mem_pending inj inside e).2 waits), if_neg fun new => new.2 waits]
      exact h.pending
    · rw [if_pos ⟨there, fun member => waits ((h.mem_pending inj inside e).1 member)⟩,
        if_pos ⟨inside, waits⟩, h.pending, List.map_append]
      rfl

theorem addAll (h : Mirrors φ vars ds es) (inside : x ∈ vars) (events : List Event) :
    Mirrors φ vars { ds with pending := ds.pending.addAll x events }
      { es with pending := es.pending.addAll (φ x) events } := by
  induction events generalizing ds es with
  | nil => exact h
  | cons e events ih => exact ih (h.add inj inside e)

theorem overwrite (h : Mirrors φ vars ds es) (inside : x ∈ vars) (keep : Domain → Domain.Change)
    (d : Domain) : Mirrors φ vars { ds with table := ds.table.overwrite x keep d }
      { es with table := es.table.overwrite (φ x) keep d } where
  same y member := by
    have exist : φ x < es.table.size ↔ x < ds.table.size := decide_eq_decide.1 (h.has inside)
    simp only [Trailed.get?_overwrite, exist, inj.eq_iff inside member, h.same y member]
  pending := h.pending

/-- **A post has the same outcome under both names.** -/
theorem narrow (h : Mirrors φ vars ds es) (inside : q.var ∈ vars) (d : Domain) :
    Same (Mirrors φ vars) (ds.narrow q d) (es.narrow (q.relabel φ) d) := by
  have after := h.overwrite inj inside (·.kept q.comparison q.value) (d.narrow q.comparison q.value)
  unfold Domains.narrow Predicate.relabel
  simp only
  split
  · exact ⟨rfl, h⟩
  · split
    · exact ⟨rfl, after⟩
    · exact ⟨rfl, after.addAll inj inside _⟩

theorem post (h : Mirrors φ vars ds es) (inside : q.var ∈ vars) :
    Parallel (Same (Mirrors φ vars)) (ds.post q) (es.post (q.relabel φ)) := by
  have fetched : es.fetch (q.relabel φ).var = ds.fetch q.var := h.fetch inside
  unfold Domains.post
  rw [fetched]
  refine .bind (.refl (fun _ => rfl) (ds.fetch q.var)) fun d _ same => ?_
  subst same
  exact .bind (.refl (fun _ => rfl) _) fun _ _ _ => .ok (h.narrow inj inside d)

end

end Mirrors

/-! ## Both change -/

/-- The variables have changed alike under both names since `ds` and `es`, and nothing else has. -/
structure Follows (φ : Var → Var) (vars : List Var) (ds es ds' es' : Domains) : Prop where
  mirrors : Mirrors φ vars ds' es'
  here : Alters vars ds ds'
  there : Alters (vars.map φ) es es'

variable {before before' : Domains}

theorem Mirrors.follows (h : Mirrors φ vars ds es) : Follows φ vars ds es ds es :=
  ⟨h, .refl ds, .refl es⟩

section

variable (inj : Set.InjOn φ {x | x ∈ vars})

include inj

theorem matched_impose (inside : q.var ∈ vars) :
    Call.Matched (Follows φ vars before before') (impose q) (impose (q.relabel φ)) := by
  intro ds es h
  have posted := h.mirrors.post inj inside
  have here (result : Posting × Domains) (post : ds.post q = .ok result) :
      Alters vars before result.2 :=
    h.here.trans ((alters_post post).mono (by simpa using inside))
  have there (result : Posting × Domains) (post : es.post (q.relabel φ) = .ok result) :
      Alters (vars.map φ) before' result.2 := by
    refine h.there.trans ((alters_post post).mono ?_)
    simpa [Predicate.relabel] using ⟨q.var, inside, rfl⟩
  unfold impose
  generalize ds.post q = first at posted here ⊢
  generalize es.post (q.relabel φ) = second at posted there ⊢
  cases posted with
  | error fault => exact .error _ h
  | @ok result result' same =>
    obtain ⟨posting, after⟩ := result
    obtain ⟨posting', after'⟩ := result'
    obtain ⟨rfl, mirrors⟩ : posting = posting' ∧ Mirrors φ vars after after' := same
    have follows : Follows φ vars before before' after after' :=
      ⟨mirrors, here _ rfl, there _ rfl⟩
    cases posting with
    | unchanged => exact .ok () follows
    | narrowed => exact .ok () follows
    | emptied => exact .error _ follows

theorem matched_raise (inside : x ∈ vars) (bound : Int) :
    Call.Matched (Follows φ vars before before') (raise x bound) (raise (φ x) bound) := by
  refine .ensure_bind (fun ds es h => (h.mirrors.has inside).symm) fun ds es h _ => .get_bind ?_
  rw [h.mirrors.lower inside, h.mirrors.upper inside]
  refine .ite (.ok false h) (.ite (.error _ h) ?_)
  exact (matched_impose inj (q := .atLeast x bound) inside).bind (fun _ => .pure true) ds es h

theorem matched_sink (inside : x ∈ vars) (bound : Int) :
    Call.Matched (Follows φ vars before before') (sink x bound) (sink (φ x) bound) := by
  refine .ensure_bind (fun ds es h => (h.mirrors.has inside).symm) fun ds es h _ => .get_bind ?_
  rw [h.mirrors.lower inside, h.mirrors.upper inside]
  refine .ite (.ok false h) (.ite (.error _ h) ?_)
  exact (matched_impose inj (q := .atMost x bound) inside).bind (fun _ => .pure true) ds es h

end

end Domains

end Stowage
