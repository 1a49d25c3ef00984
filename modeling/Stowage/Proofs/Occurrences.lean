import Stowage.Proofs.Intersection

/-!
# What the events that wait say

The events that wait were left by one post after the other, each of them from the bounds that this post
found.  Taken together they tell how every domain differs from what it was when the events were last
taken out: since posts only remove values, a change that one post makes is not taken back by another.

* `Event.Happened` — an event as a change of a set of integers.
* `Event.happened_trans` — a change in two steps is a change in one of them.
* `Domains.Posted.events`, `Domains.occurrences` — the events of one post, and of several.
* `Pending.entries_addAll` — the events that wait are listed in the order of their first occurrence.
* `Domains.Reports` — the events that wait report what the posts since then have changed.
* `Domains.Reports.post`, `Domains.Reports.posts` — a post keeps it so, and several do.
-/

set_option autoImplicit false

namespace Stowage

/-! ## First occurrences in a list -/

section

variable {α : Type} [BEq α] [LawfulBEq α]

/-- No element is listed twice among the first occurrences: an element that is kept takes its later
copies out of the rest. -/
theorem nodup_eraseDups (l : List α) : l.eraseDups.Nodup := by
  match l with
  | [] => exact List.nodup_nil
  | a :: l =>
    rw [List.eraseDups_cons]
    refine List.nodup_cons.2 ⟨fun member => ?_, nodup_eraseDups _⟩
    simpa using (List.mem_filter.1 (List.mem_eraseDups.1 member)).2
termination_by l.length
decreasing_by exact Nat.lt_succ_of_le (List.length_filter_le _ _)

theorem eraseDups_append_singleton (l : List α) (a : α) :
    (l ++ [a]).eraseDups = if a ∈ l then l.eraseDups else l.eraseDups ++ [a] := by
  rw [List.eraseDups_append, List.removeAll]
  split
  next member => simp [member]
  next new =>
    have last : [a].filter (fun b => !l.elem b) = [a] := by simp [new]
    rw [last, List.eraseDups_cons, List.filter_nil, List.eraseDups_nil]

end

/-! ## Events as changes of a set -/

namespace Event

/-- The event describes the change from one set of values to another, with or without a value removed by
a predicate `≠`. -/
def Happened (before after : Set Int) (removed : Prop) : Event → Prop
  | .assign => (∃ v, after = {v}) ∧ ¬∃ v, before = {v}
  | .lowerBound => ∃ a b, IsLeast before a ∧ IsLeast after b ∧ a ≠ b
  | .upperBound => ∃ a b, IsGreatest before a ∧ IsGreatest after b ∧ a ≠ b
  | .removal => removed

section

variable {a b c : Domain} {removed : Prop}

theorem exists_toSet_eq_singleton_iff (proper : a.Proper) :
    (∃ v, a.toSet = {v}) ↔ a.lower = a.upper := by
  have value : ∀ v, a.toSet = {v} ↔ a.isFixed = true ∧ a.lower = v := fun v => by
    rw [← proper.fixedValue?_eq_some_iff_toSet_eq, Domain.fixedValue?_eq_some_iff]
  simp [value, Domain.isFixed]

theorem happened_lowerBound (before : a.Proper) (after : b.Proper) :
    Happened a.toSet b.toSet removed .lowerBound ↔ a.lower ≠ b.lower := by
  refine ⟨fun ⟨v, w, least, least', different⟩ => ?_, fun different =>
    ⟨_, _, before.describes.lower, after.describes.lower, different⟩⟩
  rwa [before.describes.lower.unique least, after.describes.lower.unique least']

theorem happened_upperBound (before : a.Proper) (after : b.Proper) :
    Happened a.toSet b.toSet removed .upperBound ↔ a.upper ≠ b.upper := by
  refine ⟨fun ⟨v, w, greatest, greatest', different⟩ => ?_, fun different =>
    ⟨_, _, before.describes.upper, after.describes.upper, different⟩⟩
  rwa [before.describes.upper.unique greatest, after.describes.upper.unique greatest']

theorem happened_assign (before : a.Proper) (after : b.Proper) :
    Happened a.toSet b.toSet removed .assign ↔ a.lower ≠ a.upper ∧ b.lower = b.upper := by
  rw [Happened, exists_toSet_eq_singleton_iff before, exists_toSet_eq_singleton_iff after, and_comm]

theorem not_happened_self (proper : a.Proper) (e : Event) : ¬Happened a.toSet a.toSet False e := by
  cases e with
  | assign => simp [happened_assign proper proper]
  | lowerBound => simp [happened_lowerBound proper proper]
  | upperBound => simp [happened_upperBound proper proper]
  | removal => exact id

/-- **A change in two steps is a change in one of them**, as long as values are only removed: a bound
that has moved does not come back, and a variable that is fixed stays fixed. -/
theorem happened_trans (first : a.Proper) (second : b.Proper) (third : c.Proper)
    (subset : ∀ v ∈ b, v ∈ a) (subset' : ∀ v ∈ c, v ∈ b) {removed' : Prop} (e : Event) :
    Happened a.toSet c.toSet (removed ∨ removed') e ↔
      Happened a.toSet b.toSet removed e ∨ Happened b.toSet c.toSet removed' e := by
  have lower := Domain.lower_le_of_mem (subset _ second.lower_mem)
  have lower' := Domain.lower_le_of_mem (subset' _ third.lower_mem)
  have upper := Domain.le_upper_of_mem (subset _ second.upper_mem)
  have upper' := Domain.le_upper_of_mem (subset' _ third.upper_mem)
  have ordered := third.lower_le_upper
  cases e with
  | assign =>
    rw [happened_assign first third, happened_assign first second, happened_assign second third]
    omega
  | lowerBound =>
    rw [happened_lowerBound first third, happened_lowerBound first second,
      happened_lowerBound second third]
    omega
  | upperBound =>
    rw [happened_upperBound first third, happened_upperBound first second,
      happened_upperBound second third]
    omega
  | removal => exact Iff.rfl

/-- The events of a narrowing are those that happen with it. -/
theorem mem_ofChange_iff (before : a.Proper) (after : b.Proper) {c : Comparison} {e : Event} :
    e ∈ ofChange a b c ↔ Happened a.toSet b.toSet (c = .ne) e := by
  cases e with
  | assign => simp [ofChange, happened_assign before after]
  | lowerBound => simp [ofChange, happened_lowerBound before after]
  | upperBound => simp [ofChange, happened_upperBound before after]
  | removal => simp [ofChange, Happened]

end

/-- The events of a narrowing are listed in a fixed order. -/
theorem filter_mem_ofChange (a b : Domain) (c : Comparison) :
    [lowerBound, upperBound, assign, removal].filter (· ∈ ofChange a b c) = ofChange a b c := by
  unfold ofChange
  split_ifs <;> rfl

end Event

/-! ## Events that wait -/

namespace Pending

theorem entries_add (p : Pending) (x : Var) (e : Event) : (p.add x e).entries.toList =
    if (e, x) ∈ p.entries.toList then p.entries.toList else p.entries.toList ++ [(e, x)] := by
  have marked : (e, x) ∈ p.present ↔ (e, x) ∈ p.entries.toList := p.marked.mem_iff
  unfold add
  split
  next waits => rw [if_pos (marked.1 waits)]
  next new =>
    rw [if_neg (mt marked.2 new)]
    exact Array.toList_push

/-- **The events that wait are listed in the order of their first occurrence**, also if more come. -/
theorem entries_addAll {p : Pending} {occurred : List (Event × Var)}
    (listed : p.entries.toList = occurred.eraseDups) (x : Var) (events : List Event) :
    (p.addAll x events).entries.toList = (occurred ++ events.map (·, x)).eraseDups := by
  induction events generalizing p occurred with
  | nil => rw [List.map_nil, List.append_nil, ← listed, addAll, List.foldl_nil]
  | cons e events ih =>
    have next : (p.add x e).entries.toList = (occurred ++ [(e, x)]).eraseDups := by
      rw [entries_add, eraseDups_append_singleton, listed]
      simp only [List.mem_eraseDups]
    have rest := ih next
    rwa [List.append_assoc] at rest

end Pending

namespace Domains

namespace Posted

/-- The post removed a value by a predicate `≠`. -/
def Removes (p : Posted) : Prop := p.predicate.comparison = .ne ∧ p.posting = .narrowed

open Classical in
/-- What happened with a post, in the order in which the events of one post are listed. -/
noncomputable def events (p : Posted) : List (Event × Var) :=
  ([.lowerBound, .upperBound, .assign, .removal].filter
    (Event.Happened p.before.toSet p.after.toSet p.Removes)).map (·, p.predicate.var)

theorem mem_events {p : Posted} {e : Event} {x : Var} : (e, x) ∈ p.events ↔
    Event.Happened p.before.toSet p.after.toSet p.Removes e ∧ x = p.predicate.var := by
  have listed : e ∈ [Event.lowerBound, .upperBound, .assign, .removal] := by cases e <;> decide
  simp only [events, List.mem_map, List.mem_filter, decide_eq_true_eq, Prod.mk.injEq]
  constructor
  · rintro ⟨f, ⟨-, happened⟩, rfl, rfl⟩
    exact ⟨happened, rfl⟩
  · rintro ⟨happened, rfl⟩
    exact ⟨e, ⟨listed, happened⟩, rfl, rfl⟩

/-- The events that a narrowing leaves are those that happened, in their order. -/
theorem events_eq {p : Posted} (before : p.before.Proper) (after : p.after.Proper)
    (narrowed : p.posting = .narrowed) : p.events =
      (Event.ofChange p.before p.after p.predicate.comparison).map (·, p.predicate.var) := by
  have removes : p.Removes ↔ p.predicate.comparison = .ne := and_iff_left narrowed
  rw [events, ← Event.filter_mem_ofChange]
  refine congrArg (List.map (·, p.predicate.var)) (List.filter_congr fun e _ => ?_)
  rw [decide_eq_decide, Event.mem_ofChange_iff before after, removes]

end Posted

/-- What happened with some posts, one after the other. -/
noncomputable def occurrences (posted : List Posted) : List (Event × Var) :=
  posted.flatMap Posted.events

theorem occurrences_append (posted : List Posted) (p : Posted) :
    occurrences (posted ++ [p]) = occurrences posted ++ p.events := by
  simp [occurrences]

/-- One of the posts removed a value of `x` by a predicate `≠`. -/
def Removed (posted : List Posted) (x : Var) : Prop :=
  ∃ p ∈ posted, p.predicate.var = x ∧ p.Removes

theorem removed_append {posted : List Posted} {p : Posted} {x : Var} :
    Removed (posted ++ [p]) x ↔ Removed posted x ∨ p.predicate.var = x ∧ p.Removes := by
  simp [Removed, or_and_right, exists_or]

/-- The events that wait report what some posts have made of the domains `drained`, to which variables
may have been added since. -/
structure Reports (drained : List Domain) (posted : List Posted) (ds : Domains) : Prop where
  healthy : ds.Healthy
  length : drained.length = ds.count
  proper : ∀ d ∈ drained, d.Proper
  subset : ∀ x d, drained[x]? = some d → ∀ v ∈ ds.domain x, v ∈ d
  known : ∀ p ∈ posted, p.predicate.var < ds.count
  listed : ds.pending.entries.toList = (occurrences posted).eraseDups
  /-- An event waits if it happened from then to now. -/
  happened : ∀ x d, drained[x]? = some d → ∀ e, ds.pending.Has e x ↔
    Event.Happened d.toSet (ds.domain x).toSet (Removed posted x) e

namespace Reports

variable {drained : List Domain} {posted : List Posted} {ds after : Domains}

/-- An event only waits for a variable to which a predicate was posted. -/
theorem lt_count_of_has (h : Reports drained posted ds) {e : Event} {x : Var}
    (waits : ds.pending.Has e x) : x < ds.count := by
  rw [Pending.Has, ← Array.mem_toList_iff, h.listed, List.mem_eraseDups] at waits
  obtain ⟨p, member, event⟩ := List.mem_flatMap.1 waits
  obtain ⟨-, rfl⟩ := Posted.mem_events.1 event
  exact h.known p member

/-- When the events have been taken out, nothing has happened. -/
theorem of_quiet (healthy : ds.Healthy) (quiet : ds.pending = .empty) :
    Reports ds.table.values.toList [] ds := by
  have found : ∀ {x d}, ds.table.values.toList[x]? = some d → ds.domain x = d := fun {x d} found => by
    rw [Array.getElem?_toList] at found
    simp [domain, Trailed.get?, found]
  have none : ∀ x, Removed [] x ↔ False := fun x => by simp [Removed]
  refine ⟨healthy, Array.length_toList, fun d member => ?_, fun x d same => ?_,
    fun p member => absurd member List.not_mem_nil, ?_, fun x d same e => ?_⟩
  · obtain ⟨x, same⟩ := List.getElem?_of_mem member
    exact found same ▸ healthy x
  · rw [found same]
    exact fun _ => id
  · rw [quiet]
    rfl
  · rw [quiet, none, ← found same]
    exact iff_of_false (Pending.not_has_empty e x) (Event.not_happened_self (healthy x) e)

theorem empty : Reports [] [] .empty := by
  have healthy : Domains.empty.Healthy := fun _ =>
    Domain.proper_interval (Int.le_refl 0) (by decide) (by decide)
  exact of_quiet healthy rfl

/-- Nothing has happened to a variable that is new. -/
theorem withNew (h : Reports drained posted ds) {d : Domain} (proper : d.Proper) :
    Reports (drained ++ [d]) posted (ds.withNew d) := by
  have places : ∀ {x d'}, (drained ++ [d])[x]? = some d' →
      (drained[x]? = some d' ∧ (ds.withNew d).domain x = ds.domain x) ∨
        (x = ds.count ∧ d' = d ∧ (ds.withNew d).domain x = d) := by
    intro x d' found
    rw [domain_withNew]
    rcases Nat.lt_trichotomy x ds.count with before | rfl | outside
    · rw [List.getElem?_append_left (h.length.symm ▸ before)] at found
      exact .inl ⟨found, if_neg (Nat.ne_of_lt before)⟩
    · rw [← h.length, List.getElem?_concat_length] at found
      exact .inr ⟨rfl, (Option.some.inj found).symm, if_pos rfl⟩
    · rw [List.getElem?_eq_none (by simp [h.length]; omega)] at found
      cases found
  refine ⟨h.healthy.withNew proper, by simp [h.length], fun d' member => ?_, fun x d' found => ?_,
    fun p member => ?_, h.listed, fun x d' found e => ?_⟩
  · rcases List.mem_append.1 member with old | new
    · exact h.proper d' old
    · exact List.mem_singleton.1 new ▸ proper
  · rcases places found with ⟨old, same⟩ | ⟨-, rfl, same⟩
    · rw [same]
      exact h.subset x d' old
    · rw [same]
      exact fun _ => id
  · rw [count_withNew]
    exact Nat.lt_succ_of_lt (h.known p member)
  · rcases places found with ⟨old, same⟩ | ⟨rfl, rfl, same⟩
    · rw [same]
      exact h.happened x d' old e
    · have nobody : Removed posted ds.count ↔ False :=
        iff_false_intro fun ⟨p, member, same, _⟩ => Nat.ne_of_lt (h.known p member) same
      rw [same, nobody]
      exact iff_of_false (fun waits => Nat.lt_irrefl _ (h.lt_count_of_has waits))
        (Event.not_happened_self proper e)

/-- A checkpoint changes no domain and leaves no event. -/
theorem mark (h : Reports drained posted ds) : Reports drained posted ds.mark :=
  ⟨h.healthy, h.length, h.proper, h.subset, h.known, h.listed, h.happened⟩

theorem listed_post (h : Reports drained posted ds) {q : Predicate} {posting : Posting}
    (step : ds.post q = .ok (posting, after)) (left : posting ≠ .emptied) :
    after.pending.entries.toList = (occurrences
      (posted ++ [⟨q, posting, ds.domain q.var, after.domain q.var⟩])).eraseDups := by
  have narrows := narrows_of_post h.healthy step left
  have exist := lt_count_of_post step
  rw [occurrences_append]
  rcases post_eq exist (fits_of_post step) with ⟨-, same⟩ | ⟨-, -, other⟩ | ⟨-, -, done⟩
  · cases same.symm.trans step
    have nothing : Posted.events ⟨q, .unchanged, ds.domain q.var, ds.domain q.var⟩ = [] := by
      refine List.eq_nil_iff_forall_not_mem.2 fun ⟨e, x⟩ event => ?_
      have happened := (Posted.mem_events.1 event).1
      have removes : Posted.Removes ⟨q, .unchanged, ds.domain q.var, ds.domain q.var⟩ ↔ False :=
        iff_false_intro nofun
      rw [removes] at happened
      exact Event.not_happened_self (h.healthy _) e happened
    rw [nothing, List.append_nil]
    exact h.listed
  · cases other.symm.trans step
    exact absurd rfl left
  · cases done.symm.trans step
    rw [Posted.events_eq (h.healthy _) (narrows.healthy _) rfl, domain_narrowed exist, if_pos rfl]
    exact Pending.entries_addAll h.listed _ _

/-- **A post leaves the events that tell what it has changed.** -/
theorem post (h : Reports drained posted ds) {q : Predicate} {posting : Posting}
    (step : ds.post q = .ok (posting, after)) (left : posting ≠ .emptied) :
    Reports drained (posted ++ [⟨q, posting, ds.domain q.var, after.domain q.var⟩]) after := by
  have narrows := narrows_of_post h.healthy step left
  have exist := lt_count_of_post step
  have listed := h.listed_post step left
  have proper : ∀ {x : Var} {d : Domain}, drained[x]? = some d → d.Proper :=
    fun found => h.proper _ (List.mem_of_getElem? found)
  refine ⟨narrows.healthy, h.length.trans narrows.count.symm, h.proper,
    fun x d found v member => h.subset x d found v (narrows.subset x v member), fun p member => ?_,
    listed, fun x d found e => ?_⟩
  · rw [narrows.count]
    rcases List.mem_append.1 member with old | new
    · exact h.known p old
    · exact List.mem_singleton.1 new ▸ exist
  · have waits : after.pending.Has e x ↔ ds.pending.Has e x ∨
        (e, x) ∈ Posted.events ⟨q, posting, ds.domain q.var, after.domain q.var⟩ := by
      simp only [Pending.Has, ← Array.mem_toList_iff, listed, h.listed, List.mem_eraseDups,
        occurrences_append, List.mem_append]
    rw [waits, Posted.mem_events, removed_append, Event.happened_trans (proper found) (h.healthy x)
      (narrows.healthy x) (h.subset x d found) (narrows.subset x), ← h.happened x d found e]
    refine or_congr_right ?_
    by_cases same : q.var = x
    · subst same
      simp
    · have kept : (after.domain x).toSet = (ds.domain x).toSet := by
        ext v
        simp [mem_post_iff h.healthy step left, Ne.symm same]
      rw [kept]
      refine iff_of_false (fun event => same event.2.symm) ?_
      simpa [same] using Event.not_happened_self (h.healthy x) e

theorem posts (h : Reports drained posted ds) {later : List Posted} (steps : Posts ds later after) :
    Reports drained (posted ++ later) after := by
  induction steps with
  | nil => simpa using h
  | snoc _ step left ih =>
    rw [← List.append_assoc]
    exact ih.post step left

end Reports

end Domains

end Stowage
