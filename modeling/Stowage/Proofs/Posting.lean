import Stowage.Call
import Stowage.Proofs.Narrowing
import Stowage.Proofs.Undo

/-!
# Posting

What a post does to the domains of all variables: it keeps exactly the assignments that satisfy the
predicate, leaves an event for whatever it changes, and can be undone.

* `Domains.Healthy` — no domain is empty.
* `Domains.Admits` — an assignment takes all its values from the domains.
* `Domains.Posts`, `Domains.Narrows` — domains reached by posts none of which emptied a domain.
* `Domains.post_eq`, `Domains.post_cases` — all that a post can do, and what that means for the values.
* `Domains.Undoable` — what holds also when a domain was emptied.
* `Domains.Imposes` — calls that narrow the domains to the assignments that satisfy a predicate.
-/

set_option autoImplicit false

namespace Stowage

namespace Pending

/-- Event `e` of variable `x` is pending. -/
def Has (p : Pending) (e : Event) (x : Var) : Prop := (e, x) ∈ p.entries

@[simp] theorem not_has_empty (e : Event) (x : Var) : ¬empty.Has e x := by
  simp [Has, empty]

theorem has_add {p : Pending} {x y : Var} {e f : Event} :
    (p.add x e).Has f y ↔ p.Has f y ∨ f = e ∧ y = x := by
  unfold add
  split
  next present =>
    have member : (e, x) ∈ p.entries := mem_present.1 present
    constructor
    · exact .inl
    · rintro (h | ⟨rfl, rfl⟩)
      · exact h
      · exact member
  next => simp [Has]

theorem has_addAll {p : Pending} {x y : Var} {events : List Event} {f : Event} :
    (p.addAll x events).Has f y ↔ p.Has f y ∨ f ∈ events ∧ y = x := by
  unfold addAll
  induction events generalizing p with
  | nil => simp
  | cons e events ih =>
    rw [List.foldl_cons, ih, has_add, List.mem_cons]
    tauto

end Pending

namespace Event

theorem lowerBound_mem_ofChange {d e : Domain} {c : Comparison} (h : e.lower ≠ d.lower) :
    lowerBound ∈ ofChange d e c := by
  simp [ofChange, h.symm]

theorem upperBound_mem_ofChange {d e : Domain} {c : Comparison} (h : e.upper ≠ d.upper) :
    upperBound ∈ ofChange d e c := by
  simp [ofChange, h.symm]

/-- A narrowing that leaves a value causes an event. -/
theorem exists_mem_ofChange {d : Domain} {c : Comparison} {v : Int}
    (h : d.entails c v = false) (proper : (d.narrow c v).Proper) :
    ∃ e, e ∈ ofChange d (d.narrow c v) c := by
  have low := (Domain.mem_narrow h).1 proper.lower_mem
  have high := (Domain.mem_narrow h).1 proper.upper_mem
  cases c with
  | ge =>
    refine ⟨.lowerBound, lowerBound_mem_ofChange ?_⟩
    simp only [Comparison.holds, Domain.entails, decide_eq_true_eq, decide_eq_false_iff_not] at low h
    omega
  | le =>
    refine ⟨.upperBound, upperBound_mem_ofChange ?_⟩
    simp only [Comparison.holds, Domain.entails, decide_eq_true_eq, decide_eq_false_iff_not] at high h
    omega
  | eq =>
    simp only [Comparison.holds, decide_eq_true_eq] at low high
    by_cases lowerMoved : (d.narrow .eq v).lower = d.lower
    · refine ⟨.upperBound, upperBound_mem_ofChange fun upperStayed => ?_⟩
      simp [Domain.entails, ← lowerMoved, ← upperStayed, low.2, high.2] at h
    · exact ⟨.lowerBound, lowerBound_mem_ofChange lowerMoved⟩
  | ne => exact ⟨.removal, by simp [ofChange]⟩

end Event

namespace Domains

/-- No domain is empty, and the bounds of every domain are values of it. -/
def Healthy (ds : Domains) : Prop := ∀ x, (ds.domain x).Proper

/-- The assignment takes the value of every variable from its domain. -/
def Admits (ds : Domains) (assignment : Var → Int) : Prop :=
  ∀ x < ds.count, assignment x ∈ ds.domain x

/-- The domains with that of one variable narrowed by a comparison that it does not entail. -/
def withDomain (ds : Domains) (x : Var) (c : Comparison) (w : Int) : Domains :=
  { ds with table := ds.table.overwrite x (·.kept c w) ((ds.domain x).narrow c w) }

@[simp] theorem count_withDomain (ds : Domains) (x : Var) (c : Comparison) (w : Int) :
    (ds.withDomain x c w).count = ds.count := by
  simp [withDomain, count]

theorem domain_withDomain {ds : Domains} {x : Var} (h : x < ds.count) (c : Comparison) (w : Int)
    (y : Var) : (ds.withDomain x c w).domain y =
      if x = y then (ds.domain x).narrow c w else ds.domain y := by
  simp only [domain, withDomain, Trailed.get?_overwrite]
  rw [count] at h
  by_cases hxy : x = y
  · simp [hxy, hxy ▸ h]
  · simp [hxy]

/-- What is kept of a domain that is narrowed is enough to get it back. -/
theorem back_withDomain (ds : Domains) (x : Var) (c : Comparison) (w : Int) (old : Domain)
    (found : ds.table.get? x = some old) :
    Undo.back ((ds.domain x).narrow c w) (old.kept c w) = old := by
  rw [domain, found]
  exact Domain.undo_narrow old c w

theorem fetch_eq {ds : Domains} {x : Var} (h : x < ds.count) : ds.fetch x = .ok (ds.domain x) := by
  have bound : x < ds.table.values.size := h
  simp [fetch, Table.fetch, domain, Trailed.get?, bound]

theorem fetch_eq_error {ds : Domains} {x : Var} (h : ds.count ≤ x) :
    ds.fetch x = .error .outOfRange := by
  have bound : ds.table.values.size ≤ x := h
  simp [fetch, Table.fetch, bound]

/-- A post does not take the bounds out of the range of the values. -/
def Fits (ds : Domains) (q : Predicate) : Prop :=
  (ds.domain q.var).overflows q.comparison q.value = false

theorem fits_atLeast (ds : Domains) (x : Var) (v : Int) : ds.Fits (.atLeast x v) := rfl

theorem fits_atMost (ds : Domains) (x : Var) (v : Int) : ds.Fits (.atMost x v) := rfl

theorem fits_of_upper_lt {ds : Domains} {q : Predicate} (h : ds.upper q.var < maxValue) : ds.Fits q :=
  Domain.overflows_eq_false_of_lt h _ _

theorem Healthy.fits {ds : Domains} (healthy : ds.Healthy) {q : Predicate} {v : Int}
    (member : v ∈ ds.domain q.var) (holds : q.holds v = true) : ds.Fits q :=
  (healthy q.var).overflows_eq_false member holds

theorem post_of_fits {ds : Domains} {q : Predicate} (exist : q.var < ds.count) (fits : ds.Fits q) :
    ds.post q = .ok (ds.narrow q (ds.domain q.var)) := by
  have inRange : (ds.domain q.var).overflows q.comparison q.value = false := fits
  simp only [post, fetch_eq exist, bind, Except.bind, inRange]
  rfl

theorem post_of_not_fits {ds : Domains} {q : Predicate} (exist : q.var < ds.count) (tight : ¬ds.Fits q) :
    ds.post q = .error .overflow := by
  have outside : (ds.domain q.var).overflows q.comparison q.value = true := Bool.eq_true_of_not_eq_false tight
  simp only [post, fetch_eq exist, bind, Except.bind, outside]
  rfl

/-! ## The number of values in all domains -/

theorem sum_map_set {α : Type} (f : α → Nat) (l : List α) (i : Nat) (a : α) (h : i < l.length) :
    ((l.set i a).map f).sum + f l[i] = (l.map f).sum + f a := by
  induction l generalizing i with
  | nil => simp at h
  | cons b l ih =>
    cases i with
    | zero => simp; omega
    | succ i =>
      have := ih i (by simpa using h)
      simp only [List.set_cons_succ, List.map_cons, List.sum_cons, List.getElem_cons_succ]
      omega

theorem volume_eq_sum (ds : Domains) :
    ds.volume = (ds.table.values.toList.map Domain.size).sum := rfl

theorem volume_withDomain {ds : Domains} {x : Var} (h : x < ds.count) (c : Comparison) (w : Int) :
    (ds.withDomain x c w).volume + (ds.domain x).size =
      ds.volume + ((ds.domain x).narrow c w).size := by
  have bound : x < ds.table.values.size := h
  have := sum_map_set Domain.size ds.table.values.toList x ((ds.domain x).narrow c w)
    (by simpa using bound)
  simpa [volume_eq_sum, withDomain, Trailed.overwrite, bound, domain, Trailed.get?] using this

/-- Narrowing a domain by a comparison that is not entailed removes a value. -/
theorem volume_narrow_lt {ds : Domains} {x : Var} (h : x < ds.count) (proper : (ds.domain x).Proper)
    {c : Comparison} {v : Int} (open' : (ds.domain x).entails c v = false) :
    (ds.withDomain x c v).volume < ds.volume := by
  have whole := volume_withDomain h c v
  have part := Domain.size_narrow_lt proper open'
  omega

/-! ## Posts -/

/-- A post with its result and what it did to the domain of its variable. -/
structure Posted where
  predicate : Predicate
  posting : Posting
  before : Domain
  after : Domain

/-- The posts, none of which emptied a domain, lead from some domains to others. -/
inductive Posts (a : Domains) : List Posted → Domains → Prop
  | nil : Posts a [] a
  | snoc {posted : List Posted} {b c : Domains} {q : Predicate} {posting : Posting}
    (before : Posts a posted b) (step : b.post q = .ok (posting, c)) (left : posting ≠ .emptied) :
    Posts a (posted ++ [⟨q, posting, b.domain q.var, c.domain q.var⟩]) c

theorem Posts.append {a b c : Domains} {first second : List Posted} (h : Posts a first b)
    (h' : Posts b second c) : Posts a (first ++ second) c := by
  induction h' with
  | nil => simpa using h
  | snoc before step left ih =>
    rw [← List.append_assoc]
    exact ih.snoc step left

/-- What posts that leave a value do. -/
structure Narrows (before after : Domains) : Prop where
  count : after.count = before.count
  healthy : after.Healthy
  subset : ∀ x, ∀ v ∈ after.domain x, v ∈ before.domain x
  /-- Events that wait go on waiting. -/
  pending : ∀ e x, before.pending.Has e x → after.pending.Has e x
  /-- Every change has left an event. -/
  changed : ∀ x, after.domain x = before.domain x ∨ ∃ e, after.pending.Has e x
  lower : ∀ x, after.lower x = before.lower x ∨ after.pending.Has .lowerBound x
  upper : ∀ x, after.upper x = before.upper x ∨ after.pending.Has .upperBound x
  volume : after.volume ≤ before.volume
  /-- An event is only added when a value is removed. -/
  strict : after.pending = before.pending ∨ after.volume < before.volume
  recovers : Trailed.Recovers after.table before.table
  lawful : before.table.Lawful → after.table.Lawful
  /-- An event is only added for a variable that exists. -/
  events : ∀ e x, after.pending.Has e x → before.pending.Has e x ∨ x < before.count
  posts : ∃ posted, Posts before posted after

namespace Narrows

variable {a b c : Domains}

theorem refl (healthy : a.Healthy) : Narrows a a :=
  ⟨rfl, healthy, fun _ _ h => h, fun _ _ h => h, fun _ => .inl rfl, fun _ => .inl rfl,
    fun _ => .inl rfl, Nat.le_refl _, .inl rfl, .refl _, id, fun _ _ h => .inl h, [], .nil⟩

theorem trans (h : Narrows a b) (h' : Narrows b c) : Narrows a c where
  count := h'.count.trans h.count
  healthy := h'.healthy
  subset x v hv := h.subset x v (h'.subset x v hv)
  pending e x he := h'.pending e x (h.pending e x he)
  changed x := by
    rcases h'.changed x with later | later
    · rcases h.changed x with earlier | ⟨e, earlier⟩
      · exact .inl (later.trans earlier)
      · exact .inr ⟨e, h'.pending e x earlier⟩
    · exact .inr later
  lower x := by
    rcases h'.lower x with later | later
    · rcases h.lower x with earlier | earlier
      · exact .inl (later.trans earlier)
      · exact .inr (h'.pending _ x earlier)
    · exact .inr later
  upper x := by
    rcases h'.upper x with later | later
    · rcases h.upper x with earlier | earlier
      · exact .inl (later.trans earlier)
      · exact .inr (h'.pending _ x earlier)
    · exact .inr later
  volume := h'.volume.trans h.volume
  strict := by
    have first := h.volume
    have second := h'.volume
    rcases h'.strict with later | later
    · rcases h.strict with earlier | earlier
      · exact .inl (later.trans earlier)
      · exact .inr (by omega)
    · exact .inr (by omega)
  recovers := h'.recovers.trans h.recovers
  lawful hl := h'.lawful (h.lawful hl)
  events e x he := (h'.events e x he).elim (h.events e x) fun exist => .inr (h.count ▸ exist)
  posts := by
    obtain ⟨first, earlier⟩ := h.posts
    obtain ⟨second, later⟩ := h'.posts
    exact ⟨first ++ second, earlier.append later⟩

theorem le_lower (h : Narrows a b) (x : Var) : a.lower x ≤ b.lower x :=
  Domain.lower_le_of_mem (h.subset x _ (h.healthy x).lower_mem)

theorem upper_le (h : Narrows a b) (x : Var) : b.upper x ≤ a.upper x :=
  Domain.le_upper_of_mem (h.subset x _ (h.healthy x).upper_mem)

theorem mem_iff_of_isFixed (h : Narrows a b) (healthy : a.Healthy) {x : Var}
    (fixed : (a.domain x).isFixed = true) {v : Int} : v ∈ b.domain x ↔ v ∈ a.domain x := by
  refine ⟨h.subset x v, fun member => ?_⟩
  have value := ((healthy x).mem_iff_of_isFixed fixed).1 member
  have low := (h.healthy x).lower_mem
  rw [((healthy x).mem_iff_of_isFixed fixed).1 (h.subset x _ low)] at low
  rwa [value]

theorem isFixed (h : Narrows a b) (healthy : a.Healthy) {x : Var}
    (fixed : (a.domain x).isFixed = true) : (b.domain x).isFixed = true :=
  (h.healthy x).isFixed_of_forall_eq fun v hv =>
    ((healthy x).mem_iff_of_isFixed fixed).1 (h.subset x v hv)

end Narrows

/-- All values of the domains of `a` are values of those of `b`. -/
def Within (a b : Domains) : Prop := ∀ x, ∀ v ∈ a.domain x, v ∈ b.domain x

theorem Within.admits {a b : Domains} (h : Within a b) (count : a.count = b.count)
    {assignment : Var → Int} (admits : a.Admits assignment) : b.Admits assignment :=
  fun x hx => h x _ (admits x (count ▸ hx))

/-- The domains after a predicate has removed some values of `x` and left others. -/
def narrowed (ds : Domains) (x : Var) (c : Comparison) (w : Int) : Domains :=
  ⟨ds.table.overwrite x (·.kept c w) ((ds.domain x).narrow c w),
    ds.pending.addAll x (Event.ofChange (ds.domain x) ((ds.domain x).narrow c w) c)⟩

section

variable {ds : Domains} {x : Var} {c : Comparison} {w : Int} (exist : x < ds.count)

include exist

/-- The domains differ from `withDomain` only in the events that wait. -/
theorem domain_narrowed (y : Var) : (ds.narrowed x c w).domain y =
    if x = y then (ds.domain x).narrow c w else ds.domain y :=
  domain_withDomain exist c w y

theorem mem_narrowed (open' : (ds.domain x).entails c w = false) (y : Var) (v : Int) :
    v ∈ (ds.narrowed x c w).domain y ↔ v ∈ ds.domain y ∧ (y = x → c.holds v w = true) := by
  rw [domain_narrowed exist]
  split
  · rename_i same
    subst same
    rw [Domain.mem_narrow open']
    simp
  · rename_i different
    simp [Ne.symm different]

theorem volume_narrowed_lt (healthy : ds.Healthy) (open' : (ds.domain x).entails c w = false) :
    (ds.narrowed x c w).volume < ds.volume :=
  volume_narrow_lt exist (healthy x) open'

theorem posts_narrowed (before : (ds.domain x).Proper) (open' : (ds.domain x).entails c w = false)
    (proper : ((ds.domain x).narrow c w).Proper) : ∃ posted, Posts ds posted (ds.narrowed x c w) := by
  have filled : ((ds.domain x).narrow c w).isEmpty = false :=
    decide_eq_false (not_lt.2 proper.lower_le_upper)
  have fits : ds.Fits ⟨x, c, w⟩ := by
    by_contra tight
    have crossed := (before.isEmpty_of_overflows (Bool.eq_true_of_not_eq_false tight)).2
    exact Bool.false_ne_true (filled.symm.trans crossed)
  have step : ds.post ⟨x, c, w⟩ = .ok (.narrowed, ds.narrowed x c w) := by
    rw [post_of_fits exist fits]
    simp only [narrow, open', filled]
    rfl
  exact ⟨_, .snoc .nil step fun h => nomatch h⟩

theorem narrows_narrowed (healthy : ds.Healthy) (open' : (ds.domain x).entails c w = false)
    (proper : ((ds.domain x).narrow c w).Proper) : Narrows ds (ds.narrowed x c w) := by
  have shrunk := volume_narrowed_lt exist healthy open'
  have domains := domain_narrowed (c := c) (w := w) exist
  refine ⟨by simp [narrowed, count], fun y => ?_, fun y v hv => ?_, fun e y he => ?_, fun y => ?_,
    fun y => ?_, fun y => ?_, shrunk.le, .inr shrunk,
    .overwrite _ x (back_withDomain ds x c w), fun h => h.overwrite x _ _,
    fun e y he => ?_, posts_narrowed exist (healthy x) open' proper⟩
  · rw [domains]
    split
    · exact proper
    · exact healthy y
  · exact ((mem_narrowed exist open' y v).1 hv).1
  · exact Pending.has_addAll.2 (.inl he)
  · rw [domains]
    split
    · rename_i same
      obtain ⟨e, he⟩ := Event.exists_mem_ofChange open' proper
      exact .inr ⟨e, Pending.has_addAll.2 (.inr ⟨he, same.symm⟩)⟩
    · exact .inl rfl
  · simp only [lower, domains]
    split
    · rename_i same
      subst same
      by_cases moved : ((ds.domain x).narrow c w).lower = (ds.domain x).lower
      · exact .inl moved
      · exact .inr (Pending.has_addAll.2 (.inr ⟨Event.lowerBound_mem_ofChange moved, rfl⟩))
    · exact .inl rfl
  · simp only [upper, domains]
    split
    · rename_i same
      subst same
      by_cases moved : ((ds.domain x).narrow c w).upper = (ds.domain x).upper
      · exact .inl moved
      · exact .inr (Pending.has_addAll.2 (.inr ⟨Event.upperBound_mem_ofChange moved, rfl⟩))
    · exact .inl rfl
  · refine (Pending.has_addAll.1 he).imp id fun ⟨_, same⟩ => ?_
    rw [same]
    exact exist

end

/-- Only variables that exist can be posted to. -/
theorem lt_count_of_post {ds : Domains} {q : Predicate} {result : Posting × Domains}
    (h : ds.post q = .ok result) : q.var < ds.count := by
  by_contra absent
  simp only [post, fetch_eq_error (Nat.not_lt.1 absent), bind, Except.bind] at h
  cases h

theorem fits_of_post {ds : Domains} {q : Predicate} {result : Posting × Domains}
    (h : ds.post q = .ok result) : ds.Fits q := by
  by_contra tight
  cases (post_of_not_fits (lt_count_of_post h) tight).symm.trans h

theorem narrow_of_post {ds : Domains} {q : Predicate} {result : Posting × Domains}
    (h : ds.post q = .ok result) : ds.narrow q (ds.domain q.var) = result :=
  Except.ok.inj ((post_of_fits (lt_count_of_post h) (fits_of_post h)).symm.trans h)

/-- A post leaves everything as it is if the domain entails the predicate.  If not, it replaces the domain
by a narrower one, which may be empty. -/
theorem post_eq {ds : Domains} {q : Predicate} (exist : q.var < ds.count) (fits : ds.Fits q) :
    ((ds.domain q.var).entails q.comparison q.value = true ∧ ds.post q = .ok (.unchanged, ds)) ∨
    ((ds.domain q.var).entails q.comparison q.value = false ∧
      ((ds.domain q.var).narrow q.comparison q.value).isEmpty = true ∧
      ds.post q =
        .ok (.emptied, ds.withDomain q.var q.comparison q.value)) ∨
    ((ds.domain q.var).entails q.comparison q.value = false ∧
      ((ds.domain q.var).narrow q.comparison q.value).isEmpty = false ∧
      ds.post q = .ok (.narrowed, ds.narrowed q.var q.comparison q.value)) := by
  rw [post_of_fits exist fits]
  simp only [narrow]
  by_cases entailed : (ds.domain q.var).entails q.comparison q.value = true
  · exact .inl ⟨entailed, by rw [if_pos entailed]⟩
  · refine .inr ?_
    rw [if_neg entailed]
    by_cases crossed : ((ds.domain q.var).narrow q.comparison q.value).isEmpty = true
    · exact .inl ⟨Bool.eq_false_iff.2 entailed, crossed, by rw [if_pos crossed]; rfl⟩
    · exact .inr ⟨Bool.eq_false_iff.2 entailed, Bool.eq_false_iff.2 crossed,
        by rw [if_neg crossed]; rfl⟩

/-- A post to a variable that exists has one of three outcomes. -/
theorem post_cases {ds : Domains} (healthy : ds.Healthy) {q : Predicate} (exist : q.var < ds.count)
    (fits : ds.Fits q) :
    (ds.post q = .ok (.unchanged, ds) ∧ ∀ v ∈ ds.domain q.var, q.holds v = true) ∨
    (∃ after, ds.post q = .ok (.narrowed, after) ∧ Narrows ds after ∧ after.volume < ds.volume ∧
      ∀ x v, v ∈ after.domain x ↔ v ∈ ds.domain x ∧ (x = q.var → q.holds v = true)) ∨
    (∃ after, ds.post q = .ok (.emptied, after) ∧ ∀ v ∈ ds.domain q.var, q.holds v = false) := by
  rcases post_eq exist fits with ⟨entailed, same⟩ | ⟨open', empty, post⟩ | ⟨open', notEmpty, post⟩
  · exact .inl ⟨same, fun v hv => Domain.holds_of_entails entailed hv⟩
  · refine .inr (.inr ⟨_, post, fun v hv => ?_⟩)
    by_contra holds
    exact Domain.not_mem_of_isEmpty empty v
      ((Domain.mem_narrow open').2 ⟨hv, by simpa [Predicate.holds] using holds⟩)
  · have narrows := narrows_narrowed exist healthy open' ((healthy q.var).narrow open' notEmpty)
    have shrunk := volume_narrowed_lt exist healthy open'
    exact .inr (.inl ⟨_, post, narrows, shrunk, mem_narrowed exist open'⟩)

/-- A post that leaves a value leaves those that satisfy the predicate. -/
theorem mem_post_iff {ds after : Domains} (healthy : ds.Healthy) {q : Predicate} {posting : Posting}
    (h : ds.post q = .ok (posting, after)) (left : posting ≠ .emptied) (x : Var) (v : Int) :
    v ∈ after.domain x ↔ v ∈ ds.domain x ∧ (x = q.var → q.holds v = true) := by
  rcases post_cases healthy (lt_count_of_post h) (fits_of_post h) with ⟨same, all⟩ | ⟨other, same, -, -, members⟩ |
    ⟨other, same, -⟩
  · cases same.symm.trans h
    refine ⟨fun member => ⟨member, ?_⟩, And.left⟩
    rintro rfl
    exact all v member
  · cases same.symm.trans h
    exact members x v
  · cases same.symm.trans h
    exact absurd rfl left

theorem eq_of_post_unchanged {ds after : Domains} {q : Predicate}
    (h : ds.post q = .ok (.unchanged, after)) : after = ds := by
  rcases post_eq (lt_count_of_post h) (fits_of_post h) with ⟨-, same⟩ | ⟨-, -, other⟩ | ⟨-, -, other⟩
  · cases same.symm.trans h
    rfl
  · cases other.symm.trans h
  · cases other.symm.trans h

/-- A post that leaves a value narrows the domains. -/
theorem narrows_of_post {ds after : Domains} (healthy : ds.Healthy) {q : Predicate}
    {posting : Posting} (h : ds.post q = .ok (posting, after)) (left : posting ≠ .emptied) :
    Narrows ds after := by
  rcases post_cases healthy (lt_count_of_post h) (fits_of_post h) with ⟨same, -⟩ | ⟨other, same, narrows, -⟩ |
    ⟨other, same, -⟩
  · cases same.symm.trans h
    exact .refl healthy
  · cases same.symm.trans h
    exact narrows
  · cases same.symm.trans h
    exact absurd rfl left

/-- What a post leaves alone: going back undoes it, and no variable or value comes. -/
structure Undoable (before after : Domains) : Prop where
  recovers : Trailed.Recovers after.table before.table
  lawful : before.table.Lawful → after.table.Lawful
  count : after.count = before.count
  volume : before.Healthy → after.volume ≤ before.volume

namespace Undoable

variable {a b c : Domains}

theorem refl (a : Domains) : Undoable a a := ⟨.refl _, id, rfl, fun _ => le_rfl⟩

theorem after_narrows (h : Narrows a b) (h' : Undoable b c) : Undoable a c :=
  ⟨h'.recovers.trans h.recovers, fun lawful => h'.lawful (h.lawful lawful), h'.count.trans h.count,
    fun _ => (h'.volume h.healthy).trans h.volume⟩

end Undoable

theorem undoable_of_post {ds after : Domains} {q : Predicate} {posting : Posting}
    (h : ds.post q = .ok (posting, after)) : Undoable ds after := by
  have exist := lt_count_of_post h
  have shrunk (open' : (ds.domain q.var).entails q.comparison q.value = false) (healthy : ds.Healthy) :
      (ds.withDomain q.var q.comparison q.value).volume ≤ ds.volume :=
    (volume_narrow_lt exist (healthy q.var) open').le
  rcases post_eq exist (fits_of_post h) with ⟨-, same⟩ | ⟨open', -, post⟩ | ⟨open', -, post⟩
  · cases same.symm.trans h
    exact .refl ds
  · cases post.symm.trans h
    exact ⟨.overwrite _ _ (back_withDomain ds _ _ _), fun hl => hl.overwrite _ _ _,
      count_withDomain .., shrunk open'⟩
  · cases post.symm.trans h
    exact ⟨.overwrite _ _ (back_withDomain ds _ _ _), fun hl => hl.overwrite _ _ _,
      count_withDomain ds _ _ _, shrunk open'⟩

/-! ## Calls that impose a predicate -/

/-- The call narrows the domains to the assignments that satisfy `q`.  It returns `quiet` if all of
them did already and `loud` if a value was removed, and finds an inconsistency if none is left. -/
def Imposes {α : Type} (q : Predicate) (call : Call Domains α) (quiet loud : α) (ds : Domains) :
    Prop :=
  (call ds = .ok quiet ds ∧ ∀ v ∈ ds.domain q.var, q.holds v = true) ∨
  (∃ after, call ds = .ok loud after ∧ Narrows ds after ∧ after.volume < ds.volume ∧
    ∀ x v, v ∈ after.domain x ↔ v ∈ ds.domain x ∧ (x = q.var → q.holds v = true)) ∨
  (∃ after, call ds = .error (.inconsistent .emptyDomain) after ∧ Undoable ds after ∧
    ∀ v ∈ ds.domain q.var, q.holds v = false)

theorem impose_of_not_fits {ds : Domains} {q : Predicate} (exist : q.var < ds.count)
    (tight : ¬ds.Fits q) : impose q ds = .error (.fault .overflow) ds := by
  simp only [impose, post_of_not_fits exist tight]

theorem imposes_impose {ds : Domains} (healthy : ds.Healthy) {q : Predicate}
    (exist : q.var < ds.count) (fits : ds.Fits q) : Imposes q (impose q) () () ds := by
  rcases post_cases healthy exist fits with ⟨same, all⟩ | ⟨after, post, narrows, less, members⟩ |
    ⟨after, post, none⟩
  · exact .inl ⟨by simp [impose, same], all⟩
  · exact .inr (.inl ⟨after, by simp [impose, post], narrows, less, members⟩)
  · exact .inr (.inr ⟨after, by simp [impose, post], undoable_of_post post, none⟩)

/-- A predicate is imposed unless its bounds show that all values satisfy it, or that none does. -/
theorem imposes_guarded {ds : Domains} (healthy : ds.Healthy) {q : Predicate}
    (exist : q.var < ds.count) (fits : ds.Fits q) {idle hopeless : Prop} [Decidable idle]
    [Decidable hopeless]
    (all : idle → ∀ v ∈ ds.domain q.var, q.holds v = true)
    (busy : ¬idle → ∃ v ∈ ds.domain q.var, q.holds v = false)
    (none : hopeless → ∀ v ∈ ds.domain q.var, q.holds v = false) :
    Imposes q
      (if idle then return false
      else if hopeless then Call.emptyDomain
      else do
        impose q
        return true) false true ds := by
  unfold Imposes
  by_cases isIdle : idle
  · exact .inl ⟨by simp [isIdle, pure, EStateM.pure], all isIdle⟩
  by_cases isHopeless : hopeless
  · exact .inr (.inr ⟨ds, by simp only [isIdle, isHopeless, if_true, if_false]; rfl, .refl ds,
      none isHopeless⟩)
  simp only [isIdle, isHopeless, if_false, bind, EStateM.bind]
  rcases imposes_impose healthy exist fits with ⟨-, holds⟩ | ⟨after, done, rest⟩ | ⟨after, done, rest⟩
  · obtain ⟨v, member, fails⟩ := busy isIdle
    rw [holds v member] at fails
    cases fails
  · exact .inr (.inl ⟨after, by rw [done]; rfl, rest⟩)
  · exact .inr (.inr ⟨after, by rw [done], rest⟩)

theorem Imposes.ensure {ds : Domains} {q : Predicate} {call : Call Domains Bool} {x : Var}
    (exist : x < ds.count) (h : Imposes q call false true ds) :
    Imposes q (do
      Call.ensure fun ds => ds.has x
      call) false true ds := by
  unfold Imposes at h ⊢
  rwa [Call.ensure_bind (c := fun ds : Domains => ds.has x) (decide_eq_true exist)]

theorem imposes_imposeNew {ds : Domains} (healthy : ds.Healthy) {q : Predicate}
    (exist : q.var < ds.count) (fits : ds.Fits q) : Imposes q (imposeNew q) false true ds := by
  have shape : imposeNew q ds =
      (if (ds.domain q.var).entails q.comparison q.value then return false
      else if False then Call.emptyDomain
      else do
        impose q
        return true : Call Domains Bool) ds := by
    rw [imposeNew, Call.ensure_bind (c := fun ds : Domains => ds.has q.var) (decide_eq_true exist)]
    show (if (ds.domain q.var).evaluate q.comparison q.value = some true then return false
      else do
        impose q
        return true : Call Domains Bool) ds = _
    simp only [Domain.evaluate_eq_some_true_iff (healthy q.var), if_false]
  have imposes : Imposes q _ false true ds := imposes_guarded healthy exist fits
    (fun (entailed : (ds.domain q.var).entails q.comparison q.value = true) v hv =>
      Domain.holds_of_entails entailed hv)
    (fun open' => Domain.exists_not_holds (healthy q.var) (by simpa using open')) False.elim
  unfold Imposes at imposes ⊢
  rwa [shape]

theorem imposes_raise {ds : Domains} (healthy : ds.Healthy) {x : Var} (exist : x < ds.count)
    (bound : Int) : Imposes (.atLeast x bound) (raise x bound) false true ds := by
  apply Imposes.ensure exist
  refine imposes_guarded healthy exist (fits_atLeast ds x bound) (fun (low : bound ≤ ds.lower x) v hv => ?_)
    (fun high => ⟨_, (healthy x).lower_mem, ?_⟩) fun (high : ds.upper x < bound) v hv => ?_
  · have := Domain.lower_le_of_mem hv
    exact decide_eq_true (low.trans this)
  · exact decide_eq_false high
  · have := Domain.le_upper_of_mem hv
    exact decide_eq_false (not_le.2 (lt_of_le_of_lt this high))

theorem imposes_sink {ds : Domains} (healthy : ds.Healthy) {x : Var} (exist : x < ds.count)
    (bound : Int) : Imposes (.atMost x bound) (sink x bound) false true ds := by
  apply Imposes.ensure exist
  refine imposes_guarded healthy exist (fits_atMost ds x bound) (fun (high : ds.upper x ≤ bound) v hv => ?_)
    (fun low => ⟨_, (healthy x).upper_mem, ?_⟩) fun (low : bound < ds.lower x) v hv => ?_
  · have := Domain.le_upper_of_mem hv
    exact decide_eq_true (this.trans high)
  · exact decide_eq_false low
  · have := Domain.lower_le_of_mem hv
    exact decide_eq_false (not_le.2 (lt_of_lt_of_le low this))

end Domains

end Stowage
