import Mathlib
import Stowage.Call

/-!
# Contracts of calls

A contract says what calls of one kind keep to: an invariant, how the states before and after a call
are related, and how they are related when the call finds an inconsistency.  A call that keeps to a
contract does not fault.  Since the relations compose, a computation keeps to a contract when its
steps do, and only what is special about its result has to be said for each.

* `Call.bind_eq_ok_iff`, `Call.sweep_quiet`, `Call.untilStable_eq_ok` — what a call that returned, or
  changed nothing, has done.
* `Contract`, `Contract.Runs` — a contract, and a call that keeps to it with a given outcome.
* `Contract.Runs.bind`, `Contract.Runs.forM`, `Contract.Runs.sweep`, `Contract.Runs.untilStable` —
  sequences and loops.
* `Contract.Permits` — the same for calls that may fault, where nothing is said about results.
-/

set_option autoImplicit false

namespace Stowage

/-! ## Calls that returned -/

namespace Call

variable {σ α β : Type} {s t u : σ} {a : α} {b : β}

theorem bind_eq_ok_iff {x : Call σ α} {f : α → Call σ β} :
    (x >>= f) s = .ok b u ↔ ∃ a t, x s = .ok a t ∧ f a t = .ok b u := by
  simp only [Bind.bind, EStateM.bind]
  cases x s with
  | ok a t =>
    constructor
    · intro h
      exact ⟨a, t, rfl, h⟩
    · rintro ⟨_, _, same, h⟩
      cases same
      exact h
  | error halt t =>
    constructor
    · intro h
      cases h
    · rintro ⟨_, _, same, -⟩
      cases same

theorem get_bind_eq_ok_iff {f : σ → Call σ β} : (get >>= f) s = .ok b u ↔ f s s = .ok b u := Iff.rfl

theorem ensure_bind_eq_ok_iff {c : σ → Bool} {f : Unit → Call σ β} :
    (ensure c >>= f) s = .ok b u ↔ c s = true ∧ f () s = .ok b u := by
  by_cases h : c s = true
  · rw [ensure_bind h]
    simp [h]
  · simp only [Bind.bind, EStateM.bind, ensure, h]
    simp

theorem pure_eq_ok_iff {c : α} : (pure c : Call σ α) s = .ok a t ↔ a = c ∧ t = s := by
  show EStateM.Result.ok c s = .ok a t ↔ _
  simp only [EStateM.Result.ok.injEq]
  exact and_congr eq_comm eq_comm

theorem conflict_ne_ok {reason : Reason} : (conflict reason : Call σ α) s ≠ .ok a t :=
  fun h => by cases h

/-- Computations for every element of a list that return without a change. -/
theorem forM_quiet {f : α → Call σ PUnit} {K : α → Prop} {l : List α}
    (step : ∀ a ∈ l, ∀ t, f a s = .ok ⟨⟩ t → t = s ∧ K a) (h : l.forM f s = .ok ⟨⟩ u) :
    u = s ∧ ∀ a ∈ l, K a := by
  induction l with
  | nil =>
    obtain ⟨-, rfl⟩ := pure_eq_ok_iff.1 h
    exact ⟨rfl, fun _ member => by cases member⟩
  | cons a l ih =>
    obtain ⟨_, t, first, rest⟩ := bind_eq_ok_iff.1 h
    obtain ⟨rfl, here⟩ := step a List.mem_cons_self t first
    obtain ⟨rfl, later⟩ := ih (fun c hc => step c (List.mem_cons_of_mem a hc)) rest
    exact ⟨rfl, List.forall_mem_cons.2 ⟨here, later⟩⟩

/-- A sweep that changed nothing.  Every round leaves the state in the relation `N`, establishes `K` for
its element and keeps it for the others. -/
theorem sweep_quiet {round : α → Call σ Bool} {I : σ → Prop} {N : σ → σ → Prop} {K : α → σ → Prop}
    {l : List α} (nodup : l.Nodup) (start : I s) (refl : ∀ t, N t t)
    (trans : ∀ t u v, N t u → N u v → N t v)
    (step : ∀ a ∈ l, ∀ t u, I t → N s t → round a t = .ok false u →
      I u ∧ N t u ∧ K a u ∧ ∀ c ∈ l, c ≠ a → K c t → K c u)
    (h : sweep round l s = .ok false u) : I u ∧ N s u ∧ ∀ a ∈ l, K a u := by
  suffices all : ∀ done left t, l = done ++ left → I t → N s t → (∀ c ∈ done, K c t) →
      sweep round left t = .ok false u → I u ∧ N s u ∧ ∀ a ∈ l, K a u from
    all [] l s rfl start (refl s) (fun _ member => by cases member) h
  intro done left
  induction left generalizing done with
  | nil =>
    intro t split inv near settled h
    obtain ⟨-, rfl⟩ := pure_eq_ok_iff.1 h
    rw [split, List.append_nil]
    exact ⟨inv, near, settled⟩
  | cons a left ih =>
    intro t split inv near settled h
    obtain ⟨changed, v, first, rest⟩ := bind_eq_ok_iff.1 h
    obtain ⟨later, w, rest, last⟩ := bind_eq_ok_iff.1 rest
    obtain ⟨quiet, rfl⟩ := pure_eq_ok_iff.1 last
    obtain ⟨rfl, rfl⟩ := Bool.or_eq_false_iff.1 quiet.symm
    have member : a ∈ l := by simp [split]
    obtain ⟨invV, nearV, here, keep⟩ := step a member t v inv near first
    refine ih (done ++ [a]) v (by simp [split]) invV (trans s t v near nearV) ?_ rest
    intro c hc
    rcases List.mem_append.1 hc with before | same
    · have other : c ≠ a := by
        rintro rfl
        rw [split] at nodup
        exact (List.nodup_append.1 nodup).2.2 c before c List.mem_cons_self rfl
      exact keep c (by simp [split, before]) other (settled c before)
    · rw [List.mem_singleton.1 same]
      exact here

/-- The last of the rounds repeated until nothing changes. -/
theorem untilStable_eq_ok {round : Call σ Bool} {I : σ → Prop} {limit : Nat} (start : I s)
    (step : ∀ t u changed, I t → round t = .ok changed u → I u)
    (h : untilStable round limit s = .ok () u) : ∃ t, I t ∧ round t = .ok false u := by
  induction limit generalizing s with
  | zero => cases h
  | succ limit ih =>
    obtain ⟨changed, t, first, rest⟩ := bind_eq_ok_iff.1 h
    cases changed with
    | false =>
      obtain ⟨-, rfl⟩ := pure_eq_ok_iff.1 rest
      exact ⟨s, start, first⟩
    | true => exact ih (step s t true start first) rest

end Call

/-- What calls on a state keep to. -/
structure Contract (σ : Type) where
  /-- What holds before and after a call. -/
  inv : σ → Prop
  /-- How the state after a call is related to the one before. -/
  rel : σ → σ → Prop
  /-- The same for a call that finds an inconsistency. -/
  fail : σ → σ → Prop
  refl : ∀ {s}, inv s → rel s s
  trans : ∀ {s t u}, rel s t → rel t u → rel s u
  fail_of_rel : ∀ {s t u}, inv s → rel s t → fail t u → fail s u

namespace Contract

variable {σ α β : Type} {C : Contract σ} {s : σ}

/-- The call keeps to the contract from state `s`, and `Q` holds of its result and the state after
it. -/
def Runs (C : Contract σ) (call : Call σ α) (s : σ) (Q : α → σ → Prop) : Prop :=
  match call s with
  | .ok a t => C.inv t ∧ C.rel s t ∧ Q a t
  | .error (.inconsistent _) t => C.fail s t
  | .error (.fault _) _ => False

namespace Runs

variable {P Q : α → σ → Prop} {R : β → σ → Prop}

theorem ok {call : Call σ α} (h : C.Runs call s Q) {a : α} {t : σ} (result : call s = .ok a t) :
    C.inv t ∧ C.rel s t ∧ Q a t := by
  unfold Runs at h
  rw [result] at h
  exact h

theorem intro {call : Call σ α} {a : α} {t : σ} (h : call s = .ok a t) (inv : C.inv t)
    (rel : C.rel s t) (post : Q a t) : C.Runs call s Q := by
  unfold Runs
  rw [h]
  exact ⟨inv, rel, post⟩

theorem intro_fail {call : Call σ α} {cause : Inconsistency} {t : σ}
    (h : call s = .error (.inconsistent cause) t) (fail : C.fail s t) : C.Runs call s Q := by
  unfold Runs
  rw [h]
  exact fail

theorem mono {call : Call σ α} (h : C.Runs call s P)
    (imp : ∀ a t, C.inv t → C.rel s t → P a t → Q a t) : C.Runs call s Q := by
  unfold Runs at h ⊢
  split at h
  · exact ⟨h.1, h.2.1, imp _ _ h.1 h.2.1 h.2.2⟩
  · exact h
  · exact h

theorem pure {a : α} (inv : C.inv s) (post : Q a s) : C.Runs (Pure.pure a) s Q :=
  intro rfl inv (C.refl inv) post

/-- A sequence keeps to the contract when both parts do. -/
theorem bind {x : Call σ α} {f : α → Call σ β} (inv : C.inv s) (first : C.Runs x s P)
    (rest : ∀ a t, C.inv t → C.rel s t → P a t → C.Runs (f a) t R) : C.Runs (x >>= f) s R := by
  unfold Runs at first ⊢
  simp only [Bind.bind, EStateM.bind]
  split at first
  · rename_i a t result
    obtain ⟨invT, rel, post⟩ := first
    have later := rest a t invT rel post
    unfold Runs at later
    simp only [result]
    split at later
    · exact ⟨later.1, C.trans rel later.2.1, later.2.2⟩
    · exact C.fail_of_rel inv rel later
    · exact later
  · rename_i result
    rw [result]
    exact first
  · exact first.elim

theorem get_bind {f : σ → Call σ β} (h : C.Runs (f s) s R) : C.Runs (get >>= f) s R := h

theorem ensure_bind {c : σ → Bool} {f : Unit → Call σ β} (possible : c s = true)
    (h : C.Runs (f ()) s R) : C.Runs (Call.ensure c >>= f) s R := by
  unfold Runs at h ⊢
  rw [Call.ensure_bind possible]
  exact h

theorem conflict {reason : Reason} (fail : C.fail s s) :
    C.Runs (Call.conflict reason : Call σ α) s Q := intro_fail rfl fail

theorem ite {c : Prop} [Decidable c] {x y : Call σ α} (yes : c → C.Runs x s Q)
    (no : ¬c → C.Runs y s Q) : C.Runs (if c then x else y) s Q := by
  split
  · exact yes ‹_›
  · exact no ‹_›

/-! ## Loops -/

/-- A round for every element of a list.  What a round establishes and later rounds keep holds for
all elements in the end. -/
theorem forM {f : α → Call σ PUnit} {I : σ → Prop} {K : α → σ → Prop} {l : List α}
    (inv : C.inv s) (start : I s)
    (step : ∀ a ∈ l, ∀ t, C.inv t → C.rel s t → I t → C.Runs (f a) t fun _ u => I u ∧ K a u)
    (keep : ∀ a ∈ l, ∀ t u, C.inv u → C.rel t u → K a t → K a u) :
    C.Runs (l.forM f) s fun _ t => I t ∧ ∀ a ∈ l, K a t := by
  induction l generalizing s with
  | nil => exact pure inv ⟨start, fun _ h => by cases h⟩
  | cons a l ih =>
    refine bind inv (step a List.mem_cons_self s inv (C.refl inv) start) fun _ t invT rel post => ?_
    refine (ih invT post.1 (fun b hb u invU relU => ?_) fun b hb => ?_).mono
      fun _ u invU relU done => ⟨done.1, fun b hb => ?_⟩
    · exact step b (List.mem_cons_of_mem _ hb) u invU (C.trans rel relU)
    · exact keep b (List.mem_cons_of_mem _ hb)
    · rcases List.mem_cons.1 hb with rfl | hb
      · exact keep b List.mem_cons_self t u invU relU post.2
      · exact done.2 b hb

/-- A sweep.  Each round that changes something decreases the measure `m`; a round that changes
nothing leaves the state in the relation `N` and establishes `K`. -/
theorem sweep {f : α → Call σ Bool} {I : σ → Prop} {m : σ → Nat} {N : σ → σ → Prop}
    {K : α → σ → Prop} {l : List α} (inv : C.inv s) (start : I s)
    (mono : ∀ t u, C.rel t u → m u ≤ m t) (refl : ∀ t, N t t)
    (trans : ∀ t u v, N t u → N u v → N t v)
    (step : ∀ a ∈ l, ∀ t, C.inv t → C.rel s t → I t → C.Runs (f a) t fun changed u =>
      I u ∧ (changed = true → m u < m t) ∧ (changed = false → N t u ∧ K a u))
    (keep : ∀ a ∈ l, ∀ t u, N t u → K a t → K a u) :
    C.Runs (Call.sweep f l) s fun changed u =>
      I u ∧ (changed = true → m u < m s) ∧ (changed = false → N s u ∧ ∀ a ∈ l, K a u) := by
  induction l generalizing s with
  | nil => exact pure inv ⟨start, by simp, fun _ => ⟨refl s, by simp⟩⟩
  | cons a l ih =>
    refine bind inv (step a List.mem_cons_self s inv (C.refl inv) start)
      fun changed t invT rel ⟨invI, decrease, quiet⟩ => ?_
    refine bind invT (ih invT invI (fun b hb u invU relU => ?_) fun b hb => ?_)
      fun changedLater u invU relU ⟨invI', decrease', quiet'⟩ => ?_
    · exact step b (List.mem_cons_of_mem _ hb) u invU (C.trans rel relU)
    · exact keep b (List.mem_cons_of_mem _ hb)
    · refine pure invU ⟨invI', fun h => ?_, fun h => ?_⟩
      · have first := mono s t rel
        have second := mono t u relU
        rcases Bool.or_eq_true_iff.1 h with h | h
        · have := decrease h
          omega
        · have := decrease' h
          omega
      · obtain ⟨h, h'⟩ := Bool.or_eq_false_iff.1 h
        obtain ⟨same, done⟩ := quiet h
        obtain ⟨same', done'⟩ := quiet' h'
        refine ⟨trans s t u same same', fun b hb => ?_⟩
        rcases List.mem_cons.1 hb with rfl | hb
        · exact keep b List.mem_cons_self t u same' done
        · exact done' b hb

/-- A round repeated until it changes nothing.  The limit is enough if every round that changes
something decreases a measure below it. -/
theorem untilStable {f : Call σ Bool} {I F : σ → Prop} {m : σ → Nat} {limit : Nat}
    (inv : C.inv s) (start : I s) (enough : m s < limit)
    (step : ∀ t, C.inv t → C.rel s t → I t → C.Runs f t fun changed u =>
      I u ∧ (changed = true → m u < m t) ∧ (changed = false → F u)) :
    C.Runs (Call.untilStable f limit) s fun _ u => I u ∧ F u := by
  induction limit generalizing s with
  | zero => omega
  | succ limit ih =>
    refine bind inv (step s inv (C.refl inv) start)
      fun changed t invT rel ⟨invI, decrease, done⟩ => ?_
    cases changed with
    | false => exact pure invT ⟨invI, done rfl⟩
    | true =>
      have less := decrease rfl
      exact ih invT invI (by omega) fun u invU relU => step u invU (C.trans rel relU)

end Runs

/-- A call that does, from `s`, what another does that keeps to some contract from `s'`. -/
theorem Runs.transfer {D : Contract σ} {call call' : Call σ α} {s' : σ} {Q R : α → σ → Prop}
    (h : C.Runs call' s' Q) (same : call s = call' s')
    (ok : ∀ a t, C.inv t → C.rel s' t → Q a t → D.inv t ∧ D.rel s t ∧ R a t)
    (fail : ∀ t, C.fail s' t → D.fail s t) : D.Runs call s R := by
  unfold Runs at h ⊢
  rw [same]
  split at h
  · exact ok _ _ h.1 h.2.1 h.2.2
  · exact fail _ h
  · exact h

/-! ## Calls that may fault -/

/-- The call keeps to the contract from state `s` unless it faults. -/
def Permits (C : Contract σ) (call : Call σ α) (s : σ) : Prop :=
  match call s with
  | .ok _ t => C.inv t ∧ C.rel s t
  | .error (.inconsistent _) t => C.fail s t
  | .error (.fault _) _ => True

namespace Permits

theorem intro {call : Call σ α} {a : α} {t : σ} (h : call s = .ok a t) (inv : C.inv t)
    (rel : C.rel s t) : C.Permits call s := by
  unfold Permits
  rw [h]
  exact ⟨inv, rel⟩

theorem intro_fail {call : Call σ α} {cause : Inconsistency} {t : σ}
    (h : call s = .error (.inconsistent cause) t) (fail : C.fail s t) : C.Permits call s := by
  unfold Permits
  rw [h]
  exact fail

theorem ok {call : Call σ α} (h : C.Permits call s) {a : α} {t : σ} (result : call s = .ok a t) :
    C.inv t ∧ C.rel s t := by
  unfold Permits at h
  rw [result] at h
  exact h

theorem inconsistent {call : Call σ α} (h : C.Permits call s) {cause : Inconsistency} {t : σ}
    (result : call s = .error (.inconsistent cause) t) : C.fail s t := by
  unfold Permits at h
  rw [result] at h
  exact h

theorem pure {a : α} (inv : C.inv s) : C.Permits (Pure.pure a) s := intro rfl inv (C.refl inv)

theorem throw_fault {fault : Fault} : C.Permits (throw (.fault fault) : Call σ α) s := trivial

theorem intro_fault {call : Call σ α} {fault : Fault} {t : σ} (h : call s = .error (.fault fault) t) :
    C.Permits call s := by
  unfold Permits
  rw [h]
  trivial

/-- A call that goes on from another state as another call does. -/
theorem from_state {call rest : Call σ α} {t : σ} (same : call s = rest t) (inv : C.inv s)
    (rel : C.rel s t) (later : C.Permits rest t) : C.Permits call s := by
  unfold Permits at later ⊢
  rw [same]
  split at later
  · exact ⟨later.1, C.trans rel later.2⟩
  · exact C.fail_of_rel inv rel later
  · trivial

theorem bind {x : Call σ α} {f : α → Call σ β} (inv : C.inv s) (first : C.Permits x s)
    (rest : ∀ a t, C.inv t → C.rel s t → C.Permits (f a) t) : C.Permits (x >>= f) s := by
  cases result : x s with
  | ok a t =>
    obtain ⟨invT, rel⟩ := first.ok result
    refine from_state (t := t) ?_ inv rel (rest a t invT rel)
    simp only [Bind.bind, EStateM.bind, result]
  | error halt t =>
    cases halt with
    | fault fault =>
      unfold Permits
      simp only [Bind.bind, EStateM.bind, result]
    | inconsistent cause =>
      have fail := first.inconsistent result
      have stops : (x >>= f) s = .error (.inconsistent cause) t := by
        simp only [Bind.bind, EStateM.bind, result]
      exact intro_fail stops fail

theorem get_bind {f : σ → Call σ β} (h : C.Permits (f s) s) : C.Permits (get >>= f) s := h

theorem ensure_bind {c : σ → Bool} {f : Unit → Call σ β} (h : C.Permits (f ()) s) :
    C.Permits (Call.ensure c >>= f) s := by
  unfold Permits at h ⊢
  by_cases possible : c s = true
  · rw [Call.ensure_bind possible]
    exact h
  · simp only [Bind.bind, EStateM.bind, Call.ensure, possible]
    trivial

theorem set {t : σ} (inv : C.inv t) (rel : C.rel s t) :
    C.Permits (MonadStateOf.set t : Call σ PUnit) s := intro rfl inv rel

theorem conflict {reason : Reason} (fail : C.fail s s) :
    C.Permits (Call.conflict reason : Call σ α) s := intro_fail rfl fail

theorem ite {c : Prop} [Decidable c] {x y : Call σ α} (yes : c → C.Permits x s)
    (no : ¬c → C.Permits y s) : C.Permits (if c then x else y) s := by
  split
  · exact yes ‹_›
  · exact no ‹_›

theorem forM {f : α → Call σ PUnit} {l : List α} (inv : C.inv s)
    (step : ∀ a ∈ l, ∀ t, C.inv t → C.rel s t → C.Permits (f a) t) : C.Permits (l.forM f) s := by
  induction l generalizing s with
  | nil => exact pure inv
  | cons a l ih =>
    refine bind inv (step a List.mem_cons_self s inv (C.refl inv)) fun _ t invT rel => ih invT ?_
    exact fun b hb u invU relU => step b (List.mem_cons_of_mem _ hb) u invU (C.trans rel relU)

theorem sweep {f : α → Call σ Bool} {l : List α} (inv : C.inv s)
    (step : ∀ a ∈ l, ∀ t, C.inv t → C.rel s t → C.Permits (f a) t) :
    C.Permits (Call.sweep f l) s := by
  induction l generalizing s with
  | nil => exact pure inv
  | cons a l ih =>
    refine bind inv (step a List.mem_cons_self s inv (C.refl inv)) fun _ t invT rel => ?_
    refine bind invT (ih invT fun b hb u invU relU => ?_) fun _ u invU _ => pure invU
    exact step b (List.mem_cons_of_mem _ hb) u invU (C.trans rel relU)

theorem untilStable {f : Call σ Bool} {limit : Nat} (inv : C.inv s)
    (step : ∀ t, C.inv t → C.rel s t → C.Permits f t) :
    C.Permits (Call.untilStable f limit) s := by
  induction limit generalizing s with
  | zero => exact throw_fault
  | succ limit ih =>
    refine bind inv (step s inv (C.refl inv)) fun changed t invT rel => ite (fun _ => ?_)
      fun _ => pure invT
    exact ih invT fun u invU relU => step u invU (C.trans rel relU)

end Permits

end Contract

end Stowage
