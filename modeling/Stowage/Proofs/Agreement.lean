import Mathlib
import Stowage.Call

/-!
# Agreement

Two runs agree when they end in the same way, with the same answer, in states that correspond to each
other.  A call that makes runs from corresponding states agree cannot tell such states apart.  Since
the correspondence is handed on from step to step, a computation cannot tell them apart when its steps
cannot.

* `Call.Agree`, `Call.Matched` — two runs of calls that agree, and two calls all of whose runs from
  corresponding states do.
* `Call.Blind` — a call that matches itself.
* `Call.Matched.bind`, `Call.Matched.forM`, `Call.Matched.sweep`, `Call.Matched.untilStable` — sequences
  and loops.
* `Parallel` — the same for operations that may fault.
* `inTurn`, `Parallel.inTurn` — operations performed one after the other.
* `rel_map`, `map_eq_of_rel` — entries that correspond as far as they exist.
-/

set_option autoImplicit false

namespace Stowage

namespace Call

variable {σ τ α β : Type} {R : σ → τ → Prop} {s : σ} {t : τ}

/-- Two runs end in the same way, with the same answer, in corresponding states. -/
inductive Agree (R : σ → τ → Prop) : EStateM.Result Halt σ α → EStateM.Result Halt τ α → Prop
  | ok {s : σ} {t : τ} (a : α) (rel : R s t) : Agree R (.ok a s) (.ok a t)
  | error {s : σ} {t : τ} (halt : Halt) (rel : R s t) : Agree R (.error halt s) (.error halt t)

/-- The runs of two calls from corresponding states agree. -/
def Matched (R : σ → τ → Prop) (x : Call σ α) (y : Call τ α) : Prop :=
  ∀ s t, R s t → Agree R (x s) (y t)

/-- The call cannot tell corresponding states apart. -/
abbrev Blind (R : σ → σ → Prop) (call : Call σ α) : Prop := Matched R call call

/-- Runs go on agreeing as long as what follows agrees, from where they have come. -/
theorem Agree.bind_of_ok {x : Call σ α} {y : Call τ α} {f : α → Call σ β} {g : α → Call τ β}
    (first : Agree R (x s) (y t))
    (rest : ∀ a s' t', x s = .ok a s' → y t = .ok a t' → R s' t' → Agree R (f a s') (g a t')) :
    Agree R ((x >>= f) s) ((y >>= g) t) := by
  show Agree R (EStateM.bind x f s) (EStateM.bind y g t)
  unfold EStateM.bind
  revert first rest
  generalize x s = first
  generalize y t = second
  intro agree rest
  cases agree with
  | ok a rel => exact rest a _ _ rfl rfl rel
  | error halt rel => exact .error halt rel

/-- Runs go on agreeing as long as what follows agrees on the answer so far. -/
theorem Agree.bind {x : Call σ α} {y : Call τ α} {f : α → Call σ β} {g : α → Call τ β}
    (first : Agree R (x s) (y t)) (rest : ∀ a s' t', R s' t' → Agree R (f a s') (g a t')) :
    Agree R ((x >>= f) s) ((y >>= g) t) :=
  first.bind_of_ok fun a s' t' _ _ rel => rest a s' t' rel

theorem Agree.get_bind {f : σ → Call σ α} {g : τ → Call τ α} (h : Agree R (f s s) (g t t)) :
    Agree R ((get >>= f) s) ((get >>= g) t) := h

theorem Agree.ite {c : Prop} [Decidable c] {x y : Call σ α} {x' y' : Call τ α}
    (yes : Agree R (x s) (x' t)) (no : Agree R (y s) (y' t)) :
    Agree R ((if c then x else y) s) ((if c then x' else y') t) := by
  split
  · exact yes
  · exact no

namespace Matched

theorem pure (a : α) : Matched R (Pure.pure a : Call σ α) (Pure.pure a) := fun _ _ rel => .ok a rel

theorem throw (halt : Halt) :
    Matched R (MonadExcept.throw halt : Call σ α) (MonadExcept.throw halt) :=
  fun _ _ rel => .error halt rel

theorem conflict (reason : Reason) :
    Matched R (Call.conflict reason : Call σ α) (Call.conflict reason) := throw _

theorem bind {x : Call σ α} {y : Call τ α} {f : α → Call σ β} {g : α → Call τ β}
    (first : Matched R x y) (rest : ∀ a, Matched R (f a) (g a)) : Matched R (x >>= f) (y >>= g) :=
  fun s t rel => .bind (first s t rel) fun a s' t' rel' => rest a s' t' rel'

/-- A test whose outcome is the same in corresponding states, and what follows where it succeeds. -/
theorem ensure_bind {c : σ → Bool} {c' : τ → Bool} {f : Unit → Call σ α} {g : Unit → Call τ α}
    (same : ∀ s t, R s t → c s = c' t)
    (rest : ∀ s t, R s t → c s = true → Agree R (f () s) (g () t)) :
    Matched R (Call.ensure c >>= f) (Call.ensure c' >>= g) := by
  intro s t rel
  refine .bind_of_ok ?_ fun _ s' t' here there rel' => ?_
  · unfold Call.ensure
    rw [same s t rel]
    split
    · exact .ok _ rel
    · exact .error _ rel
  · unfold Call.ensure at here there
    split at here
    · split at there
      · cases here
        cases there
        exact rest s t rel ‹_›
      · cases there
    · cases here

theorem modify {f : σ → σ} {g : τ → τ} (h : ∀ s t, R s t → R (f s) (g t)) :
    Matched R (MonadState.modifyGet fun s => (PUnit.unit, f s) : Call σ PUnit)
      (MonadState.modifyGet fun s => (PUnit.unit, g s)) :=
  fun s t rel => .ok _ (h s t rel)

theorem ite {c : Prop} [Decidable c] {x y : Call σ α} {x' y' : Call τ α} (yes : Matched R x x')
    (no : Matched R y y') : Matched R (if c then x else y) (if c then x' else y') :=
  fun s t rel => .ite (yes s t rel) (no s t rel)

/-! ## Loops -/

theorem forM {f : α → Call σ PUnit} {g : α → Call τ PUnit} {l : List α}
    (step : ∀ a ∈ l, Matched R (f a) (g a)) : Matched R (l.forM f) (l.forM g) := by
  induction l with
  | nil => exact pure _
  | cons a l ih =>
    exact (step a List.mem_cons_self).bind fun _ =>
      ih fun b member => step b (List.mem_cons_of_mem _ member)

theorem sweep {round : α → Call σ Bool} {round' : α → Call τ Bool} {l : List α}
    (step : ∀ a ∈ l, Matched R (round a) (round' a)) :
    Matched R (Call.sweep round l) (Call.sweep round' l) := by
  induction l with
  | nil => exact pure false
  | cons a l ih =>
    exact (step a List.mem_cons_self).bind fun changed =>
      (ih fun b member => step b (List.mem_cons_of_mem _ member)).bind fun later =>
        pure (changed || later)

theorem untilStable {round : Call σ Bool} {round' : Call τ Bool} (step : Matched R round round')
    (limit : Nat) : Matched R (Call.untilStable round limit) (Call.untilStable round' limit) := by
  induction limit with
  | zero => exact throw _
  | succ limit ih => exact step.bind fun _ => ite ih (pure _)

theorem focus {σ' τ' : Type} {S : σ' → τ' → Prop} {part : σ → σ'} {part' : τ → τ'}
    {replace : σ' → σ → σ} {replace' : τ' → τ → τ} {x : Call σ' α} {y : Call τ' α}
    (inner : Matched S x y) (parts : ∀ s t, R s t → S (part s) (part' t))
    (keep : ∀ s t u v, R s t → S u v → R (replace u s) (replace' v t)) :
    Matched R (Call.focus part replace x) (Call.focus part' replace' y) := by
  intro s t rel
  unfold Call.focus
  have agree := inner _ _ (parts s t rel)
  generalize x (part s) = first at agree ⊢
  generalize y (part' t) = second at agree ⊢
  cases agree with
  | ok a rel' => exact .ok a (keep s t _ _ rel rel')
  | error halt rel' => exact .error halt (keep s t _ _ rel rel')

end Matched

namespace Blind

variable {R : σ → σ → Prop}

/-- A computation that reads the state first, and does the same whichever of two corresponding states
it has read. -/
theorem get_bind {f : σ → Call σ α} (same : ∀ s t, R s t → f s = f t) (rest : ∀ s, Blind R (f s)) :
    Blind R (get >>= f) := by
  intro s t rel
  refine .get_bind ?_
  rw [same s t rel]
  exact rest t s t rel

/-- A test whose outcome is the same in corresponding states. -/
theorem ensure {c : σ → Bool} (same : ∀ s t, R s t → c s = c t) :
    Blind R (Call.ensure c : Call σ Unit) := by
  intro s t rel
  unfold Call.ensure
  rw [same s t rel]
  split
  · exact .ok _ rel
  · exact .error _ rel

/-- A call on a part of the state in which corresponding states do not differ. -/
theorem focus {part : σ → τ} {replace : τ → σ → σ} (call : Call τ α)
    (same : ∀ s t, R s t → part s = part t)
    (keep : ∀ s t u, R s t → R (replace u s) (replace u t)) :
    Blind R (Call.focus part replace call) := by
  refine Matched.focus (S := fun u v => u = v) (fun u v eq => ?_) same fun s t u v rel eq => ?_
  · cases eq
    cases call u with
    | ok a w => exact .ok a rfl
    | error halt w => exact .error halt rfl
  · cases eq
    exact keep s t u rel

end Blind

end Call

/-! ## Operations that may fault -/

/-- Both operations fault alike, or neither does and their results correspond. -/
inductive Parallel {α β : Type} (R : α → β → Prop) : Except Fault α → Except Fault β → Prop
  | ok {a : α} {b : β} (rel : R a b) : Parallel R (.ok a) (.ok b)
  | error (fault : Fault) : Parallel R (.error fault) (.error fault)

namespace Parallel

variable {α β γ δ : Type} {R : α → β → Prop} {S : γ → δ → Prop} {x : Except Fault α}
  {y : Except Fault β}

theorem refl {R : α → α → Prop} (h : ∀ a, R a a) (x : Except Fault α) : Parallel R x x := by
  cases x with
  | ok a => exact .ok (h a)
  | error fault => exact .error fault

theorem mono {S : α → β → Prop} (h : Parallel R x y) (imp : ∀ a b, R a b → S a b) :
    Parallel S x y := by
  cases h with
  | ok rel => exact .ok (imp _ _ rel)
  | error fault => exact .error fault

/-- Where one operation has a result, the other has one that corresponds. -/
theorem exists_eq_ok {b : β} (h : Parallel R x (.ok b)) : ∃ a, x = .ok a ∧ R a b := by
  cases h with
  | ok rel => exact ⟨_, rfl, rel⟩

/-- What follows may depend on how the first result came about. -/
theorem bind_ok {f : α → Except Fault γ} {g : β → Except Fault δ} (first : Parallel R x y)
    (rest : ∀ a b, x = .ok a → R a b → Parallel S (f a) (g b)) : Parallel S (x >>= f) (y >>= g) := by
  cases first with
  | ok rel => exact rest _ _ rfl rel
  | error fault => exact .error fault

theorem bind {f : α → Except Fault γ} {g : β → Except Fault δ} (first : Parallel R x y)
    (rest : ∀ a b, R a b → Parallel S (f a) (g b)) : Parallel S (x >>= f) (y >>= g) :=
  first.bind_ok fun a b _ => rest a b

theorem require_bind {condition : Bool} {fault : Fault} {f : Unit → Except Fault γ}
    {g : Unit → Except Fault δ} (rest : Parallel S (f ()) (g ())) :
    Parallel S (require condition fault >>= f) (require condition fault >>= g) := by
  unfold require
  split
  · exact rest
  · exact .error fault

end Parallel

/-! ## Runs in parallel -/

section Runs

variable {ι ρ σ τ : Type}

/-- The answers to operations performed one after the other, and the state afterwards. -/
def inTurn (perform : σ → ι → Except Fault (ρ × σ)) (s : σ) : List ι → Except Fault (List ρ × σ)
  | [] => return ([], s)
  | op :: script => do
    let (answer, s) ← perform s op
    let (answers, s) ← inTurn perform s script
    return (answer :: answers, s)

/-- The answers are the same and the states correspond. -/
def Same (R : σ → τ → Prop) (x : ρ × σ) (y : ρ × τ) : Prop := x.1 = y.1 ∧ R x.2 y.2

/-- Runs are answered alike if single operations are. -/
theorem Parallel.inTurn {R : σ → τ → Prop} {perform : σ → ι → Except Fault (ρ × σ)}
    {perform' : τ → ι → Except Fault (ρ × τ)}
    (step : ∀ s t op, R s t → Parallel (Same R) (perform s op) (perform' t op)) {s : σ} {t : τ}
    (rel : R s t) (script : List ι) :
    Parallel (Same R) (inTurn perform s script) (inTurn perform' t script) := by
  induction script generalizing s t with
  | nil => exact .ok ⟨rfl, rel⟩
  | cons op script ih =>
    refine (step s t op rel).bind ?_
    rintro ⟨answer, s'⟩ ⟨answer', t'⟩ ⟨same, rel'⟩
    obtain rfl : answer = answer' := same
    refine (ih rel').bind ?_
    rintro ⟨answers, s''⟩ ⟨answers', t''⟩ ⟨same', rel''⟩
    obtain rfl : answers = answers' := same'
    exact .ok ⟨rfl, rel''⟩

/-- A run of two parts is a run of the first and then one of the second. -/
theorem inTurn_append {perform : σ → ι → Except Fault (ρ × σ)} {s t u : σ} {first second : List ι}
    {answers later : List ρ} (h : inTurn perform s first = .ok (answers, t))
    (h' : inTurn perform t second = .ok (later, u)) :
    inTurn perform s (first ++ second) = .ok (answers ++ later, u) := by
  induction first generalizing s answers with
  | nil =>
    cases h
    exact h'
  | cons op first ih =>
    simp only [inTurn, bind, Except.bind, pure, Except.pure] at h
    split at h
    · cases h
    next step =>
      split at h
      · cases h
      next rest =>
        cases h
        simp only [List.cons_append, inTurn, step, ih rest, bind, Except.bind, pure, Except.pure]

end Runs

/-! ## Entries that may be missing -/

section Entries

variable {α β γ δ : Type} {R : α → β → Prop} {a? : Option α} {b? : Option β}

theorem rel_map {S : γ → δ → Prop} {f : α → γ} {g : β → δ} (h : Option.Rel R a? b?)
    (imp : ∀ a b, R a b → S (f a) (g b)) : Option.Rel S (a?.map f) (b?.map g) := by
  cases h with
  | none => exact .none
  | some rel => exact .some (imp _ _ rel)

theorem map_eq_of_rel {f : α → γ} {g : β → γ} (h : Option.Rel R a? b?)
    (imp : ∀ a b, R a b → f a = g b) : a?.map f = b?.map g := by
  cases h with
  | none => rfl
  | some rel => exact congrArg some (imp _ _ rel)

end Entries

end Stowage
