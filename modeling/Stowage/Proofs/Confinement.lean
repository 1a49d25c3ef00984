import Stowage.Proofs.Packing.Relabelling
import Stowage.Proofs.Calling

/-!
# What a propagator can alter

A call of a propagator alters the domains of its own variables only.

* `Propagator.scope`, `Blueprint.scope` — the variables that a propagator can narrow.
* `Propagator.alters_call` — a call alters no others.
-/

set_option autoImplicit false

namespace Stowage

theorem Precedence.confines_revise (p : Precedence) : Domains.Confines p.vars p.revise :=
  .get_bind fun _ => .bind (.value _) fun _ => .bind (.impose List.mem_cons_self) fun _ =>
    .get_bind fun _ => .bind (.value _) fun _ => .impose (List.mem_cons_of_mem _ List.mem_cons_self)

theorem Rule.confines_apply (rule : Rule) : Domains.Confines rule.vars rule.apply := by
  intro ds
  unfold Rule.apply
  cases ds.evaluate rule.condition with
  | error fault => exact .refl ds
  | ok truth =>
    by_cases fires : truth = some rule.trigger
    · simp only [fires, if_true]
      cases result : rule.consequence with
      | none => exact .refl ds
      | some q =>
        refine Domains.Confines.impose ?_ ds
        rw [Rule.vars, result]
        exact List.mem_cons_of_mem _ List.mem_cons_self
    · simp only [fires, if_false]
      exact .refl ds

theorem Domains.Confines.mono {α : Type} {call : Call Domains α} {vars more : List Var}
    (h : Domains.Confines vars call) (sub : vars ⊆ more) : Domains.Confines more call :=
  fun ds => (h ds).mono sub

theorem Probe.confines_revise (p : Probe) : Domains.Confines p.ruleVars p.revise :=
  .forM fun rule member => rule.confines_apply.mono fun _ mentioned =>
    List.mem_flatMap.2 ⟨rule, member, mentioned⟩

namespace Propagator

/-- The variables that a propagator can narrow. -/
def scope : Propagator → List Var
  | .packing p => p.packing.vars
  | .precedence p => p.vars
  | .probe p => p.ruleVars

@[simp] theorem scope_core (prop : Propagator) : prop.core.scope = prop.scope := by
  cases prop <;> rfl

variable {prop : Propagator} {s : Store} {id place : Nat} {e : Event} {called : Called} {heard : Heard}

theorem alters_afterCall {cells : Cells} {notes : List Note} {call : Call Domains Unit}
    {vars : List Var} (confines : Domains.Confines vars call)
    (h : prop.afterCall { s with cells := cells } notes (call s.domains) = .ok called) :
    Domains.Alters vars s.domains called.store.domains := by
  have altered := confines s.domains
  generalize call s.domains = result at altered h
  cases result with
  | ok a ds =>
    cases h
    exact altered
  | error halt ds =>
    cases halt with
    | inconsistent cause =>
      cases h
      exact altered
    | fault fault => cases h

/-- **A call alters the domains in the scope of the propagator only.** -/
theorem alters_call
    (ready : ∀ p, prop = .packing p → p.Regular s.cells ∧ (p.desk s).Ready p.packing)
    (h : prop.call id s = .ok called) : Domains.Alters prop.scope s.domains called.store.domains := by
  cases prop with
  | packing p =>
    obtain ⟨regular, ready⟩ := ready p rfl
    have altered := Packing.alters_call regular.wf ready
    obtain ⟨desk, cause, rfl, ⟨-, result⟩ | ⟨reason, -, result⟩⟩ := Packer.exists_desk_of_call h
    · rwa [result] at altered
    · rwa [result] at altered
  | precedence p => exact alters_afterCall p.confines_revise h
  | probe p => exact alters_afterCall (s := s) p.confines_revise h

end Propagator

/-- The variables that a propagator will be able to narrow. -/
def Blueprint.scope : Blueprint → List Var
  | .packing _ p => p.vars
  | .precedence p => p.vars
  | .probe _ _ _ _ rules => rules.flatMap Rule.vars

end Stowage
