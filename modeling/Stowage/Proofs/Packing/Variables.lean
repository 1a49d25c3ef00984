import Stowage.Packing.Revision
import Stowage.Proofs.Packing.Weights

/-!
# The variables of a packing

* `Packing.vars` — the variables of the items and of the loads.
* `Packing.forall_mem_vars_iff` — what holds of all of them.
* `Packing.item_inj`, `Packing.item_ne_load`, `Packing.load_inj` — what it means that they are distinct.
-/

set_option autoImplicit false

namespace Stowage

namespace Packing

variable {p : Packing}

/-- The variables of the items and of the loads. -/
def vars (p : Packing) : List Var := p.items.toList ++ p.loadVars

theorem getElem?_items {i : Nat} (hi : i < p.numItems) : p.items.toList[i]? = some (p.item i) := by
  have bound : i < p.items.size := hi
  simp [item, bound]

theorem item_mem_vars {i : Nat} (hi : i < p.numItems) : p.item i ∈ p.vars :=
  List.mem_append_left _ (List.mem_of_getElem? (getElem?_items hi))

theorem load_mem_vars (shaped : p.Shaped) {d b : Nat} (hd : d < p.numDims) (hb : b < p.numBins) :
    p.load d b ∈ p.vars :=
  List.mem_append_right _ (List.mem_of_getElem? (getElem?_loadVars shaped hd hb))

/-- The variables are those of the items and those of the loads. -/
theorem forall_mem_vars_iff (shaped : p.Shaped) {P : Var → Prop} :
    (∀ x ∈ p.vars, P x) ↔
      (∀ i < p.numItems, P (p.item i)) ∧ ∀ d < p.numDims, ∀ b < p.numBins, P (p.load d b) := by
  constructor
  · intro all
    exact ⟨fun i hi => all _ (item_mem_vars hi), fun d hd b hb => all _ (load_mem_vars shaped hd hb)⟩
  · rintro ⟨items, loads⟩ x inside
    rcases List.mem_append.1 inside with item | load
    · obtain ⟨i, bound, rfl⟩ := List.getElem_of_mem item
      have hi : i < p.numItems := bound
      have entry := getElem?_items hi
      rw [List.getElem?_eq_getElem bound, Option.some.injEq] at entry
      exact entry ▸ items i hi
    · obtain ⟨j, entry⟩ := List.mem_iff_getElem?.1 load
      obtain ⟨d, hd, b, hb, rfl⟩ := exists_of_getElem?_loadVars shaped entry
      rw [getElem?_loadVars shaped hd hb, Option.some.injEq] at entry
      exact entry ▸ loads d hd b hb

section

variable (shaped : p.Shaped) (distinct : p.vars.Nodup)

include distinct

theorem item_inj {i j : Nat} (hi : i < p.numItems) (hj : j < p.numItems)
    (same : p.item i = p.item j) : i = j := by
  have items : p.items.toList.Nodup := (List.nodup_append'.1 distinct).1
  have places := (getElem?_items hi).trans ((congrArg some same).trans (getElem?_items hj).symm)
  have bound : i < p.items.toList.length := (List.getElem?_eq_some_iff.1 (getElem?_items hi)).1
  exact (List.getElem?_inj bound items).1 places

include shaped

theorem item_ne_load {i d b : Nat} (hi : i < p.numItems) (hd : d < p.numDims) (hb : b < p.numBins) :
    p.item i ≠ p.load d b := by
  intro same
  have apart := (List.nodup_append'.1 distinct).2.2
  refine apart (List.mem_of_getElem? (getElem?_items hi)) ?_
  rw [same]
  exact List.mem_of_getElem? (getElem?_loadVars shaped hd hb)

theorem load_inj {d b d' b' : Nat} (hd : d < p.numDims) (hb : b < p.numBins) (hd' : d' < p.numDims)
    (hb' : b' < p.numBins) (same : p.load d b = p.load d' b') : d = d' ∧ b = b' := by
  have loads : p.loadVars.Nodup := (List.nodup_append'.1 distinct).2.1
  have first := getElem?_loadVars shaped hd hb
  have second := getElem?_loadVars shaped hd' hb'
  have bound := (List.getElem?_eq_some_iff.1 first).1
  have offsets : d * p.numBins + b = d' * p.numBins + b' :=
    (List.getElem?_inj bound loads).1 (first.trans ((congrArg some same).trans second.symm))
  have places := p.loadOfPlace_loadPlace hd hb
  rw [loadPlace, offsets, ← loadPlace, p.loadOfPlace_loadPlace hd' hb'] at places
  simp only [Except.ok.injEq, Prod.mk.injEq] at places
  exact ⟨places.1.symm, places.2.symm⟩

end

end Packing

end Stowage
