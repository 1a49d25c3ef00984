import Stowage.Proofs.Installing

/-!
# The histories of the domains

Domains are reached from no variables by adding variables, posting, adding checkpoints and going back.
A post may empty a domain, and the history may go on from there.  Going back can return to any
checkpoint, so what is to hold of all domains reached has to hold of what every checkpoint would
restore: that is the invariant here, and it holds of any property that the writes have.

* `Trailed.Always` — a property of all values of a table, at every checkpoint it can go back to.
* `Domain.Orderly` — the bounds are values of the domain unless they have crossed.
* `Domains.Reached` — the domains that can be reached.
* `Domains.Reached.orderly` — all their domains are orderly.
-/

set_option autoImplicit false

namespace Stowage

namespace Trailed

variable {α ε : Type}

theorem get?_grow {t : Trailed α ε} {a b : α} {i : Nat} (h : (t.grow a).get? i = some b) :
    t.get? i = some b ∨ b = a := by
  simp only [get?, grow, Array.getElem?_push] at h ⊢
  split at h
  · cases h
    exact .inr rfl
  · exact .inl h

variable [Undo α ε]

/-- All values have the property, now and after going back to any checkpoint. -/
structure Always (P : α → Prop) (t : Trailed α ε) : Prop where
  lawful : t.Lawful
  views : ∀ k ≤ t.checkpoint, ∀ i a, (t.restore k).get? i = some a → P a

namespace Always

variable {P : α → Prop} {t : Trailed α ε}

theorem current (h : Always P t) {i : Nat} {a : α} (found : t.get? i = some a) : P a :=
  h.views t.checkpoint le_rfl i a (by rwa [restore_self])

theorem empty : Always P (empty : Trailed α ε) := by
  refine ⟨lawful_empty, fun k earlier i a found => ?_⟩
  obtain rfl : k = (Trailed.empty : Trailed α ε).checkpoint := Nat.le_zero.1 earlier
  rw [restore_self] at found
  simp [get?, Trailed.empty] at found

theorem grow (h : Always P t) {a : α} (new : P a) : Always P (t.grow a) := by
  refine ⟨h.lawful.grow a, fun k earlier i b found => ?_⟩
  rw [restore_grow h.lawful] at found
  obtain old | rfl := get?_grow found
  · exact h.views k earlier i b old
  · exact new

/-- A write shows at the current checkpoint only. -/
theorem overwrite (h : Always P t) (i : Nat) {keep : α → ε} {a : α}
    (back : ∀ old, t.get? i = some old → Undo.back a (keep old) = old) (new : P a) :
    Always P (t.overwrite i keep a) := by
  refine ⟨h.lawful.overwrite i keep a, fun k earlier j b found => ?_⟩
  rw [checkpoint_overwrite] at earlier
  rcases Nat.lt_or_eq_of_le earlier with before | rfl
  · rw [restore_overwrite t i back before] at found
    exact h.views k earlier j b found
  · rw [← checkpoint_overwrite t i keep a, restore_self, get?_overwrite] at found
    split at found
    · cases found
      exact new
    · exact h.current found

theorem mark (h : Always P t) : Always P t.mark := by
  refine ⟨h.lawful.mark, fun k earlier i a found => ?_⟩
  rcases Nat.lt_or_eq_of_le earlier with before | rfl
  · rw [checkpoint_mark] at before
    rw [restore_mark t (Nat.lt_succ_iff.1 before)] at found
    exact h.views k (Nat.lt_succ_iff.1 before) i a found
  · rw [restore_self] at found
    exact h.current found

theorem restore (h : Always P t) {k : Nat} (earlier : k ≤ t.checkpoint) : Always P (t.restore k) := by
  refine ⟨h.lawful.restore k, fun j inner i a found => ?_⟩
  rw [checkpoint_restore, Nat.min_eq_left earlier] at inner
  rw [restore_restore t inner] at found
  exact h.views j (inner.trans earlier) i a found

end Always

end Trailed

namespace Domain

/-- No hole is listed twice, and the bounds are values unless they have crossed. -/
structure Orderly (d : Domain) : Prop where
  holes_nodup : d.holes.Nodup
  proper : d.isEmpty = false → d.Proper

theorem Proper.orderly {d : Domain} (h : d.Proper) : d.Orderly := ⟨h.holes_nodup, fun _ => h⟩

/-- Settling the bounds makes up for a cut that leaves them on holes, also on old ones that a return
has brought back between the bounds. -/
theorem Orderly.narrow {d : Domain} (h : d.Orderly) {c : Comparison} {v : Int}
    (open' : d.entails c v = false) : (d.narrow c v).Orderly := by
  refine ⟨nodup_cut h.holes_nodup open', fun filled => ?_⟩
  have before := ((mem_narrow open').1 (settle_bounds_mem filled).1).1
  have proper := h.proper (Bool.eq_false_iff.2 fun empty => not_mem_of_isEmpty empty _ before)
  exact proper.narrow open' filled

end Domain

namespace Domains

/-- The domains can be reached; some of them may be empty. -/
inductive Reached : Domains → Prop
  | empty : Reached .empty
  | create {ds after : Domains} {lower upper : Int} {x : Var} (before : Reached ds)
      (step : ds.create lower upper = .ok (x, after)) : Reached after
  | post {ds after : Domains} {q : Predicate} {posting : Posting} (before : Reached ds)
      (step : ds.post q = .ok (posting, after)) : Reached after
  | mark {ds : Domains} (before : Reached ds) : Reached ds.mark
  | revert {ds after : Domains} {k : Nat} (before : Reached ds) (step : ds.revert k = .ok after) :
      Reached after
  /-- The events that wait are announced. -/
  | announced {ds : Domains} (before : Reached ds) : Reached ds.clearPending

variable {ds after : Domains}

theorem revert_eq_ok {k : Nat} (h : ds.revert k = .ok after) :
    k < ds.checkpoint ∧ after = ds.restore k := by
  simp only [revert, bind, Except.bind, pure, Except.pure] at h
  split at h
  · cases h
  · rename_i earlier
    split at h
    · cases h
    · cases h
      exact ⟨of_decide_eq_true (Packing.require_eq_ok.1 earlier), rfl⟩

theorem domain_of_always {P : Domain → Prop} (h : ds.table.Always P) {x : Var} (exist : x < ds.count) :
    P (ds.domain x) := by
  refine h.current (i := x) ?_
  have bound : x < ds.table.values.size := exist
  simp [domain, Trailed.get?, bound]

theorem always_orderly_of_post (h : ds.table.Always Domain.Orderly) {q : Predicate}
    {posting : Posting} (step : ds.post q = .ok (posting, after)) :
    after.table.Always Domain.Orderly := by
  have exist := lt_count_of_post step
  have orderly := domain_of_always h exist
  rcases post_eq exist (fits_of_post step) with ⟨-, same⟩ | ⟨open', -, post⟩ | ⟨open', -, post⟩
  · cases same.symm.trans step
    exact h
  · cases post.symm.trans step
    exact h.overwrite q.var (back_withDomain ds _ _ _) (orderly.narrow open')
  · cases post.symm.trans step
    exact h.overwrite q.var (back_withDomain ds _ _ _) (orderly.narrow open')

/-- **All domains reached are orderly, and so are those at every checkpoint.** -/
theorem Reached.always_orderly (h : ds.Reached) : ds.table.Always Domain.Orderly := by
  induction h with
  | empty => exact .empty
  | create before step ih =>
    obtain ⟨-, proper, rfl⟩ := create_eq_ok step
    exact ih.grow proper.orderly
  | post before step ih => exact always_orderly_of_post ih step
  | mark before ih => exact ih.mark
  | revert before step ih =>
    obtain ⟨earlier, rfl⟩ := revert_eq_ok step
    exact ih.restore earlier.le
  | announced before ih => exact ih

theorem Reached.orderly (h : ds.Reached) {x : Var} (exist : x < ds.count) :
    (ds.domain x).Orderly := domain_of_always h.always_orderly exist

end Domains

end Stowage
