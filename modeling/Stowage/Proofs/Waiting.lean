import Mathlib
import Stowage.Event
import Stowage.Queue

/-!
# What waits

* `Queue.contains_iff`, `Queue.isEmpty_iff` — what a queue keeps beside its lines tells who waits.
* `Queue.enqueue_spec` — a propagator that is put in the queue waits afterwards.
* `Queue.clear_eq` — a queue that was cleared is as good as new.
* `Pending.isEmpty_iff` — no event waits.
-/

set_option autoImplicit false

namespace Stowage

namespace Queue

theorem isEmpty_iff {q : Queue} : q.isEmpty = true ↔ q.toList = [] := by
  rw [isEmpty, beq_iff_eq, q.agree.count, List.length_eq_zero_iff]
  rfl

@[simp] theorem toList_clear (q : Queue) : q.clear.toList = [] := by
  simp [clear, Tables.clear, toList]

theorem length_clear (q : Queue) : q.clear.lines.length = q.lines.length := List.length_map ..

/-- A queue in which no propagator waits is that of any queue with as many lines, cleared. -/
theorem clear_eq {q r : Queue} (empty : r.toList = []) (lines : q.lines.length = r.lines.length) :
    q.clear = r := by
  have blank : r.lines = List.replicate r.lines.length [] :=
    List.eq_replicate_iff.2 ⟨rfl, fun line member => List.flatten_eq_nil_iff.1 empty line member⟩
  have cleared : q.lines.map (fun _ => ([] : List Nat)) = r.lines := by
    rw [List.map_const', lines, ← blank]
  have marked : r.marked = [] := (r.agree.marked.trans (.of_eq empty)).eq_nil
  have count : r.count = 0 := r.agree.count.trans (congrArg List.length empty)
  have levels : r.levels = [] := r.agree.levels_eq_nil_iff.2 empty
  obtain ⟨⟨_, _, _, _⟩, agree⟩ := r
  cases cleared
  cases marked
  cases count
  cases levels
  rfl

theorem contains_iff {q : Queue} {p : Nat} : q.contains p = true ↔ p ∈ q.toList := by
  rw [contains, List.contains_iff_mem]
  exact q.agree.mem_marked

theorem nodup_toList (q : Queue) : q.toList.Nodup := q.agree.nodup

/-- What a queue looks like after propagator `p` was put in it. -/
structure Enqueued (q : Queue) (p : Nat) (after : Queue) : Prop where
  lines : after.lines.length = q.lines.length
  mem : ∀ x, x ∈ after.toList ↔ x ∈ q.toList ∨ x = p

theorem enqueued_of_enqueue {q after : Queue} {p level : Nat}
    (h : q.enqueue p level = .ok after) : Enqueued q p after := by
  simp only [enqueue] at h
  split at h
  next waits =>
    cases h
    refine ⟨rfl, fun x => ⟨.inl, ?_⟩⟩
    rintro (member | rfl)
    · exact member
    · exact q.agree.mem_marked.1 waits
  next absent =>
    split at h
    next exist =>
      cases h
      refine ⟨List.length_modify .., fun x => ?_⟩
      exact (flatten_modify q.lines p exist).mem_iff.trans (List.mem_cons.trans or_comm)
    next => cases h

/-- A propagator can be put in a queue that has a line for its level. -/
theorem enqueue_spec (q : Queue) (p : Nat) {level : Nat} (h : level < q.lines.length) :
    ∃ after, q.enqueue p level = .ok after ∧ Enqueued q p after := by
  have result : ∃ after, q.enqueue p level = .ok after := by
    simp only [enqueue, h, dite_true]
    split
    · exact ⟨_, rfl⟩
    · exact ⟨_, rfl⟩
  obtain ⟨after, result⟩ := result
  exact ⟨after, result, enqueued_of_enqueue result⟩

theorem length_of_pop {q rest : Queue} {p : Nat} (h : q.pop = some (p, rest)) :
    rest.lines.length = q.lines.length := by
  have taken := pop_eq_some_iff.1 h
  cases levels : q.levels with
  | nil => simp [Tables.take, levels] at taken
  | cons level later =>
    obtain ⟨_, line, -, taken', -⟩ := q.agree.take_eq levels
    obtain ⟨-, same⟩ := Prod.mk.inj (Option.some.inj (taken.symm.trans taken'))
    rw [same]
    exact List.length_set

end Queue

theorem Priority.level_lt (p : Priority) : p.level < 4 := by
  cases p <;> decide

theorem Pending.isEmpty_iff {p : Pending} : p.isEmpty = true ↔ p = .empty := by
  constructor
  · intro none
    obtain ⟨entries, present, marked, nodup⟩ := p
    cases Array.isEmpty_iff.1 none
    cases marked.eq_nil
    rfl
  · intro none
    rw [none]
    rfl

theorem Event.mem_listed {events : List Event} {e : Event} :
    e ∈ Event.listed events ↔ e ∈ events := by
  cases e <;> simp [Event.listed, Event.all]

end Stowage
