import Stowage.Domain

/-!
# Events

An event is a kind of change of a domain that a propagator may want to hear about.

* `Event.ofChange` — the events of one narrowing, in the order in which they are announced.
* `Pending` — the events that have occurred and are not announced yet, each at most once.
-/

set_option autoImplicit false

namespace Stowage

/-- A kind of change of a domain. -/
inductive Event where
  /-- The bounds meet now and did not before. -/
  | assign
  /-- The lower bound moved up. -/
  | lowerBound
  /-- The upper bound moved down. -/
  | upperBound
  /-- A value was removed by a predicate `≠`. -/
  | removal
  deriving DecidableEq, Repr

namespace Event

/-- All events, in the order in which a set of events is listed. -/
def all : List Event := [.assign, .lowerBound, .upperBound, .removal]

def bounds : List Event := [.lowerBound, .upperBound]

/-- The elements of a list of events, once each, in the order of `Event.all`. -/
def listed (events : List Event) : List Event := all.filter events.contains

def render : Event → String
  | .assign => "[Event:Assign]"
  | .lowerBound => "[Event:LB]"
  | .upperBound => "[Event:UB]"
  | .removal => "[Event:Remove]"

/-- The events of a change from one domain to another by a predicate with the given comparison. -/
def ofChange (before after : Domain) (c : Comparison) : List Event :=
  (if before.lower ≠ after.lower then [.lowerBound] else []) ++
  (if before.upper ≠ after.upper then [.upperBound] else []) ++
  (if before.lower ≠ before.upper ∧ after.lower = after.upper then [.assign] else []) ++
  (if c = .ne then [.removal] else [])

end Event

/-- The events that wait to be announced, in the order of their first occurrence.  An event is known to
wait by its mark. -/
structure Pending where
  entries : Array (Event × Var)
  /-- The events marked as waiting. -/
  present : List (Event × Var)
  marked : present.Perm entries.toList
  nodup : entries.toList.Nodup
  deriving DecidableEq, Repr

namespace Pending

def empty : Pending := ⟨#[], [], .nil, .nil⟩

def isEmpty (p : Pending) : Bool := p.entries.isEmpty

theorem mem_present {p : Pending} {entry : Event × Var} : entry ∈ p.present ↔ entry ∈ p.entries :=
  p.marked.mem_iff.trans Array.mem_toList_iff

theorem perm_push {p : Pending} (entry : Event × Var) :
    (entry :: p.present).Perm (p.entries.push entry).toList := by
  rw [Array.toList_push]
  exact (p.marked.cons entry).trans (List.perm_append_singleton _ _).symm

theorem nodup_push {p : Pending} {entry : Event × Var} (new : entry ∉ p.present) :
    (p.entries.push entry).toList.Nodup := by
  rw [Array.toList_push]
  exact (List.perm_append_singleton _ _).nodup_iff.2
    (List.nodup_cons.2 ⟨fun member => new (p.marked.mem_iff.2 member), p.nodup⟩)

/-- Adds an event of a variable unless it waits already. -/
def add (p : Pending) (x : Var) (e : Event) : Pending :=
  if waits : (e, x) ∈ p.present then p
  else ⟨p.entries.push (e, x), (e, x) :: p.present, perm_push _, nodup_push waits⟩

/-- Adds several events of a variable, in order. -/
def addAll (p : Pending) (x : Var) (events : List Event) : Pending :=
  events.foldl (fun p e => p.add x e) p

/-- Taking away every mark that there is, in whatever order. -/
theorem foldl_erase_of_perm {marks entries : List (Event × Var)} (h : marks.Perm entries) :
    entries.foldl List.erase marks = [] := by
  induction entries generalizing marks with
  | nil => exact h.eq_nil
  | cons entry entries ih => exact ih (List.cons_perm_iff_perm_erase.1 h.symm).2.symm

/-- Takes out all events, the marks one by one. -/
def drain (p : Pending) : Pending where
  entries := #[]
  present := p.entries.toList.foldl List.erase p.present
  marked := by rw [foldl_erase_of_perm p.marked]
  nodup := .nil

/-- No event waits after the events were taken out, and none is marked as waiting. -/
@[simp] theorem drain_eq (p : Pending) : p.drain = empty := by
  simp only [drain, empty, foldl_erase_of_perm p.marked]

end Pending

end Stowage
