import Stowage.Predicate

/-!
# Domains of one variable

A domain is a finite set of integers, given by two bounds and the values between them that are
missing (the holes).  Holes outside the bounds do not count.  As long as a domain is not empty its
bounds are values of it; when it becomes empty its bounds cross.

Bounds are integers of 32 bits.  A narrowing computes with integers of any size, so where a bound would
leave that range it is asked beforehand: the lower bound of a domain that becomes empty is moved past the
upper one, which has no successor if it is the largest value.  All other bounds stay in the range.

* `Domain.contains` — membership; `v ∈ d` is the same as a proposition.
* `Domain.entails`, `Domain.narrow` — whether all values satisfy a comparison, and the domain of
  those values that do.
* `Domain.overflows` — whether a narrowing leaves the range of the bounds.
* `Domain.undo` — the domain of before a narrowing, by the bounds and the hole that were logged.
* `Domain.evaluate` — the truth value of a comparison, if the domain decides it.
* `Domain.values`, `Domain.size` — the values in increasing order, and their number.
-/

set_option autoImplicit false

namespace Stowage

/-- A finite set of integers: those from `lower` to `upper` that are not holes. -/
structure Domain where
  lower : Int
  upper : Int
  /-- Missing values; those outside the bounds do not count. -/
  holes : List Int
  deriving DecidableEq, Repr

namespace Domain

/-- All integers from `lower` to `upper`. -/
def interval (lower upper : Int) : Domain := ⟨lower, upper, []⟩

/-- Whether `v` is a value of the domain. -/
def contains (d : Domain) (v : Int) : Bool :=
  decide (d.lower ≤ v) && decide (v ≤ d.upper) && !d.holes.contains v

instance : Membership Int Domain := ⟨fun d v => d.contains v = true⟩

instance (v : Int) (d : Domain) : Decidable (v ∈ d) :=
  inferInstanceAs (Decidable (d.contains v = true))

def isEmpty (d : Domain) : Bool := decide (d.upper < d.lower)

def isFixed (d : Domain) : Bool := d.lower == d.upper

/-- The value of a domain whose bounds meet. -/
def fixedValue? (d : Domain) : Option Int := if d.isFixed then some d.lower else none

/-- The number of integers from the lower to the upper bound. -/
def width (d : Domain) : Nat := (d.upper + 1 - d.lower).toNat

def innerHoles (d : Domain) : List Int :=
  d.holes.filter fun v => decide (d.lower ≤ v) && decide (v ≤ d.upper)

def size (d : Domain) : Nat := d.width - d.innerHoles.length

/-- The `n` integers from the lower bound on that are values of the domain. -/
def valuesWithin (d : Domain) (n : Nat) : List Int :=
  ((List.range n).map fun (k : Nat) => d.lower + (k : Int)).filter d.contains

def values (d : Domain) : List Int := d.valuesWithin d.width

/-- The smallest `n` values, or all of them if there are fewer.  At most as many integers are passed
over on the way as the domain has holes. -/
def smallestValues (d : Domain) (n : Nat) : List Int :=
  (d.valuesWithin (min d.width (n + d.holes.length))).take n

/-! ## Narrowing -/

/-- The first of the `n` integers from `v` on that is no hole, or the integer after them. -/
def climb (holes : List Int) : Nat → Int → Int
  | 0, v => v
  | n + 1, v => if holes.contains v then climb holes n (v + 1) else v

/-- The first of the `n` integers from `v` downwards that is no hole, or the integer after them. -/
def descend (holes : List Int) : Nat → Int → Int
  | 0, v => v
  | n + 1, v => if holes.contains v then descend holes n (v - 1) else v

/-- Moves the lower bound up to a value of the domain; it crosses the upper bound if there is
none. -/
def settleLower (d : Domain) : Domain := { d with lower := climb d.holes d.width d.lower }

/-- Moves the upper bound down to a value of the domain. -/
def settleUpper (d : Domain) : Domain := { d with upper := descend d.holes d.width d.upper }

/-- Whether the comparison holds for the whole domain, judged by the bounds and by membership. -/
def entails (d : Domain) : Comparison → Int → Bool
  | .ge, v => decide (v ≤ d.lower)
  | .le, v => decide (d.upper ≤ v)
  | .eq, v => d.lower == v && d.upper == v
  | .ne, v => !d.contains v

/-- Excludes the values that fail the comparison, which the domain must not entail; the bounds may
be left on holes. -/
def cut (d : Domain) : Comparison → Int → Domain
  | .ge, v => { d with lower := v }
  | .le, v => { d with upper := v }
  | .eq, v =>
    if d.contains v then { d with lower := v, upper := v } else { d with lower := d.upper + 1 }
  | .ne, v =>
    if v = d.lower then { d with lower := d.lower + 1 }
    else if v = d.upper then { d with upper := d.upper - 1 }
    else { d with holes := v :: d.holes }

/-- Whether a cut moves the lower bound beyond the largest value. -/
def overflows (d : Domain) : Comparison → Int → Bool
  | .eq, v => !d.contains v && decide (maxValue ≤ d.upper)
  | .ne, v => d.contains v && v == d.lower && decide (maxValue ≤ v)
  | _, _ => false

/-- The domain without the values that fail a comparison that it does not entail. -/
def narrow (d : Domain) (c : Comparison) (v : Int) : Domain := (d.cut c v).settleLower.settleUpper

/-- What is kept of a domain that was narrowed: its bounds, and the value that became a hole. -/
structure Change where
  lower : Int
  upper : Int
  removed : Option Int
  deriving DecidableEq, Repr

/-- What is to be kept of the domain before it is narrowed.  A value removed at a bound moves the bound
and leaves no hole. -/
def kept (d : Domain) (c : Comparison) (v : Int) : Change where
  lower := d.lower
  upper := d.upper
  removed := if c = .ne ∧ v ≠ d.lower ∧ v ≠ d.upper then some v else none

/-- The domain with the bounds of before the change and without the hole that it made. -/
def undo (d : Domain) (change : Change) : Domain where
  lower := change.lower
  upper := change.upper
  holes := match change.removed with
    | some v => d.holes.erase v
    | none => d.holes

/-- The truth value of a comparison for the whole domain, `none` if the values disagree. -/
def evaluate (d : Domain) : Comparison → Int → Option Bool
  | .ge, v => if v ≤ d.lower then some true else if d.upper < v then some false else none
  | .le, v => if d.upper ≤ v then some true else if v < d.lower then some false else none
  | .ne, v =>
    if !d.contains v then some true
    else if d.lower = v ∧ d.upper = v then some false else none
  | .eq, v =>
    if !d.contains v then some false
    else if d.lower = v ∧ d.upper = v then some true else none

/-- A narrowing makes the hole that is kept of it and no other; settling the bounds makes none. -/
theorem holes_narrow (d : Domain) (c : Comparison) (v : Int) :
    (d.narrow c v).holes = (d.kept c v).removed.toList ++ d.holes := by
  show (d.cut c v).holes = _
  cases c with
  | ge => rfl
  | le => rfl
  | eq =>
    simp only [kept, cut, reduceCtorEq, false_and, if_false]
    split
    · rfl
    · rfl
  | ne =>
    simp only [kept, cut, true_and]
    by_cases low : v = d.lower
    · simp [low]
    · by_cases high : v = d.upper
      · rw [if_neg low, if_pos high, if_neg fun both => both.2 high]
        rfl
      · rw [if_neg low, if_neg high, if_pos ⟨low, high⟩]
        rfl

/-- A domain whose bounds are logged comes back if no hole but the logged one was added. -/
theorem undo_eq {d : Domain} {holes : List Int} {change : Change}
    (made : d.holes = change.removed.toList ++ holes) :
    d.undo change = ⟨change.lower, change.upper, holes⟩ := by
  obtain ⟨lower, upper, removed⟩ := change
  cases removed with
  | none => simpa [undo] using made
  | some v =>
    have made : d.holes = v :: holes := made
    simp [undo, made]

/-- **A narrowing is undone by what was kept of the domain.** -/
theorem undo_narrow (d : Domain) (c : Comparison) (v : Int) :
    (d.narrow c v).undo (d.kept c v) = d := undo_eq (holes_narrow d c v)

/-! ## Membership -/

theorem mem_iff {d : Domain} {v : Int} :
    v ∈ d ↔ d.lower ≤ v ∧ v ≤ d.upper ∧ v ∉ d.holes := by
  show d.contains v = true ↔ _
  simp [contains, and_assoc]

@[simp] theorem mem_interval {lower upper v : Int} :
    v ∈ interval lower upper ↔ lower ≤ v ∧ v ≤ upper := by
  simp [mem_iff, interval]

end Domain

end Stowage
