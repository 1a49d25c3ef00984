import Stowage.Event
import Stowage.Table
import Stowage.Trailed

/-!
# The domains of all variables

The domains form a trailed table; every narrowing is logged with the bounds and the hole it changes,
by which it is undone, also if the domain has become empty.  Beside the
table stand the events that the narrowings caused and that nobody has been told yet.

* `Domains.create` — a new variable.
* `Domains.post` — narrows one domain to the values that satisfy a predicate.
* `Domains.evaluate` — the truth value of a predicate.
* `Domains.mark`, `Domains.restore` — add a checkpoint, go back to an earlier one.
-/

set_option autoImplicit false

namespace Stowage

def sumOf {α : Type} [Add α] [OfNat α 0] (xs : List α) : α := xs.foldr (· + ·) 0

/-- What posting a predicate did to the domain of its variable. -/
inductive Posting where
  /-- All values satisfied the predicate before. -/
  | unchanged
  /-- Some values were removed and some are left. -/
  | narrowed
  /-- No value is left. -/
  | emptied
  deriving DecidableEq, Repr

instance : Undo Domain Domain.Change := ⟨Domain.undo⟩

/-- The domains of all variables, with their history and the events not announced yet. -/
structure Domains where
  /-- The domain of every variable. -/
  table : Trailed Domain Domain.Change
  /-- The events not announced yet. -/
  pending : Pending
  deriving Repr

namespace Domains

def empty : Domains := ⟨.empty, .empty⟩

def count (ds : Domains) : Nat := ds.table.size

def checkpoint (ds : Domains) : Nat := ds.table.checkpoint

/-- The number of changes on the trail. -/
def changes (ds : Domains) : Nat := ds.table.trail.size

def has (ds : Domains) (x : Var) : Bool := decide (x < ds.count)

/-- The domain of a variable; faults if there is no such variable. -/
def fetch (ds : Domains) (x : Var) : Except Fault Domain := Table.fetch ds.table.values x

/-- The domain of a variable that exists. -/
def domain (ds : Domains) (x : Var) : Domain := (ds.table.get? x).getD (.interval 0 0)

/-- The lower bound of a variable that exists. -/
def lower (ds : Domains) (x : Var) : Int := (ds.domain x).lower

/-- The upper bound of a variable that exists. -/
def upper (ds : Domains) (x : Var) : Int := (ds.domain x).upper

/-- The number of values in all domains together. -/
def volume (ds : Domains) : Nat := sumOf (ds.table.values.toList.map Domain.size)

/-- Adds a variable with the values from `lower` to `upper`, of which there has to be one. -/
def create (ds : Domains) (lower upper : Int) : Except Fault (Var × Domains) := do
  require (decide (lower ≤ upper)) (.emptyInterval lower upper)
  require (decide (minValue ≤ lower) && decide (upper ≤ maxValue)) .overflow
  return (ds.count, { ds with table := ds.table.grow (.interval lower upper) })

/-- The truth value of a predicate, `none` if the values of its variable disagree. -/
def evaluate (ds : Domains) (q : Predicate) : Except Fault (Option Bool) := do
  return (← ds.fetch q.var).evaluate q.comparison q.value

/-- Narrows the domain `d` of the variable of `q` to the values that satisfy `q`.  A narrowing is
logged; its events are added to those not announced yet unless the domain becomes empty. -/
def narrow (ds : Domains) (q : Predicate) (d : Domain) : Posting × Domains :=
  if d.entails q.comparison q.value then (.unchanged, ds)
  else
    let after := d.narrow q.comparison q.value
    let table := ds.table.overwrite q.var (·.kept q.comparison q.value) after
    if after.isEmpty then (.emptied, { ds with table := table })
    else
      (.narrowed,
        ⟨table, ds.pending.addAll q.var (Event.ofChange d after q.comparison)⟩)

/-- Posts a predicate: narrows the domain of its variable to the values that satisfy it.  Faults where
the bounds of a domain that becomes empty cannot be made to cross. -/
def post (ds : Domains) (q : Predicate) : Except Fault (Posting × Domains) := do
  let d ← ds.fetch q.var
  require (!d.overflows q.comparison q.value) .overflow
  return ds.narrow q d

/-- Forgets the events not announced yet. -/
def clearPending (ds : Domains) : Domains := { ds with pending := ds.pending.drain }

@[simp] theorem pending_clearPending (ds : Domains) : ds.clearPending.pending = .empty :=
  Pending.drain_eq _

theorem pending_of_cleared {ds cleared : Domains} (h : cleared = ds.clearPending) :
    cleared.pending = .empty := by
  rw [h, pending_clearPending]

theorem clearPending_eq (ds : Domains) : ds.clearPending = { ds with pending := .empty } := by
  rw [← pending_clearPending ds]
  rfl

def mark (ds : Domains) : Domains := { ds with table := ds.table.mark }

@[simp] theorem checkpoint_mark (ds : Domains) : ds.mark.checkpoint = ds.checkpoint + 1 :=
  ds.table.checkpoint_mark

/-- Goes back to checkpoint `k`; the events not announced yet stay.  Nothing happens unless `k` is
before the current checkpoint. -/
def restore (ds : Domains) (k : Nat) : Domains := { ds with table := ds.table.restore k }

/-- Goes back to checkpoint `k`, which has to be before the current one. -/
def revert (ds : Domains) (k : Nat) : Except Fault Domains := do
  require (decide (k < ds.checkpoint)) (.checkpointNotEarlier k ds.checkpoint)
  require (ds.table.canUndo k) .outOfRange
  return ds.restore k

end Domains

end Stowage
