import Stowage.Propagator

/-!
# States

A state holds variables and propagators.  Predicates are posted, propagation narrows the domains
until no propagator can narrow them further, and checkpoints allow to go back.

* `State.create`, `State.install` — new variables and propagators.
* `State.post`, `State.propagate` — narrowing.
* `State.checkpointed`, `State.restore` — checkpoints.
* `State.recompute`, `State.isStable` — the propagators applied from nothing to a copy of the domains.
-/

set_option autoImplicit false

namespace Stowage

/-- A variable as it is known to a propagator that watches it. -/
structure Watch where
  propagator : Nat
  /-- The place of the variable among those of the propagator. -/
  place : Nat
  deriving DecidableEq, Repr

/-- What a state counts for its statistics. -/
structure Totals where
  /-- Calls of propagators. -/
  calls : Nat
  /-- Calls that found an inconsistency. -/
  conflicts : Nat
  /-- Returns to an earlier checkpoint. -/
  restores : Nat
  deriving DecidableEq, Repr

/-- An inconsistency with the propagator that found it. -/
structure Conflict where
  propagator : Nat
  cause : Inconsistency
  deriving DecidableEq, Repr

/-- The text of a propagator's number. -/
def renderPropagator (id : Nat) : String := s!"PropagatorId({id})"

def Conflict.text (c : Conflict) : String :=
  match c.cause with
  | .emptyDomain => "a domain became empty"
  | .conflict reason => renderPropagator c.propagator ++ " detected a conflict: " ++ reason.text

/-- Variables and propagators. -/
structure State where
  store : Store
  /-- For every variable the events watched and by whom, in the order of registration. -/
  watchers : Array (List (Event × Watch))
  propagators : Array Propagator
  queue : Queue
  totals : Totals
  /-- What the probes noted down. -/
  notes : Array Note
  deriving Repr

/-- What is to be installed as a propagator. -/
inductive Blueprint where
  | packing (kind : PackingKind) (packing : Packing)
  | precedence (precedence : Precedence)
  | probe (vars : List Var) (events : List Event) (priority : Priority) (skipped : List Event)
    (rules : List Rule)
  deriving Repr

namespace State

def empty : State := ⟨.empty, #[], #[], .empty, ⟨0, 0, 0⟩, #[]⟩

def checkpoint (s : State) : Nat := s.store.checkpoint

def domains (s : State) : Domains := s.store.domains

/-- The number that the next propagator receives. -/
def nextPropagator (s : State) : Nat := s.propagators.size

def withDomains (s : State) (ds : Domains) : State :=
  { s with store := { s.store with domains := ds } }

/-! ## Variables -/

/-- Adds a variable with the values from `lower` to `upper`, of which there has to be one. -/
def create (s : State) (lower upper : Int) : Except Fault (Var × State) := do
  let (x, ds) ← s.domains.create lower upper
  return (x, { s.withDomains ds with watchers := s.watchers.push [] })

/-- Adds `count` variables with the same values. -/
def createMany (s : State) (lower upper : Int) : Nat → Except Fault (List Var × State)
  | 0 => return ([], s)
  | count + 1 => do
    let (x, s) ← s.create lower upper
    let (xs, s) ← s.createMany lower upper count
    return (x :: xs, s)

/-! ## Propagators -/

/-- Adds a watch for some events unless it is there already. -/
def register (list : List (Event × Watch)) (events : List Event) (w : Watch) :
    List (Event × Watch) :=
  (Event.listed events).foldl (fun l e => if l.contains (e, w) then l else l ++ [(e, w)]) list

/-- Lets a propagator watch some events of a variable; faults if there is no such variable. -/
def watch (s : State) (x : Var) (events : List Event) (w : Watch) : Except Fault State := do
  let list ← Table.fetch s.watchers x
  return { s with watchers := s.watchers.setIfInBounds x (register list events w) }

/-- Lets propagator `id` watch some events of the given variables, whose places count up from
`place`. -/
def watchAll (s : State) (id : Nat) (events : List Event) : Nat → List Var → Except Fault State
  | _, [] => return s
  | place, x :: xs => do
    let s ← s.watch x events ⟨id, place⟩
    s.watchAll id events (place + 1) xs

/-- Adds a propagator, which waits to be called. -/
def addPropagator (s : State) (prop : Propagator) : Except Fault (Nat × State) := do
  let id := s.nextPropagator
  let queue ← s.queue.enqueue id prop.priority.level
  return (id, { s with propagators := s.propagators.push prop, queue })

/-- Installs a packing, whose ledger is allocated as the current domains demand. -/
def installPacking (s : State) (kind : PackingKind) (p : Packing) : Except Fault (Nat × State) := do
  p.checkShape s.checkpoint
  let id := s.nextPropagator
  let s ← s.watchAll id Event.all 0 p.items.toList
  let s ← s.watchAll id Event.bounds p.numItems (p.loads.toList.flatMap Array.toList)
  let (layout, cells) := Layout.allocate p s.domains s.store.cells
  let s := { s with store := { s.store with cells } }
  s.addPropagator (.packing ⟨kind, p, layout, .initial, .zero⟩)

/-- Installs a propagator: lets it watch its variables, allocates what it keeps, and has it wait to
be called.  Returns its number. -/
def install (s : State) : Blueprint → Except Fault (Nat × State)
  | .packing kind p => s.installPacking kind p
  | .precedence p => do
    let s ← s.watchAll s.nextPropagator Event.bounds 0 p.vars
    s.addPropagator (.precedence p)
  | .probe vars events priority skipped rules => do
    let s ← s.watchAll s.nextPropagator events 0 vars
    let (callCell, cells) := s.store.cells.allocate 1 0
    let (seen, cells) := BitSet.allocate cells vars.length
    let s := { s with store := { s.store with cells := cells } }
    s.addPropagator (.probe ⟨vars, priority, skipped, rules, callCell, seen⟩)

/-! ## Narrowing -/

/-- Posts a predicate, without any propagation. -/
def post (s : State) (q : Predicate) : Except Fault (Posting × State) := do
  let (posting, ds) ← s.domains.post q
  return (posting, s.withDomains ds)

/-- The notifications that the pending events call for, in the order in which they are made. -/
def announcements (s : State) : List (Event × Watch) :=
  s.domains.pending.entries.toList.flatMap fun (e, x) =>
    (s.watchers[x]?.getD []).filter fun (watched, _) => watched = e

/-- Notifies one propagator of an event, and has it wait to be called if it wants to. -/
def tell (s : State) (event : Event) (w : Watch) : Except Fault State := do
  let prop ← Table.fetch s.propagators w.propagator
  let heard ← prop.notify w.propagator s.store w.place event
  let queue ←
    if heard.wake then s.queue.enqueue w.propagator heard.propagator.priority.level
    else .ok s.queue
  return { s with
    store := { s.store with cells := heard.cells }
    propagators := s.propagators.setIfInBounds w.propagator heard.propagator
    queue
    notes := s.notes ++ heard.notes.toArray }

/-- Announces the pending events to the propagators that watch them. -/
def announce (s : State) : Except Fault State := do
  require (s.domains.pending.entries.all fun (_, x) => decide (x < s.watchers.size)) .outOfRange
  s.announcements.foldlM (fun s (e, w) => s.tell e w) (s.withDomains s.domains.clearPending)

/-- Forgets all pending events and waiting propagators. -/
def abandon (s : State) : State :=
  { s.withDomains s.domains.clearPending with queue := s.queue.clear }

/-- Calls a propagator, and announces the events it has caused unless it found an inconsistency. -/
def callPropagator (s : State) (id : Nat) : Except Fault (Option Conflict × State) := do
  let prop ← Table.fetch s.propagators id
  let called ← prop.call id s.store
  let s :=
    { s with
      store := called.store
      propagators := s.propagators.setIfInBounds id called.propagator
      totals := { s.totals with calls := s.totals.calls + 1 }
      notes := s.notes ++ called.notes.toArray }
  match called.inconsistency with
  | none => return (none, ← s.announce)
  | some cause =>
    let s := { s with totals := { s.totals with conflicts := s.totals.conflicts + 1 } }
    return (some ⟨id, cause⟩, s.abandon)

/-- Calls the waiting propagators until none waits or one has found an inconsistency, at most
`limit` calls. -/
def callWaiting (s : State) : Nat → Except Fault (Option Conflict × State)
  | 0 => if s.queue.isEmpty then return (none, s) else .error .exhausted
  | limit + 1 =>
    match s.queue.pop with
    | none => return (none, s)
    | some (id, queue) => do
      let (conflict, s) ← { s with queue := queue }.callPropagator id
      match conflict with
      | none => s.callWaiting limit
      | some c => return (some c, s)

/-- The number of calls after which no propagator can wait any more: those that wait now, and every
propagator once for every value that can still be removed. -/
def callLimit (s : State) : Nat :=
  s.queue.toList.length + s.propagators.size * s.domains.volume

/-- Propagates until no propagator waits or one has found an inconsistency. -/
def propagate (s : State) : Except Fault (Option Conflict × State) := do
  let s ← s.announce
  s.callWaiting s.callLimit

/-! ## Checkpoints -/

/-- Adds a checkpoint; everything has to be propagated. -/
def checkpointed (s : State) : Except Fault State := do
  require (s.queue.isEmpty && s.domains.pending.isEmpty) .propagationPending
  return { s with store := s.store.mark }

/-- Lets every propagator discard what it had planned. -/
def discardPlans (s : State) : State :=
  let after := s.propagators.mapIdx fun id prop => prop.discard id s.store
  { s with
    propagators := after.map (·.1)
    notes := s.notes ++ (after.toList.flatMap (·.2)).toArray }

/-- Goes back to checkpoint `k`, which must not be after the current one.  Nothing happens if it is
the current one. -/
def restore (s : State) (k : Nat) : Except Fault State := do
  require (decide (k ≤ s.checkpoint)) .precondition
  if k = s.checkpoint then return s
  else
    let store ← s.store.revert k
    let s :=
      { s with
        store := store
        totals := { s.totals with restores := s.totals.restores + 1 } }
    return s.abandon.discardPlans

/-! ## Recomputation -/

/-- Applies the rules of propagator `id` to a copy of the domains; returns the inconsistency found, if
any, and the copy. -/
def recompute (s : State) (id : Nat) : Except Fault (Option Conflict × Domains) := do
  let prop ← Table.fetch s.propagators id
  match prop.recompute s.domains with
  | .ok _ ds => return (none, ds)
  | .error (.inconsistent cause) ds => return (some ⟨id, cause⟩, ds)
  | .error (.fault fault) _ => .error fault

/-- Whether none of the given propagators changes the domains when its rules are applied to a copy;
the propagators after the first that does are not tried. -/
def areStable (s : State) : List Nat → Except Fault Bool
  | [] => return true
  | id :: ids => do
    let (conflict, ds) ← s.recompute id
    if conflict.isNone && ds.changes == s.domains.changes then s.areStable ids else return false

/-- Whether no propagator changes the domains when its rules are applied to a copy. -/
def isStable (s : State) : Except Fault Bool := s.areStable (List.range s.propagators.size)

end State

end Stowage
