import Stowage.Constraint
import Stowage.Search
import Stowage.Statistics.Log

/-!
# Sessions

A session runs commands on a state, one after the other, and reports after each of them what has
changed.

* `Command`, `Answer` — what can be asked, and the answers.
* `State.perform` — runs a command.
* `Report`, `Session.step` — runs a command and reports the notes of the probes, and the domains and
  bins that differ from the last report.  After an inconsistency at checkpoint `k` the domains and bins
  are not reported until the state has gone back to a checkpoint before `k`.
-/

set_option autoImplicit false

namespace Stowage

/-- In which order a search fixes the variables. -/
inductive Strategy where
  | first
  | fewestValues
  deriving DecidableEq, Repr

def Strategy.rule : Strategy → SearchRule
  | .first => .first
  | .fewestValues => .fewestValues

/-- What can be asked of a session. -/
inductive Command where
  | create (lower upper : Int) (count : Nat)
  | post (q : Predicate)
  | propagate
  | checkpoint
  | restore (k : Nat)
  | addBinPacking (items : Array Var) (sizes : Array Int) (loads : Array Var)
    (policy : Option BigItems) (numbered : Numbered #[loads])
  | addVectorBinPacking (items : Array Var) (sizes : Array (Array Int)) (loads : Array (Array Var))
    (numbered : Numbered loads)
  | install (blueprint : Blueprint)
  | query (x : Var) (values : List Int)
  | evaluate (q : Predicate)
  | kindOf (id : Nat)
  | names
  | check
  | recompute (id : Nat)
  | statistics (verbose : Bool)
  | search (vars : List Var) (strategy : Strategy) (maxNodes maxSolutions : Nat) (check : Bool)
  deriving Repr

/-- What is known about a variable. -/
structure VarInfo where
  lower : Int
  upper : Int
  value : Option Int
  /-- The smallest values. -/
  values : List Int
  /-- For every value asked for whether the domain contains it. -/
  contained : List Bool
  deriving DecidableEq, Repr

/-- What is known about a predicate. -/
structure PredicateInfo where
  truth : Option Bool
  isSatisfied : Bool
  isFalsified : Bool
  /-- Whether its variable is fixed, and to which value. -/
  isFixed : Bool
  value : Option Int
  deriving DecidableEq, Repr

/-- The domain of a variable as it is reported. -/
structure DomainReport where
  var : Var
  lower : Int
  upper : Int
  holes : List Int
  deriving DecidableEq, Repr

/-- A bin of a packing as it is reported. -/
structure BinReport where
  /-- The packing, counted among those added successfully. -/
  handle : Nat
  bin : Nat
  isAvailable : Bool
  candidates : List Var
  /-- For every dimension the required load, the total load and the free space. -/
  loads : List (Int × Int × Int)
  deriving DecidableEq, Repr

/-- The answer to a command. -/
inductive Answer where
  | done
  | created (vars : List Var)
  | posted (posting : Posting)
  | propagated (conflict : Option Conflict)
  | installed (id : Nat)
  | refused (error : ConstraintError)
  | variable (info : VarInfo)
  | predicate (info : PredicateInfo)
  | kind (name : String)
  | names (text : String)
  | checked (isStable : Bool)
  /-- The inconsistency found by recomputing a propagator, or the domains it would change. -/
  | recomputed (conflict : Option Conflict) (changed : List DomainReport)
  | lines (lines : List String)
  | found (findings : Findings)
  deriving Repr

/-! ## Reports of domains and bins -/

/-- The number of values that the answer to a query lists at most. -/
def listedValues : Nat := 50

/-- The holes of a domain are listed if its bounds are at most this far apart. -/
def listedWidth : Int := 1000

/-- The domain of variable `x` as it is reported. -/
def Domain.report (d : Domain) (x : Var) : DomainReport :=
  { var := x
    lower := d.lower
    upper := d.upper
    holes :=
      if d.upper < d.lower ∨ listedWidth < d.upper - d.lower then []
      else Sorting.sort (fun v w => decide (v ≤ w)) d.innerHoles }

def Domains.reports (ds : Domains) : List DomainReport :=
  ds.table.values.toList.zipIdx.map fun (d, x) => d.report x

/-- The bins of a packing as they are reported. -/
def Packer.reports (p : Packer) (s : Store) (handle : Nat) : List BinReport :=
  let ledger := s.ledger p
  p.packing.binList.map fun b =>
    { handle
      bin := b
      isAvailable := ledger.isAvailable b
      candidates := (ledger.bin b).candidates.map p.packing.item
      loads := p.packing.dimList.map fun d =>
        let e := ledger.entry d b
        (e.required, e.total, p.packing.freeSpace ledger s.domains d b) }

/-- The bins of propagator `id`, if it is a packing, as they are reported. -/
def State.binReports (s : State) (id handle : Nat) : List BinReport :=
  match s.propagators[id]? with
  | some (.packing p) => p.reports s.store handle
  | _ => []

/-- The entries of a list that are new or differ from the entry at the same position of an earlier
list. -/
def changedSince {α : Type} [BEq α] : List α → List α → List α
  | _, [] => []
  | [], later => later
  | a :: earlier, b :: later =>
    if a == b then changedSince earlier later else b :: changedSince earlier later

namespace State

/-! ## Questions -/

/-- What is known about variable `x`, and which of the given values its domain contains. -/
def query (s : State) (x : Var) (values : List Int) : Except Fault VarInfo := do
  let d ← s.domains.fetch x
  return {
    lower := d.lower
    upper := d.upper
    value := d.fixedValue?
    values := d.smallestValues listedValues
    contained := values.map d.contains }

def evaluate (s : State) (q : Predicate) : Except Fault PredicateInfo := do
  let truth ← s.domains.evaluate q
  let d ← s.domains.fetch q.var
  return {
    truth
    isSatisfied := truth == some true
    isFalsified := truth == some false
    isFixed := d.isFixed
    value := d.fixedValue? }

/-- The names of the propagators in quotes, as a list. -/
def renderNames (s : State) : String :=
  Table.renderWith (fun prop => "\"" ++ prop.name ++ "\"") s.propagators

/-- The domains that the rules of propagator `id` change when they are applied to a copy. -/
def recomputed (s : State) (id : Nat) : Except Fault Answer := do
  let (conflict, ds) ← s.recompute id
  return .recomputed conflict (changedSince s.domains.reports ds.reports)

/-- The lines that logging the statistics of the state writes. -/
def statisticsLines (s : State) (options : Option LogOptions) (verbose : Bool) : List String :=
  (((StatisticsLog.mk options []).logAll (s.statistics verbose)).close).lines

/-- The answer to an attempt to add a constraint. -/
def answerConstraint : Except ConstraintError Nat → Answer
  | .ok id => .installed id
  | .error e => .refused e

/-- Runs a command; `options` tells how statistics are written. -/
def perform (s : State) (options : Option LogOptions) : Command → Except Fault (Answer × State)
  | .create lower upper count => do
    let (xs, s) ← s.createMany lower upper count
    return (.created xs, s)
  | .post q => do
    let (posting, s) ← s.post q
    return (.posted posting, s)
  | .propagate => do
    let (conflict, s) ← s.propagate
    return (.propagated conflict, s)
  | .checkpoint => return (.done, ← s.checkpointed)
  | .restore k => return (.done, ← s.restore k)
  | .addBinPacking items sizes loads policy numbered => do
    let (result, s) ← s.addBinPacking items sizes loads (policy.getD .dynamic) numbered
    return (answerConstraint result, s)
  | .addVectorBinPacking items sizes loads numbered => do
    let (result, s) ← s.addVectorBinPacking items sizes loads numbered
    return (answerConstraint result, s)
  | .install blueprint => do
    let (id, s) ← s.install blueprint
    return (.installed id, s)
  | .query x values => return (.variable (← s.query x values), s)
  | .evaluate q => return (.predicate (← s.evaluate q), s)
  | .kindOf id => return (.kind (← Table.fetch s.propagators id).name, s)
  | .names => return (.names s.renderNames, s)
  | .check => return (.checked (← s.isStable), s)
  | .recompute id => return (← s.recomputed id, s)
  | .statistics verbose => return (.lines (s.statisticsLines options verbose), s)
  | .search vars strategy maxNodes maxSolutions check => do
    let (findings, s) ← s.search ⟨vars, strategy.rule, maxNodes, maxSolutions, check⟩
    return (.found findings, s)

end State

/-- Whether an answer tells of an inconsistency that is left in the state. -/
def Answer.breaks : Answer → Bool
  | .posted .emptied => true
  | .propagated (some _) => true
  | .refused .infeasiblePropagator => true
  | _ => false

/-- Whether a command that was answered so has added a packing. -/
def Command.addsPacking : Command → Answer → Option Nat
  | .addBinPacking .., .installed id => some id
  | .addVectorBinPacking .., .installed id => some id
  | .install (.packing ..), .installed id => some id
  | _, _ => none

/-- A state with what has been reported about it. -/
structure Session where
  state : State
  /-- The propagators that are packings added successfully. -/
  handles : Array Nat
  /-- The smallest checkpoint at which there is an inconsistency. -/
  brokenAt : Option Nat
  /-- The domains as last reported. -/
  domains : List DomainReport
  /-- The bins as last reported. -/
  bins : List BinReport
  deriving Repr

/-- The report after a command. -/
structure Report where
  answer : Answer
  checkpoint : Nat
  /-- What the probes noted down. -/
  log : List String
  isBroken : Bool
  /-- The domains that are new or differ from the last report. -/
  domains : List DomainReport
  /-- The bins that are new or differ from the last report. -/
  bins : List BinReport
  deriving Repr

namespace Session

/-- A session without variables and propagators. -/
def empty : Session := ⟨.empty, #[], none, [], []⟩

/-- The checkpoint that counts as broken after a command. -/
def brokenAfter (brokenAt : Option Nat) (c : Command) (answer : Answer) (checkpoint : Nat) :
    Option Nat :=
  if answer.breaks then some ((brokenAt.map (min checkpoint)).getD checkpoint)
  else
    match c with
    | .restore k => brokenAt.filter fun broken => decide (broken ≤ k)
    | _ => brokenAt

/-- All bins as they are reported now. -/
def currentBins (state : State) (handles : Array Nat) : List BinReport :=
  handles.toList.zipIdx.flatMap fun (id, handle) => state.binReports id handle

/-- Runs a command; `options` tells how statistics are written. -/
def step (s : Session) (options : Option LogOptions) (c : Command) :
    Except Fault (Report × Session) := do
  let (answer, state) ← s.state.perform options c
  let log := state.notes.toList.map Note.render
  let state := { state with notes := #[] }
  let handles := match c.addsPacking answer with
    | some id => s.handles.push id
    | none => s.handles
  let brokenAt := brokenAfter s.brokenAt c answer state.checkpoint
  if brokenAt.isSome then
    return (⟨answer, state.checkpoint, log, true, [], []⟩, { s with state, handles, brokenAt })
  else
    let domains := state.domains.reports
    let bins := currentBins state handles
    let report : Report :=
      { answer
        checkpoint := state.checkpoint
        log
        isBroken := false
        domains := changedSince s.domains domains
        bins := changedSince s.bins bins }
    return (report, { state, handles, brokenAt, domains, bins })

end Session

end Stowage
