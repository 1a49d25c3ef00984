import Stowage.State
import Stowage.Statistics.Casing

/-!
# The statistics log

Statistics are written as lines `LEAD name=value`.  Before the log is configured they are discarded;
only the first configuration counts.

* `LogOptions`, `StatisticsLog.configure` — how lines are written.
* `linesOf` — the lines of a text.
* `StatisticsLog.log`, `StatisticsLog.close` — write a statistic, and the closing line.
* `loggerName` — the name under which related statistics are logged.
* `State.statistics` — the statistics of a state.
-/

set_option autoImplicit false

namespace Stowage

/-- How statistics are written. -/
structure LogOptions where
  /-- What every line starts with. -/
  lead : String
  /-- The text written once all statistics have been logged. -/
  closing : Option String
  /-- The casing of the names; as they are if there is none. -/
  casing : Option Casing
  deriving DecidableEq, Repr

/-- A line from its characters, last one first; a carriage return at its end belongs to the end of the
line. -/
def finishLine : List Char → String
  | '\r' :: line => String.ofList line.reverse
  | line => String.ofList line.reverse

/-- The lines of a text of which `line` holds the characters of the current line so far, last one
first. -/
def linesFrom : List Char → List Char → List String
  | line, [] => [finishLine line]
  | line, c :: rest =>
    if c = '\n' then finishLine line :: linesFrom [] rest else linesFrom (c :: line) rest

/-- The lines of a text that is written with a line feed after it: a line ends at a line feed, with or
without a carriage return before it. -/
def linesOf (text : String) : List String := linesFrom [] text.toList

def LogOptions.statistic (o : LogOptions) (name value : String) : List String :=
  let spelled := match o.casing with
    | some c => c.apply name
    | none => name
  linesOf (o.lead ++ " " ++ spelled ++ "=" ++ value)

/-- The lines that close the statistics. -/
def LogOptions.closingLines (o : LogOptions) : List String :=
  match o.closing with
  | some text => linesOf text
  | none => []

/-- The configuration of a log, if it has one, and the lines written. -/
structure StatisticsLog where
  options : Option LogOptions
  lines : List String
  deriving DecidableEq, Repr

namespace StatisticsLog

def silent : StatisticsLog := ⟨none, []⟩

/-- Configures the log, unless it is configured already. -/
def configure (l : StatisticsLog) (o : LogOptions) : StatisticsLog :=
  { l with options := l.options <|> some o }

def isConfigured (l : StatisticsLog) : Bool := l.options.isSome

/-- Writes lines that depend on the configuration; none if there is none. -/
def write (l : StatisticsLog) (lines : LogOptions → List String) : StatisticsLog :=
  match l.options with
  | some o => { l with lines := l.lines ++ lines o }
  | none => l

def log (l : StatisticsLog) (name value : String) : StatisticsLog :=
  l.write fun o => o.statistic name value

def logAll (l : StatisticsLog) (statistics : List (String × String)) : StatisticsLog :=
  statistics.foldl (fun l (name, value) => l.log name value) l

/-- Writes the closing line, if there is one. -/
def close (l : StatisticsLog) : StatisticsLog := l.write LogOptions.closingLines

/-- The same log without the lines written so far. -/
def cleared (l : StatisticsLog) : StatisticsLog := { l with lines := [] }

end StatisticsLog

/-- The name that the given parts make together. -/
def loggerName (parts : List String) : String := "_".intercalate parts

def attachSuffix (name suffix : String) : String := name ++ "_" ++ suffix

/-- The statistics of a propagator, named after its kind and number. -/
def Propagator.statistics (prop : Propagator) (id : Nat) : List (String × String) :=
  let name := loggerName [prop.name, "number", toString id]
  prop.counters.map fun (counter, value) => (attachSuffix name counter, toString value)

/-- The statistics of a state; with `verbose` also those of its propagators. -/
def State.statistics (s : State) (verbose : Bool) : List (String × String) :=
  [("variables", toString s.domains.count), ("propagators", toString s.propagators.size),
    ("failures", toString s.totals.conflicts), ("propagations", toString s.totals.calls),
    ("restores", toString s.totals.restores)] ++
  if verbose then
    s.propagators.toList.zipIdx.flatMap fun (prop, id) => prop.statistics id
  else []

end Stowage
