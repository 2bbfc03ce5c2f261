import Adjacency.Config
import Adjacency.CommandLine.Arguments

/-!
# The answer to a request

A traversal builds the population's graph under the configuration, asks for the oldest acquaintances,
and reports sizes and rows.

* `Prepared.ofTask`, `Prepared.report`: the run.
* `Report.lines`: what is printed.
* `CommandError.code`, `CommandError.message`: how a request fails.
-/

namespace Adjacency.CommandLine

/-- Why a request is not answered. -/
inductive CommandError
  | usage (e : UsageError)
  | config (e : ConfigError)
  | zeroBatchSize
  | graph (e : GraphError)
  /-- A list as long as asked for cannot be held. -/
  | tooLarge

/-- The exit code. -/
def CommandError.code : CommandError → UInt32
  | .usage _ => 2
  | .config _ | .zeroBatchSize | .graph _ => 1
  | .tooLarge => 101

def CommandError.message : CommandError → String
  | .usage e => e.message
  | .config .unreadable => "failed to read engine config"
  | .config (.malformed _) => "failed to parse engine config"
  | .config (.invalid flaw) => flaw.message
  | .zeroBatchSize => "--batch-size must be positive"
  | .graph e => e.message
  | .tooLarge => "capacity overflow"

/-- What a traversal reports. -/
structure Report where
  nodes : Nat
  edges : Nat
  batchSize : Nat
  timedOut : Bool
  rows : List Record

/-- The number of the node in a slot, as a signed word; -1 without a node. -/
def nodeText (r : Record) (slot : Nat) : String :=
  toString (((r.node? slot).map fun id => id.word.toInt64.toInt).getD (-1))

/-- The age in slot 2, null when it is unknown. -/
def ageText (r : Record) : String :=
  match r.value 2 with
  | .int age => toString age.toInt
  | _ => "null"

/-- The name in slot 3, null when it is unknown. -/
def nameText (r : Record) : String :=
  match r.value 3 with
  | .string name => name
  | _ => "null"

def rowText (r : Record) : String :=
  "  " ++ nodeText r 0 ++ " -> " ++ nodeText r 1 ++ "  age=" ++ ageText r ++ "  name=" ++ nameText r

/-- Nanoseconds, as milliseconds with three places. -/
def elapsedText (nanoseconds : Nat) : String :=
  let micros := (nanoseconds + 500) / 1000
  let places := toString (1000 + micros % 1000)
  "elapsed: " ++ toString (micros / 1000) ++ "." ++ String.ofList (places.toList.drop 1) ++ " ms"

/-- The report as it is printed, with the time that the query took where it was measured. -/
def Report.lines (elapsed : Option Nat) (r : Report) : List String :=
  ["nodes: " ++ toString r.nodes, "edges: " ++ toString r.edges,
    "batch size: " ++ toString r.batchSize, "rows: " ++ toString r.rows.length,
    "timed out: " ++ toString r.timedOut] ++ (elapsed.map elapsedText).toList ++ r.rows.map rowText

/-- The outcome of an action that must succeed, with what it acted on. -/
def completed {σ α : Type} (act : Metered σ α) (s : σ × CallCounts) :
    Except CommandError (α × σ × CallCounts) :=
  match act s with
  | .ok a t => .ok (a, t)
  | .error e _ => .error (.graph e)

/-- Refuses a list that is too long to be held. -/
def checkLength (length : Nat) : Except CommandError Unit :=
  if reservationLimit ≤ length then .error .tooLarge else .ok ()

/-- A graph and a plan that is ready to run on it. -/
structure Prepared where
  graph : Graph
  counts : CallCounts
  plan : Plan

/-- The graph and the plan of a task under a configuration. -/
def Prepared.ofTask (config : EngineConfig) (task : Traverse) : Except CommandError Prepared := do
  if task.batchSize = some 0 then .error .zeroBatchSize
  let batchSize := task.batchSize.getD config.execution.batchSize
  let (terms, start) ← completed Population.register (.new config.graphOptions, {})
  checkLength task.population.nodes
  let ((), graph, counts) ←
    completed (Population.settle task.population.degree terms task.population.draws) start
  checkLength batchSize
  let tree := Population.oldestKnown terms task.limit
  return { graph, counts, plan := .new tree { config.execution with batchSize } }

/-- Runs the plan. -/
def Prepared.report (p : Prepared) : Except CommandError Report := do
  let (result, _) ← completed (Plan.execute p.graph) (p.plan, p.counts)
  return {
    nodes := p.graph.nodeCount
    edges := p.graph.edgeCount
    batchSize := p.plan.options.batchSize
    timedOut := result.timedOut
    rows := result.records }

/-- The program's name and version. -/
def versionLine : String := "mgraph 0.1.0"

/-- The configuration for a request. A file is given by its contents, where it can be read. -/
def configFor (contents : String → Option String) (fallback : Option (Option String))
    (path : Option String) : Except CommandError EngineConfig :=
  (EngineConfig.ofFileOrDefault (path.map contents) fallback).mapError .config

/-- The lines that answer a request. -/
def answer (contents : String → Option String) (fallback : Option (Option String)) :
    Request → Except CommandError (List String)
  | .version => .ok [versionLine]
  | .traverse path task => do
    let prepared ← Prepared.ofTask (← configFor contents fallback path) task
    return (← prepared.report).lines none

/-- The whole program, the clock aside: from words and files to lines. -/
def respond (environment : Option String) (contents : String → Option String)
    (fallback : Option (Option String)) (words : List String) :
    Except CommandError (List String) := do
  answer contents fallback (← (Request.ofWords environment words).mapError .usage)

end Adjacency.CommandLine
