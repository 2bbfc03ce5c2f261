import Adjacency.Toml.Document
import Adjacency.Graph.Basic
import Adjacency.Query.Source

/-!
# Engine configuration

A configuration tunes matrices, execution and graph growth. It is written as a TOML document with the
tables `matrix`, `execution` and `graph`; every key may be left out.

* `Settings.read?`: what a text sets. Unknown keys and values of another type are refused.
* `Settings.resolve`: the values, checked one after the other.
* `EngineConfig.ofText`, `EngineConfig.ofFile`, `EngineConfig.ofFileOrDefault`: a configuration from
  its source.
-/

namespace Adjacency

/-- What a configuration text sets. -/
structure Settings where
  pendingThreshold : Option Nat
  hyperSwitch : Option Binary64
  bitmapSwitch : Option Binary64
  maxDenseCells : Option Nat
  sparsity : Option String
  parallelMinVectors : Option Nat
  batchSize : Option Nat
  timeout : Option Nat
  nodeBlock : Option Nat

namespace Settings

open Toml

/-- What a section says about each of its keys. As a table it may set any of them and nothing else;
as a list it gives them all, in their order. -/
def entries? (keys : List String) : Option Item → Option (List (Option Item))
  | none => some (keys.map fun _ => none)
  | some (.table _ fields) =>
    if fields.all fun f => keys.contains f.1 then some (keys.map (Fields.get? fields)) else none
  | some (.list items) =>
    if items.length < keys.length then none else some ((items.take keys.length).map some)
  | some _ => none

def natural? : Item → Option Nat
  | .integer n => if 0 ≤ n then some n.toNat else none
  | _ => none

/-- A ratio may be written as an integer. -/
def ratio? : Item → Option Binary64
  | .decimal x => some x
  | .integer n => some (.ofInt n)
  | _ => none

def name? : Item → Option String
  | .text s => some s
  | _ => none

/-- A key that may be missing. -/
def optional {α : Type} (read : Item → Option α) : Option Item → Option (Option α)
  | none => some none
  | some item => (read item).map some

/-- The settings in a text; none when it is no document of this form. -/
def read? (text : String) : Option Settings := do
  let document ← parse? text
  if !document.all (["matrix", "execution", "graph"].contains ·.1) then none
  let [pending, hyper, bitmap, cells, sparsity, vectors] ← entries?
    ["pending_threshold", "hyper_switch", "bitmap_switch", "max_dense_cells", "sparsity",
      "parallel_min_vectors"] (document.get? "matrix") | none
  let [batch, timeout] ← entries? ["batch_size", "timeout_ms"] (document.get? "execution") | none
  let [block] ← entries? ["node_block"] (document.get? "graph") | none
  return {
    pendingThreshold := ← optional natural? pending
    hyperSwitch := ← optional ratio? hyper
    bitmapSwitch := ← optional ratio? bitmap
    maxDenseCells := ← optional natural? cells
    sparsity := ← optional name? sparsity
    parallelMinVectors := ← optional natural? vectors
    batchSize := ← optional natural? batch
    timeout := ← optional natural? timeout
    nodeBlock := ← optional natural? block }

end Settings

/-- A value out of range. -/
inductive Flaw
  | pendingThreshold
  | hyperSwitch
  | bitmapSwitch
  | sparsity
  | batchSize
  | nodeBlock
  deriving DecidableEq

/-- The key of the value. -/
def Flaw.key : Flaw → String
  | .pendingThreshold => "matrix.pending_threshold"
  | .hyperSwitch => "matrix.hyper_switch"
  | .bitmapSwitch => "matrix.bitmap_switch"
  | .sparsity => "matrix.sparsity"
  | .batchSize => "execution.batch_size"
  | .nodeBlock => "graph.node_block"

/-- What the value should be. -/
def Flaw.reason : Flaw → String
  | .pendingThreshold | .batchSize | .nodeBlock => "must be positive"
  | .hyperSwitch | .bitmapSwitch => "must lie in [0, 1]"
  | .sparsity => "expected auto, sparse_only, full, bitmap, sparse or hypersparse"

/-- Where a configuration text comes from. -/
inductive TextSource
  | inline
  | file
  deriving DecidableEq

/-- Why there is no configuration. -/
inductive ConfigError
  /-- The file cannot be read. -/
  | unreadable
  /-- The text is no document of the expected form. -/
  | malformed (source : TextSource)
  | invalid (flaw : Flaw)
  deriving DecidableEq

/-- The wording of a bad value. -/
def Flaw.message (f : Flaw) : String :=
  "invalid engine config value for " ++ f.key ++ ": " ++ f.reason

/-- A sparsity policy by its name, in letters of either case. -/
def Sparsity.ofName? (name : String) : Option Sparsity :=
  match name.map Char.toLower with
  | "auto" => some .auto
  | "sparse_only" => some .sparseOnly
  | "full" => some (.fixed .full)
  | "bitmap" => some (.fixed .bitmap)
  | "sparse" => some (.fixed .sparse)
  | "hypersparse" => some (.fixed .hypersparse)
  | _ => none

/-- Options of the whole engine. -/
structure EngineConfig where
  matrix : MatrixOptions := {}
  execution : ExecOptions := {}
  /-- The growth block of graphs, where it is set. -/
  nodeBlock : Option Nat := none
  deriving Inhabited, DecidableEq

/-- The options of a graph under a configuration. -/
def EngineConfig.graphOptions (c : EngineConfig) : GraphOptions :=
  let options : GraphOptions := { matrix := c.matrix }
  match c.nodeBlock with
  | some block => options.withNodeBlock block
  | none => options

namespace Settings

/-- Refuses a value that fails a test. -/
def check {α : Type} (flaw : Flaw) (test : α → Bool) (v : Option α) : Except Flaw Unit :=
  if v.all test then .ok () else .error flaw

/-- The policy that a name stands for; the default without a name. -/
def policy (name : Option String) : Except Flaw Sparsity :=
  match name.map Sparsity.ofName? with
  | none => .ok .auto
  | some (some s) => .ok s
  | some none => .error .sparsity

def isUnitRatio (x : Binary64) : Bool := Binary64.zero.le x && x.le (.ofNat 1)

/-- The configuration that settings stand for. Of several bad values the first one in the order of
the keys is reported. -/
def resolve (s : Settings) : Except Flaw EngineConfig := do
  check .pendingThreshold (0 < ·) s.pendingThreshold
  check .hyperSwitch isUnitRatio s.hyperSwitch
  check .bitmapSwitch isUnitRatio s.bitmapSwitch
  let sparsity ← policy s.sparsity
  check .batchSize (0 < ·) s.batchSize
  check .nodeBlock (0 < ·) s.nodeBlock
  let base : MatrixOptions := {}
  return {
    matrix := {
      pendingThreshold := s.pendingThreshold.getD base.pendingThreshold
      hyperSwitch := s.hyperSwitch.getD base.hyperSwitch
      bitmapSwitch := s.bitmapSwitch.getD base.bitmapSwitch
      maxDenseCells := s.maxDenseCells.getD base.maxDenseCells
      sparsity
      parallelMinVectors := s.parallelMinVectors.getD base.parallelMinVectors }
    execution := {
      batchSize := s.batchSize.getD ({} : ExecOptions).batchSize
      timeout := s.timeout }
    nodeBlock := s.nodeBlock }

end Settings

namespace EngineConfig

/-- The configuration in a text from some source. -/
def ofTextFrom (source : TextSource) (text : String) : Except ConfigError EngineConfig :=
  match Settings.read? text with
  | none => .error (.malformed source)
  | some s => s.resolve.mapError .invalid

/-- The configuration in a text. -/
def ofText : String → Except ConfigError EngineConfig := ofTextFrom .inline

/-- The configuration in a file, given its contents where the file can be read. -/
def ofFile : Option String → Except ConfigError EngineConfig
  | none => .error .unreadable
  | some contents => ofTextFrom .file contents

/-- The configuration in the file that was asked for, which must exist, or else in the default
file, which need not. Each file is given by its contents, where it can be read. -/
def ofFileOrDefault : (asked fallback : Option (Option String)) → Except ConfigError EngineConfig
  | some contents, _ => ofFile contents
  | none, some contents => ofFile contents
  | none, none => .ok {}

/-- The environment variable that names the configuration file. -/
def pathVariable : String := "MATRIXGRAPH_CONFIG"

/-- The default configuration file: the one that the environment names, or else a fixed place in the
user's configuration directory. -/
def defaultPath (named directory : Option String) : Option String :=
  named <|> directory.map (· ++ "/matrixgraph/engine.toml")

end EngineConfig

end Adjacency
