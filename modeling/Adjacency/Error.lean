import Adjacency.Scalar

/-!
# Failures

Each failure carries its cause; `GraphError.message` is the only place that words it.
-/

namespace Adjacency

/-- The side of a matrix that an index addresses. -/
inductive Axis
  | row
  | column
  deriving DecidableEq

/-- The operation that found its operands' shapes at odds. -/
inductive ShapedOp
  | assign
  | product
  | union
  | evaluation
  deriving DecidableEq

/-- The storage that could not be reserved. -/
inductive MemorySite
  | hyperlist
  | vectorPointers
  | indices
  | values
  | commitExisting
  | commitPending
  | commitMerge
  | formatConversion
  | denseValues
  | bitmap
  | isoExpansion
  deriving DecidableEq

/-- A consistency rule of the library that turned out broken. -/
inductive Contract
  | isoPendingWithoutValue
  | pendingStillIncompatible
  | conversionWithDeferredState
  | fullWithMissingCells
  | unknownEdgeRelation
  | batchedRecordLostSource
  | resultRowOutsideBatch
  | traverseResultMissing
  | entryWithoutEdge
  deriving DecidableEq

/-- What makes an argument unacceptable. -/
inductive BadArgument
  | dimensionTooLarge
  | shrinkingResize
  | unboundFilter
  | emptyOperation
  | transposeArity
  | zeroBatch
  | traverseBeforeInit
  deriving DecidableEq

/-- The kind of thing that an identifier does not name. -/
inductive Entity
  | node
  | label
  | relation
  deriving DecidableEq

/-- A failed operation. -/
inductive GraphError
  | invalidIndex (axis : Axis) (index bound : Nat)
  | domainMismatch (source target : ScalarType)
  | dimensionMismatch (op : ShapedOp) (left right : Nat × Nat)
  | outOfMemory (site : MemorySite)
  | contractViolation (rule : Contract)
  | invalid (cause : BadArgument)
  | notFound (entity : Entity)
  deriving DecidableEq

def Axis.text : Axis → String
  | .row => "row"
  | .column => "column"

def ShapedOp.text : ShapedOp → String
  | .assign => "assign"
  | .product => "mxm"
  | .union => "ewise_add"
  | .evaluation => "eval"

def MemorySite.text : MemorySite → String
  | .hyperlist => "hyperlist"
  | .vectorPointers => "vector pointers"
  | .indices => "indices"
  | .values => "values"
  | .commitExisting => "commit existing entries"
  | .commitPending => "commit pending entries"
  | .commitMerge => "commit merge"
  | .formatConversion => "format conversion"
  | .denseValues => "dense values"
  | .bitmap => "bitmap"
  | .isoExpansion => "iso expansion"

def Contract.text : Contract → String
  | .isoPendingWithoutValue => "iso pending tuple without value"
  | .pendingStillIncompatible => "pending tuples still incompatible after commit"
  | .conversionWithDeferredState => "format conversion with deferred state"
  | .fullWithMissingCells => "full format with missing cells"
  | .unknownEdgeRelation => "edge with unknown relation"
  | .batchedRecordLostSource => "batched record lost its source"
  | .resultRowOutsideBatch => "result row outside batch"
  | .traverseResultMissing => "traverse result missing"
  | .entryWithoutEdge => "matrix entry without a connecting edge"

def BadArgument.text : BadArgument → String
  | .dimensionTooLarge => "matrix dimension exceeds MAX_DIM"
  | .shrinkingResize => "matrix resize cannot shrink"
  | .unboundFilter => "filter operand evaluated without a filter"
  | .emptyOperation => "operation without operands"
  | .transposeArity => "transpose takes one operand"
  | .zeroBatch => "traverse batch size must be positive"
  | .traverseBeforeInit => "traverse consumed before init"

def Entity.text : Entity → String
  | .node => "node"
  | .label => "label"
  | .relation => "relation"

/-- A shape as it is shown in messages. -/
def shapeText (shape : Nat × Nat) : String :=
  "(" ++ toString shape.1 ++ ", " ++ toString shape.2 ++ ")"

/-- The wording of a failure. -/
def GraphError.message : GraphError → String
  | .invalidIndex axis index bound =>
    axis.text ++ " index " ++ toString index ++ " out of range; must be < " ++ toString bound
  | .domainMismatch source target =>
    "input scalar of type [" ++ source.label ++ "] cannot be typecast to entry of type ["
      ++ target.label ++ "]"
  | .dimensionMismatch op left right =>
    "dimension mismatch in " ++ op.text ++ ": " ++ shapeText left ++ " vs " ++ shapeText right
  | .outOfMemory site => "out of memory: " ++ site.text
  | .contractViolation rule => "contract violation: " ++ rule.text
  | .invalid cause => "invalid argument: " ++ cause.text
  | .notFound entity => "not found: " ++ entity.text

/-- A fatal failure shows a broken consistency rule, never bad input. -/
def GraphError.fatal : GraphError → Bool
  | .contractViolation _ => true
  | _ => false

end Adjacency
