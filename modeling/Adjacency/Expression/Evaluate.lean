import Adjacency.Expression.Basic

/-!
# Evaluating expressions

* `Expression.evaluate`: the value as a matrix; products fold over the boolean semiring, unions with
  logical or.
* `Expression.evalInto`: the value assigned to a matrix and committed there.
* `Expression.prepared`: the same expression with every leaf committed and by-row, valid while the
  graph does not change.
-/

namespace Adjacency

open Metered

/-- What an evaluation refers to. -/
structure EvalContext where
  graph : Graph
  filter : Option Matrix := none
  /-- Options of intermediate results. -/
  options : MatrixOptions := {}

namespace Expression

variable {σ : Type}

/-- The matrix of a leaf. A label matrix is diagonal, so it is its own transpose. -/
def leafMatrix (ctx : EvalContext) (source : Operand) (transposed : Bool) :
    Except GraphError Matrix :=
  match source with
  | .relation id => ctx.graph.relationMatrix id transposed
  | .label id => ctx.graph.labelMatrix id
  | .matrix m => .ok (if transposed then m.transposed else m)
  | .filter =>
    match ctx.filter with
    | some m => .ok (if transposed then m.transposed else m)
    | none => .error (.invalid .unboundFilter)

/-- The expression is the filter. -/
def isFilter : Expression → Bool
  | .operand .filter _ => true
  | _ => false

/-- Multiplies from the left: `((m * a) * b) * …`. -/
def productsRight (options : MatrixOptions) (m : Matrix) : List Matrix → Metered σ Matrix
  | [] => return m
  | next :: rest => do productsRight options (← m.product next .lorLand options) rest

/-- Multiplies from the right: `… * (b * (a * m))`. -/
def productsLeft (options : MatrixOptions) (m : Matrix) : List Matrix → Metered σ Matrix
  | [] => return m
  | next :: rest => do productsLeft options (← next.product m .lorLand options) rest

/-- The product of a chain. It folds from the left when it is led by a filter or its left end is no
taller than its right end is wide, so that intermediate results stay small; otherwise from the
right. -/
def chainProduct (ctx : EvalContext) (filterLed : Bool) (chain : List Matrix) : Metered σ Matrix :=
  match chain, chain.reverse with
  | first :: rest, last :: before =>
    if filterLed || decide (first.nrows ≤ last.ncols) then productsRight ctx.options first rest
    else productsLeft ctx.options last before
  | _, _ => throw (.invalid .emptyOperation)

mutual

/-- The value of an expression. -/
def evaluate (ctx : EvalContext) : Expression → Metered σ Matrix
  | .operand source transposed => require (leafMatrix ctx source transposed)
  | .operation _ [] => throw (.invalid .emptyOperation)
  | .operation .transpose [e] => return (← evaluate ctx e).transposed
  | .operation .transpose (_ :: _ :: _) => throw (.invalid .transposeArity)
  | .operation .multiply (e :: es) => do
    let first ← evaluate ctx e
    let rest ← evaluateAll ctx es
    chainProduct ctx e.isFilter (first :: rest)
  | .operation .add (e :: es) => do
    let first ← evaluate ctx e
    evaluateUnion ctx first es

/-- The values of several expressions. -/
def evaluateAll (ctx : EvalContext) : List Expression → Metered σ (List Matrix)
  | [] => return []
  | e :: es => do
    let m ← evaluate ctx e
    return m :: (← evaluateAll ctx es)

/-- The union of a matrix and the values of further expressions. -/
def evaluateUnion (ctx : EvalContext) (m : Matrix) : List Expression → Metered σ Matrix
  | [] => return m
  | e :: es => do
    let next ← evaluate ctx e
    evaluateUnion ctx (← m.union next .lor ctx.options) es

end

/-- Assigns the value to a matrix of the same shape, and commits it. -/
def evalInto (e : Expression) (ctx : EvalContext) : Metered Matrix Unit := do
  let value ← e.evaluate ctx
  let out ← subject
  if value.nrows ≠ out.nrows ∨ value.ncols ≠ out.ncols then
    throw (.dimensionMismatch .evaluation (out.nrows, out.ncols) (value.nrows, value.ncols))
  Matrix.assignFrom value
  Matrix.wait
  tally .evaluation

/-- The leaf, or a leaf with a committed by-row copy of its matrix. -/
def preparedLeaf (graph : Graph) (source : Operand) (transposed : Bool) : Metered σ Expression := do
  if isFilter (.operand source transposed) then return .operand source transposed
  let m ← require (leafMatrix { graph } source transposed)
  if m.byRow && !m.deferred then
    return match source, transposed with
      | .matrix _, true => matrix m
      | _, _ => .operand source transposed
  else return matrix (← m.committedRows)

mutual

/-- The expression with every leaf but the filter committed and by-row. -/
def prepared (graph : Graph) : Expression → Metered σ Expression
  | .operand source transposed => preparedLeaf graph source transposed
  | .operation op es => return .operation op (← preparedAll graph es)

/-- Several expressions, prepared. -/
def preparedAll (graph : Graph) : List Expression → Metered σ (List Expression)
  | [] => return []
  | e :: es => do
    let first ← prepared graph e
    return first :: (← preparedAll graph es)

end

end Expression

end Adjacency
