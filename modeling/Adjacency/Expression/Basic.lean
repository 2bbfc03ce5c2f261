import Adjacency.Graph.Basic

/-!
# Expressions over matrices

A traversal pattern is a product, union or transpose of relation and label matrices; a filter leaf
stands for a matrix that is supplied at evaluation.

* `Expression.optimized`: transposes pushed to the leaves, nested products and unions flattened.
* `Expression.leaves`: the operands, from left to right.
-/

namespace Adjacency

/-- Where an operand's matrix comes from. -/
inductive Operand
  | relation (id : RelationId)
  | label (id : LabelId)
  /-- A matrix of the expression's own. -/
  | matrix (m : Matrix)
  /-- The matrix supplied at evaluation. -/
  | filter
  deriving DecidableEq, Inhabited

/-- How an operation combines its operands. -/
inductive Combination
  | multiply
  | add
  | transpose
  deriving DecidableEq

/-- An expression over matrices. -/
inductive Expression
  | operand (source : Operand) (transposed : Bool)
  | operation (op : Combination) (operands : List Expression)
  deriving Inhabited

namespace Expression

def relation (id : RelationId) : Expression := .operand (.relation id) false

def label (id : LabelId) : Expression := .operand (.label id) false

def matrix (m : Matrix) : Expression := .operand (.matrix m) false

def filter : Expression := .operand .filter false

def multiply (es : List Expression) : Expression := .operation .multiply es

def add (es : List Expression) : Expression := .operation .add es

def transpose (e : Expression) : Expression := .operation .transpose [e]

/-- The product with a factor in front. -/
def multiplyLeft (e first : Expression) : Expression :=
  match e with
  | .operation .multiply es => multiply (first :: es)
  | e => multiply [first, e]

mutual

/-- The leaves from left to right, each with its transposed flag. -/
def leaves : Expression → List (Operand × Bool)
  | .operand source transposed => [(source, transposed)]
  | .operation _ es => leavesOf es

/-- The leaves of several expressions. -/
def leavesOf : List Expression → List (Operand × Bool)
  | [] => []
  | e :: es => leaves e ++ leavesOf es

end

/-- The number of leaves. -/
def operandCount (e : Expression) : Nat := e.leaves.length

/-- The leaf reached by going to the first operand again and again. -/
def leftmost : Expression → Option Expression
  | .operand source transposed => some (.operand source transposed)
  | .operation _ [] => none
  | .operation _ (e :: _) => leftmost e

mutual

/-- Moves transposes to the leaves; `flip` tells whether the expression stands under an odd number
of them. A product under a transpose is reversed. -/
def pushTranspose (flip : Bool) : Expression → Expression
  | .operand source transposed => .operand source (transposed != flip)
  | .operation .transpose [e] => pushTranspose (!flip) e
  | .operation .multiply es =>
    .operation .multiply (if flip then (pushTransposes flip es).reverse else pushTransposes flip es)
  | .operation op es => .operation op (pushTransposes flip es)

/-- Moves transposes to the leaves of several expressions. -/
def pushTransposes (flip : Bool) : List Expression → List Expression
  | [] => []
  | e :: es => pushTranspose flip e :: pushTransposes flip es

end

/-- The operands of an expression that combines in the given way, or the expression alone. -/
def operandsUnder (op : Combination) : Expression → List Expression
  | .operation inner es => if inner = op then es else [.operation inner es]
  | e => [e]

/-- An operation; one operand stands for itself. -/
def combine (op : Combination) : List Expression → Expression
  | [e] => e
  | es => .operation op es

mutual

/-- Splices products into products and unions into unions. -/
def flatten : Expression → Expression
  | .operand source transposed => .operand source transposed
  | .operation .transpose es => .operation .transpose es
  | .operation .multiply es => combine .multiply (flattenUnder .multiply es)
  | .operation .add es => combine .add (flattenUnder .add es)

/-- Flattens the operands of an operation and splices those that combine in the same way. -/
def flattenUnder (op : Combination) : List Expression → List Expression
  | [] => []
  | e :: es => operandsUnder op (flatten e) ++ flattenUnder op es

end

/-- An expression with the same value that is cheaper to evaluate. -/
def optimized (e : Expression) : Expression := flatten (pushTranspose false e)

end Expression

end Adjacency
