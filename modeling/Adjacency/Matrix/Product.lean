import Adjacency.Matrix.Update

/-!
# Products and unions

Kernels read both operands as committed by-row matrices, through a copy where they are not.

* `Matrix.product`: the product over a semiring. Its rows list their columns in the order in which
  they were first reached, so the result may be jumbled.
* `Matrix.union`: the union of the entries, overlaps combined.
-/

namespace Adjacency

/-- How products combine. -/
inductive Semiring
  /-- Only presence counts: every product is true. -/
  | anyPair
  /-- Or over and. -/
  | lorLand
  /-- Sums of products in the left operand's type. -/
  | plusTimes
  deriving DecidableEq

instance : Inhabited Semiring := ⟨.anyPair⟩

namespace Semiring

/-- The element type of a product whose left operand has type `left`. -/
def outputType (s : Semiring) (left : ScalarType) : ScalarType :=
  match s with
  | .anyPair | .lorLand => .bool
  | .plusTimes => left

/-- The product of two elements; zero where the type has none. -/
def multiply (s : Semiring) (ty : ScalarType) (a b : Scalar) : Scalar :=
  match s with
  | .anyPair => .bool true
  | .lorLand => .bool (a.toBool && b.toBool)
  | .plusTimes =>
    match a.cast ty, b.cast ty with
    | some (.int64 x), some (.int64 y) => .int64 (x * y)
    | some (.uint64 x), some (.uint64 y) => .uint64 (x * y)
    | some (.fp64 x), some (.fp64 y) => .fp64 (x.mul y)
    | some (.bool x), some (.bool y) => .bool (x && y)
    | _, _ => ty.zero

/-- The sum of two products. -/
def add (s : Semiring) (ty : ScalarType) (a b : Scalar) : Scalar :=
  match s with
  | .anyPair => .bool true
  | .lorLand => .bool (a.toBool || b.toBool)
  | .plusTimes => DupOp.plus.apply ty a b

end Semiring

open Metered

namespace Matrix

/-- A committed by-row matrix with the content of `m`. -/
def committedRows {σ : Type} (m : Matrix) : Metered σ Matrix :=
  if !m.byRow then m.reoriented true
  else if m.deferred then settle m wait
  else pure m

/-- Consecutive tuples of one row, as one group. -/
def groupRows (tuples : Array Tuple) : Array (Nat × Array (Nat × Scalar)) :=
  tuples.foldl (fun acc t =>
    match acc.back? with
    | some (row, _) =>
      if row = t.row then
        acc.modify (acc.size - 1) fun (row, entries) => (row, entries.push (t.col, t.value))
      else acc.push (t.row, #[(t.col, t.value)])
    | none => acc.push (t.row, #[(t.col, t.value)])) #[]

/-- Adds a product at a column: to the sum there, or as a new last column. -/
def addProduct (s : Semiring) (ty : ScalarType) (out : Array (Nat × Scalar)) (col : Nat)
    (v : Scalar) : Array (Nat × Scalar) :=
  match out.findIdx? fun e => e.1 == col with
  | some k => out.modify k fun (c, sum) => (c, s.add ty sum v)
  | none => out.push (col, v)

/-- One row of a product: for each entry of the left row, the right operand's row that it names. -/
def productRow (s : Semiring) (ty : ScalarType) (b : Matrix) (entries : Array (Nat × Scalar)) :
    Array (Nat × Scalar) :=
  entries.foldl (fun out (k, av) =>
    (b.vectorEntries k).foldl (fun out (col, bv) => addProduct s ty out col (s.multiply ty av bv))
      out) #[]

/-- Some row lists its columns out of order. -/
def outOfOrder (entries : Array IndexEntry) : Bool :=
  (entries.toList.zip entries.toList.tail).any fun (a, b) => a.j == b.j && decide (b.i < a.i)

/-- The product of two matrices. -/
def product {σ : Type} (a b : Matrix) (s : Semiring) (options : MatrixOptions) :
    Metered σ Matrix := do
  if a.ncols ≠ b.nrows then
    throw (.dimensionMismatch .product (a.nrows, a.ncols) (b.nrows, b.ncols))
  let ty := s.outputType a.type
  let a ← a.committedRows
  let b ← b.committedRows
  let rows := groupRows a.tuples
  let entries : Array IndexEntry := rows.flatMap fun (row, left) =>
    (productRow s ty b left).map fun (col, v) => ⟨row, col, v⟩
  let m ← require (withOptions ty a.nrows b.ncols options)
  let store ← buildStorage rows.size entries
  tally .product
  return { m with store, jumbled := outOfOrder entries }

/-- The union of two matrices; where both have an entry, `op` combines them. -/
def union {σ : Type} (a b : Matrix) (op : DupOp) (options : MatrixOptions) : Metered σ Matrix := do
  if a.nrows ≠ b.nrows ∨ a.ncols ≠ b.ncols then
    throw (.dimensionMismatch .union (a.nrows, a.ncols) (b.nrows, b.ncols))
  let a ← a.committedRows
  let b ← b.committedRows
  ofTuples a.type a.nrows a.ncols true (a.tuples ++ b.tuples).toList op options

end Matrix

end Adjacency
