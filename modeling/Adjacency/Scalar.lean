import Adjacency.Binary64

/-!
# Matrix elements

The element types of a matrix, the scalars of each type, typecasts between them, and the operators
that combine an old value with a new one.

* `ScalarType.castable`, `Scalar.cast`: the built-in types cast among each other; a custom type
  casts only to itself.
* `Scalar` has decidable equality, and it is equality of type and bits: `-0.0` differs from `0.0`
  and a NaN equals itself.
* `DupOp.apply`: how a write combines with what is already stored.
-/

namespace Adjacency

/-- The element type of a matrix. A custom type is known by its code alone. -/
inductive ScalarType
  | bool
  | int64
  | uint64
  | fp64
  | custom (code : UInt32)
  deriving DecidableEq, Inhabited

/-- A matrix element. A custom element is its raw payload. -/
inductive Scalar
  | bool (b : Bool)
  | int64 (v : Int64)
  | uint64 (v : UInt64)
  | fp64 (v : Binary64)
  | custom (code : UInt32) (payload : UInt64)
  deriving DecidableEq, Inhabited

namespace ScalarType

/-- The name shown in messages. -/
def label : ScalarType → String
  | .bool => "bool"
  | .int64 => "int64"
  | .uint64 => "uint64"
  | .fp64 => "fp64"
  | .custom code => "opaque#" ++ toString code.toNat

/-- A value of the first type can be cast to the second. -/
def castable : ScalarType → ScalarType → Bool
  | .custom a, .custom b => a == b
  | .custom _, _ => false
  | _, .custom _ => false
  | _, _ => true

/-- The value that fills freshly made cells. -/
def zero : ScalarType → Scalar
  | .bool => .bool false
  | .int64 => .int64 0
  | .uint64 => .uint64 0
  | .fp64 => .fp64 .zero
  | .custom code => .custom code 0

end ScalarType

namespace Scalar

/-- The type of a scalar. -/
def type : Scalar → ScalarType
  | .bool _ => .bool
  | .int64 _ => .int64
  | .uint64 _ => .uint64
  | .fp64 _ => .fp64
  | .custom code _ => .custom code

/-- The truth value: anything but zero is true. -/
def toBool : Scalar → Bool
  | .bool b => b
  | .int64 v => v != 0
  | .uint64 v => v != 0
  | .fp64 v => !v.isZero
  | .custom _ payload => payload != 0

/-- The nearest floating-point number. -/
def toBinary64 : Scalar → Binary64
  | .bool b => .ofNat b.toNat
  | .int64 v => .ofInt v.toInt
  | .uint64 v => .ofNat v.toNat
  | .fp64 v => v
  | .custom _ payload => .ofNat payload.toNat

/-- The signed integer: words wrap, floating-point numbers are cut toward zero and kept in range. -/
def toInt64 : Scalar → Int64
  | .bool b => if b then 1 else 0
  | .int64 v => v
  | .uint64 v => v.toInt64
  | .fp64 v => v.toInt64
  | .custom _ payload => payload.toInt64

/-- The unsigned integer: words wrap, floating-point numbers are cut toward zero and kept in
range. -/
def toUInt64 : Scalar → UInt64
  | .bool b => if b then 1 else 0
  | .int64 v => v.toUInt64
  | .uint64 v => v
  | .fp64 v => .ofNat (v.truncateWithin 0 (UInt64.size - 1)).toNat
  | .custom _ payload => payload

/-- The scalar in another type, when its type is castable to that one. -/
def cast (s : Scalar) (target : ScalarType) : Option Scalar :=
  if s.type.castable target then
    match target, s with
    | .bool, s => some (.bool s.toBool)
    | .int64, s => some (.int64 s.toInt64)
    | .uint64, s => some (.uint64 s.toUInt64)
    | .fp64, s => some (.fp64 s.toBinary64)
    | .custom _, s => some s
  else none

end Scalar

/-- How a new value combines with an older one at the same place. -/
inductive DupOp
  | second
  | first
  | plus
  | min
  | max
  | lor
  deriving DecidableEq

instance : Inhabited DupOp := ⟨.second⟩

/-- Combines in the domain `ty`. Operands of differing or custom types have no sum, minimum or
maximum: the newer one stays. -/
def DupOp.apply (op : DupOp) (ty : ScalarType) (old new : Scalar) : Scalar :=
  match op, old, new with
  | .second, _, new => new
  | .first, old, _ => old
  | .lor, old, new => ((Scalar.bool (old.toBool || new.toBool)).cast ty).getD new
  | .plus, .int64 a, .int64 b => .int64 (a + b)
  | .plus, .uint64 a, .uint64 b => .uint64 (a + b)
  | .plus, .fp64 a, .fp64 b => .fp64 (a.add b)
  | .plus, .bool a, .bool b => .bool (a || b)
  | .min, .int64 a, .int64 b => .int64 (if b < a then b else a)
  | .min, .uint64 a, .uint64 b => .uint64 (if b < a then b else a)
  | .min, .fp64 a, .fp64 b => .fp64 (a.min b)
  | .min, .bool a, .bool b => .bool (a && b)
  | .max, .int64 a, .int64 b => .int64 (if a < b then b else a)
  | .max, .uint64 a, .uint64 b => .uint64 (if a < b then b else a)
  | .max, .fp64 a, .fp64 b => .fp64 (a.max b)
  | .max, .bool a, .bool b => .bool (a || b)
  | _, _, new => new

end Adjacency
