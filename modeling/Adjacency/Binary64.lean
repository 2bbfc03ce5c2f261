/-!
# Double-precision numbers as bit patterns

A `Binary64` is its 64 bits, so signed zeros and NaN payloads stay distinct. Every finite number is
a whole multiple of `2^-1074`, its `units`; arithmetic is done exactly on units and rounded once, to
nearest with ties to even.

* `units`: the exact value, in multiples of `2^-1074`.
* `roundUnits`: the nearest double to `n / 2^k` units.
* `add`, `mul`, `ofInt`, `ofDecimal`: exact results, rounded once.
* `order`: the order of the exact values, undefined on a NaN.
* `trunc`, `toInt64`: the whole part, as a double and as a signed word.
-/

namespace Adjacency

/-- A double-precision number, given by its bits. -/
structure Binary64 where
  bits : UInt64
  deriving DecidableEq, Inhabited, Hashable

namespace Binary64

/-- The sign bit. -/
def negative (x : Binary64) : Bool := decide (Nat.pow 2 63 ≤ x.bits.toNat)

/-- The biased exponent field. -/
def exponent (x : Binary64) : Nat := x.bits.toNat / Nat.pow 2 52 % Nat.pow 2 11

/-- The fraction field. -/
def fraction (x : Binary64) : Nat := x.bits.toNat % Nat.pow 2 52

def isNaN (x : Binary64) : Bool := x.exponent == 2047 && x.fraction != 0

def isInfinite (x : Binary64) : Bool := x.exponent == 2047 && x.fraction == 0

def isZero (x : Binary64) : Bool := x.exponent == 0 && x.fraction == 0

/-- The bits of positive infinity. -/
def infinityBits : Nat := 2047 * Nat.pow 2 52

/-- The number with sign `neg` and the remaining 63 bits `magnitude`. -/
def signed (neg : Bool) (magnitude : Nat) : Binary64 :=
  ⟨UInt64.ofNat (magnitude + if neg then Nat.pow 2 63 else 0)⟩

def zero : Binary64 := ⟨0⟩

/-- The NaN that an invalid operation produces. -/
def invalid : Binary64 := ⟨0xFFF8000000000000⟩

/-- A NaN with its quiet bit set. -/
def quieted (x : Binary64) : Binary64 := ⟨x.bits ||| 0x0008000000000000⟩

/-- The size of a number in multiples of `2^-1074`. An infinity counts as `2^2098`, above every
finite number. -/
def magnitude (x : Binary64) : Nat :=
  if x.exponent = 0 then x.fraction else (Nat.pow 2 52 + x.fraction) * Nat.pow 2 (x.exponent - 1)

/-- The value in multiples of `2^-1074`. -/
def units (x : Binary64) : Int := if x.negative then -(x.magnitude : Int) else x.magnitude

/-- One in units. -/
def unitsPerOne : Nat := Nat.pow 2 1074

/-- The double nearest to `n / 2^k` units, ties to even; infinity beyond the largest finite one.
Keeping 53 significant bits and carrying into the exponent field is one addition on the bits. -/
def roundUnits (neg : Bool) (n k : Nat) : Binary64 :=
  let shift := n.log2 + 1 - (k + 53)
  let dropped := Nat.pow 2 (k + shift)
  let q := n / dropped
  let r := n % dropped
  let q := if dropped < 2 * r ∨ (2 * r = dropped ∧ q % 2 = 1) then q + 1 else q
  signed neg (min (shift * Nat.pow 2 52 + q) infinityBits)

/-- The double nearest to an integer. -/
def ofInt (v : Int) : Binary64 := roundUnits (decide (v < 0)) (v.natAbs * unitsPerOne) 0

def ofNat (v : Nat) : Binary64 := ofInt v

/-- The double nearest to `digits * 10^exponent`. A quotient is carried out far below the last
kept bit, and a lost remainder is recorded in its lowest bit. Powers outside the range of finite
doubles are cut off first. -/
def ofDecimal (neg : Bool) (digits : Nat) (exponent : Int) : Binary64 :=
  if digits = 0 then signed neg 0
  else if exponent > 400 then signed neg infinityBits
  else if exponent + (digits.log2 : Int) < -800 then signed neg 0
  else if 0 ≤ exponent then roundUnits neg (digits * Nat.pow 10 exponent.toNat * unitsPerOne) 0
  else
    let ten := Nat.pow 10 (-exponent).toNat
    let scaled := digits * unitsPerOne * Nat.pow 2 64
    let q := scaled / ten * 2 + if scaled % ten = 0 then 0 else 1
    roundUnits neg q 65

/-- The whole part of a finite number, toward zero. -/
def truncate (x : Binary64) : Int := x.units.tdiv unitsPerOne

/-- The whole part kept within `[lo, hi]`; a NaN counts as zero. -/
def truncateWithin (lo hi : Int) (x : Binary64) : Int :=
  if x.isNaN then 0 else max lo (min hi x.truncate)

/-- The nearest signed 64-bit integer toward zero; a NaN counts as zero. -/
def toInt64 (x : Binary64) : Int64 :=
  .ofInt (x.truncateWithin Int64.minValue.toInt Int64.maxValue.toInt)

/-- Without its fractional part: the fraction bits that stand for less than one are cleared. -/
def trunc (x : Binary64) : Binary64 :=
  if x.exponent < 1023 then signed x.negative 0
  else ⟨UInt64.ofNat (x.bits.toNat - x.bits.toNat % Nat.pow 2 (1075 - x.exponent))⟩

/-- The order of the values; none when either is a NaN. -/
def order (a b : Binary64) : Option Ordering :=
  if a.isNaN || b.isNaN then none else some (compare a.units b.units)

/-- Less than; false on a NaN. -/
def lt (a b : Binary64) : Bool := a.order b == some .lt

/-- At most; false on a NaN. -/
def le (a b : Binary64) : Bool := a.order b == some .lt || a.order b == some .eq

/-- The result of an operation on operands of which one is a NaN: the first NaN, quieted. -/
def propagate (a b : Binary64) : Binary64 := if a.isNaN then a.quieted else b.quieted

def add (a b : Binary64) : Binary64 :=
  if a.isNaN || b.isNaN then propagate a b
  else if a.isInfinite then
    if b.isInfinite && a.negative != b.negative then invalid else a
  else if b.isInfinite then b
  else
    let sum := a.units + b.units
    let neg := if sum = 0 then a.negative && b.negative else decide (sum < 0)
    roundUnits neg sum.natAbs 0

def mul (a b : Binary64) : Binary64 :=
  let neg := a.negative != b.negative
  if a.isNaN || b.isNaN then propagate a b
  else if a.isInfinite || b.isInfinite then
    if a.isZero || b.isZero then invalid else signed neg infinityBits
  else roundUnits neg (a.magnitude * b.magnitude) 1074

/-- The smaller number, the first of two equal ones; a NaN gives way to a number. -/
def min (a b : Binary64) : Binary64 := if a.isNaN || b.lt a then b else a

/-- The larger number, the first of two equal ones; a NaN gives way to a number. -/
def max (a b : Binary64) : Binary64 := if a.isNaN || a.lt b then b else a

end Binary64

end Adjacency
