import Adjacency.Binary64

/-!
# Property values and their order

* `Value.order`: values order by kind (null, booleans, numbers, strings, lists) and within a kind.
  Numbers of either form compare by their exact values, every NaN equals every other and is the
  greatest number; strings compare by code point; lists compare element by element.
* `Value` has no structural equality test: two values count as equal when the order says so, so
  `1` equals `1.0`.
-/

namespace Adjacency

/-- A scalar or list carried by records and node properties. -/
inductive Value
  | null
  | bool (b : Bool)
  | int (v : Int64)
  | float (v : Binary64)
  | string (s : String)
  | list (items : List Value)
  deriving Inhabited

namespace Value

/-- The place of a value's kind among the kinds. -/
def rank : Value → Nat
  | .null => 0
  | .bool _ => 1
  | .int _ | .float _ => 2
  | .string _ => 3
  | .list _ => 4

def isNull : Value → Bool
  | .null => true
  | _ => false

/-- Two floating-point numbers, NaN above all. -/
def orderFloats (a b : Binary64) : Ordering :=
  match a.isNaN, b.isNaN with
  | true, true => .eq
  | true, false => .gt
  | false, true => .lt
  | false, false => (a.order b).getD .eq

/-- `2^63`, the first floating-point number above every signed word. -/
def int64End : Binary64 := ⟨0x43E0000000000000⟩

/-- `-2^63`, the least signed word. -/
def int64Start : Binary64 := ⟨0xC3E0000000000000⟩

/-- An integer against a floating-point number. Within the range of the integers the whole parts
decide, and the fraction does when they are equal: no integer is rounded to a double. -/
def orderIntFloat (a : Int64) (b : Binary64) : Ordering :=
  if b.isNaN || int64End.le b then .lt
  else if b.lt int64Start then .gt
  else
    let whole := b.trunc
    match compare a.toInt whole.toInt64.toInt with
    | .eq => (whole.order b).getD .eq
    | unequal => unequal

/-- Strings by code point. -/
def orderStrings (a b : String) : Ordering :=
  if a < b then .lt else if b < a then .gt else .eq

mutual

/-- The order of values. -/
def order : Value → Value → Ordering
  | .null, .null => .eq
  | .bool a, .bool b => compare a b
  | .int a, .int b => compare a.toInt b.toInt
  | .float a, .float b => orderFloats a b
  | .int a, .float b => orderIntFloat a b
  | .float a, .int b => (orderIntFloat b a).swap
  | .string a, .string b => orderStrings a b
  | .list as, .list bs => orderLists as bs
  | a, b => compare a.rank b.rank

/-- Lists element by element; a beginning of a list is less than the list. -/
def orderLists : List Value → List Value → Ordering
  | [], [] => .eq
  | [], _ :: _ => .lt
  | _ :: _, [] => .gt
  | a :: as, b :: bs =>
    match order a b with
    | .eq => orderLists as bs
    | unequal => unequal

end

/-- Equal in the order of values. -/
def same (a b : Value) : Bool := a.order b == .eq

end Value

end Adjacency
