import Adjacency.Toml.Basic

/-!
# Values written as one word

Numbers, truth values, dates and times are words of letters, digits and a few marks. `Item.ofWord?`
reads a word, or finds that it is none of these.

* `digits?`: digits in a base, with single underscores between them.
* `integer?`, `decimal?`: the two kinds of number. An integer has 64 bits; a positive decimal may not
  exceed the finite ones.
* `isMoment`: dates of the Gregorian calendar, and times of day.
-/

namespace Adjacency.Toml

/-- The value of a digit in a base of at most sixteen. -/
def digit? (base : Nat) (c : Char) : Option Nat :=
  let n :=
    if c.isDigit then c.toNat - '0'.toNat
    else if 'a' ≤ c ∧ c ≤ 'f' then c.toNat - 'a'.toNat + 10
    else if 'A' ≤ c ∧ c ≤ 'F' then c.toNat - 'A'.toNat + 10
    else 16
  if n < base then some n else none

/-- Goes on after a digit: the value so far is `value`, of `count` digits. -/
def digitsFrom (base value count : Nat) : List Char → Option (Nat × Nat)
  | [] => some (value, count)
  | '_' :: c :: rest => (digit? base c).bind fun d =>
    digitsFrom base (value * base + d) (count + 1) rest
  | c :: rest => (digit? base c).bind fun d => digitsFrom base (value * base + d) (count + 1) rest

/-- The value and the number of at least one digit, with single underscores between digits. -/
def digits? (base : Nat) : List Char → Option (Nat × Nat)
  | [] => none
  | c :: rest => (digit? base c).bind fun d => digitsFrom base d 1 rest

/-- The sign of a number, and the rest of it. -/
def signed? : List Char → Bool × List Char
  | '-' :: rest => (true, rest)
  | '+' :: rest => (false, rest)
  | cs => (false, cs)

/-- Digits in base ten without a leading zero. -/
def whole? (cs : List Char) : Option Nat :=
  if cs.length = 1 ∨ cs.head? ≠ some '0' then (digits? 10 cs).map Prod.fst else none

/-- An integer of 64 bits. A base other than ten takes no sign. -/
def integer? (cs : List Char) : Option Int :=
  let value : Option Int := match cs with
    | '0' :: 'x' :: rest => (digits? 16 rest).map fun d => (d.1 : Int)
    | '0' :: 'o' :: rest => (digits? 8 rest).map fun d => (d.1 : Int)
    | '0' :: 'b' :: rest => (digits? 2 rest).map fun d => (d.1 : Int)
    | _ => (whole? (signed? cs).2).map fun n => if (signed? cs).1 then -(n : Int) else n
  value.filter fun n => decide (Int64.minValue.toInt ≤ n ∧ n ≤ Int64.maxValue.toInt)

/-- The power of ten behind an exponent mark, or none without the mark. -/
def exponent? : List Char → Option Int
  | [] => some 0
  | _ :: rest => (digits? 10 (signed? rest).2).map fun d => if (signed? rest).1 then -(d.1 : Int) else d.1

/-- The digits behind a point, as value and number, or none without the point. -/
def fraction? : List Char → Option (Nat × Nat)
  | [] => some (0, 0)
  | _ :: rest => digits? 10 rest

/-- A decimal number with a fraction, an exponent or both, or a special value. -/
def decimal? (cs : List Char) : Option Binary64 :=
  let (neg, body) := signed? cs
  if body = ['i', 'n', 'f'] then some (.signed neg Binary64.infinityBits)
  else if body = ['n', 'a', 'n'] then some (.signed neg (Binary64.infinityBits + Nat.pow 2 51))
  else
    let isMark := fun c => c == 'e' || c == 'E'
    let mantissa := body.takeWhile (!isMark ·)
    let power := body.dropWhile (!isMark ·)
    let point := mantissa.dropWhile (· != '.')
    if point.isEmpty && power.isEmpty then none
    else do
      let n ← whole? (mantissa.takeWhile (· != '.'))
      let (f, places) ← fraction? point
      let e ← exponent? power
      let x := Binary64.ofDecimal neg (n * Nat.pow 10 places + f) (e - places)
      if x.isInfinite && !neg then none else some x

/-- The value of two digits. -/
def pair? (a b : Char) : Option Nat := (digits? 10 [a, b]).map Prod.fst

/-- The number of days in a month, none for a month that does not exist. -/
def daysIn (year month : Nat) : Nat :=
  if month = 2 then
    if year % 4 = 0 ∧ (year % 100 ≠ 0 ∨ year % 400 = 0) then 29 else 28
  else if month ∈ [4, 6, 9, 11] then 30
  else if 1 ≤ month ∧ month ≤ 12 then 31
  else 0

/-- A day such as `1979-05-27`. -/
def isDay : List Char → Bool
  | [y₁, y₂, y₃, y₄, '-', m₁, m₂, '-', d₁, d₂] =>
    ((do
      let century ← pair? y₁ y₂
      let year ← pair? y₃ y₄
      let month ← pair? m₁ m₂
      let day ← pair? d₁ d₂
      some (decide (1 ≤ day ∧ day ≤ daysIn (century * 100 + year) month))) : Option Bool).getD false
  | _ => false

/-- A time of day such as `07:32:00.999`, followed by what `rest` accepts. A second may be a leap
second. -/
def isTime (rest : List Char → Bool) : List Char → Bool
  | h₁ :: h₂ :: ':' :: m₁ :: m₂ :: ':' :: s₁ :: s₂ :: more =>
    let clock := (pair? h₁ h₂).any (· < 24) && (pair? m₁ m₂).any (· < 60)
      && (pair? s₁ s₂).any (· ≤ 60)
    clock && match more with
      | '.' :: c :: cs => c.isDigit && rest (cs.dropWhile Char.isDigit)
      | cs => rest cs
  | _ => false

/-- Nothing, or a distance from universal time such as `Z` or `-07:00`. -/
def isZone : List Char → Bool
  | [] | ['Z'] | ['z'] => true
  | [sign, h₁, h₂, ':', m₁, m₂] =>
    (sign == '+' || sign == '-') && (pair? h₁ h₂).any (· < 24) && (pair? m₁ m₂).any (· < 60)
  | _ => false

/-- A day, a time of day, or both with a letter or a space between them. -/
def isMoment (cs : List Char) : Bool :=
  isDay cs || isTime List.isEmpty cs || match cs.drop 10 with
    | c :: rest => isDay (cs.take 10) && [' ', 'T', 't'].contains c && isTime isZone rest
    | [] => false

/-- The value that a word stands for. -/
def Item.ofWord? (cs : List Char) : Option Item :=
  if cs = ['t', 'r', 'u', 'e'] then some (.truth true)
  else if cs = ['f', 'a', 'l', 's', 'e'] then some (.truth false)
  else if isMoment cs then some (.moment (String.ofList cs))
  else (integer? cs).map .integer <|> (decimal? cs).map .decimal

end Adjacency.Toml
