/-!
# Random numbers

A generator reads a ChaCha key stream of eight rounds from front to back. The stream is a function of
the key and the position alone, and the key a function of the seed.

* `block`: sixteen words of the stream.
* `Generator.next`: two words as one of 64 bits, the lower half first.
* `Generator.below`: an even draw below a bound. A draw that would favour some results is drawn again.
-/

namespace Adjacency

namespace KeyStream

/-- Sixteen words. -/
abbrev Block := Vector UInt32 16

def rotateLeft (x n : UInt32) : UInt32 := x <<< n ||| x >>> (32 - n)

def rotateRight (x n : UInt32) : UInt32 := x >>> n ||| x <<< (32 - n)

/-- One addition, one exclusive or, one rotation. -/
def mix (a b c : Fin 16) (n : UInt32) (s : Block) : Block :=
  let s := s.set a (s[a] + s[b])
  s.set c (rotateLeft (s[c] ^^^ s[a]) n)

def quarterRound (a b c d : Fin 16) (s : Block) : Block :=
  mix c d b 7 (mix a b d 8 (mix c d b 12 (mix a b d 16 s)))

/-- A round on the columns of the four by four words, then one on the diagonals. -/
def doubleRound (s : Block) : Block :=
  let s := quarterRound 3 7 11 15 (quarterRound 2 6 10 14 (quarterRound 1 5 9 13
    (quarterRound 0 4 8 12 s)))
  quarterRound 3 4 9 14 (quarterRound 2 7 8 13 (quarterRound 1 6 11 12
    (quarterRound 0 5 10 15 s)))

/-- The stream's block at a number: a mixed copy of the start added to the start. -/
def block (key : Vector UInt32 8) (number : UInt64) : Block :=
  let constants : Vector UInt32 4 := #v[0x61707865, 0x3320646E, 0x79622D32, 0x6B206574]
  let place : Vector UInt32 4 := #v[number.toUInt32, (number >>> 32).toUInt32, 0, 0]
  let start : Block := constants ++ key ++ place
  start.zipWith (· + ·) (doubleRound (doubleRound (doubleRound (doubleRound start))))

/-- The congruential step between the words of a key. -/
def advance (state : UInt64) : UInt64 := state * 6364136223846793005 + 11634580027462260723

/-- The word that a state gives. -/
def keyWord (state : UInt64) : UInt32 :=
  rotateRight (((state >>> 18 ^^^ state) >>> 27).toUInt32) (state >>> 59).toUInt32

/-- The key that a seed gives. -/
def key (seed : UInt64) : Vector UInt32 8 :=
  .ofFn fun k => keyWord (Nat.repeat advance (k + 1) seed)

end KeyStream

/-- A key stream and the number of 64-bit words read from it. -/
structure Generator where
  key : Vector UInt32 8
  position : Nat := 0

namespace Generator

def ofSeed (seed : UInt64) : Generator := { key := KeyStream.key seed }

/-- The 64-bit word at a position of the stream. -/
def word (key : Vector UInt32 8) (position : Nat) : UInt64 :=
  let words := KeyStream.block key (.ofNat (position / 8))
  let low := words.toArray.getD (position % 8 * 2) 0
  let high := words.toArray.getD (position % 8 * 2 + 1) 0
  low.toUInt64 ||| high.toUInt64 <<< 32

/-- Reads one word. -/
def next (g : Generator) : UInt64 × Generator :=
  (word g.key g.position, { g with position := g.position + 1 })

/-- Draws below `n`: the high half of a word times `n`, if the low half lies in the part of the
range that all results share evenly. The last try takes what comes. -/
def belowWithin (n : Nat) : Nat → Generator → Nat × Generator
  | 0, g =>
    let (w, g) := g.next
    (w.toNat * n / UInt64.size, g)
  | tries + 1, g =>
    let (w, g) := g.next
    let p := w.toNat * n
    if p % UInt64.size < n * Nat.pow 2 (63 - n.log2) then (p / UInt64.size, g) else belowWithin n tries g

/-- The high half of a word times `n` is below `n`. -/
theorem scaled_lt {n : Nat} (hn : 0 < n) (w : UInt64) : w.toNat * n / UInt64.size < n := by
  rw [Nat.div_lt_iff_lt_mul (by decide), Nat.mul_comm]
  exact Nat.mul_lt_mul_of_pos_left w.toNat_lt_size hn

theorem belowWithin_lt {n : Nat} (hn : 0 < n) (tries : Nat) (g : Generator) :
    (belowWithin n tries g).1 < n := by
  induction tries generalizing g with
  | zero => exact scaled_lt hn _
  | succ tries ih =>
    simp only [belowWithin]
    split
    · exact scaled_lt hn _
    · exact ih _

/-- The number of draws after which an uneven one is taken. Each is uneven with a chance under one
half. -/
def patience : Nat := 1000

/-- A draw below `n`. -/
def below (n : Nat) : Generator → Nat × Generator := belowWithin n patience

theorem below_lt {n : Nat} (hn : 0 < n) (g : Generator) : (g.below n).1 < n :=
  belowWithin_lt hn patience g

/-- Several draws below `n`, in order. -/
def manyBelow (n count : Nat) (g : Generator) : Array Nat × Generator :=
  count.fold (fun _ _ s => let (d, g) := s.2.below n; (s.1.push d, g)) (#[], g)

end Generator

end Adjacency
