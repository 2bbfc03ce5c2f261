import Adjacency.Query.Source
import Adjacency.StableSort

/-!
# Sorting

Reads its child to the end before the first delivery. With a bound it keeps the best records in a heap
that drops its worst as better ones come; without one it sorts them all.

* `Ranked.order`: the order of the heap, by keys and then by arrival.
* `Intake.absorb`, `Intake.finish`: one more record, and all of them in order.
* `Source.sort`: the operator.
-/

namespace Adjacency

/-- How many records a sort may keep, if that is bounded: the sum of skip and limit, held in a
64-bit word. -/
def sortCapacity : Option (Nat × Nat) → Option Nat
  | none => none
  | some (skip, limit) => some (min (skip + limit) (UInt64.size - 1))

/-- A record with the number of its arrival. -/
structure Ranked where
  record : Record
  seq : Nat

/-- By the keys, then by arrival: what is greater comes later. -/
def Ranked.order (keys : List SortKey) (a b : Ranked) : Ordering :=
  (compareRecords keys a.record b.record).then (compare a.seq b.seq)

/-- Puts an entry into a heap. A heap lists its entries greatest first, so that its head is the one to
drop. -/
def pushRanked (keys : List SortKey) (a : Ranked) : List Ranked → List Ranked
  | [] => [a]
  | b :: heap => if a.order keys b == .lt then b :: pushRanked keys a heap else a :: b :: heap

/-- What a sort has read. -/
structure Intake where
  /-- The best records so far, if the sort is bounded. -/
  heap : List Ranked := []
  /-- All records so far, the latest first, if it is not. -/
  buffer : List Record := []
  /-- The number of the next arrival. -/
  seq : Nat := 0

/-- One more record. A full heap takes it in the place of its worst, if it is better than that. -/
def Intake.absorb (keys : List SortKey) (capacity : Option Nat) (t : Intake) (r : Record) : Intake :=
  let next := { t with seq := t.seq + 1 }
  let ranked : Ranked := ⟨r, t.seq⟩
  match capacity with
  | none => { next with buffer := r :: t.buffer }
  | some n =>
    if n = 0 then next
    else if t.heap.length < n then { next with heap := pushRanked keys ranked t.heap }
    else
      match t.heap with
      | worst :: rest =>
        if ranked.order keys worst == .lt then { next with heap := pushRanked keys ranked rest }
        else next
      | [] => next

/-- The records kept, in the order of the sort. -/
def Intake.finish (keys : List SortKey) (capacity : Option Nat) (t : Intake) : List Record :=
  match capacity with
  | none => stableSort (fun a b => compareRecords keys a b != .gt) t.buffer.reverse
  | some _ => t.heap.reverse.map Ranked.record

/-- The state of a sort. -/
structure SortState (σ : Type) where
  child : σ
  intake : Intake := {}
  /-- Sorted records still to deliver, once the child has been read. -/
  sorted : Option (List Record) := none

namespace Source

variable {σ : Type}

/-- Delivers the first of the sorted records. -/
def deliverSorted : Step (SortState σ) (Option Record) := fun s =>
  match s.1.state.sorted with
  | some (r :: rest) => .ok (some r) (Step.onto (fun st => { st with sorted := some rest }) s)
  | _ => .ok none s

/-- Goes over from reading to delivering, and counts a completed sort. -/
def readThrough (keys : List SortKey) (capacity : Option Nat)
    (s : Run (σ × Intake) × CallCounts) : Run (SortState σ) × CallCounts :=
  let t := Step.onto (fun p => { child := p.1, sorted := some (p.2.finish keys capacity) }) s
  (t.1, t.2.bump .sort)

/-- Reading comes before delivering, and what is left to deliver runs out. -/
def sortRank (st : SortState σ) : Nat × Nat :=
  match st.sorted with
  | none => (1, 0)
  | some rest => (0, rest.length)

/-- Delivers the child's records in the order of the keys, equal ones in the order of arrival. A
bound on skip and limit lets it forget records that cannot be delivered. -/
def sort (S : Source σ) (keys : List SortKey) (bound : Option (Nat × Nat)) :
    Source (SortState σ) where
  start := { child := S.start }
  init options := do
    Metered.update fun s =>
      if bound.isSome then { s with intake := { s.intake with heap := [] } } else s
    Metered.within SortState.child (fun c s => { s with child := c }) (S.init options)
  reset := do
    Metered.update fun s => { s with intake := {}, sorted := none }
    Metered.within SortState.child (fun c s => { s with child := c }) S.reset
  next g s :=
    match s.1.state.sorted with
    | some _ => deliverSorted s
    | none =>
      match S.pull g (fun _ _ => true) (Intake.absorb keys (sortCapacity bound))
          (Step.onto (fun st => (st.child, st.intake)) s) with
      | .error e t => .error e (Step.onto (fun p => { child := p.1, intake := p.2 }) t)
      | .ok () t => deliverSorted (readThrough keys (sortCapacity bound) t)
  Rank := Nat × Nat
  below := Prod.Lex (· < ·) (· < ·)
  below_trans h h' := lexTrans (r := (· < ·)) (q := (· < ·)) (fun _ _ _ => Nat.lt_trans)
    (fun _ _ _ => Nat.lt_trans) h h'
  below_wellFounded := (Prod.lex Nat.lt_wfRel Nat.lt_wfRel).wf
  rank _ st := sortRank st
  next_some := by
    intro g s r t h
    split at h
    · next hs =>
      unfold deliverSorted at h
      split at h
      · next heq =>
        cases h
        simp only [sortRank, Step.onto, heq]
        exact Prod.Lex.right _ (by simp)
      · cases h
    · next hs =>
      split at h
      · cases h
      · unfold deliverSorted at h
        split at h
        · cases h
          simp only [sortRank, Step.onto, hs]
          exact Prod.Lex.left _ _ Nat.zero_lt_one
        · cases h
  next_none := by
    intro g s t h
    split at h
    · unfold deliverSorted at h
      split at h
      · cases h
      · cases h; exact .inl rfl
    · next hs =>
      split at h
      · cases h
      · unfold deliverSorted at h
        split at h
        · cases h
        · cases h
          right
          simp only [sortRank, readThrough, Step.onto, hs]
          exact Prod.Lex.left _ _ Nat.zero_lt_one

end Source

end Adjacency
