import Adjacency.Proofs.Kernels

/-!
# A matrix built from tuples

What a caller may expect of tuples, said without a matrix: which of them are faulty, what is given for a
cell, and how several values for one cell combine.

* `Tuple.fault`: why a tuple has no place.
* `Tuple.given`, `DupOp.fold`: the values for a cell, and what becomes of them.
* `Matrix.ofTuples_spec`: **the matrix holds the fold of what was given for each cell, or the first faulty
  tuple is reported.**
-/

namespace Adjacency

open Metered

/-- Why a tuple has no place in a matrix of this type and shape. The row is looked at first, then the
column, then the value. -/
def Tuple.fault (type : ScalarType) (nrows ncols : Nat) (t : Tuple) : Option GraphError :=
  if nrows ≤ t.row then some (.invalidIndex .row t.row nrows)
  else if ncols ≤ t.col then some (.invalidIndex .column t.col ncols)
  else if t.value.type.castable type then none
  else some (.domainMismatch t.value.type type)

/-- The values given for a cell, cast, in the order of the tuples. -/
def Tuple.given (type : ScalarType) (ts : List Tuple) (row col : Nat) : List Scalar :=
  (ts.filter fun t => t.row == row && t.col == col).filterMap (·.value.cast type)

/-- Values for one cell, combined from the first one on; none without any. -/
def DupOp.fold (op : DupOp) (type : ScalarType) : List Scalar → Option Scalar
  | [] => none
  | v :: vs => some (vs.foldl (op.apply type) v)

theorem DupOp.fold_eq_foldOnto (op : DupOp) (type : ScalarType) (vs : List Scalar) :
    op.fold type vs = foldOnto (op.apply type) none vs := by
  cases vs with
  | nil => rfl
  | cons v vs => exact (foldOnto_some_eq _ v vs).symm

namespace Matrix

variable {m : Matrix} {type : ScalarType} {nrows ncols : Nat} {byRow : Bool} {options : MatrixOptions}

/-- The two checks of a tuple find what is wrong with it. -/
theorem fault_eq (m : Matrix) (t : Tuple) : t.fault m.type m.nrows m.ncols =
    match m.checkBounds t.row t.col, m.castIn t.value with
    | .error e, _ => some e
    | .ok _, .error e => some e
    | .ok _, .ok _ => none := by
  unfold Tuple.fault checkBounds
  split
  · rfl
  split
  · rfl
  unfold castIn
  cases hcast : t.value.type.castable m.type with
  | true =>
    obtain ⟨w, hw⟩ := Scalar.cast_isSome hcast
    rw [hw]
    rfl
  | false =>
    have hnone : t.value.cast m.type = none := by
      unfold Scalar.cast
      rw [hcast]
      rfl
    rw [hnone]
    rfl

theorem tupleFault_eq (m : Matrix) (ts : List Tuple) :
    m.tupleFault ts = ts.findSome? (Tuple.fault m.type m.nrows m.ncols) := by
  induction ts with
  | nil => rfl
  | cons t ts ih =>
    rw [tupleFault, List.findSome?_cons, fault_eq, ih]
    cases m.checkBounds t.row t.col <;> cases m.castIn t.value <;> rfl

theorem landed_toVector (m : Matrix) (ts : List Tuple) (row col : Nat) :
    m.landed ts (m.toVector row col).1 (m.toVector row col).2 = Tuple.given m.type ts row col := by
  unfold landed Tuple.given
  congr 1
  refine List.filter_congr fun t _ => ?_
  rw [Bool.eq_iff_iff]
  simp only [toVector, beq_iff_eq, Bool.and_eq_true]
  cases m.byRow <;> simp [Prod.ext_iff, and_comm]

/-- `r` is the committed matrix that the tuples make of `b`, those of one cell combined by `op`. -/
structure IsFilled (ts : List Tuple) (op : DupOp) (b r : Matrix) : Prop extends b.SameShape r where
  committed : r.pending = none
  swept : r.zombies = 0
  sorted : r.jumbled = false
  content : ∀ row < b.nrows, ∀ col < b.ncols,
    r.extract row col = .ok (op.fold b.type (Tuple.given b.type ts row col))

/-- **A matrix built from tuples** holds at each cell the fold of what was given for it, with nothing
deferred. If there is a faulty tuple, the first one is reported; otherwise it can only be for want of memory
that there is no matrix. -/
theorem ofTuples_spec {σ : Type} (type : ScalarType) {nrows ncols : Nat} (hrows : nrows ≤ maxDim)
    (hcols : ncols ≤ maxDim) (byRow : Bool) (ts : List Tuple) (op : DupOp) {options : MatrixOptions}
    (hlimit : options.maxDenseCells < UInt64.size) (s : σ × CallCounts) :
    match ofTuples type nrows ncols byRow ts op options s with
    | .ok r _ => ts.findSome? (Tuple.fault type nrows ncols) = none ∧
        IsFilled ts op (blank type nrows ncols byRow options) r
    | .error e _ =>
      match ts.findSome? (Tuple.fault type nrows ncols) with
      | some fault => e = fault
      | none => e.OfMemory := by
  obtain ⟨v, n⟩ := s
  have hbuild : Ensures (ofTuples type nrows ncols byRow ts op options) v _ _ :=
    ensures_ofTuples ts op hlimit
  rw [tupleFault_eq] at hbuild
  cases hrun : ofTuples type nrows ncols byRow ts op options (v, n) with
  | ok r t =>
    obtain ⟨-, hinv, hs, hdef, hfault, hvalue⟩ := hbuild.of_ok hrun
    obtain ⟨hpending, hzombies, hjumbled⟩ := deferred_eq_false_iff.1 hdef
    refine ⟨hfault, hs, hpending, hzombies, hjumbled, fun row hrow col hcol => ?_⟩
    have hplace : r.toVector row col = (blank type nrows ncols byRow options).toVector row col := by
      rw [toVector, toVector, hs.byRow]
    rw [hinv.extract_eq (hs.nrows ▸ hrow) (hs.ncols ▸ hcol), cell, hplace, hvalue, landed_toVector,
      DupOp.fold_eq_foldOnto]
    rfl
  | error e t =>
    rcases (hbuild.of_error hrun).2 with ⟨hmem, hnone⟩ | ⟨hdim, -⟩ | hfault
    · change ts.findSome? (Tuple.fault type nrows ncols) = none at hnone
      simp only [hnone]
      exact hmem
    · omega
    · change ts.findSome? (Tuple.fault type nrows ncols) = some e at hfault
      simp only [hfault]

/-- Three values for one cell, combined in a way that depends on their order, in a matrix by columns. -/
theorem ofTuples_spec_ordered : ∃ (r : Matrix) (u : Unit × CallCounts),
    ofTuples .int64 2 2 false [⟨0, 1, .int64 7⟩, ⟨1, 0, .int64 4⟩, ⟨0, 1, .bool true⟩, ⟨0, 1, .int64 9⟩]
      .first {} ((), {}) = .ok r u ∧
    r.extract 0 1 = .ok (some (.int64 7)) := by
  have hlimit : ({} : MatrixOptions).maxDenseCells < UInt64.size := by decide
  have hok : succeeds (ofTuples .int64 2 2 false
      [⟨0, 1, .int64 7⟩, ⟨1, 0, .int64 4⟩, ⟨0, 1, .bool true⟩, ⟨0, 1, .int64 9⟩] .first {}) ((), {}) = true := by
    decide +kernel
  obtain ⟨r, u, hrun⟩ := exists_ok hok
  have htwo : 2 ≤ maxDim := by decide
  have hspec := ofTuples_spec .int64 htwo htwo false
    [⟨0, 1, .int64 7⟩, ⟨1, 0, .int64 4⟩, ⟨0, 1, .bool true⟩, ⟨0, 1, .int64 9⟩] .first hlimit ((), {})
  rw [hrun] at hspec
  exact ⟨r, u, hrun, hspec.2.content 0 (by decide) 1 (by decide)⟩

end Matrix

end Adjacency
