import Adjacency.Proofs.Faultless
import Adjacency.Proofs.Kernels

/-!
# Every call is exact

Calls on matrices, read with every cell count and every position of a dense cell held in a word, or else a
fault.

* `Matrix.ExactWith`: every call on a matrix meets only numbers that a word holds.
* `Matrix.Reachable.exactWith`: **so it is, whatever calls led to the matrix**, but for a number that nothing
  uses: the cell count of a change between the sparse formats, where the cells are more than a word can count.
* `Matrix.exists_uncounted`: such a change there is.
* `Matrix.Laid.exact_wait_settled_iff`: with so many cells, a settled matrix must not change its format.
-/

namespace Adjacency

namespace Matrix

open Guarded
open Metered (outcome eq_ok_of_outcome eq_error_of_outcome)

variable {m other : Matrix} {idle : Bool}

/-! ## Every call on every matrix -/

/-- Every call on `m`, with `other` as the second operand where there is one, meets only numbers that a word
holds, and so does what the plain call does. Idle counts are in it if `idle` is set, and then a matrix must
not grow, nor be built, beyond what can be counted. -/
structure ExactWith (m other : Matrix) (idle : Bool) : Prop where
  setElement (v : Scalar) (row col : Nat) :
    Faultless (Guarded.setElement (.exact idle) v row col) (setElement v row col) m
  accumulate (v : Scalar) (row col : Nat) (op : DupOp) :
    Faultless (Guarded.accumulate (.exact idle) v row col op) (accumulate v row col op) m
  remove (row col : Nat) : Faultless (Guarded.remove (.exact idle) row col) (remove row col) m
  extract (row col : Nat) : Guarded.extract (.exact idle) m row col = raise (m.extract row col)
  wait : Faultless (Guarded.wait (.exact idle)) wait m
  nvals : Faultless (Guarded.nvals (.exact idle)) nvals m
  resize (nrows ncols : Nat) (hcount : Counted (.exact idle) nrows ncols) :
    Faultless (Guarded.resize (.exact idle) nrows ncols) (resize nrows ncols) m
  assignFrom : Faultless (Guarded.assignFrom (.exact idle) other) (assignFrom other) m
  reoriented {σ : Type} (byRow : Bool) (s : σ) :
    Faultless (Guarded.reoriented (.exact idle) m byRow) (m.reoriented byRow) s
  product {σ : Type} (k : Semiring) (options : MatrixOptions) (s : σ) :
    Faultless (Guarded.product (.exact idle) m other k options) (m.product other k options) s
  union {σ : Type} (op : DupOp) (options : MatrixOptions) (hlimit : options.maxDenseCells < UInt64.size)
    (s : σ) : Faultless (Guarded.union (.exact idle) m other op options) (m.union other op options) s
  next (c : Cursor) : Guarded.next (.exact idle) c m = .ok (c.next m)
  tuples : Guarded.tuples (.exact idle) m = .ok m.tuples
  vectorEntries (j : Nat) : Guarded.vectorEntries (.exact idle) m j = .ok (m.vectorEntries j)

/-- On matrices in order whose cells can be counted, if that is asked for, every call is exact. -/
theorem Inv.allExact (h : m.Inv) (ho : other.Inv) (hcount : Counted (.exact idle) m.nrows m.ncols)
    (hocount : Counted (.exact idle) other.nrows other.ncols) : m.ExactWith other idle where
  setElement v row col := h.faultless_accumulate hcount v row col .second
  accumulate := h.faultless_accumulate hcount
  remove := h.faultless_remove hcount
  extract := h.guarded_extract
  wait := h.faultless_wait hcount
  nvals := h.faultless_nvals hcount
  resize _ _ := h.faultless_resize
  assignFrom := h.faultless_assignFrom ho hcount hocount
  reoriented := h.faultless_reoriented hcount
  product := h.faultless_product ho hcount hocount
  union op _ hlimit := h.faultless_union ho hcount hocount op hlimit
  next := h.laid.guarded_next
  tuples := h.laid.guarded_tuples
  vectorEntries := h.laid.guarded_vectorEntries

/-- **Every cell count and every position that a call uses is exact**, on any matrix that calls, failed ones
included, lead to; and where the cells are fewer than the words, so is every one that it evaluates. -/
theorem Reachable.exactWith (h : m.Reachable) (ho : other.Reachable)
    (hcount : idle = true → m.nrows * m.ncols < UInt64.size ∧ other.nrows * other.ncols < UInt64.size) :
    m.ExactWith other idle :=
  h.inv.allExact ho.inv (fun hidle => (hcount hidle).1) fun hidle => (hcount hidle).2

/-- Ones queued for two of sixteen rows, each as long as a row can be. -/
def twoRows : Matrix := waiting (.int64 1) 16 maxDim #[⟨0, 0, none⟩, ⟨0, 1, none⟩]

theorem twoRows_reachable : twoRows.Reachable := by
  have hlimit : ({} : MatrixOptions).maxDenseCells < UInt64.size := by decide
  have hnew : withOptions .int64 16 maxDim {} = .ok (blank .int64 16 maxDim true {}) := rfl
  have hone : (waiting (.int64 1) 16 maxDim #[⟨0, 0, none⟩]).Reachable :=
    (Reachable.created hlimit hnew).requested (r := .set (.int64 1) 0 0) (a := .done) (n := {})
      (s := (_, {})) trivial rfl
  exact hone.requested (r := .set (.int64 1) 1 0) (a := .done) (n := {}) (s := (_, {})) trivial rfl

/-- The two rows, whatever is used of them; and, with the idle counts, a queued write in a small matrix. -/
theorem exactWith_queued_writes : twoRows.ExactWith twoRows.transposed false ∧
    ∃ m : Matrix, m.pending.isSome = true ∧ m.ExactWith m.transposed true := by
  have hlimit : ({} : MatrixOptions).maxDenseCells < UInt64.size := by decide
  have hnew : withOptions .int64 3 4 {} = .ok (blank .int64 3 4 true {}) := rfl
  have hm := (Reachable.created hlimit hnew).requested (r := .set (.int64 5) 1 2) (n := {}) trivial rfl
  refine ⟨Reachable.exactWith twoRows_reachable twoRows_reachable.transposed (fun hidle => by cases hidle),
    _, rfl, Reachable.exactWith hm hm.transposed fun _ => ⟨?_, ?_⟩⟩
  · exact show 3 * 4 < UInt64.size by decide
  · exact show 4 * 3 < UInt64.size by decide

/-! ## More cells than words -/

/-- Where the cells are more than a word can count, a settled matrix is committed with exact numbers just when
it stays in its format. -/
theorem Laid.exact_wait_settled_iff (h : m.Laid) (hdef : m.deferred = false)
    (hcells : UInt64.size ≤ m.vlen * m.vdim) :
    Faultless (Guarded.wait (.exact true)) wait m ↔ m.preferredFormat = m.format := by
  constructor
  · intro hfaultless
    by_contra hne
    have hcount : Guarded.cellsFor (.exact true) m.preferredFormat m =
        .error (.fault (.position (m.vlen * m.vdim) UInt64.size)) := by
      simp only [Guarded.cellsFor, Words.idle, true_or, if_true, Guarded.cells, Guarded.word,
        Nat.not_lt.2 hcells, if_false]
    have hfault : Guarded.wait (.exact true) (m, {}) =
        .error (.fault (.position (m.vlen * m.vdim) UInt64.size)) (m, {}) := by
      simp only [Guarded.wait, Guarded.conform, Guarded.convertTo, subject, lift, Metered.subject, bind,
        EStateM.bind, hdef, h.guarded_slotCount, access, pure, EStateM.pure, Bool.false_eq_true, if_false,
        hne, ne_eq, not_false_eq_true, if_true, hcount]
      rfl
    -- no plain commit ends so
    have hplain := hfaultless {}
    rw [hfault, lift] at hplain
    split at hplain <;> cases hplain
  · intro hstays
    unfold Guarded.wait wait
    refine faultless_subject ?_
    rw [hdef]
    refine Faultless.andThen ?_ fun _ _ => faultless_lift _ _
    unfold Guarded.conform conform
    refine faultless_subject (faultless_access h.guarded_slotCount ?_)
    exact faultless_ite (fun hne => absurd hstays hne) fun _ => faultless_pure _ _

/-- **A commit may count cells that no word can count.** Between the sparse formats it has no use for the
number: the plain commit, in which it wraps to zero, ends well. -/
theorem exists_uncounted : ∃ (m : Matrix) (s : Matrix × CallCounts), m.Reachable ∧
    m.nrows * m.ncols = UInt64.size ∧ wait (m, {}) = .ok () s ∧ s.1.format = .sparse ∧
    ∃ t, Guarded.wait (.exact true) (m, {}) = .error (.fault (.position UInt64.size UInt64.size)) t := by
  have hplain : (outcome (wait (twoRows, {}))).1.toOption = some () := by decide +kernel
  have hfault : (outcome (Guarded.wait (.exact true) (twoRows, {}))).1 =
      .error (.fault (.position UInt64.size UInt64.size)) := by decide +kernel
  exact ⟨twoRows, _, twoRows_reachable, rfl, eq_ok_of_outcome hplain, by decide +kernel, _,
    eq_error_of_outcome hfault⟩

end Matrix

end Adjacency
