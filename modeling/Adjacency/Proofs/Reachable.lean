import Adjacency.Proofs.GraphRun
import Adjacency.Proofs.Product

/-!
# The matrices there can be

* `Matrix.Reachable`: what comes out of any sequence of calls, failed ones included, on matrices and on
  the graphs that hold them.
* `Reachable.inv`: **every such matrix is in order.**
-/

namespace Adjacency

open Metered

namespace Matrix

/-- A matrix that some sequence of calls leads to. -/
inductive Reachable : Matrix → Prop
  | created {type : ScalarType} {nrows ncols : Nat} {options : MatrixOptions} {m : Matrix}
      (hlimit : options.maxDenseCells < UInt64.size)
      (h : withOptions type nrows ncols options = .ok m) : Reachable m
  | built {type : ScalarType} {nrows ncols : Nat} {byRow : Bool} {ts : List Tuple} {op : DupOp}
      {options : MatrixOptions} {m : Matrix} {s s' : Unit × CallCounts}
      (hlimit : options.maxDenseCells < UInt64.size)
      (h : ofTuples type nrows ncols byRow ts op options s = .ok m s') : Reachable m
  | requested {m : Matrix} {r : Request} {a : Answer} {n : CallCounts} {s : Matrix × CallCounts}
      (h : Reachable m) (hr : r.Sized) (hs : r.perform (m, n) = .ok a s) : Reachable s.1
  | refused {m : Matrix} {r : Request} {e : GraphError} {n : CallCounts} {s : Matrix × CallCounts}
      (h : Reachable m) (hr : r.Sized) (hs : r.perform (m, n) = .error e s) : Reachable s.1
  | transposed {m : Matrix} (h : Reachable m) : Reachable m.transposed
  | reoriented {m m' : Matrix} {byRow : Bool} {s s' : Unit × CallCounts} (h : Reachable m)
      (hs : m.reoriented byRow s = .ok m' s') : Reachable m'
  | assigned {m src : Matrix} {n : CallCounts} {s : Matrix × CallCounts} (h : Reachable m)
      (hsrc : Reachable src) (hs : assignFrom src (m, n) = .ok () s) : Reachable s.1
  | unassigned {m src : Matrix} {e : GraphError} {n : CallCounts} {s : Matrix × CallCounts}
      (h : Reachable m) (hsrc : Reachable src) (hs : assignFrom src (m, n) = .error e s) : Reachable s.1
  | product {a b m : Matrix} {k : Semiring} {options : MatrixOptions} {s s' : Unit × CallCounts}
      (hlimit : options.maxDenseCells < UInt64.size) (ha : Reachable a) (hb : Reachable b)
      (hs : a.product b k options s = .ok m s') : Reachable m
  | union {a b m : Matrix} {op : DupOp} {options : MatrixOptions} {s s' : Unit × CallCounts}
      (hlimit : options.maxDenseCells < UInt64.size) (ha : Reachable a) (hb : Reachable b)
      (hs : a.union b op options s = .ok m s') : Reachable m
  | relation {options : GraphOptions} {g : Graph} {id : RelationId} {transposed : Bool} {m : Matrix}
      (hlimit : options.matrix.maxDenseCells < UInt64.size) (hg : (Graph.new options).Runs g)
      (hm : g.relationMatrix id transposed = .ok m) : Reachable m
  | label {options : GraphOptions} {g : Graph} {id : LabelId} {m : Matrix}
      (hlimit : options.matrix.maxDenseCells < UInt64.size) (hg : (Graph.new options).Runs g)
      (hm : g.labelMatrix id = .ok m) : Reachable m

/-- **Every matrix there can be is in order.** -/
theorem Reachable.inv {m : Matrix} (h : m.Reachable) : m.Inv := by
  induction h with
  | created hlimit h =>
    obtain ⟨hr, hc, rfl⟩ := withOptions_eq_ok_iff.1 h
    exact (inv_blank hr hc hlimit).1
  | built hlimit h => exact ((ensures_ofTuples _ _ hlimit).of_ok h).2.1
  | requested h hr hs ih => exact ((ih.ensures_perform hr).of_ok hs).1
  | refused h hr hs ih => exact ((ih.ensures_perform hr).of_error hs).1
  | transposed h ih => exact ih.transposed.1
  | reoriented h hs ih => exact ((ensures_reoriented ih _).of_ok hs).2.1
  | assigned h hsrc hs ih ihsrc => exact ((ensures_assignFrom ih ihsrc).of_ok hs).1
  | unassigned h hsrc hs ih ihsrc =>
    have hsame := ((ensures_assignFrom ih ihsrc).of_error hs).1
    rwa [hsame]
  | product hlimit ha hb hs iha ihb => exact ((ensures_product iha ihb _ hlimit).of_ok hs).2.1
  | union hlimit ha hb hs iha ihb => exact ((ensures_union iha ihb _ hlimit).of_ok hs).2.1
  | @relation options g id transposed m hlimit hg hm =>
    obtain ⟨r, hr, rfl⟩ := (hg.inv (Graph.inv_new hlimit)).1.relationMatrix_holds hm
    cases transposed
    · exact hr.matrix.inv
    · exact hr.transposed.inv
  | label hlimit hg hm => exact ((hg.inv (Graph.inv_new hlimit)).1.labelMatrix_marks hm).inv

end Matrix

end Adjacency
