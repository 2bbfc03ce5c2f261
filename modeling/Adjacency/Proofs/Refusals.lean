import Adjacency.Proofs.Reachable
import Adjacency.Proofs.Ready

/-!
# Calls that fail

A call may sort vectors, commit the queue or give up a shared value before it fails. None of this is to be
seen from outside. Growth alone may fail once the new dimensions are in place.

* `Matrix.Attempt`: the calls that change entries, with what each may fail for.
* `Matrix.Inv.ensures_attempt`: **a call that fails leaves the shape and every value.**
* `Matrix.Idles`: what may come of a matrix before its values are next changed.
* `Matrix.Reachable.undisturbed_of_error`: the next commit that succeeds delivers what there was before the
  failure.
* `Matrix.Reachable.resize_refused`: **growth that fails keeps every entry**, and the dimensions unless
  there is no memory for the format that the new ones ask for.
-/

namespace Adjacency

open Metered

namespace Matrix

/-- A call that changes entries, or that commits them. -/
inductive Attempt
  | set (v : Scalar) (row col : Nat)
  | accumulate (v : Scalar) (row col : Nat) (op : DupOp)
  | remove (row col : Nat)
  | wait
  | nvals
  | assign (src : Matrix)

namespace Attempt

/-- The call, acted out. -/
def perform : Attempt → Metered Matrix Unit
  | set v row col => discard (setElement v row col)
  | accumulate v row col op => discard (Matrix.accumulate v row col op)
  | remove row col => discard (Matrix.remove row col)
  | wait => Matrix.wait
  | nvals => discard Matrix.nvals
  | assign src => assignFrom src

/-- Content is only taken over from a matrix that there can be. -/
def Sound : Attempt → Prop
  | assign src => src.Reachable
  | _ => True

/-- What the call may fail for: memory, and what is wrong with its own arguments. -/
def Grounds (m : Matrix) : Attempt → GraphError → Prop
  | set v row col, e | accumulate v row col _, e =>
    e.OfMemory ∨ m.checkBounds row col = .error e ∨ m.castIn v = .error e
  | remove row col, e => e.OfMemory ∨ m.checkBounds row col = .error e
  | wait, e | nvals, e => e.OfMemory
  | assign src, e => e.OfMemory ∨ m.AssignFault src e

end Attempt

variable {m t u : Matrix} {a : Attempt}

/-- How an action fails does not depend on its answer. -/
theorem ensures_failing {α : Type} {x : Metered Matrix α} {good : α → Matrix → Prop}
    {bad : GraphError → Matrix → Prop} (hx : Ensures x m good bad) :
    Ensures (discard x) m (fun _ _ => True) bad :=
  ensures_discard (hx.mono (fun _ _ _ => trivial) fun _ _ he => he)

/-- **A call that fails** leaves the shape and every value, and has its own grounds. -/
theorem Inv.ensures_attempt (h : m.Inv) (ha : a.Sound) :
    Ensures a.perform m (fun _ _ => True) (fun e t => t.Inv ∧ m.Keeps t ∧ a.Grounds m e) := by
  cases a with
  | set v row col => exact ensures_failing (ensures_accumulate h v row col .second)
  | accumulate v row col op => exact ensures_failing (ensures_accumulate h v row col op)
  | remove row col => exact ensures_failing (ensures_remove h row col)
  | wait => exact (ensures_wait h).mono (fun _ _ _ => trivial) fun _ _ ht => ⟨ht.2.1, ht.2.2, ht.1⟩
  | nvals =>
    exact (ensures_failing (ensures_nvals h)).mono (fun _ _ _ => trivial)
      fun _ _ ht => ⟨ht.2.1, ht.2.2, ht.1⟩
  | assign src =>
    -- content is computed apart and put in place last, so a failure finds the matrix untouched
    refine (ensures_assignFrom h ha.inv).mono (fun _ _ _ => trivial) ?_
    rintro e _ ⟨rfl, he⟩
    exact ⟨h, Keeps.refl _, he⟩

/-- The same shape, and the same answer for every cell. -/
structure Undisturbed (m t : Matrix) : Prop extends SameShape m t where
  reads : ∀ row col, t.extract row col = m.extract row col

theorem Keeps.undisturbed (hk : m.Keeps t) (h : m.Inv) (ht : t.Inv) : m.Undisturbed t :=
  ⟨hk.toSameShape, fun _ _ => h.extract_congr ht hk.nrows hk.ncols (by rw [hk.cell])⟩

/-- What may come of a matrix before its values are next changed: calls fail, commits succeed, the options
are replaced. -/
inductive Idles (m : Matrix) : Matrix → Prop
  | start : Idles m m
  | failed {t : Matrix} {a : Attempt} {e : GraphError} {n : CallCounts} {s : Matrix × CallCounts}
      (h : Idles m t) (ha : a.Sound) (hs : a.perform (t, n) = .error e s) : Idles m s.1
  | committed {t : Matrix} {n : CallCounts} {s : Matrix × CallCounts} (h : Idles m t)
      (hs : wait (t, n) = .ok () s) : Idles m s.1
  | tuned {t : Matrix} {options : MatrixOptions} (h : Idles m t)
      (hlimit : options.maxDenseCells < UInt64.size) : Idles m { t with options }

/-- Along such a run every value stays. -/
theorem Idles.retains (hi : m.Idles t) (h : m.Inv) :
    t.Inv ∧ t.nrows = m.nrows ∧ t.ncols = m.ncols ∧ t.cell = m.cell := by
  -- by induction on the run: the options may change along it, the dimensions and the cells do not
  induction hi with
  | start => exact ⟨h, rfl, rfl, rfl⟩
  | failed _ ha hs ih =>
    obtain ⟨ht, hr, hc, hcell⟩ := ih
    obtain ⟨hs, hk, -⟩ := (ht.ensures_attempt ha).of_error hs
    exact ⟨hs, hk.nrows.trans hr, hk.ncols.trans hc, hk.cell.trans hcell⟩
  | committed _ hs ih =>
    obtain ⟨ht, hr, hc, hcell⟩ := ih
    obtain ⟨hs, hk, -⟩ := (ensures_wait ht).of_ok hs
    exact ⟨hs, hk.nrows.trans hr, hk.ncols.trans hc, hk.cell.trans hcell⟩
  | tuned _ hlimit ih =>
    obtain ⟨ht, hr, hc, hcell⟩ := ih
    exact ⟨(ht.withOptions _ hlimit).1, hr, hc, hcell⟩

/-- `t` is a committed matrix with the content of `m`. -/
structure Delivers (m t : Matrix) : Prop where
  committed : t.deferred = false
  reads : ∀ row col, t.extract row col = m.extract row col
  lists : ∀ x, x ∈ t.tuples.toList ↔ m.extract x.row x.col = .ok (some x.value)

/-- A commit delivers the values that a matrix had before it idled. -/
theorem Idles.delivers (hi : m.Idles t) (h : m.Inv) {n : CallCounts} {s : Matrix × CallCounts}
    (hs : wait (t, n) = .ok () s) : m.Delivers s.1 := by
  obtain ⟨ht, hr, hc, hcell⟩ := hi.retains h
  obtain ⟨hs, hk, hdef⟩ := (ensures_wait ht).of_ok hs
  have hcell' : s.1.cell = m.cell := hk.cell.trans hcell
  refine ⟨hdef, fun row col => ?_, fun x => ?_⟩
  · exact h.extract_congr hs (hk.nrows.trans hr) (hk.ncols.trans hc) (by rw [hcell'])
  · rw [hs.mem_tuples (deferred_eq_false_iff.1 hdef).1, hcell', h.extract_eq_some_iff]

/-- **A call that fails cannot be seen from outside**, and the next commit that succeeds, whatever fails or
is tuned before it, delivers what there was. -/
theorem Reachable.undisturbed_of_error (h : m.Reachable) (ha : a.Sound) {e : GraphError} {n : CallCounts}
    {s : Matrix × CallCounts} (hs : a.perform (m, n) = .error e s) :
    a.Grounds m e ∧ m.Undisturbed s.1 ∧
      ∀ t, s.1.Idles t → ∀ n' u, Matrix.wait (t, n') = .ok () u → m.Delivers u.1 := by
  obtain ⟨hinv, hk, he⟩ := (h.inv.ensures_attempt ha).of_error hs
  have hseen := hk.undisturbed h.inv hinv
  refine ⟨he, hseen, fun t ht n' u hu => ?_⟩
  obtain ⟨hdef, hreads, hlists⟩ := ht.delivers hinv hu
  exact ⟨hdef, fun row col => (hreads row col).trans (hseen.reads row col),
    fun x => (hlists x).trans (by rw [hseen.reads])⟩

/-- A commit of a queued entry that fails once the entry is in the index: there is no room for so many
vector pointers. Under other options the next commit goes through. -/
theorem undisturbed_of_failed_wait : ∃ (m : Matrix) (s u : Matrix × CallCounts), m.deferred = true ∧
    Matrix.wait (m, {}) = .error (.outOfMemory .vectorPointers) s ∧ s.1.deferred = false ∧
    m.Undisturbed s.1 ∧ Matrix.wait ({ s.1 with options := {} }, {}) = .ok () u ∧ m.Delivers u.1 := by
  have hlimit : ({} : MatrixOptions).maxDenseCells < UInt64.size := by decide
  set m : Matrix := { blank .bool maxDim 2 true { sparsity := .fixed .sparse } with
    store := .hypersparse #[] #[0] #[] #[.bool true], iso := true
    pending := some { tuples := #[⟨0, 1, none⟩], type := .bool, op := .second } }
  have hnew : Reachable (blank .bool maxDim 2 true { sparsity := .fixed .sparse }) :=
    .created (by decide) (show withOptions .bool maxDim 2 { sparsity := .fixed .sparse } = .ok _ from rfl)
  have hm : m.Reachable :=
    hnew.requested (r := .set (.bool true) 1 0) (a := .done) (n := {}) (s := (m, {})) trivial rfl
  have hfail : (outcome (Matrix.wait (m, {}))).1 = .error (.outOfMemory .vectorPointers) := by
    decide +kernel
  have hdef : (outcome (Matrix.wait (m, {}))).2.1.deferred = false := by decide +kernel
  have hok : succeeds Matrix.wait
      ({ (outcome (Matrix.wait (m, {}))).2.1 with options := {} }, {}) = true := by decide +kernel
  have hs := eq_error_of_outcome hfail
  obtain ⟨_, u, hu⟩ := exists_ok hok
  obtain ⟨-, hseen, hlater⟩ := hm.undisturbed_of_error (a := .wait) trivial hs
  exact ⟨m, _, u, rfl, hs, hdef, hseen, hu, hlater _ (.tuned .start hlimit) _ _ hu⟩

/-! ## Growth -/

/-- `m` with other dimensions: it has its entries, but no memory for the format that the dimensions ask
for. -/
structure HalfGrown (m t : Matrix) (nrows ncols : Nat) : Prop extends Stranded t where
  type : t.type = m.type
  byRow : t.byRow = m.byRow
  options : t.options = m.options
  nrows : t.nrows = nrows
  ncols : t.ncols = ncols
  reads : ∀ row col v, t.extract row col = .ok (some v) ↔ m.extract row col = .ok (some v)

/-- **Growth that fails keeps every entry.** Refused for its dimensions, it does nothing at all; for want of
memory it either is not to be seen from outside or has put the new dimensions in place. -/
theorem Reachable.resize_refused (h : m.Reachable) {nrows ncols : Nat} {e : GraphError} {n : CallCounts}
    {s : Matrix × CallCounts} (hs : resize nrows ncols (m, n) = .error e s) :
    s.1 = m ∧ ((nrows < m.nrows ∨ ncols < m.ncols) ∧ e = .invalid .shrinkingResize ∨
        (maxDim < nrows ∨ maxDim < ncols) ∧ e = .invalid .dimensionTooLarge) ∨
      e.OfMemory ∧ (m.Undisturbed s.1 ∨ m.HalfGrown s.1 nrows ncols) := by
  have hwait := (ensures_wait h.inv).mono (fun _ _ _ => trivial) fun _ _ _ => trivial
  -- short of memory before the dimensions are assigned or after, or refused at the gate
  obtain ⟨ht, hk, -, ⟨he, hs⟩ | ⟨hsame, he⟩⟩ :=
    (ensures_resize_keeping (P := fun _ => True) h.inv trivial hwait (fun _ _ _ _ => trivial) nrows
      ncols).of_error hs
  · refine .inr ⟨he, hs.imp (fun hs => ?_) fun ⟨⟨hnrows, hncols⟩, hstranded⟩ => ?_⟩
    · exact ⟨hs, fun _ _ => h.inv.extract_congr ht hs.nrows hs.ncols (by rw [hk.cell])⟩
    · exact ⟨hstranded, hk.type, hk.byRow, hk.options, hnrows, hncols, fun _ _ _ => by
        rw [h.inv.extract_eq_some_iff, ht.extract_eq_some_iff, hk.cell]⟩
  · exact .inl ⟨hsame, he⟩

/-- Four cells, one of them queued, under options that want a pointer for every vector. -/
def pinned : Matrix :=
  { blank .int64 2 2 true { hyperSwitch := ⟨0⟩ } with
    store := .hypersparse #[] #[0] #[] #[.int64 7], iso := true
    pending := some { tuples := #[⟨0, 0, none⟩], type := .int64, op := .second } }

theorem pinned_resize : ∃ s : Matrix × CallCounts, pinned.Reachable ∧ s.1.nrows = maxDim ∧
    resize maxDim 2 (pinned, {}) = .error (.outOfMemory .vectorPointers) s := by
  have hnew : Reachable (blank .int64 2 2 true { hyperSwitch := ⟨0⟩ }) :=
    .created (by decide) (show withOptions .int64 2 2 { hyperSwitch := ⟨0⟩ } = .ok _ from rfl)
  have hm : pinned.Reachable :=
    hnew.requested (r := .set (.int64 7) 0 0) (a := .done) (n := {}) (s := (pinned, {})) trivial rfl
  have hfail : (outcome (resize maxDim 2 (pinned, {}))).1 = .error (.outOfMemory .vectorPointers) := by
    decide +kernel
  exact ⟨_, hm, by decide +kernel, eq_error_of_outcome hfail⟩

/-- Growth to as many rows as there can be: there is no room for so many vector pointers. -/
theorem resize_refused_halfway : ∃ s : Matrix × CallCounts,
    resize maxDim 2 (pinned, {}) = .error (.outOfMemory .vectorPointers) s ∧
      pinned.HalfGrown s.1 maxDim 2 := by
  obtain ⟨s, hm, hrows, hs⟩ := pinned_resize
  have hgrown : s.1 ≠ pinned := fun hsame => by
    rw [hsame] at hrows
    cases hrows
  rcases hm.resize_refused hs with ⟨hsame, -⟩ | ⟨-, hseen | hhalf⟩
  · exact absurd hsame hgrown
  · have := hrows.symm.trans hseen.nrows
    cases this
  · exact ⟨s, hs, hhalf⟩

/-- **Growth that fails may change the dimensions all the same.** -/
theorem exists_resized_failure : ∃ (m : Matrix) (s : Matrix × CallCounts) (e : GraphError),
    m.Reachable ∧ resize maxDim 2 (m, {}) = .error e s ∧
      ¬(s.1.nrows = m.nrows ∧ s.1.ncols = m.ncols) := by
  obtain ⟨s, hm, hrows, hs⟩ := pinned_resize
  refine ⟨pinned, s, _, hm, hs, fun hsame => ?_⟩
  have := hrows.symm.trans hsame.1
  cases this

end Matrix

end Adjacency
