import Adjacency.Proofs.Refusals
import Adjacency.Proofs.Replacement

/-!
# Evaluations that fail

An evaluation computes its value apart, and assigns it in one go. It is committed only then, and the commit
may fail.

* `Expression.Readable.ensures_evaluate`: the value of an expression is in order.
* `Expression.Overwritten`: the value has taken the place of the old content, but is yet to be committed.
* `Expression.evalInto_refused`: **an evaluation that fails leaves its output as it was**, unless there is no
  memory to commit the value that has been assigned.
-/

namespace Adjacency

open Metered

namespace Expression

variable {σ : Type} {s : σ} {ctx : EvalContext} {e : Expression} {out value : Matrix}

/-- The kernels compute matrices in order. -/
theorem respected_inv {options : MatrixOptions} (hlimit : options.maxDenseCells < UInt64.size) (s : σ) :
    Respected (fun m _ => m.Inv) (fun _ _ => True) options s where
  product hm hn := (Matrix.ensures_product hm hn .lorLand hlimit).mono (fun _ _ h => ⟨h.1, h.2.1⟩)
    fun _ _ h => ⟨h.1, trivial⟩
  union hm hn := (Matrix.ensures_union hm hn .lor hlimit).mono (fun _ _ h => ⟨h.1, h.2.1⟩)
    fun _ _ h => ⟨h.1, trivial⟩
  transposed hm := hm.transposed.1
  fails_times _ := trivial
  fails_plus _ := trivial
  fails_swap _ := trivial

/-- **The value of an expression is in order**, and computing it changes nothing. -/
theorem Readable.ensures_evaluate (h : e.Readable ctx) (hlimit : ctx.options.maxDenseCells < UInt64.size)
    (s : σ) : Ensures (evaluate ctx e) s (fun m t => t = s ∧ m.Inv) (fun _ t => t = s) := by
  have hgives : Gives (fun m _ => m.Inv) (fun _ _ => True) ctx s e .nothing := by
    induction e using byOperands with
    | operand source transposed =>
      rw [Gives, evaluate]
      exact ensures_require (fun m hm => ⟨rfl, h _ (List.mem_singleton.2 rfl) m hm⟩)
        fun _ _ => ⟨rfl, trivial⟩
    | operation op es ih =>
      have hes : List.Forall₂ (Gives (fun m _ => m.Inv) (fun _ _ => True) ctx s) es
          (es.map fun _ => Meaning.nothing) :=
        List.forall₂_map_right_iff.2 (List.forall₂_same.2 fun e he => ih e he (h.of_mem he))
      exact ((respected_inv hlimit s).ensures_operation hes fun _ => ⟨trivial, trivial⟩)
  exact hgives.mono (fun _ _ ht => ht) fun _ _ ht => ht.1

/-- `t` is the output with the entries of a value, cast, in the place of its own. -/
structure Overwritten (value out t : Matrix) : Prop extends out.SameShape t where
  reads : ∀ row col v, t.extract row col = .ok (some v) ↔
    ∃ w, value.extract row col = .ok (some w) ∧ w.cast out.type = some v

/-- **An evaluation that fails leaves its output as it was**, whatever it fails for, until the value has been
computed and assigned. What is left is the commit, which may be short of memory for a vast output. -/
theorem evalInto_refused {options : GraphOptions} (hlimit : options.matrix.maxDenseCells < UInt64.size)
    (hg : (Graph.new options).Reaches ctx.graph) (hcells : ctx.options.maxDenseCells < UInt64.size)
    (hleaves : ∀ leaf ∈ e.leaves, leaf.1.Typed ctx.filter fun _ => True) (hout : out.Reachable)
    {err : GraphError} {n : CallCounts} {s : Matrix × CallCounts}
    (hs : e.evalInto ctx (out, n) = .error err s) :
    s.1 = out ∨ err.OfMemory ∧ ∃ value t u, e.evaluate ctx (out, n) = .ok value t ∧
      Matrix.assignFrom value t = .ok () u ∧ Matrix.wait u = .error err s ∧ u.1.Vast ∧
      Overwritten value out s.1 := by
  have hevaluate := (readable_of_reaches hlimit hg hleaves).ensures_evaluate hcells out
  rcases bind_eq_error hs with hfail | ⟨value, t, hvalue, hs⟩
  · exact .inl (hevaluate.of_error hfail)
  obtain ⟨ht, hinv⟩ := hevaluate.of_ok hvalue
  obtain ⟨out', m⟩ := t
  obtain rfl : out = out' := ht.symm
  have hassign := Matrix.ensures_assignFrom hout.inv hinv
  change (if _ then _ else _ : Metered Matrix Unit) (out, m) = _ at hs
  split at hs
  · -- a value of another shape is refused before it is assigned
    cases hs
    exact .inl rfl
  rcases bind_eq_error hs with hfail | ⟨_, u, hput, hs⟩
  · exact .inl (hassign.of_error hfail).1
  obtain ⟨hu, hshape, -, -, hcell, -⟩ := hassign.of_ok hput
  -- the output is the value by now, and a commit that fails keeps what it finds
  rcases bind_eq_error hs with hfail | ⟨_, w, -, hs⟩
  · obtain ⟨herr, hinv', hk⟩ := (Matrix.ensures_wait hu).of_error hfail
    refine .inr ⟨herr, value, _, u, hvalue, hput, hfail, hu.ensures_wait_vast.of_error hfail herr,
      hshape.trans hk.toSameShape, fun row col v => ?_⟩
    rw [hinv'.extract_eq_some_iff, hk.cell, hcell, Option.bind_eq_some_iff]
    exact exists_congr fun w => and_congr_left' hinv.extract_eq_some_iff.symm
  · cases hs

/-- A matrix that wants a pointer for every vector, with as many vectors as there can be. -/
def tower : Matrix := Matrix.blank .bool maxDim 2 true { sparsity := .fixed .sparse }

/-- The same shape, with one entry queued. -/
def dotted : Matrix := Matrix.waiting (.bool true) maxDim 2 #[⟨0, 0, none⟩]

theorem tower_evalInto : ∃ s : Matrix × CallCounts, tower.Reachable ∧ dotted.Reachable ∧
    (matrix dotted).evalInto { graph := .new {} } (tower, {}) = .error (.outOfMemory .vectorPointers) s ∧
    s.1.extract 0 0 = .ok (some (.bool true)) := by
  have htower : tower.Reachable :=
    .created (by decide) (show Matrix.withOptions .bool maxDim 2 { sparsity := .fixed .sparse } = .ok _ from rfl)
  have hnew : (Matrix.blank .bool maxDim 2 true {}).Reachable :=
    .created (by decide) (show Matrix.withOptions .bool maxDim 2 {} = .ok _ from rfl)
  have hdotted : dotted.Reachable :=
    hnew.requested (r := .set (.bool true) 0 0) (a := .done) (n := {}) (s := (dotted, {})) trivial rfl
  have hfail : (outcome ((matrix dotted).evalInto { graph := .new {} } (tower, {}))).1 =
      .error (.outOfMemory .vectorPointers) := by decide +kernel
  exact ⟨_, htower, hdotted, eq_error_of_outcome hfail, by decide +kernel⟩

/-- The entry is assigned, and then there is no room for so many vector pointers. -/
theorem evalInto_refused_uncommitted : ∃ s : Matrix × CallCounts,
    (matrix dotted).evalInto { graph := .new {} } (tower, {}) = .error (.outOfMemory .vectorPointers) s ∧
      Overwritten dotted tower s.1 := by
  obtain ⟨s, htower, hdotted, hs, hentry⟩ := tower_evalInto
  have hleaves : ∀ leaf ∈ (matrix dotted).leaves, leaf.1.Typed none fun _ => True :=
    List.forall_mem_singleton.2 ⟨hdotted, trivial⟩
  have hg : (Graph.new {}).Reaches (.new {}) := .start
  rcases evalInto_refused (by decide) hg (by decide) hleaves htower hs with
    hsame | ⟨-, value, t, -, hvalue, -, -, -, hover⟩
  · rw [hsame] at hentry
    cases hentry
  · obtain rfl : dotted = value := (EStateM.Result.ok.inj hvalue).1
    exact ⟨s, hs, hover⟩

/-- **An evaluation that fails may replace its output all the same.** -/
theorem exists_overwriting_failure : ∃ (out : Matrix) (e : Expression) (ctx : EvalContext) (err : GraphError)
    (s : Matrix × CallCounts), out.Reachable ∧ (Graph.new {}).Reaches ctx.graph ∧
      (∀ leaf ∈ e.leaves, leaf.1.Typed ctx.filter fun _ => True) ∧
      e.evalInto ctx (out, {}) = .error err s ∧ ¬out.Undisturbed s.1 := by
  obtain ⟨s, htower, hdotted, hs, hentry⟩ := tower_evalInto
  refine ⟨tower, matrix dotted, { graph := .new {} }, _, s, htower, .start,
    List.forall_mem_singleton.2 ⟨hdotted, trivial⟩, hs, fun hsame => ?_⟩
  rw [hsame.reads] at hentry
  cases hentry

end Expression

end Adjacency
