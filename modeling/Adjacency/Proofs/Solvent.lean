import Adjacency.Proofs.Batch
import Adjacency.Proofs.NormalForm
import Adjacency.Proofs.Rerun
import Adjacency.Proofs.Room

/-!
# Runs that there is memory for

With matrices and batches of bounded size, no call of an operator runs out of memory. What a tree is shown to
serve unless memory runs out, it then serves for certain.

* `Expression.Roomy.ensures_evaluate`, `Expression.Roomy.ensures_prepared`: **there is memory for the value of
  an expression with roomy leaves**, and for preparing it.
* `Traversal.Roomy.ensures_evaluateBatch`: **there is memory for a batch.**
* `Source.StaysIn`: out of certain states a step fails in certain ways only, and leaves such a state; one lemma
  per operator.
* `Source.FailsIn`: made ready and called any number of times, a source fails in certain ways only.
* `OperatorTree.failsIn`: **a tree with roomy traversals does not run out of memory.**
* `OperatorTree.Roomy.serves`: what such a tree serves with memory enough, it serves.
-/

namespace Adjacency

open Metered

variable {D : Nat} {g : Graph}

/-! ## Expressions -/

theorem sparseFamily_dense : MatrixOptions.sparseFamily.maxDenseCells < reservationLimit := by decide

/-- The matrix of a leaf, if there is one, is roomy. -/
def Operand.Roomy (ctx : EvalContext) (D : Nat) (source : Operand) : Prop :=
  ∀ transposed m, Expression.leafMatrix ctx source transposed = .ok m → m.Roomy D

namespace Expression

/-- All leaves have roomy matrices. -/
def Roomy (ctx : EvalContext) (D : Nat) (e : Expression) : Prop :=
  ∀ source ∈ e.leaves.map Prod.fst, source.Roomy ctx D

variable {σ : Type} {s : σ} {ctx : EvalContext} {e : Expression}

theorem not_ofMemory_leafMatrix {source : Operand} {transposed : Bool} {err : GraphError}
    (h : leafMatrix ctx source transposed = .error err) : ¬err.OfMemory := by
  rintro ⟨site, rfl⟩
  unfold leafMatrix at h
  split at h
  · unfold Graph.relationMatrix at h
    split at h <;> cases h
  · unfold Graph.labelMatrix at h
    split at h <;> cases h
  · cases h
  · split at h <;> cases h

theorem roomy_operation {op : Combination} {es : List Expression} :
    (operation op es).Roomy ctx D ↔ ∀ e ∈ es, e.Roomy ctx D := by
  unfold Roomy
  rw [leaves_operation, List.map_flatMap]
  simp only [List.mem_flatMap]
  exact ⟨fun h e he source hs => h source ⟨e, he, hs⟩, fun h source ⟨e, he, hs⟩ => h e he source hs⟩

theorem roomy_operand {source : Operand} {transposed : Bool} :
    (operand source transposed).Roomy ctx D ↔ source.Roomy ctx D := List.forall_mem_singleton

/-- The leaves of an optimized expression are those of the expression. -/
theorem Roomy.optimized (h : e.Roomy ctx D) : e.optimized.Roomy ctx D := by
  intro source hs
  rw [Expression.optimized, leaves_flatten, (sources_pushTranspose e false).mem_iff] at hs
  exact h source hs

theorem Roomy.multiplyLeft {first : Expression} (hfirst : first.Roomy ctx D) (h : e.Roomy ctx D) :
    (e.multiplyLeft first).Roomy ctx D := by
  unfold Expression.multiplyLeft
  split
  · exact roomy_operation.2 (List.forall_mem_cons.2 ⟨hfirst, roomy_operation.1 h⟩)
  · exact roomy_operation.2 (List.forall_mem_cons.2 ⟨hfirst, List.forall_mem_singleton.2 h⟩)

/-- A roomy filter is one more leaf. -/
theorem Roomy.filtered (h : e.Roomy { graph := g } D) {f : Matrix} (hf : f.Roomy D) (options : MatrixOptions) :
    e.Roomy { graph := g, filter := some f, options } D := by
  intro source hs transposed m hm
  cases source with
  | relation id => exact h _ hs transposed m hm
  | label id => exact h _ hs transposed m hm
  | matrix own => exact h _ hs transposed m hm
  | filter =>
    cases hm
    split
    · exact hf.transposed
    · exact hf

end Expression

/-- The matrices of a graph are roomy, up to what waits in their queues. -/
theorem Graph.Inv.roomy (hg : g.Inv) (hdim : g.dim ≤ D) (hroom : ∀ part m, g.matrix? part = some m →
    m.pendingCount ≤ 2 * (D * D) ∧ m.options.maxDenseCells < reservationLimit) {source : Operand}
    (hown : ∀ m, source = .matrix m → m.Roomy D) : source.Roomy { graph := g } D := by
  have hpart : ∀ part m, g.matrix? part = some m → m.Roomy D := by
    intro part m hm
    have hmarks := hg.marks hm
    obtain ⟨hqueue, hdense⟩ := hroom part m hm
    exact ⟨hmarks.inv, hmarks.nrows ▸ hdim, hmarks.ncols ▸ hdim, hqueue, hdense⟩
  intro transposed m hm
  cases source with
  | relation id => exact hpart _ m (matrix?_of_relationMatrix hm)
  | label id => exact hpart _ m (matrix?_of_labelMatrix hm)
  | matrix own =>
    cases hm
    split
    · exact (hown own rfl).transposed
    · exact hown own rfl
  | filter => cases hm

namespace Expression

variable {σ : Type} {s : σ} {ctx : EvalContext} {e : Expression}

/-- The kernels find memory for roomy operands, and give roomy results. -/
theorem respected_roomy (hD : Ample D) {options : MatrixOptions}
    (hdense : options.maxDenseCells < reservationLimit) :
    Respected (fun m _ => m.Roomy D) (fun _ err => ¬err.OfMemory) options s where
  product hm hn := hm.ensures_product hD hn .lorLand hdense
  union hm hn := hm.ensures_union hD hn .lor hdense
  transposed hm := hm.transposed
  fails_times h := h.elim id id
  fails_plus h := h.elim id id
  fails_swap h := h

/-- **There is memory for the value** of an expression with roomy leaves. -/
theorem Roomy.ensures_evaluate (hD : Ample D) (hdense : ctx.options.maxDenseCells < reservationLimit)
    (h : e.Roomy ctx D) : Ensures (evaluate ctx e) s (fun m t => t = s ∧ m.Roomy D)
      (fun err t => t = s ∧ ¬err.OfMemory) := by
  have hgives : Gives (fun m _ => m.Roomy D) (fun _ err => ¬err.OfMemory) ctx s e .nothing := by
    induction e using byOperands with
    | operand source transposed =>
      rw [Gives, evaluate]
      exact ensures_require (fun m hm => ⟨rfl, roomy_operand.1 h transposed m hm⟩)
        fun err he => ⟨rfl, not_ofMemory_leafMatrix he⟩
    | operation op es ih =>
      have hes : List.Forall₂ (Gives (fun m _ => m.Roomy D) (fun _ err => ¬err.OfMemory) ctx s) es
          (es.map fun _ => Meaning.nothing) :=
        List.forall₂_map_right_iff.2 (List.forall₂_same.2 fun e he => ih e he (roomy_operation.1 h e he))
      exact (respected_roomy hD hdense).ensures_operation hes fun _ =>
        ⟨GraphError.not_ofMemory_invalid _, GraphError.not_ofMemory_invalid _⟩
  exact hgives

/-- There is memory to assign the value to a roomy matrix. -/
theorem Roomy.ensures_evalInto (hD : Ample D) (hdense : ctx.options.maxDenseCells < reservationLimit)
    (h : e.Roomy ctx D) {out : Matrix} (hout : out.Roomy D) :
    Ensures (e.evalInto ctx) out (fun _ t => t.Roomy D) (fun err _ => ¬err.OfMemory) := by
  unfold evalInto
  refine (h.ensures_evaluate hD hdense).andThen (fun _ _ he => he.2) ?_
  rintro value _ ⟨rfl, hvalue⟩
  refine ensures_subject (ensures_guard (fun _ => GraphError.not_ofMemory_dimensionMismatch _ _ _) fun _ => ?_)
  refine (hout.ensures_assignFrom hD hvalue).bind fun _ t ht => ?_
  exact (ht.1.ensures_wait hD).andThen (fun _ _ he => he.elim) fun _ u hu => ensures_tally hu.1

theorem roomy_matrix {m : Matrix} (h : m.Roomy D) : (matrix m).Roomy ctx D := by
  refine roomy_operand.2 fun transposed r hr => ?_
  cases hr
  split
  · exact h.transposed
  · exact h

/-- **There is memory to prepare** an expression with roomy leaves; those put in are roomy. -/
theorem Roomy.ensures_prepared (hD : Ample D) (h : e.Roomy { graph := g } D) :
    Ensures (prepared g e) s (fun p t => t = s ∧ p.Roomy { graph := g } D)
      (fun err t => t = s ∧ ¬err.OfMemory) := by
  induction e using byOperands with
  | operand source transposed =>
    rw [prepared]
    unfold preparedLeaf
    refine ensures_ite (fun _ => ensures_pure ⟨rfl, h⟩) fun _ => ?_
    refine ensures_require_then (fun err he => ⟨rfl, not_ofMemory_leafMatrix he⟩) fun m hm => ?_
    have hroomy := roomy_operand.1 h transposed m hm
    refine ensures_ite (fun _ => ?_) fun _ => ?_
    · split
      · exact ensures_pure ⟨rfl, roomy_matrix hroomy⟩
      · exact ensures_pure ⟨rfl, h⟩
    · refine (hroomy.ensures_committedRows hD).andThen (fun _ _ he => he.elim) ?_
      rintro r _ ⟨rfl, -, hr⟩
      exact ensures_pure ⟨rfl, roomy_matrix hr⟩
  | operation op es ih =>
    rw [prepared]
    refine (ensures_preparedAll (R := fun _ p => p.Roomy { graph := g } D) fun e he =>
      ih e he (roomy_operation.1 h e he)).bind ?_
    rintro ps _ ⟨rfl, hps⟩
    refine ensures_pure ⟨rfl, roomy_operation.2 fun p hp => ?_⟩
    obtain ⟨k, hk, rfl⟩ := List.getElem_of_mem hp
    exact hps.get (by rw [hps.length_eq]; exact hk) hk

end Expression

/-! ## Batches -/

namespace Traversal

/-- What a traversal holds is bounded: its batch by its capacity, and its matrices and those of the prepared
expression by `D`. Between batches the filter is empty. -/
structure Roomy (g : Graph) (D : Nat) (t : Traversal) : Prop where
  capacity : t.capacity ≤ D
  size : t.batch.size ≤ t.capacity
  prepared : ∀ e, t.prepared = some e → e.Roomy { graph := g } D
  filter : ∀ w, t.workspace = some w → w.filter.Roomy D ∧ w.filter.pendingCount = 0
  result : ∀ w, t.workspace = some w → w.result.Roomy D

variable {t : Traversal} {p : Pattern}

theorem not_ofMemory_expand {batch : Array Record} {entry : Tuple} {e : GraphError}
    (h : expand p g batch entry = .error e) : ¬e.OfMemory := by
  rintro ⟨site, rfl⟩
  unfold expand at h
  split at h
  · cases h
  · split at h
    · cases h
    · dsimp only at h
      split at h
      · cases h
      · split at h <;> cases h

namespace Roomy

theorem ensures_ensureWorkspace (hdim : g.dim ≤ D) (h : t.Roomy g D) : Ensures (ensureWorkspace g) t
    (fun _ u => u.Roomy g D ∧ ∃ w, u.workspace = some w) (fun e _ => ¬e.OfMemory) := by
  unfold ensureWorkspace
  refine ensures_subject (ensures_ite (fun _ => ?_) fun hfit => ensures_pure ⟨h, ?_⟩)
  · refine ensures_require_then (fun _ he => Matrix.not_ofMemory_withOptions he) fun m hm => ?_
    obtain ⟨hr, hc, rfl⟩ := Matrix.withOptions_eq_ok_iff.1 hm
    have hblank : (Matrix.blank .bool t.capacity g.dim true .sparseFamily).Roomy D :=
      ⟨(Matrix.inv_blank hr hc (by decide)).1, h.capacity, hdim, Nat.zero_le _, sparseFamily_dense⟩
    refine ensures_put ⟨⟨h.capacity, h.size, h.prepared, ?_, ?_⟩, _, rfl⟩
    · rintro w ⟨⟩
      exact ⟨hblank, rfl⟩
    · rintro w ⟨⟩
      exact hblank
  · cases hw : t.workspace with
    | none => exact absurd (by rw [hw]; rfl) hfit
    | some w => exact ⟨w, rfl⟩

theorem ensures_ensurePrepared (hD : Ample D) (hp : p.expr.Roomy { graph := g } D) (h : t.Roomy g D) :
    Ensures (ensurePrepared p g) t
      (fun e u => u.Roomy g D ∧ u.workspace = t.workspace ∧ e.Roomy { graph := g } D)
      (fun e _ => ¬e.OfMemory) := by
  have hfilter : Expression.filter.Roomy { graph := g } D :=
    Expression.roomy_operand.2 fun _ _ hm => nomatch hm
  unfold ensurePrepared
  refine ensures_subject ?_
  split
  · next e he => exact ensures_pure ⟨h, rfl, h.prepared e he⟩
  · refine (((hfilter.multiplyLeft hp).optimized).ensures_prepared hD).andThen (fun _ _ he => he.2) ?_
    rintro e _ ⟨rfl, he⟩
    refine ensures_update_then (ensures_pure ⟨⟨h.capacity, h.size, ?_, h.filter, h.result⟩, rfl, he⟩)
    rintro _ ⟨⟩
    exact he

/-- Every record of a batch puts one mark into the filter. -/
theorem ensures_fillFilter (hD : Ample D) {src : Nat} {batch : List (Record × Nat)} {f : Matrix}
    (hf : f.Roomy D) (hroom : f.pendingCount + batch.length ≤ 2 * (D * D)) :
    Ensures (fillFilter src batch) f (fun _ u => u.Roomy D) (fun e _ => ¬e.OfMemory) := by
  induction batch generalizing f with
  | nil => exact (hf.ensures_wait hD).mono (fun _ _ hu => hu.1) fun _ _ he => he.elim
  | cons x batch ih =>
    obtain ⟨r, row⟩ := x
    rw [List.length_cons] at hroom
    unfold fillFilter
    split
    · exact ensures_throw (GraphError.not_ofMemory_contractViolation _)
    · refine Ensures.bind (ensures_discard (hf.ensures_accumulate hD (by omega) _ _ _ .second)) ?_
      rintro _ u ⟨hu, -, hcount⟩
      exact ih hu (by omega)

/-- **There is memory for a batch**, and for the next one behind it. -/
theorem ensures_evaluateBatch (hD : Ample D) (hdim : g.dim ≤ D) (hp : p.expr.Roomy { graph := g } D)
    (h : t.Roomy g D) :
    Ensures (evaluateBatch p g) t (fun _ u => u.Roomy g D) (fun e _ => ¬e.OfMemory) := by
  unfold evaluateBatch
  refine (h.ensures_ensureWorkspace hdim).bind ?_
  rintro _ u ⟨hu, w, hw⟩
  refine (hu.ensures_ensurePrepared hD hp).bind ?_
  rintro e u ⟨hu, hkept, he⟩
  rw [hw] at hkept
  obtain ⟨hfilter, hempty⟩ := hu.filter w hkept
  have hlength : u.batch.toList.zipIdx.length ≤ 2 * (D * D) := by
    have := Nat.le_trans hu.size hu.capacity
    have := Nat.le_mul_self D
    rw [List.length_zipIdx, Array.length_toList]
    omega
  have hfill : Ensures (onFilter (fillFilter p.src u.batch.toList.zipIdx)) u
      (fun _ v => ∃ f : Matrix, f.Roomy D ∧ v = { u with workspace := some { w with filter := f } })
      (fun e _ => ¬e.OfMemory) :=
    ensures_onFilter hkept (ensures_fillFilter hD hfilter (by rw [hempty]; omega))
      (fun _ f hf => ⟨f, hf, rfl⟩) fun _ _ he => he
  refine ensures_subject (hfill.bind ?_)
  rintro _ _ ⟨f, hf, rfl⟩
  have heval : Ensures (onResult (e.evalInto { graph := g, filter := some f, options := .sparseFamily }))
      { u with workspace := some { w with filter := f } }
      (fun _ v => ∃ r : Matrix, r.Roomy D ∧ v = { u with workspace := some ⟨f, r⟩ })
      (fun e _ => ¬e.OfMemory) :=
    ensures_onResult rfl ((he.filtered hf _).ensures_evalInto hD sparseFamily_dense (hu.result w hkept))
      (fun _ r hr => ⟨r, hr, rfl⟩) fun _ _ he => he
  refine ensures_tally_then (ensures_subject (heval.bind ?_))
  rintro _ _ ⟨r, hr, rfl⟩
  have hclear : Ensures (onFilter Matrix.clear) { u with workspace := some ⟨f, r⟩ }
      (fun _ v => v = { u with workspace := some ⟨f.cleared, r⟩ }) (fun e _ => ¬e.OfMemory) :=
    ensures_onFilter rfl (ensures_update rfl) (fun _ c (hc : c = f.cleared) => by rw [hc]) fun _ _ he => he
  refine hclear.bind ?_
  rintro _ _ rfl
  refine ensures_update ⟨hu.capacity, hu.size, hu.prepared, ?_, ?_⟩
  · rintro _ ⟨⟩
    exact ⟨hf.of_settled ⟨rfl, rfl, rfl, rfl, rfl⟩ hf.inv.cleared.1 rfl, rfl⟩
  · rintro _ ⟨⟩
    exact hr

/-- A result that is delivered is not changed. -/
theorem ensures_emit (h : t.Roomy g D) (p : Pattern) :
    Ensures (emit p g) t (fun _ u => u.Roomy g D) (fun e _ => ¬e.OfMemory) := by
  intro n
  unfold emit
  cases t.workspace with
  | none => exact GraphError.not_ofMemory_contractViolation _
  | some w =>
    dsimp only
    cases t.cursor.next w.result with
    | mk entry c =>
      cases entry with
      | none => exact ⟨h.capacity, h.size, h.prepared, h.filter, h.result⟩
      | some entry =>
        dsimp only
        cases he : expand p g t.batch entry with
        | error e => exact not_ofMemory_expand he
        | ok x => exact ⟨h.capacity, h.size, h.prepared, h.filter, h.result⟩

theorem popOwed (h : t.Roomy g D) {u : Traversal} {r : Record} (hr : t.popOwed p = some (r, u)) :
    u.Roomy g D := by
  unfold Traversal.popOwed at hr
  split at hr
  · cases hr
    exact ⟨h.capacity, h.size, h.prepared, h.filter, h.result⟩
  · cases hr

end Roomy

end Traversal

/-! ## Sources -/

namespace Source

variable {σ α β : Type} {S : Source σ} {P : σ → Prop} {F G : GraphError → Prop} {options : ExecOptions}
  {p : Pattern}

/-- A step has left a state in `P`, or it has failed in `F`. -/
def Ends (P : σ → Prop) (F : GraphError → Prop) :
    EStateM.Result GraphError (Run σ × CallCounts) α → Prop
  | .ok _ t => P t.1.state
  | .error e _ => F e

/-- Out of a state in `P` a step fails in `F` only; unless it fails, it leaves a state in `P`. -/
def StaysIn (act : Step σ α) (P : σ → Prop) (F : GraphError → Prop) : Prop :=
  ∀ s, P s.1.state → Ends P F (act s)

namespace StaysIn

section

variable {act : Step σ α} {s t : Run σ × CallCounts} {a : α} {e : GraphError}

theorem of_ok (h : StaysIn act P F) (hs : P s.1.state) (hr : act s = .ok a t) : P t.1.state := by
  have hend := h s hs
  rwa [hr] at hend

theorem of_error (h : StaysIn act P F) (hs : P s.1.state) (hr : act s = .error e t) : F e := by
  have hend := h s hs
  rwa [hr] at hend

theorem ensures (h : StaysIn act P F) {s : Run σ} (hs : P s.state) :
    Ensures act s (fun _ t => P t.state) fun e _ => F e := by
  intro n
  have hend := h (s, n) hs
  cases hr : act (s, n) with
  | ok a t => rw [hr] at hend; exact hend
  | error e t => rw [hr] at hend; exact hend

end

variable (h : StaysIn (S.next g) P F)

include h

/-- A pull keeps what every record that is wanted keeps. -/
theorem pull (I : β → Prop) {more : β → Bool → Bool} {add : β → Record → β}
    (hadd : ∀ b draining r, more b draining = true → I b → I (add b r)) :
    StaysIn (S.pull g more add) (fun st => P st.1 ∧ I st.2) F := by
  rintro s ⟨hs, hb⟩
  fun_induction S.pull g more add s with
  | case1 s hmore e t hn => exact h.of_error hs hn
  | case2 s hmore t hn => exact ⟨h.of_ok hs hn, hb⟩
  | case3 s hmore r t hn ih => exact ih (h.of_ok hs hn) (hadd _ _ r hmore hb)
  | case4 => exact ⟨hs, hb⟩

theorem project (node : Nat) (property : String) (out : Nat) :
    StaysIn ((S.project node property out).next g) P F := by
  intro s hs
  simp only [Source.project]
  split
  · next hn => exact h.of_ok hs hn
  · next hn => exact h.of_ok hs hn
  · next hn => exact h.of_error hs hn

theorem nextBehind (skip : Nat) : StaysIn (S.nextBehind g skip) (fun st => P st.1) F := by
  intro s hs
  have hpull : StaysIn (S.pull g (fun k _ => decide (k < skip)) fun k _ => k + 1)
      (fun st => P st.1 ∧ True) F := h.pull (fun _ => True) fun _ _ _ _ _ => trivial
  unfold Source.nextBehind
  split
  · next hp => exact hpull.of_error ⟨hs, trivial⟩ hp
  · next hp =>
    have hpassed := (hpull.of_ok ⟨hs, trivial⟩ hp).1
    split
    · exact hpassed
    · split
      · next hn => exact h.of_error hpassed hn
      · next hn => exact h.of_ok hpassed hn

theorem skipLimit (skip : Nat) (limit : Option Nat) :
    StaysIn ((S.skipLimit skip limit).next g) (fun st => P st.child) F := by
  intro s hs
  simp only [Source.skipLimit]
  split
  · exact hs
  · split
    · next hn => exact (h.nextBehind skip).of_error hs hn
    · next hn => exact (h.nextBehind skip).of_ok hs hn
    · next hn => exact (h.nextBehind skip).of_ok hs hn

theorem sort (keys : List SortKey) (bound : Option (Nat × Nat)) :
    StaysIn ((S.sort keys bound).next g) (fun st => P st.child) F := by
  have hdeliver : StaysIn (deliverSorted (σ := σ)) (fun st => P st.child) F := by
    intro s hs
    unfold deliverSorted
    split <;> exact hs
  have hpull : StaysIn (S.pull g (fun _ _ => true) (Intake.absorb keys (sortCapacity bound)))
      (fun st => P st.1 ∧ True) F := h.pull (fun _ => True) fun _ _ _ _ _ => trivial
  intro s hs
  simp only [Source.sort]
  split
  · exact hdeliver s hs
  · split
    · next hp => exact hpull.of_error ⟨hs, trivial⟩ hp
    · next hp => exact hdeliver _ (hpull.of_ok ⟨hs, trivial⟩ hp).1

theorem drainAfter (n : Nat) : StaysIn ((S.drainAfter n).next g) (fun st => P st.1) F := by
  intro s hs
  simp only [Source.drainAfter]
  split
  · next hn => exact h.of_error hs hn
  · next hn => exact h.of_ok hs hn
  · next hn => exact h.of_ok hs hn

/-- A batch that is read has no more records than it may have. -/
theorem fillBatch (p : Pattern) : StaysIn (S.fillBatch p g) (fun st => P st.1 ∧ st.2.Roomy g D) F := by
  rintro s ⟨hs, ht⟩
  have hpull : StaysIn (S.pull g (fun (b : Array Record) _ => decide (b.size < s.1.state.2.capacity))
      fun b r => if (r.node? p.src).isSome then b.push r else b)
      (fun st => P st.1 ∧ st.2.size ≤ s.1.state.2.capacity) F := by
    refine h.pull (fun b : Array Record => b.size ≤ s.1.state.2.capacity) fun b _ r hmore hb => ?_
    split
    · rw [Array.size_push]
      exact of_decide_eq_true hmore
    · exact hb
  unfold Source.fillBatch
  split
  · next hp =>
    obtain ⟨hchild, hsize⟩ := hpull.of_ok ⟨hs, Nat.zero_le _⟩ hp
    exact ⟨hchild, ht.capacity, hsize, ht.prepared, ht.filter, ht.result⟩
  · next hp => exact hpull.of_error ⟨hs, Nat.zero_le _⟩ hp

end StaysIn

theorem staysIn_onTraversal {act : Metered Traversal α} {Q : Traversal → Prop}
    (h : ∀ t, Q t → Ensures act t (fun _ u => Q u) fun e _ => F e) :
    StaysIn (onTraversal act) (fun st => P st.1 ∧ Q st.2) F := by
  rintro ⟨s, n⟩ ⟨hs, ht⟩
  unfold onTraversal
  split
  · next ha => exact ⟨hs, (h _ ht).of_ok ha⟩
  · next ha => exact (h _ ht).of_error ha

/-- **Reading and evaluating batches** does not run out of memory, unless the child does. -/
theorem StaysIn.nextBatch (h : StaysIn (S.next g) P fun e => ¬e.OfMemory) (hD : Ample D) (hdim : g.dim ≤ D)
    (hp : p.expr.Roomy { graph := g } D) :
    StaysIn (S.nextBatch p g) (fun st => P st.1 ∧ st.2.Roomy g D) fun e => ¬e.OfMemory := by
  have hfill : StaysIn (S.fillBatch p g) (fun st => P st.1 ∧ st.2.Roomy g D) _ := h.fillBatch p
  have heval := staysIn_onTraversal (P := P) fun t (ht : t.Roomy g D) =>
    ht.ensures_evaluateBatch hD hdim hp
  have hemit := staysIn_onTraversal (P := P) fun t (ht : t.Roomy g D) => ht.ensures_emit p
  intro s hs
  fun_induction S.nextBatch p g s with
  | case1 s e t hf => exact hfill.of_error hs hf
  | case2 s t hf hb =>
    obtain ⟨hchild, ht⟩ := hfill.of_ok hs hf
    exact ⟨hchild, ht.capacity, ht.size, ht.prepared, ht.filter, ht.result⟩
  | case3 s t hf hb e u hv => exact heval.of_error (hfill.of_ok hs hf) hv
  | case4 s t hf hb u hv hdrain => exact heval.of_ok (hfill.of_ok hs hf) hv
  | case5 s t hf hb u hv hdrain e v he => exact hemit.of_error (heval.of_ok (hfill.of_ok hs hf) hv) he
  | case6 s t hf hb u hv hdrain r v he => exact hemit.of_ok (heval.of_ok (hfill.of_ok hs hf) hv) he
  | case7 s t hf hb u hv hdrain v he ih => exact ih (hemit.of_ok (heval.of_ok (hfill.of_ok hs hf) hv) he)

theorem StaysIn.traverse (h : StaysIn (S.next g) P fun e => ¬e.OfMemory) (hD : Ample D) (hdim : g.dim ≤ D)
    (hp : p.expr.Roomy { graph := g } D) :
    StaysIn ((S.traverse p).next g) (fun st => P st.1 ∧ st.2.Roomy g D) fun e => ¬e.OfMemory := by
  have hemit := staysIn_onTraversal (P := P) fun t (ht : t.Roomy g D) => ht.ensures_emit p
  have hnext := h.nextBatch hD hdim hp
  intro s hs
  simp only [Source.traverse]
  split
  · exact hs
  · split
    · next hr => exact ⟨hs.1, hs.2.popOwed hr⟩
    · split
      · exact GraphError.not_ofMemory_invalid _
      · exact hs
      · exact hnext s hs
      · split
        · next he => exact hemit.of_error hs he
        · next he => exact hemit.of_ok hs he
        · next he => exact hnext _ (hemit.of_ok hs he)

/-- Made ready for a run and called any number of times, the source fails in `F` only. -/
def FailsIn (S : Source σ) (options : ExecOptions) (g : Graph) (F : GraphError → Prop) : Prop :=
  ∃ P : σ → Prop, Ensures (S.init options) S.start (fun _ s => P s) (fun e _ => F e) ∧
    StaysIn (S.next g) P F

theorem failsIn_values (records : List Record) : (values records).FailsIn options g F := by
  refine ⟨fun _ => True, ensures_put trivial, fun s _ => ?_⟩
  simp only [values]
  split
  · trivial
  · split <;> trivial

theorem failsIn_scan (slot : Nat) (label : Option LabelId) : (scan slot label).FailsIn options g F := by
  refine ⟨fun _ => True, ensures_put trivial, fun s _ => ?_⟩
  simp only [scan]
  split
  · trivial
  · split <;> trivial

namespace FailsIn

theorem project (h : S.FailsIn options g F) (node : Nat) (property : String) (out : Nat) :
    (S.project node property out).FailsIn options g F := by
  obtain ⟨P, hinit, hnext⟩ := h
  exact ⟨P, hinit, hnext.project node property out⟩

theorem skipLimit (h : S.FailsIn options g F) (skip : Nat) (limit : Option Nat) :
    (S.skipLimit skip limit).FailsIn options g F := by
  obtain ⟨P, hinit, hnext⟩ := h
  exact ⟨_, ensures_update_then (ensures_within hinit (fun _ _ hc => hc) fun _ _ he => he),
    hnext.skipLimit skip limit⟩

theorem sort (h : S.FailsIn options g F) (keys : List SortKey) (bound : Option (Nat × Nat)) :
    (S.sort keys bound).FailsIn options g F := by
  obtain ⟨P, hinit, hnext⟩ := h
  refine ⟨_, ensures_update_then (ensures_within ?_ (fun _ _ hc => hc) fun _ _ he => he),
    hnext.sort keys bound⟩
  split <;> exact hinit

theorem drainAfter (h : S.FailsIn options g F) (n : Nat) : (S.drainAfter n).FailsIn options g F := by
  obtain ⟨P, hinit, hnext⟩ := h
  exact ⟨_, ensures_update_then (ensures_within hinit (fun _ _ hc => hc) fun _ _ he => he),
    hnext.drainAfter n⟩

/-- **A traversal does not run out of memory**, unless its child does. -/
theorem traverse (h : S.FailsIn options g fun e => ¬e.OfMemory) (hD : Ample D) (hdim : g.dim ≤ D)
    (hp : p.expr.Roomy { graph := g } D) (hbatch : p.batchSize.getD options.batchSize ≤ D) :
    (S.traverse p).FailsIn options g fun e => ¬e.OfMemory := by
  obtain ⟨P, hinit, hnext⟩ := h
  refine ⟨_, ?_, hnext.traverse hD hdim hp⟩
  have hchild : Ensures (Metered.within Prod.fst (fun c s => (c, s.2)) (S.init options))
      (S.start, ({} : Traversal)) (fun _ s => P s.1 ∧ s.2 = {}) (fun e _ => ¬e.OfMemory) :=
    ensures_within hinit (fun _ _ hc => ⟨hc, rfl⟩) fun _ _ he => he
  refine hchild.bind ?_
  rintro _ ⟨c, _⟩ ⟨hc, rfl⟩
  refine ensures_guard (fun _ => GraphError.not_ofMemory_invalid _) fun _ => ensures_update ?_
  exact ⟨hc, hbatch, Nat.zero_le _, (fun _ he => nomatch he), (fun _ hw => nomatch hw), fun _ hw => nomatch hw⟩

end FailsIn

/-- A source does not fail in ways that it rules out. -/
theorem Serves.ruleOut {rs : List Record} (h : S.Serves options g (fun e => F e ∨ G e) rs)
    (hG : S.FailsIn options g fun e => ¬G e) : S.Serves options g F rs := by
  obtain ⟨P, hinit, hnext⟩ := hG
  refine (Ensures.and h hinit).mono ?_ fun _ _ he => he.1.resolve_right he.2
  rintro _ s ⟨hemits, hs⟩
  refine emits_of_step (fun rs s => S.Emits g (fun e => F e ∨ G e) rs s ∧ P s) ?_ ⟨hemits, hs⟩
  rintro rs s ⟨hemits, hs⟩
  refine (Ensures.and hemits.answers (hnext.ensures hs)).mono ?_ fun _ _ he => he.1.resolve_right he.2
  rintro r t ⟨⟨hr, hflag, hleft⟩, ht⟩
  exact ⟨hr, hflag, hleft, ht⟩

/-- A run of a new plan fails as its tree does. -/
theorem FailsIn.ensures_execute {tree : OperatorTree} (h : tree.source.FailsIn options g F) :
    Ensures (Plan.execute g) (Plan.new tree options) (fun _ _ => True) fun e _ => F e := by
  obtain ⟨P, hinit, hnext⟩ := h
  have hread : StaysIn (Plan.readAll tree g) (fun st => P st.1 ∧ True) F :=
    hnext.pull (fun _ => True) fun _ _ _ _ _ => trivial
  intro n
  have hready := hinit n
  unfold Plan.execute Plan.prepareRun
  simp only [Plan.new, Bool.false_eq_true, reduceIte]
  cases hi : tree.source.init options (tree.source.start, n) with
  | error e t => rw [hi] at hready; exact hready
  | ok a t =>
    rw [hi] at hready
    dsimp only
    cases hq : Plan.readAll tree g (⟨(t.1, #[]), false⟩, t.2) with
    | error e u => exact hread.of_error ⟨hready, trivial⟩ hq
    | ok _ u => trivial

end Source

/-! ## Trees -/

namespace OperatorTree

/-- The traversals of the tree have batches of at most `D` records, and expressions with roomy leaves. -/
def Roomy (options : ExecOptions) (g : Graph) (D : Nat) : OperatorTree → Prop
  | .values _ | .scan .. => True
  | .project child .. | .skipLimit child .. | .sort child .. | .drainAfter child _ => child.Roomy options g D
  | .traverse child p => child.Roomy options g D ∧ p.batchSize.getD options.batchSize ≤ D ∧
    p.expr.Roomy { graph := g } D

variable {tree : OperatorTree} {options : ExecOptions}

/-- **A roomy tree does not run out of memory**, however often it is called. -/
theorem Roomy.failsIn (hD : Ample D) (hdim : g.dim ≤ D) (h : tree.Roomy options g D) :
    tree.source.FailsIn options g fun e => ¬e.OfMemory := by
  induction tree with
  | values records => exact Source.failsIn_values records
  | scan slot label => exact Source.failsIn_scan slot label
  | project child node property out ih => exact (ih h).project node property out
  | skipLimit child skip limit ih => exact (ih h).skipLimit skip limit
  | sort child keys bound ih => exact (ih h).sort keys bound
  | traverse child p ih => exact (ih h.1).traverse hD hdim h.2.2 h.2.1
  | drainAfter child n ih => exact (ih h).drainAfter n

/-- **What a roomy tree serves unless memory runs out, it serves.** -/
theorem Roomy.serves (hD : Ample D) (hdim : g.dim ≤ D) (h : tree.Roomy options g D) {F : GraphError → Prop}
    {rs : List Record} (hserves : tree.source.Serves options g (fun e => F e ∨ e.OfMemory) rs) :
    tree.source.Serves options g F rs :=
  hserves.ruleOut (h.failsIn hD hdim)

/-- **A run of a roomy tree does not run out of memory**, whatever has been done with the plan before. -/
theorem Roomy.not_ofMemory_answer (hD : Ample D) (hdim : g.dim ≤ D) (h : tree.Roomy options g D)
    (history : List Plan.Use) (n : CallCounts) {e : GraphError}
    (he : ((history.foldl Plan.use (Plan.new tree options)).answer g n).1 = .error e) : ¬e.OfMemory := by
  obtain ⟨run, initialized, hused, husable⟩ := Plan.usable_history tree options history
  rw [hused, husable.answer_eq] at he
  have hrun := (h.failsIn hD hdim).ensures_execute n
  unfold Plan.answer at he
  cases hr : Plan.execute g (Plan.new tree options, n) with
  | ok q s => rw [hr] at he; cases he
  | error e' s =>
    rw [hr] at he hrun
    cases he
    exact hrun

end OperatorTree

end Adjacency
