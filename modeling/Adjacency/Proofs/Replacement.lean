import Adjacency.Proofs.Concurrence
import Adjacency.Proofs.Denotes
import Adjacency.Proofs.Failed
import Adjacency.Proofs.Kernels

/-!
# Preparing an expression

A prepared expression has leaves that can be read as they stand. Its value is that of the expression, entry
for entry, for leaves of any type and whatever was still deferred in them.

* `Expression.requires_evaluate`: an evaluation that succeeds has found a matrix for every leaf.
* `Expression.Replaces`: an expression that may be evaluated in the place of another.
* `Expression.replaces_prepared`: preparing gives such an expression.
* `Expression.prepared_concurs`: **the prepared expression leaves in any output what the expression leaves
  there**, and it cannot be prepared only where it cannot be evaluated.
-/

namespace Adjacency

open Metered

namespace Expression

variable {σ : Type} {s : σ} {ctx : EvalContext} {e p : Expression} {es ps : List Expression}

theorem leavesOf_eq (es : List Expression) : leavesOf es = es.flatMap leaves := by
  induction es with
  | nil => rfl
  | cons e es ih => rw [leavesOf, ih, List.flatMap_cons]

theorem mem_leaves_operation {op : Combination} {leaf : Operand × Bool} :
    leaf ∈ (operation op es).leaves ↔ ∃ e ∈ es, leaf ∈ e.leaves := by
  rw [leaves, leavesOf_eq, List.mem_flatMap]

/-! ## Leaves that resolve -/

/-- Every leaf has a matrix. -/
def Resolves (ctx : EvalContext) (e : Expression) : Prop :=
  ∀ leaf ∈ e.leaves, ∃ m, leafMatrix ctx leaf.1 leaf.2 = .ok m

theorem resolves_operation {op : Combination} (hes : ∀ e ∈ es, e.Resolves ctx) :
    (operation op es).Resolves ctx := by
  intro leaf hleaf
  obtain ⟨e, he, hleaf⟩ := mem_leaves_operation.1 hleaf
  exact hes e he leaf hleaf

theorem Resolves.of_mem {op : Combination} (h : (operation op es).Resolves ctx) (he : e ∈ es) :
    e.Resolves ctx := fun leaf hleaf => h leaf (mem_leaves_operation.2 ⟨e, he, hleaf⟩)

/-- The action succeeds only where `P` holds. -/
abbrev Requires {α : Type} (act : Metered σ α) (P : Prop) : Prop :=
  ∀ s, Ensures act s (fun _ _ => P) fun _ _ => True

/-- What is known already holds wherever the action succeeds. -/
theorem requires_of {α : Type} {act : Metered σ α} {P : Prop} (h : P) : Requires act P := fun s =>
  Ensures.mono (leaves_anything act s) (fun _ _ _ => h) fun _ _ _ => trivial

theorem requires_evaluateAll (hes : ∀ e ∈ es, Requires (σ := σ) (evaluate ctx e) (e.Resolves ctx)) :
    Requires (σ := σ) (evaluateAll ctx es) (∀ e ∈ es, e.Resolves ctx) := by
  induction es with
  | nil => exact requires_of fun _ he => absurd he List.not_mem_nil
  | cons e es ih =>
    intro s
    rw [evaluateAll]
    refine (hes e List.mem_cons_self s).bind fun m t he => ?_
    refine (ih (fun d hd => hes d (List.mem_cons_of_mem e hd)) t).bind fun ms u hall => ?_
    exact ensures_pure (List.forall_mem_cons.2 ⟨he, hall⟩)

theorem requires_evaluateUnion (hes : ∀ e ∈ es, Requires (σ := σ) (evaluate ctx e) (e.Resolves ctx))
    (m : Matrix) : Requires (σ := σ) (evaluateUnion ctx m es) (∀ e ∈ es, e.Resolves ctx) := by
  induction es generalizing m with
  | nil => exact requires_of fun _ he => absurd he List.not_mem_nil
  | cons e es ih =>
    intro s
    rw [evaluateUnion]
    refine (hes e List.mem_cons_self s).bind fun n t he => ?_
    refine (requires_of he t).bind fun r u he => ?_
    refine (ih (fun d hd => hes d (List.mem_cons_of_mem e hd)) r u).mono (fun _ _ hall => ?_) fun _ _ h => h
    exact List.forall_mem_cons.2 ⟨he, hall⟩

/-- **An evaluation that succeeds has found a matrix for every leaf.** -/
theorem requires_evaluate (e : Expression) : Requires (σ := σ) (evaluate ctx e) (e.Resolves ctx) := by
  induction e using byOperands with
  | operand source transposed =>
    intro s
    rw [evaluate]
    refine ensures_require (fun m hm leaf hleaf => ?_) fun _ _ => trivial
    obtain rfl := List.mem_singleton.1 hleaf
    exact ⟨m, hm⟩
  | operation op es ih =>
    intro s
    cases es with
    | nil =>
      rw [evaluate]
      exact ensures_throw trivial
    | cons e es =>
      obtain ⟨he, hes⟩ := List.forall_mem_cons.1 ih
      have hall (h : e.Resolves ctx) (h' : ∀ d ∈ es, d.Resolves ctx) : (operation op (e :: es)).Resolves ctx :=
        resolves_operation (List.forall_mem_cons.2 ⟨h, h'⟩)
      cases op with
      | multiply =>
        rw [evaluate]
        refine (he s).bind fun m t h => (requires_evaluateAll hes t).bind fun ms u h' => ?_
        exact requires_of (hall h h') u
      | add =>
        rw [evaluate]
        refine (he s).bind fun m t h => (requires_evaluateUnion hes m t).mono (fun _ _ => hall h) fun _ _ h => h
      | transpose =>
        cases es with
        | nil =>
          rw [evaluate]
          exact (he s).bind fun m t h => ensures_pure (hall h fun _ hd => absurd hd List.not_mem_nil)
        | cons =>
          rw [evaluate]
          exact ensures_throw trivial

theorem requires_evalInto (e : Expression) (ctx : EvalContext) :
    Requires (e.evalInto ctx) (e.Resolves ctx) := by
  intro out
  unfold evalInto
  exact (requires_evaluate e out).bind fun m t h => requires_of h t

/-! ## Standing in -/

/-- The leaf's matrix can be read by rows as it stands. -/
def Fit (ctx : EvalContext) (leaf : Operand × Bool) : Prop :=
  ∃ m, leafMatrix ctx leaf.1 leaf.2 = .ok m ∧ m.byRow = true ∧ m.pending = none ∧ m.zombies = 0 ∧
    m.jumbled = false

/-- `p` evaluates to what `e` does, and every leaf of it but the filter is fit. -/
structure Replaces (ctx : EvalContext) (e p : Expression) : Prop where
  matched : ∀ out : Matrix, Matched ctx out e p
  fit : ∀ leaf ∈ p.leaves, leaf.1 ≠ .filter → Fit ctx leaf

theorem Replaces.operation (hlimit : ctx.options.maxDenseCells < UInt64.size) (op : Combination)
    (hes : List.Forall₂ (Replaces ctx) es ps) :
    Replaces ctx (.operation op es) (.operation op ps) where
  matched out := .operation hlimit op (hes.imp fun _ _ h => h.matched out)
  fit leaf hleaf := by
    obtain ⟨p, hp, hleaf⟩ := mem_leaves_operation.1 hleaf
    have hfit := (List.forall₂_and_left ps es).1 (hes.flip.imp fun _ _ h => ⟨h.fit, h⟩)
    exact hfit.1 p hp leaf hleaf

variable {source : Operand} {transposed : Bool} {m m' : Matrix}

/-- A by-row matrix with nothing deferred is fit. -/
theorem fit_of_settled (hm : leafMatrix ctx source transposed = .ok m) (hrow : m.byRow = true)
    (hdef : m.deferred = false) : Fit ctx (source, transposed) :=
  ⟨m, hm, hrow, Matrix.deferred_eq_false_iff.1 hdef⟩

/-- A matrix with something deferred is not fit. -/
theorem not_fit_of_deferred (hm : leafMatrix ctx source transposed = .ok m) (hdef : m.deferred = true) :
    ¬Fit ctx (source, transposed) := by
  rintro ⟨m', hm', -, hsettled⟩
  obtain rfl := Except.ok.inj (hm.symm.trans hm')
  exact absurd (Matrix.deferred_eq_false_iff.2 hsettled) (by simp [hdef])

theorem matched_refl (hinv : ∀ m, leafMatrix ctx source transposed = .ok m → m.Inv) (s : σ) :
    Matched ctx s (.operand source transposed) (.operand source transposed) := by
  refine ⟨rfl, ?_⟩
  rw [evaluate]
  cases hm : leafMatrix ctx source transposed with
  | ok m => exact concur_pure ⟨rfl, rfl, .refl (hinv m hm)⟩
  | error e => exact concur_throw

theorem matched_matrix (hne : source ≠ .filter) (hm : leafMatrix ctx source transposed = .ok m)
    (h : m.Matches m') (s : σ) : Matched ctx s (.operand source transposed) (matrix m') := by
  have hnot : isFilter (.operand source transposed) = false := by
    cases source with
    | filter => exact absurd rfl hne
    | _ => rfl
  refine ⟨hnot.symm, ?_⟩
  rw [matrix, evaluate, evaluate, hm]
  exact concur_pure ⟨rfl, rfl, h⟩

/-- Only the filter leaf depends on the filter. -/
theorem leafMatrix_eq (ctx : EvalContext) (hne : source ≠ .filter) (transposed : Bool) :
    leafMatrix { graph := ctx.graph } source transposed = leafMatrix ctx source transposed := by
  cases source with
  | filter => exact absurd rfl hne
  | _ => rfl

/-- A prepared leaf may be evaluated in the place of the leaf. -/
theorem PreparedLeaf.replaces (hinv : ∀ m, leafMatrix ctx source transposed = .ok m → m.Inv)
    (h : PreparedLeaf ctx.graph source transposed p) : Replaces ctx (.operand source transposed) p := by
  cases h with
  | filter hfilter =>
    refine ⟨matched_refl hinv, fun leaf hleaf hnot => ?_⟩
    obtain rfl := List.mem_singleton.1 hleaf
    exact absurd hfilter hnot
  | kept hne hm hc =>
    refine ⟨matched_refl hinv, fun leaf hleaf _ => ?_⟩
    obtain rfl := List.mem_singleton.1 hleaf
    exact fit_of_settled (leafMatrix_eq ctx hne transposed ▸ hm) hc.byRow hc.settled
  | replaced hne hm hc =>
    rw [leafMatrix_eq ctx hne] at hm
    refine ⟨matched_matrix hne hm (hc.matches (hinv _ hm)), fun leaf hleaf _ => ?_⟩
    obtain rfl := List.mem_singleton.1 hleaf
    exact fit_of_settled rfl hc.byRow hc.settled

/-- The matrices of the leaves are in order. -/
def Readable (ctx : EvalContext) (e : Expression) : Prop :=
  ∀ leaf ∈ e.leaves, ∀ m, leafMatrix ctx leaf.1 leaf.2 = .ok m → m.Inv

theorem Readable.of_mem {op : Combination} (h : (operation op es).Readable ctx) (he : e ∈ es) :
    e.Readable ctx := fun leaf hleaf => h leaf (mem_leaves_operation.2 ⟨e, he, hleaf⟩)

/-- **Preparing gives an expression that may be evaluated in the place of the given one**, or fails at a leaf
without a matrix, or for want of memory. -/
theorem replaces_prepared (hlimit : ctx.options.maxDenseCells < UInt64.size) (he : e.Readable ctx) (s : σ) :
    Ensures (prepared ctx.graph e) s (fun p t => t = s ∧ Replaces ctx e p)
      (fun err t => t = s ∧ (err.OfMemory ∨ ¬e.Resolves ctx)) := by
  induction e using byOperands generalizing s with
  | operand source transposed =>
    rw [prepared]
    have hinv := he _ (List.mem_singleton.2 rfl)
    refine (ensures_preparedLeaf fun m hm => ?_).mono (fun p t hp => ⟨hp.1, hp.2.replaces hinv⟩) ?_
    · cases source with
      | filter => cases hm
      | _ => exact hinv m hm
    · rintro err t ⟨ht, hmem | ⟨hne, herr⟩⟩
      · exact ⟨ht, .inl hmem⟩
      refine ⟨ht, .inr fun hall => ?_⟩
      obtain ⟨m, hm⟩ := hall _ (List.mem_singleton.2 rfl)
      rw [leafMatrix_eq ctx hne, hm] at herr
      cases herr
  | operation op es ih =>
    rw [prepared]
    have hes (e : Expression) (hmem : e ∈ es) :
        Ensures (prepared ctx.graph e) s (fun p t => t = s ∧ Replaces ctx e p)
          (fun err t => t = s ∧ (err.OfMemory ∨ ¬(operation op es).Resolves ctx)) :=
      (ih e hmem (he.of_mem hmem) s).mono (fun _ _ h => h) fun err t herr =>
        ⟨herr.1, herr.2.imp_right fun hno hall => hno (hall.of_mem hmem)⟩
    refine (ensures_preparedAll hes).bind ?_
    rintro ps _ ⟨rfl, hps⟩
    exact ensures_pure ⟨rfl, .operation hlimit op hps⟩

/-! ## Whole evaluations -/

/-- What an evaluation leaves in its output, too, does not tell expressions apart that match. -/
theorem Matched.concur_evalInto {out : Matrix} (hout : out.Inv) (h : Matched ctx out e p) :
    Concur (fun _ u _ w => u.Matches w) (e.evalInto ctx) out (p.evalInto ctx) out := by
  unfold evalInto
  refine h.concur.both_bind fun m m' hm => ?_
  refine concur_subject ?_
  refine concur_guard (by rw [hm.nrows, hm.ncols]) fun _ => ?_
  refine (hm.concur_assignFrom hout).bind fun _ u _ w huw => ?_
  refine huw.concur_wait.bind fun _ u' _ w' huw' => ?_
  exact concur_tally huw'

/-- In a graph there can be, with leaves there can be, every leaf reads a matrix that is in order. -/
theorem readable_of_reaches {options : GraphOptions} (hlimit : options.matrix.maxDenseCells < UInt64.size)
    (hg : (Graph.new options).Reaches ctx.graph)
    (hleaves : ∀ leaf ∈ e.leaves, leaf.1.Typed ctx.filter fun _ => True) : e.Readable ctx := by
  have hsturdy := hg.sturdy (Graph.sturdy_new hlimit)
  have hpart (part : Graph.Part) (m : Matrix) (hm : ctx.graph.matrix? part = some m) : m.Inv := by
    obtain ⟨dim, hmark, -, -⟩ := (hsturdy.matrix part m hm).exists_dim
    exact hmark.inv
  have hown {m r : Matrix} {transposed : Bool} (hm : m.Reachable)
      (hr : .ok (if transposed then m.transposed else m) = Except.ok (ε := GraphError) r) : r.Inv := by
    cases Except.ok.inj hr
    cases transposed with
    | true => exact hm.inv.transposed.1
    | false => exact hm.inv
  rintro ⟨source, transposed⟩ hmem m hm
  have htyped := hleaves _ hmem
  cases source with
  | relation id => exact hpart _ m (Graph.matrix?_of_relationMatrix hm)
  | label id => exact hpart _ m (Graph.matrix?_of_labelMatrix hm)
  | matrix own => exact hown htyped.1 hm
  | filter =>
    dsimp only [leafMatrix] at hm
    cases hf : ctx.filter with
    | none =>
      rw [hf] at hm
      cases hm
    | some own =>
      rw [hf] at hm
      exact hown (htyped own hf).1 hm

/-- **Preparing an expression changes nothing but the way it is evaluated.** In a graph there can be, the
prepared expression fails where the expression fails, and otherwise leaves the same value at every cell of
the output; only memory may run out in one of them alone. Its leaves but the filter can be read as they
stand. An expression that cannot be prepared, with memory enough, cannot be evaluated. -/
theorem prepared_concurs {options : GraphOptions} (hlimit : options.matrix.maxDenseCells < UInt64.size)
    (hg : (Graph.new options).Reaches ctx.graph) (hcells : ctx.options.maxDenseCells < UInt64.size)
    (hleaves : ∀ leaf ∈ e.leaves, leaf.1.Typed ctx.filter fun _ => True) (s : σ × CallCounts) :
    match e.prepared ctx.graph s with
    | .ok p _ =>
      (∀ out : Matrix, out.Reachable →
        Concur (fun _ u _ w => ∀ row col, w.extract row col = u.extract row col)
          (e.evalInto ctx) out (p.evalInto ctx) out) ∧
      ∀ leaf ∈ p.leaves, leaf.1 ≠ .filter → Fit ctx leaf
    | .error err _ =>
      err.OfMemory ∨ ∀ out : Matrix, out.Reachable → ∀ n, ∃ err' u, e.evalInto ctx (out, n) = .error err' u := by
  have hprep := replaces_prepared hcells (readable_of_reaches hlimit hg hleaves) s.1
  cases hrun : e.prepared ctx.graph s with
  | ok p t =>
    obtain ⟨-, hp⟩ := hprep.of_ok hrun
    refine ⟨fun out hout => ?_, hp.fit⟩
    have hcon := (hp.matched out).concur_evalInto hout.inv
    exact hcon.mono fun _ u _ w huw => huw.extract
  | error err t =>
    obtain ⟨-, hmem | hno⟩ := hprep.of_error hrun
    · exact .inl hmem
    refine .inr fun out _ n => ?_
    cases heval : e.evalInto ctx (out, n) with
    | ok a u => exact absurd ((requires_evalInto e ctx out).of_ok heval) hno
    | error err' u => exact ⟨err', u, rfl⟩

/-- An edge that is yet to be committed, against a queued write of another type in a matrix that is turned. -/
theorem prepared_concurs_uncommitted : ∃ (ctx : EvalContext) (e p : Expression) (t : Unit × CallCounts),
    (∀ leaf ∈ e.leaves, ¬Fit ctx leaf) ∧ e.prepared ctx.graph ((), {}) = .ok p t ∧
    (∀ leaf ∈ p.leaves, leaf.1 ≠ .filter → Fit ctx leaf) ∧ ∀ out : Matrix, out.Reachable →
      Concur (fun _ u _ w => ∀ row col, w.extract row col = u.extract row col)
        (e.evalInto ctx) out (p.evalInto ctx) out := by
  have hlimit : ({} : MatrixOptions).maxDenseCells < UInt64.size := by decide
  let options : GraphOptions := { nodeBlock := 2 }
  let m := Matrix.waiting (.int64 2) 2 2 #[⟨1, 0, none⟩]
  let e := multiply [.operand (.relation (.ofNat 0)) true, .operand (.matrix m) true]
  have hm : m.Reachable :=
    (Matrix.Reachable.created hlimit (show Matrix.withOptions .int64 2 2 {} = .ok _ from rfl)).requested
      (r := .set (.int64 2) 0 1) (a := .done) (n := {}) (s := (m, {})) trivial rfl
  obtain ⟨g, hg, ⟨r, hr, hstale⟩, hok⟩ : ∃ g : Graph, (Graph.new options).Reaches g ∧
      (∃ r, g.relationMatrix (.ofNat 0) true = .ok r ∧ r.deferred = true) ∧
      succeeds (e.prepared g) ((), {}) = true := by
    have hadd := Graph.perform_addRelation_new options (by decide) "knows" {}
    have h₀ := (Graph.Reaches.start (g := .new options)).performed hadd (by decide)
    have h₁ := h₀.performed (r := .createNode [] []) (n := {}) rfl (Nat.lt_of_sub_eq_succ rfl)
    have h₂ := h₁.performed (r := .createNode [] []) (n := {}) rfl (Nat.lt_of_sub_eq_succ rfl)
    have h₃ := h₂.performed (r := .createEdge (.ofNat 0) (.ofNat 1) (.ofNat 0)) (n := {}) rfl
      (Nat.lt_of_sub_eq_succ rfl)
    exact ⟨_, h₃, ⟨_, rfl, rfl⟩, by decide +kernel⟩
  obtain ⟨p, t, hrun⟩ := exists_ok hok
  have hleaves : ∀ leaf ∈ e.leaves, leaf.1.Typed none fun _ => True :=
    List.forall_mem_cons.2 ⟨trivial, List.forall_mem_singleton.2 ⟨hm, trivial⟩⟩
  have hconcurs := @prepared_concurs Unit { graph := g } e options hlimit hg hlimit hleaves ((), {})
  rw [hrun] at hconcurs
  refine ⟨{ graph := g }, e, p, t, ?_, hrun, hconcurs.2, hconcurs.1⟩
  exact List.forall_mem_cons.2 ⟨not_fit_of_deferred hr hstale,
    List.forall_mem_singleton.2 (not_fit_of_deferred rfl rfl)⟩

end Expression

end Adjacency
