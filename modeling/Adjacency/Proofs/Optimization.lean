import Adjacency.Proofs.Denotes

/-!
# Optimizing keeps the meaning

* `meaning_pushTranspose`: a transpose moved to the leaves swaps the meaning.
* `Formed.flatten`: splicing products into products and sums into sums changes nothing.
* `Formed.optimized`: **the optimized expression means the same.**
* `Formed.optimized_agrees`: **evaluated either way, an expression gives the same, or fails.**
-/

namespace Adjacency

open Metered

namespace Expression

variable {μ : Operand → Meaning} {leaf : Operand → Prop} {arity : Nat → Prop} {e : Expression}

/-! ## Transposes -/

theorem pushTransposes_eq (flip : Bool) (es : List Expression) :
    pushTransposes flip es = es.map (pushTranspose flip) := by
  induction es with
  | nil => rfl
  | cons e es ih => rw [pushTransposes, ih, List.map_cons]

theorem pushTranspose_multiply (flip : Bool) (es : List Expression) :
    pushTranspose flip (.operation .multiply es) = .operation .multiply
      (if flip then (es.map (pushTranspose flip)).reverse else es.map (pushTranspose flip)) := by
  rw [pushTranspose, pushTransposes_eq]

theorem pushTranspose_add (flip : Bool) (es : List Expression) :
    pushTranspose flip (.operation .add es) = .operation .add (es.map (pushTranspose flip)) := by
  rw [pushTranspose, pushTransposes_eq]
  · exact fun _ h => Combination.noConfusion h
  · exact Combination.noConfusion

/-- Only one operand can be transposed; several are kept. -/
theorem pushTranspose_transpose (flip : Bool) {es : List Expression} (hes : ¬∃ e, es = [e]) :
    pushTranspose flip (.operation .transpose es) = .operation .transpose (es.map (pushTranspose flip)) := by
  rw [pushTranspose, pushTransposes_eq]
  · exact fun e _ he => hes ⟨e, he⟩
  · exact Combination.noConfusion

theorem combined_transpose {es : List Expression} (hes : ¬∃ e, es = [e]) (f : Expression → Meaning) :
    Meaning.combined .transpose (es.map f) = Meaning.nothing := by
  rcases es with _ | ⟨e, _ | ⟨e', es⟩⟩
  · rfl
  · exact absurd ⟨e, rfl⟩ hes
  · rfl

/-- **Under an odd number of transposes the meaning is swapped.** -/
theorem meaning_pushTranspose (e : Expression) : ∀ flip,
    (pushTranspose flip e).meaning μ = if flip then (e.meaning μ).swap else e.meaning μ := by
  induction e using byOperands with
  | operand source transposed =>
    intro flip
    rw [pushTranspose, meaning, meaning]
    cases transposed with
    | false => cases flip <;> rfl
    | true =>
      cases flip with
      | false => rfl
      | true => exact (Meaning.swap_swap _).symm
  | operation op es ih =>
    intro flip
    have hmap : (es.map (pushTranspose flip)).map (meaning μ) =
        if flip then (es.map (meaning μ)).map Meaning.swap else es.map (meaning μ) := by
      rw [List.map_map]
      refine (List.map_congr_left fun e he => ih e he flip).trans ?_
      cases flip with
      | false => rfl
      | true =>
        rw [if_pos rfl, List.map_map]
        rfl
    cases op with
    | multiply =>
      rw [pushTranspose_multiply, meaning_operation, meaning_operation]
      cases flip with
      | false => exact congrArg (Meaning.fold Meaning.times) hmap
      | true =>
        -- a transposed product runs backwards
        refine Eq.trans ?_ (Meaning.swap_product _).symm
        rw [if_pos rfl, List.map_reverse, hmap]
        rfl
    | add =>
      rw [pushTranspose_add, meaning_operation, meaning_operation, hmap]
      cases flip with
      | false => rfl
      | true => exact (Meaning.swap_sum _).symm
    | transpose =>
      by_cases hes : ∃ e, es = [e]
      · obtain ⟨e, rfl⟩ := hes
        rw [pushTranspose, ih e List.mem_cons_self, meaning_operation]
        cases flip with
        | false => rfl
        | true => exact (Meaning.swap_swap _).symm
      · rw [pushTranspose_transpose flip hes, meaning_operation, meaning_operation, List.map_map,
          combined_transpose hes, combined_transpose hes, Meaning.swap_nothing, ite_self]

theorem Formed.pushTranspose (he : e.Formed leaf arity) : ∀ flip,
    (pushTranspose flip e).Formed leaf arity := by
  induction he with
  | operand h => exact fun flip => .operand h
  | @operation op es hne harity hes ih =>
    intro flip
    have hmem : ∀ e ∈ es.map (Expression.pushTranspose flip), e.Formed leaf arity := by
      intro e he
      obtain ⟨e', he', rfl⟩ := List.mem_map.1 he
      exact ih e' he' flip
    have hmap : op ≠ .transpose → es.map (Expression.pushTranspose flip) ≠ [] := by
      intro hop hnil
      exact hne hop (List.map_eq_nil_iff.1 hnil)
    cases op with
    | multiply =>
      rw [pushTranspose_multiply]
      refine .operation (fun hop hnil => hmap hop ?_) Combination.noConfusion fun e he => hmem e ?_
      · cases flip with
        | false => exact hnil
        | true => exact List.reverse_eq_nil_iff.1 hnil
      · cases flip with
        | false => exact he
        | true => exact List.mem_reverse.1 he
    | add =>
      rw [pushTranspose_add]
      exact .operation hmap Combination.noConfusion hmem
    | transpose =>
      by_cases hone : ∃ e, es = [e]
      · obtain ⟨e, rfl⟩ := hone
        rw [Expression.pushTranspose]
        exact ih e List.mem_cons_self (!flip)
      · rw [pushTranspose_transpose flip hone]
        refine .operation hmap (fun h => ?_) hmem
        rw [List.length_map]
        exact harity h

/-! ## Splicing -/

theorem flattenUnder_eq (op : Combination) (es : List Expression) :
    flattenUnder op es = es.flatMap fun e => operandsUnder op (flatten e) := by
  induction es with
  | nil => rfl
  | cons e es ih => rw [flattenUnder, ih, List.flatMap_cons]

theorem operandsUnder_operation (op inner : Combination) (es : List Expression) :
    operandsUnder op (.operation inner es) = if inner = op then es else [.operation inner es] := rfl

/-- Products and sums fold; a transpose does not. -/
theorem combined_eq_fold {op : Combination} (hop : op ≠ .transpose) :
    ∃ f : Meaning → Meaning → Meaning, (∀ x y z, f (f x y) z = f x (f y z)) ∧
      ∀ xs, Meaning.combined op xs = Meaning.fold f xs := by
  cases op with
  | multiply => exact ⟨_, Meaning.times_assoc, fun _ => rfl⟩
  | add => exact ⟨_, Meaning.plus_assoc, fun _ => rfl⟩
  | transpose => exact absurd rfl hop

theorem meaning_combine {op : Combination} (hop : op ≠ .transpose) (es : List Expression) :
    (combine op es).meaning μ = .combined op (es.map (meaning μ)) := by
  obtain ⟨f, -, hf⟩ := combined_eq_fold hop
  rcases es with _ | ⟨e, _ | ⟨e', es⟩⟩
  · exact meaning_operation μ op []
  · exact (hf [e.meaning μ]).symm
  · exact meaning_operation μ op (e :: e' :: es)

theorem combined_operandsUnder {op : Combination} (hop : op ≠ .transpose) (e : Expression) :
    Meaning.combined op ((operandsUnder op e).map (meaning μ)) = e.meaning μ := by
  obtain ⟨f, -, hf⟩ := combined_eq_fold hop
  cases e with
  | operand source transposed => exact hf _
  | operation inner es =>
    rw [operandsUnder_operation]
    by_cases h : inner = op
    · rw [if_pos h, h, meaning_operation]
    · rw [if_neg h]
      exact hf _

theorem Formed.operandsUnder {op : Combination} (hop : op ≠ .transpose) (he : e.Formed leaf arity) :
    operandsUnder op e ≠ [] ∧ ∀ e' ∈ operandsUnder op e, e'.Formed leaf arity := by
  have hself : [e] ≠ [] ∧ ∀ e' ∈ [e], e'.Formed leaf arity :=
    ⟨List.cons_ne_nil e [], List.forall_mem_singleton.2 he⟩
  cases he with
  | operand h => exact hself
  | @operation inner es hne harity hes =>
    rw [operandsUnder_operation]
    by_cases h : inner = op
    · rw [if_pos h]
      exact ⟨hne (h ▸ hop), hes⟩
    · rw [if_neg h]
      exact hself

theorem Formed.combine {op : Combination} (hop : op ≠ .transpose) {es : List Expression} (hne : es ≠ [])
    (hes : ∀ e ∈ es, e.Formed leaf arity) : (combine op es).Formed leaf arity := by
  rcases es with _ | ⟨e, _ | ⟨e', es⟩⟩
  · exact absurd rfl hne
  · exact hes e List.mem_cons_self
  · exact .operation (fun _ => hne) (fun h => absurd h hop) hes

/-- **Splicing keeps the meaning.** -/
theorem Formed.flatten (he : e.Formed leaf arity) (μ : Operand → Meaning) :
    e.flatten.Formed leaf arity ∧ e.flatten.meaning μ = e.meaning μ := by
  induction he with
  | operand h => exact ⟨.operand h, rfl⟩
  | @operation op es hne harity hes ih =>
    have hsplice : op ≠ .transpose →
        (Expression.combine op (flattenUnder op es)).Formed leaf arity ∧
        (Expression.combine op (flattenUnder op es)).meaning μ = (Expression.operation op es).meaning μ := by
      intro hop
      have hparts := fun e he => (ih e he).1.operandsUnder hop
      rw [flattenUnder_eq]
      constructor
      · refine Formed.combine hop ?_ fun e he => ?_
        · obtain ⟨e, es, rfl⟩ := List.exists_cons_of_ne_nil (hne hop)
          rw [List.flatMap_cons]
          exact List.append_ne_nil_of_left_ne_nil (hparts e List.mem_cons_self).1 _
        · obtain ⟨e', he', hmem⟩ := List.mem_flatMap.1 he
          exact (hparts e' he').2 e hmem
      · obtain ⟨f, hassoc, hf⟩ := combined_eq_fold hop
        have hgroup : ∀ e ∈ es, Meaning.fold f ((Expression.operandsUnder op e.flatten).map (meaning μ)) =
            e.meaning μ := by
          intro e he
          rw [← hf, combined_operandsUnder hop, (ih e he).2]
        rw [meaning_combine hop, meaning_operation, hf, hf, List.map_flatMap,
          Meaning.fold_flatMap hassoc _ fun e he hnil => (hparts e he).1 (List.map_eq_nil_iff.1 hnil),
          List.map_congr_left hgroup]
    cases op with
    | multiply =>
      rw [Expression.flatten]
      exact hsplice Combination.noConfusion
    | add =>
      rw [Expression.flatten]
      exact hsplice Combination.noConfusion
    | transpose => exact ⟨.operation hne harity hes, rfl⟩

/-- **The optimized expression means the same.** -/
theorem Formed.optimized (he : e.Formed leaf arity) (μ : Operand → Meaning) :
    e.optimized.Formed leaf arity ∧ e.optimized.meaning μ = e.meaning μ := by
  obtain ⟨hformed, hmeaning⟩ := (he.pushTranspose false).flatten μ
  exact ⟨hformed, hmeaning.trans (meaning_pushTranspose e false)⟩

/-! ## Evaluation -/

variable {ctx : EvalContext} {out : Matrix}

/-- **Optimizing is safe.** An expression and its optimized form either both go through or both fail, unless
memory runs out. When both go through, entries stand at the same places, and over boolean leaves the values
are the same. -/
theorem Formed.optimized_agrees {options : GraphOptions}
    (hlimit : options.matrix.maxDenseCells < UInt64.size) (hg : (Graph.new options).Runs ctx.graph)
    (hctx : ctx.options.maxDenseCells < UInt64.size)
    (he : e.Formed (Operand.Typed ctx.filter ScalarType.BuiltIn) arity) (hout : out.Reachable)
    (htype : out.type.BuiltIn) (n n' : CallCounts) :
    match e.optimized.evalInto ctx (out, n), e.evalInto ctx (out, n') with
    | .ok _ s, .ok _ t => (∀ row col, s.1.HasEntry row col ↔ t.1.HasEntry row col) ∧
        (e.Formed (Operand.Typed ctx.filter (· = .bool)) arity → ∀ row col, row < out.nrows → col < out.ncols →
          s.1.extract row col = t.1.extract row col)
    | .ok _ _, .error err _ | .error err _, .ok _ _ => err.OfMemory
    | .error _ _, .error _ _ => True := by
  have hinv := (hg.inv (Graph.inv_new hlimit)).1
  have hsame : ∀ a, e.optimized.meaning (Operand.meaning ctx.graph ctx.filter a) =
      e.meaning (Operand.meaning ctx.graph ctx.filter a) := fun a => (he.optimized _).2
  have hsound : ∀ {a : Aspect} {e : Expression}, e.Formed (Operand.Typed ctx.filter a.Reads) arity →
      e.Formed (Sound ctx (fun _ => True) a) arity := fun he =>
    he.mono fun source hs => hinv.leafMeans hs (.inr fun _ => trivial)
  have hevaluates : ∀ {e : Expression}, e.Formed (Operand.Typed ctx.filter ScalarType.BuiltIn) arity → _ :=
    fun he => (hsound (a := .presence) he).ensures_evalInto hctx (fun _ _ => trivial)
      (fun _ _ => .inr ⟨trivial, trivial⟩) hout htype
  have hopt := hevaluates (he.optimized fun _ => .nothing).1 n
  have hplain := hevaluates he n'
  have hshape : e.optimized.shape ctx.graph ctx.filter = e.shape ctx.graph ctx.filter := by
    rw [shape, hsame]
    rfl
  rw [hshape, hsame] at hopt
  cases hs : e.optimized.evalInto ctx (out, n) with
  | ok u s =>
    rw [hs] at hopt
    obtain ⟨hfits, hsinv, hsshape, -, hsentry, hsvalue⟩ := hopt
    cases ht : e.evalInto ctx (out, n') with
    | ok u t =>
      rw [ht] at hplain
      obtain ⟨-, htinv, htshape, -, htentry, htvalue⟩ := hplain
      refine ⟨fun row col => (hsentry row col).trans (htentry row col).symm, fun hbool row col hrow hcol => ?_⟩
      rw [hsinv.extract_eq (hsshape.nrows ▸ hrow) (hsshape.ncols ▸ hcol),
        htinv.extract_eq (htshape.nrows ▸ hrow) (htshape.ncols ▸ hcol),
        hsvalue (hsound (hbool.optimized fun _ => .nothing).1), htvalue (hsound hbool), denoted, hsame, hsame]
      rfl
    | error err t =>
      rw [ht] at hplain
      exact hplain.resolve_right fun h => h.2.1 hfits
  | error err s =>
    rw [hs] at hopt
    cases ht : e.evalInto ctx (out, n') with
    | ok u t =>
      rw [ht] at hplain
      exact hopt.resolve_right fun h => h.2.1 hplain.1
    | error err' t => trivial

/-- The transpose of a product of integers, evaluated as it stands and as the reversed product. -/
theorem optimized_agrees_transposed_product : ∃ (m out : Matrix) (s t : Matrix × CallCounts),
    (transpose (multiply [matrix m, transpose (matrix m)])).optimized =
      multiply [operand (.matrix m) false, operand (.matrix m) true] ∧
    (multiply [operand (.matrix m) false, operand (.matrix m) true]).evalInto { graph := Graph.new {} }
      (out, {}) = .ok () s ∧
    (transpose (multiply [matrix m, transpose (matrix m)])).evalInto { graph := Graph.new {} }
      (out, {}) = .ok () t ∧
    (s.1.HasEntry 1 1 ↔ t.1.HasEntry 1 1) := by
  have hlimit : ({} : MatrixOptions).maxDenseCells < UInt64.size := by decide
  have hnew : ∀ ty, Matrix.withOptions ty 3 3 {} = .ok (Matrix.blank ty 3 3 true {}) := fun _ => rfl
  set m : Matrix := { Matrix.blank .int64 3 3 true {} with
    store := .hypersparse #[] #[0] #[] #[.int64 5]
    iso := true
    pending := some { tuples := #[⟨2, 1, none⟩], type := .int64, op := .second } } with hdef
  have hm : m.Reachable := (Matrix.Reachable.created hlimit (hnew .int64)).requested
    (r := .set (.int64 5) 1 2) (n := {}) (s := (m, {})) trivial rfl
  have hformed : (transpose (multiply [matrix m, transpose (matrix m)])).Formed
      (Operand.Typed none ScalarType.BuiltIn) (fun _ => True) := by
    have hmatrix : (matrix m).Formed (Operand.Typed none ScalarType.BuiltIn) (fun _ => True) :=
      .operand ⟨hm, fun _ => ScalarType.noConfusion⟩
    have htranspose : ∀ e : Expression, e.Formed (Operand.Typed none ScalarType.BuiltIn) (fun _ => True) →
        (transpose e).Formed (Operand.Typed none ScalarType.BuiltIn) (fun _ => True) := fun e he =>
      .operation (fun h => absurd rfl h) (fun _ => trivial) (List.forall_mem_singleton.2 he)
    exact htranspose _ (.operation (fun _ => List.cons_ne_nil _ _) Combination.noConfusion
      (List.forall_mem_cons.2 ⟨hmatrix, List.forall_mem_singleton.2 (htranspose _ hmatrix)⟩))
  have hagrees := @Formed.optimized_agrees _ _ { graph := Graph.new {} } _ _ hlimit .start hlimit hformed
    (Matrix.Reachable.created hlimit (hnew .bool)) (Aspect.reads_bool .presence) {} {}
  have hoptimized : (transpose (multiply [matrix m, transpose (matrix m)])).optimized =
      multiply [operand (.matrix m) false, operand (.matrix m) true] := rfl
  rw [hoptimized] at hagrees
  have hruns : (match (multiply [operand (.matrix m) false, operand (.matrix m) true]).evalInto
        { graph := Graph.new {} } (Matrix.blank .bool 3 3 true {}, {}),
      (transpose (multiply [matrix m, transpose (matrix m)])).evalInto
        { graph := Graph.new {} } (Matrix.blank .bool 3 3 true {}, {}) with
    | .ok _ _, .ok _ _ => true
    | _, _ => false) = true := by
    clear_value m
    subst hdef
    decide +kernel
  refine ⟨m, Matrix.blank .bool 3 3 true {}, ?_⟩
  split at hruns
  · next s _ t hs ht =>
    rw [hs, ht] at hagrees
    exact ⟨s, t, hoptimized, hs, ht, hagrees.1 1 1⟩
  · cases hruns

end Expression

end Adjacency
