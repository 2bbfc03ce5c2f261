import Adjacency.Proofs.Meaning

/-!
# Evaluation computes the meaning

* `Matrix.Means`: a matrix has the shape and the pairs of a meaning.
* `Means.ensures_product`, `Means.ensures_union`: the kernels chain and unite pairs.
* `Formed.ensures_evaluate`: **an expression is evaluated to what it means**, and fails only where it has no
  shape or memory runs out.
* `Expression.ensures_preparedLeaf`: what preparing makes of a leaf.
-/

namespace Adjacency

open Metered

/-- A failure for want of agreeing shapes. -/
def GraphError.OfShape (e : GraphError) : Prop :=
  ∃ site expected actual, e = .dimensionMismatch site expected actual

/-! ## Aspects of values -/

namespace Aspect

variable {a : Aspect} {ty : ScalarType}

theorem reads_bool (a : Aspect) : a.Reads .bool := by
  cases a with
  | presence => exact fun code => ScalarType.noConfusion
  | truth => rfl

theorem Reads.builtIn (h : a.Reads ty) : ty.BuiltIn := by
  cases a with
  | presence => exact h
  | truth =>
    obtain rfl : ty = .bool := h
    exact reads_bool .presence

theorem castable_of_builtIn {source target : ScalarType} (h : source.BuiltIn) (h' : target.BuiltIn) :
    source.castable target = true := by
  cases source with
  | custom code => exact absurd rfl (h code)
  | _ =>
    cases target with
    | custom code => exact absurd rfl (h' code)
    | _ => rfl

theorem on_cast {v w : Scalar} (h : a.Reads ty) (hcast : v.cast ty = some w) : a.On w ↔ a.On v := by
  cases a with
  | presence => exact Iff.rfl
  | truth =>
    obtain rfl : ty = .bool := h
    unfold Scalar.cast at hcast
    split at hcast
    · rw [← Option.some.inj hcast]
      exact Iff.rfl
    · cases hcast

theorem on_multiply (ty : ScalarType) (v w : Scalar) :
    a.On (Semiring.lorLand.multiply ty v w) ↔ a.On v ∧ a.On w := by
  cases a with
  | presence => exact (and_self_iff).symm
  | truth => exact Bool.and_eq_true_iff

theorem on_add (ty : ScalarType) (v w : Scalar) :
    a.On (Semiring.lorLand.add ty v w) ↔ a.On v ∨ a.On w := by
  cases a with
  | presence => exact (or_self_iff).symm
  | truth => exact Bool.or_eq_true_iff

theorem on_lor (h : a.Reads ty) (v w : Scalar) : a.On (DupOp.lor.apply ty v w) ↔ a.On v ∨ a.On w := by
  cases a with
  | presence => exact (or_self_iff).symm
  | truth =>
    obtain rfl : ty = .bool := h
    exact Bool.or_eq_true_iff

/-- A fold shows the aspect when one of its values does. -/
theorem on_foldOnto {f : Scalar → Scalar → Scalar} (hf : ∀ v w, a.On (f v w) ↔ a.On v ∨ a.On w)
    (start : Option Scalar) (vs : List Scalar) : (∃ v, foldOnto f start vs = some v ∧ a.On v) ↔
      (∃ v, start = some v ∧ a.On v) ∨ ∃ v ∈ vs, a.On v := by
  induction vs generalizing start with
  | nil => simp
  | cons w vs ih =>
    cases start with
    | none => simp [ih]
    | some v => simp [ih, hf, or_assoc]

end Aspect

/-! ## Matrices and meanings -/

namespace Matrix

/-- The matrix has the shape of a meaning, and its entries show the aspect exactly at the linked pairs. -/
structure Means (m : Matrix) (a : Aspect) (x : Meaning) : Prop where
  inv : m.Inv
  reads : a.Reads m.type
  shape : x.shape = some (m.nrows, m.ncols)
  links : ∀ row col, m.Shows a row col ↔ x.links row col

variable {m n : Matrix} {a : Aspect} {x y : Meaning} {σ : Type} {s : σ} {options : MatrixOptions}

theorem Inv.shows_iff (h : m.Inv) {row col : Nat} :
    m.Shows a row col ↔ ∃ v, m.cell row col = some v ∧ a.On v :=
  exists_congr fun _ => and_congr_left' h.extract_eq_some_iff

theorem Means.shows_cell (h : m.Means a x) (row col : Nat) :
    (∃ v, m.cell row col = some v ∧ a.On v) ↔ x.links row col :=
  h.inv.shows_iff.symm.trans (h.links row col)

theorem Means.transposed (h : m.Means a x) : m.transposed.Means a x.swap := by
  have hinv := h.inv.transposed.1
  refine ⟨hinv, h.reads, ?_, fun row col => ?_⟩
  · unfold Meaning.swap
    rw [h.shape]
    rfl
  · rw [hinv.shows_iff, h.inv.cell_transposed]
    exact h.shows_cell col row

/-- A product shows the aspect where some chain of two entries does. -/
theorem Means.links_product (hm : m.Means a x) (hn : n.Means a y) (row col : Nat) :
    (∃ v ∈ products .lorLand .bool m n row col, a.On v) ↔ (x.times y).links row col := by
  change _ ↔ ∃ k, x.links row k ∧ y.links k col
  simp only [← hm.shows_cell, ← hn.shows_cell, products, List.mem_filterMap, List.mem_range,
    Option.bind_eq_some_iff, Option.map_eq_some_iff]
  constructor
  · rintro ⟨_, ⟨k, -, v, hv, w, hw, rfl⟩, hon⟩
    obtain ⟨hon, hon'⟩ := (Aspect.on_multiply _ _ _).1 hon
    exact ⟨k, ⟨v, hv, hon⟩, w, hw, hon'⟩
  · rintro ⟨k, ⟨v, hv, hon⟩, w, hw, hon'⟩
    exact ⟨_, ⟨k, (hm.inv.lt_of_cell hv).2, v, hv, w, hw, rfl⟩, (Aspect.on_multiply _ _ _).2 ⟨hon, hon'⟩⟩

/-- **A product chains pairs**; it needs inner dimensions that agree. -/
theorem Means.ensures_product (hm : m.Means a x) (hn : n.Means a y)
    (hlimit : options.maxDenseCells < UInt64.size) : Ensures (m.product n .lorLand options) s
      (fun r t => t = s ∧ r.Means a (x.times y))
      (fun e t => t = s ∧ (e.OfMemory ∨ (x.times y).shape = none ∧ e.OfShape)) := by
  have hshape : (x.times y).shape = if m.ncols = n.nrows then some (m.nrows, n.ncols) else none := by
    unfold Meaning.times
    rw [hm.shape, hn.shape]
    rfl
  refine (Matrix.ensures_product hm.inv hn.inv .lorLand hlimit).mono ?_ ?_
  · rintro r t ⟨rfl, hinv, hinner, hs, hcell⟩
    refine ⟨rfl, hinv, hs.type ▸ a.reads_bool, ?_, fun row col => ?_⟩
    · rw [hshape, if_pos hinner, hs.nrows, hs.ncols]
      rfl
    · rw [hinv.shows_iff, hcell, Aspect.on_foldOnto (Aspect.on_add _), ← hm.links_product hn]
      simp [Semiring.outputType]
  · rintro e t ⟨rfl, he | ⟨hne, he⟩⟩
    · exact ⟨rfl, .inl he⟩
    · exact ⟨rfl, .inr ⟨by rw [hshape, if_neg hne], _, _, _, he⟩⟩

/-- **A union unites pairs**; it needs shapes that agree. -/
theorem Means.ensures_union (hm : m.Means a x) (hn : n.Means a y)
    (hlimit : options.maxDenseCells < UInt64.size) : Ensures (m.union n .lor options) s
      (fun r t => t = s ∧ r.Means a (x.plus y))
      (fun e t => t = s ∧ (e.OfMemory ∨ (x.plus y).shape = none ∧ e.OfShape)) := by
  have hshape : (x.plus y).shape =
      if (m.nrows, m.ncols) = (n.nrows, n.ncols) then some (m.nrows, m.ncols) else none := by
    unfold Meaning.plus
    rw [hm.shape, hn.shape]
    rfl
  refine (Matrix.ensures_union hm.inv hn.inv .lor hlimit).mono ?_ ?_
  · rintro r t ⟨rfl, hinv, hr, hc, hs, -, hcast, hcell⟩
    have hreads : a.Reads r.type := hs.type ▸ hm.reads
    refine ⟨rfl, hinv, hreads, ?_, fun row col => ?_⟩
    · rw [hshape, if_pos (by rw [hr, hc]), hs.nrows, hs.ncols]
      rfl
    · have hright : (∃ w ∈ ((n.cell row col).bind (·.cast m.type)).toList, a.On w) ↔
          ∃ v, n.cell row col = some v ∧ a.On v := by
        cases hv : n.cell row col with
        | none => simp
        | some v =>
          obtain ⟨w, hw⟩ := Option.isSome_iff_exists.1 (hcast row col v hv)
          simp [hw, Aspect.on_cast hm.reads hw]
      rw [hinv.shows_iff, hcell, Aspect.on_foldOnto (Aspect.on_lor hm.reads), hright, hm.shows_cell,
        hn.shows_cell]
      exact Iff.rfl
  · rintro e t ⟨rfl, he | ⟨hne, he⟩ | ⟨-, hcast, -⟩⟩
    · exact ⟨rfl, .inl he⟩
    · refine ⟨rfl, .inr ⟨?_, _, _, _, he⟩⟩
      rw [hshape, if_neg]
      intro heq
      rcases hne with hne | hne
      · exact hne (congrArg Prod.fst heq)
      · exact hne (congrArg Prod.snd heq)
    · rw [Aspect.castable_of_builtIn hn.reads.builtIn hm.reads.builtIn] at hcast
      cases hcast

end Matrix

/-! ## Expressions -/

/-- The failure of an evaluation to `x`: for want of memory, or in a way of `F` when `x` has no shape. -/
def Meaning.Fails (x : Meaning) (F : GraphError → Prop) (e : GraphError) : Prop :=
  e.OfMemory ∨ x.shape = none ∧ F e

namespace Expression

open Meaning

variable {σ : Type} {s : σ} {ctx : EvalContext} {options : MatrixOptions} {R : Matrix → Meaning → Prop}
  {B : Meaning → GraphError → Prop} {m : Matrix} {ms : List Matrix} {x : Meaning} {xs : List Meaning}
  {e : GraphError}

/-- The kernels relate what they compute to products, sums and transposes of meanings by `R`. A kernel that
should give `x` fails in `B x`, and so does what is computed out of such a failure. -/
structure Respected (R : Matrix → Meaning → Prop) (B : Meaning → GraphError → Prop)
    (options : MatrixOptions) (s : σ) : Prop where
  product : ∀ {m n x y}, R m x → R n y → Ensures (m.product n .lorLand options) s
    (fun r t => t = s ∧ R r (x.times y)) (fun e t => t = s ∧ B (x.times y) e)
  union : ∀ {m n x y}, R m x → R n y → Ensures (m.union n .lor options) s
    (fun r t => t = s ∧ R r (x.plus y)) (fun e t => t = s ∧ B (x.plus y) e)
  transposed : ∀ {m x}, R m x → R m.transposed x.swap
  fails_times : ∀ {x y e}, B x e ∨ B y e → B (x.times y) e
  fails_plus : ∀ {x y e}, B x e ∨ B y e → B (x.plus y) e
  fails_swap : ∀ {x e}, B x e → B x.swap e

/-- Evaluated, the expression gives a matrix that `R` relates to `x`, or it fails in `B x`. -/
abbrev Gives (R : Matrix → Meaning → Prop) (B : Meaning → GraphError → Prop) (ctx : EvalContext) (s : σ)
    (e : Expression) (x : Meaning) : Prop :=
  Ensures (evaluate ctx e) s (fun m t => t = s ∧ R m x) (fun err t => t = s ∧ B x err)

namespace Respected

theorem fails_product (h : Respected R B options s) (hx : ∃ x ∈ xs, B x e) : B (fold times xs) e :=
  fold_of_mem (fun _ _ => h.fails_times) hx

theorem fails_sum (h : Respected R B options s) (hx : ∃ x ∈ xs, B x e) : B (fold plus xs) e :=
  fold_of_mem (fun _ _ => h.fails_plus) hx

theorem ensures_productsRight (h : Respected R B options s) (hm : R m x) (hms : List.Forall₂ R ms xs) :
    Ensures (productsRight options m ms) s
      (fun r t => t = s ∧ R r (fold times (x :: xs))) (fun e t => t = s ∧ B (fold times (x :: xs)) e) := by
  induction hms generalizing m x with
  | nil => exact ensures_pure ⟨rfl, hm⟩
  | @cons n y ns ys hn hns ih =>
    unfold productsRight
    rw [← fold_cons_cons x y times_assoc]
    refine (h.product hm hn).andThen (fun e t he => ⟨he.1, ?_⟩) ?_
    · exact h.fails_product ⟨_, List.mem_cons_self, he.2⟩
    · rintro r t ⟨rfl, hr⟩
      exact ih hr

theorem ensures_productsLeft (h : Respected R B options s) (hm : R m x) (hms : List.Forall₂ R ms xs) :
    Ensures (productsLeft options m ms) s
      (fun r t => t = s ∧ R r (fold times (xs.reverse ++ [x])))
      (fun e t => t = s ∧ B (fold times (xs.reverse ++ [x])) e) := by
  induction hms generalizing m x with
  | nil => exact ensures_pure ⟨rfl, hm⟩
  | @cons n y ns ys hn hns ih =>
    unfold productsLeft
    have hsame : fold times ((y :: ys).reverse ++ [x]) = fold times (ys.reverse ++ [y.times x]) := by
      rw [fold_append_pair y x times_assoc, List.reverse_cons, List.append_assoc]
      rfl
    rw [hsame]
    refine (h.product hn hm).andThen (fun e t he => ⟨he.1, ?_⟩) ?_
    · exact h.fails_product ⟨y.times x, by simp, he.2⟩
    · rintro r t ⟨rfl, hr⟩
      exact ih hr

/-- Either direction of folding gives the product of the chain. -/
theorem ensures_chainProduct (h : Respected R B ctx.options s) (led : Bool) (hms : List.Forall₂ R ms xs)
    (hne : ms ≠ []) : Ensures (chainProduct ctx led ms) s
      (fun r t => t = s ∧ R r (fold times xs)) (fun e t => t = s ∧ B (fold times xs) e) := by
  have hrev := List.rel_reverse hms
  unfold chainProduct
  cases hms with
  | nil => exact absurd rfl hne
  | @cons first x rest xs hfirst hrest =>
    cases hback : (first :: rest).reverse with
    | nil => simp at hback
    | cons last before =>
      rw [hback] at hrev
      cases hxs : (x :: xs).reverse with
      | nil => simp at hxs
      | cons y ys =>
        rw [hxs] at hrev
        obtain ⟨hlast, hbefore⟩ := List.forall₂_cons.1 hrev
        have hfold : ys.reverse ++ [y] = x :: xs := by
          rw [← List.reverse_cons, ← hxs, List.reverse_reverse]
        refine ensures_ite (fun _ => h.ensures_productsRight hfirst hrest) fun _ => ?_
        have hleft := h.ensures_productsLeft hlast hbefore
        rwa [hfold] at hleft

theorem ensures_evaluateAll {es : List Expression} (hes : List.Forall₂ (Gives R B ctx s) es xs) :
    Ensures (evaluateAll ctx es) s (fun ms t => t = s ∧ List.Forall₂ R ms xs)
      (fun err t => t = s ∧ ∃ x ∈ xs, B x err) := by
  induction hes with
  | nil =>
    rw [evaluateAll]
    exact ensures_pure ⟨rfl, List.Forall₂.nil⟩
  | @cons e x es xs he hes ih =>
    rw [evaluateAll]
    refine he.andThen (fun err t hf => ⟨hf.1, x, List.mem_cons_self, hf.2⟩) ?_
    rintro m t ⟨rfl, hm⟩
    refine ih.andThen (fun err u hf => ⟨hf.1, ?_⟩) ?_
    · obtain ⟨-, y, hy, herr⟩ := hf
      exact ⟨y, List.mem_cons_of_mem _ hy, herr⟩
    · rintro ms u ⟨rfl, hms⟩
      exact ensures_pure ⟨rfl, List.Forall₂.cons hm hms⟩

theorem ensures_evaluateUnion (h : Respected R B ctx.options s) {es : List Expression}
    (hes : List.Forall₂ (Gives R B ctx s) es xs) (hm : R m x) :
    Ensures (evaluateUnion ctx m es) s
      (fun r t => t = s ∧ R r (fold plus (x :: xs))) (fun err t => t = s ∧ B (fold plus (x :: xs)) err) := by
  induction hes generalizing m x with
  | nil =>
    rw [evaluateUnion]
    exact ensures_pure ⟨rfl, hm⟩
  | @cons e y es ys he hes ih =>
    rw [evaluateUnion]
    refine he.andThen (fun err t hf => ⟨hf.1, ?_⟩) ?_
    · exact h.fails_sum ⟨y, List.mem_cons_of_mem _ List.mem_cons_self, hf.2⟩
    rintro next t ⟨rfl, hnext⟩
    rw [← fold_cons_cons x y plus_assoc]
    refine (h.union hm hnext).andThen (fun err u hf => ⟨hf.1, ?_⟩) ?_
    · exact h.fails_sum ⟨_, List.mem_cons_self, hf.2⟩
    · rintro r u ⟨rfl, hr⟩
      exact ih hr

/-- **An operation gives what its operands give, combined.** Without operands, and as a transpose of
several, it means nothing and is refused. -/
theorem ensures_operation (h : Respected R B ctx.options s) {op : Combination} {es : List Expression}
    (hes : List.Forall₂ (Gives R B ctx s) es xs)
    (hrefused : es = [] ∨ op = .transpose ∧ es.length ≠ 1 →
      B .nothing (.invalid .emptyOperation) ∧ B .nothing (.invalid .transposeArity)) :
    Gives R B ctx s (.operation op es) (combined op xs) := by
  cases hes with
  | nil =>
    have hnothing : combined op [] = .nothing := by cases op <;> rfl
    rw [Gives, evaluate, hnothing]
    exact ensures_throw ⟨rfl, (hrefused (.inl rfl)).1⟩
  | @cons e x es xs he hes =>
    cases op with
    | multiply =>
      rw [Gives, evaluate]
      refine he.andThen (fun err t hf => ⟨hf.1, h.fails_product ⟨x, List.mem_cons_self, hf.2⟩⟩) ?_
      rintro first t ⟨rfl, hfirst⟩
      refine (ensures_evaluateAll hes).andThen (fun err u hf => ⟨hf.1, ?_⟩) ?_
      · obtain ⟨-, y, hy, herr⟩ := hf
        exact h.fails_product ⟨y, List.mem_cons_of_mem x hy, herr⟩
      · rintro rest u ⟨rfl, hrest⟩
        exact h.ensures_chainProduct e.isFilter (List.Forall₂.cons hfirst hrest) (List.cons_ne_nil first rest)
    | add =>
      rw [Gives, evaluate]
      refine he.andThen (fun err t hf => ⟨hf.1, h.fails_sum ⟨x, List.mem_cons_self, hf.2⟩⟩) ?_
      rintro m t ⟨rfl, hm⟩
      exact h.ensures_evaluateUnion hes hm
    | transpose =>
      cases hes with
      | nil =>
        rw [Gives, evaluate]
        refine he.andThen (fun err t hf => ⟨hf.1, h.fails_swap hf.2⟩) ?_
        rintro m t ⟨rfl, hm⟩
        exact ensures_pure ⟨rfl, h.transposed hm⟩
      | cons he' hes' =>
        rw [Gives, evaluate]
        exact ensures_throw ⟨rfl, (hrefused (.inr ⟨rfl, by simp⟩)).2⟩

end Respected

variable {a : Aspect} {μ : Operand → Meaning} {F : GraphError → Prop}

/-- The kernels compute what they mean, or fail where there is no shape. -/
theorem respected_means (hF : ∀ e : GraphError, e.OfShape → F e)
    (hlimit : options.maxDenseCells < UInt64.size) :
    Respected (Matrix.Means · a) (fun x e => x.Fails F e) options s where
  product hm hn := (hm.ensures_product hn hlimit).mono (fun _ _ h => h)
    fun e _ he => ⟨he.1, he.2.imp_right fun h => ⟨h.1, hF e h.2⟩⟩
  union hm hn := (hm.ensures_union hn hlimit).mono (fun _ _ h => h)
    fun e _ he => ⟨he.1, he.2.imp_right fun h => ⟨h.1, hF e h.2⟩⟩
  transposed hm := hm.transposed
  fails_times := by
    rintro x y e (h | h)
    · exact h.imp_right fun h => ⟨times_shape_eq_none _ _ (.inl h.1), h.2⟩
    · exact h.imp_right fun h => ⟨times_shape_eq_none _ _ (.inr h.1), h.2⟩
  fails_plus := by
    rintro x y e (h | h)
    · exact h.imp_right fun h => ⟨plus_shape_eq_none _ _ (.inl h.1), h.2⟩
    · exact h.imp_right fun h => ⟨plus_shape_eq_none _ _ (.inr h.1), h.2⟩
  fails_swap h := h.imp_right fun h => ⟨swap_shape_eq_none _ h.1, h.2⟩

/-- The matrix of a leaf has what the leaf means, or the leaf has no shape and fails in a way of `F`. -/
def LeafMeans (ctx : EvalContext) (a : Aspect) (μ : Operand → Meaning) (F : GraphError → Prop)
    (source : Operand) : Prop :=
  ∀ transposed,
    (∀ m, leafMatrix ctx source transposed = .ok m →
      m.Means a (if transposed then (μ source).swap else μ source)) ∧
    ∀ e, leafMatrix ctx source transposed = .error e → (μ source).shape = none ∧ F e

/-- **An expression is evaluated to what it means**; where it has no shape it fails. -/
theorem Formed.ensures_evaluate {arity : Nat → Prop} {e : Expression} (he : e.Formed (LeafMeans ctx a μ F) arity)
    (hF : ∀ e : GraphError, e.OfShape → F e) (hlimit : ctx.options.maxDenseCells < UInt64.size)
    (harity : ∀ n, arity n → n = 1 ∨ F (.invalid .emptyOperation) ∧ F (.invalid .transposeArity)) :
    Ensures (evaluate ctx e) s (fun m t => t = s ∧ m.Means a (e.meaning μ))
      (fun err t => t = s ∧ (e.meaning μ).Fails F err) := by
  induction he with
  | @operand source transposed h =>
    obtain ⟨hok, herror⟩ := h transposed
    rw [evaluate, meaning]
    refine ensures_require (fun m hm => ⟨rfl, hok m hm⟩) fun err herr => ⟨rfl, .inr ?_⟩
    obtain ⟨hnone, hFerr⟩ := herror err herr
    refine ⟨?_, hFerr⟩
    cases transposed with
    | false => exact hnone
    | true => exact swap_shape_eq_none _ hnone
  | @operation op es hne hlength hes ih =>
    rw [meaning_operation]
    refine (respected_means hF hlimit).ensures_operation ?_ fun hrefused => ?_
    · exact List.forall₂_map_right_iff.2 (List.forall₂_same.2 ih)
    · have hop : op = .transpose ∧ es.length ≠ 1 := by
        rcases hrefused with rfl | h
        · refine ⟨?_, by simp⟩
          by_contra hop
          exact hne hop rfl
        · exact h
      obtain ⟨h₁, h₂⟩ := (harity _ (hlength hop.1)).resolve_left hop.2
      exact ⟨.inr ⟨rfl, h₁⟩, .inr ⟨rfl, h₂⟩⟩

/-! ## Preparing -/

/-- What preparing makes of a leaf. The filter stays; the matrix of any other leaf is read as it stands if it
can be, and otherwise as a committed by-row copy. -/
inductive PreparedLeaf (g : Graph) (source : Operand) (transposed : Bool) : Expression → Prop
  | filter (h : source = .filter) : PreparedLeaf g source transposed (.operand source transposed)
  | kept {m : Matrix} (hne : source ≠ .filter) (hm : leafMatrix { graph := g } source transposed = .ok m)
      (hc : m.Committed m) : PreparedLeaf g source transposed (.operand source transposed)
  | replaced {m r : Matrix} (hne : source ≠ .filter)
      (hm : leafMatrix { graph := g } source transposed = .ok m) (hc : m.Committed r) :
      PreparedLeaf g source transposed (matrix r)

variable {g : Graph} {source : Operand} {transposed : Bool}

theorem ensures_preparedLeaf
    (hinv : ∀ m, leafMatrix { graph := g } source transposed = .ok m → m.Inv) :
    Ensures (preparedLeaf g source transposed) s
      (fun e t => t = s ∧ PreparedLeaf g source transposed e)
      (fun err t => t = s ∧
        (err.OfMemory ∨ source ≠ .filter ∧ leafMatrix { graph := g } source transposed = .error err)) := by
  have hfilter : isFilter (.operand source transposed) = true ↔ source = .filter := by
    cases source <;> simp [isFilter]
  unfold preparedLeaf
  refine ensures_ite (fun hf => ensures_pure ⟨rfl, .filter (hfilter.1 hf)⟩) fun hf => ?_
  have hne : source ≠ .filter := fun h => hf (hfilter.2 h)
  refine ensures_require_then (fun err herr => ⟨rfl, .inr ⟨hne, herr⟩⟩) fun m hm => ?_
  refine ensures_ite (fun hfit => ?_) fun _ => ?_
  · -- a matrix of the expression's own that is turned is put in as it is read
    rw [Bool.and_eq_true, Bool.not_eq_true'] at hfit
    have hc : m.Committed m := ⟨hinv m hm, hfit.1, hfit.2, rfl, rfl, rfl, rfl⟩
    split
    · exact ensures_pure ⟨rfl, .replaced hne hm hc⟩
    · exact ensures_pure ⟨rfl, .kept hne hm hc⟩
  · -- the copy is of the turned matrix, so its leaf is not turned again
    refine (Matrix.ensures_committedRows (hinv m hm)).andThen (fun _ _ he => ⟨he.1, .inl he.2⟩) ?_
    rintro r t ⟨rfl, hr⟩
    exact ensures_pure ⟨rfl, .replaced hne hm hr⟩

/-- Several expressions are prepared one by one. -/
theorem ensures_preparedAll {R : Expression → Expression → Prop} {B : GraphError → Prop} {es : List Expression}
    (hes : ∀ e ∈ es, Ensures (prepared g e) s (fun p t => t = s ∧ R e p) (fun err t => t = s ∧ B err)) :
    Ensures (preparedAll g es) s (fun ps t => t = s ∧ List.Forall₂ R es ps)
      (fun err t => t = s ∧ B err) := by
  induction es with
  | nil => exact ensures_pure ⟨rfl, .nil⟩
  | cons e es ih =>
    obtain ⟨he, hes⟩ := List.forall_mem_cons.1 hes
    rw [preparedAll]
    refine he.bind ?_
    rintro p _ ⟨rfl, hp⟩
    refine (ih hes).bind ?_
    rintro ps _ ⟨rfl, hps⟩
    exact ensures_pure ⟨rfl, .cons hp hps⟩

end Expression

end Adjacency
