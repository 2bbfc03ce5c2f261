import Adjacency.Proofs.Meaning

/-!
# Two runs that concur

Two actions concur when they go the same way: both succeed, with results that are related, or both fail.
Only memory may run out in one of them alone.

* `Metered.Concur`: the relation, with one lemma per combinator; `Metered.Both`: nothing is changed by either.
* `Matrix.Matches`: matrices of one type and shape with the same cells, however they hold them.
* `Matches.concur_product`, `Matches.concur_union`, `Matches.concur_assignFrom`: **the kernels and the
  assignment do not tell such matrices apart.**
* `Expression.Matched.operation`: **nor does an evaluation**, where each operand is evaluated to a match.
-/

namespace Adjacency

namespace Metered

variable {σ τ α β α' β' : Type} {s : σ} {t : τ}

/-- The actions go the same way, unless one of them runs out of memory. When both succeed, their answers and
what they leave behind are related by `R`. -/
def Concur (R : α → σ → β → τ → Prop) (x : Metered σ α) (s : σ) (y : Metered τ β) (t : τ) : Prop :=
  ∀ n n', match x (s, n), y (t, n') with
    | .ok a u, .ok b w => R a u.1 b w.1
    | .ok _ _, .error e _ => e.OfMemory
    | .error e _, .ok _ _ => e.OfMemory
    | .error _ _, .error _ _ => True

variable {R : α → σ → β → τ → Prop} {S : α' → σ → β' → τ → Prop} {x : Metered σ α} {y : Metered τ β}

/-- What each action ensures of itself may be put together. -/
theorem concur_of_ensures {good : α → σ → Prop} {bad : GraphError → σ → Prop} {good' : β → τ → Prop}
    {bad' : GraphError → τ → Prop} (hx : Ensures x s good bad) (hy : Ensures y t good' bad')
    (hboth : ∀ a u b w, good a u → good' b w → R a u b w)
    (hleft : ∀ a u e w, good a u → bad' e w → e.OfMemory)
    (hright : ∀ e u b w, bad e u → good' b w → e.OfMemory) : Concur R x s y t := by
  intro n n'
  cases hrx : x (s, n) with
  | ok a u =>
    cases hry : y (t, n') with
    | ok b w => exact hboth a u.1 b w.1 (hx.of_ok hrx) (hy.of_ok hry)
    | error e w => exact hleft a u.1 e w.1 (hx.of_ok hrx) (hy.of_error hry)
  | error e u =>
    cases hry : y (t, n') with
    | ok b w => exact hright e u.1 b w.1 (hx.of_error hrx) (hy.of_ok hry)
    | error e' w => trivial

theorem Concur.mono {R' : α → σ → β → τ → Prop} (h : Concur R x s y t)
    (himp : ∀ a u b w, R a u b w → R' a u b w) : Concur R' x s y t := by
  intro n n'
  have hn := h n n'
  cases hx : x (s, n) with
  | ok a u =>
    cases hy : y (t, n') with
    | ok b w =>
      rw [hx, hy] at hn
      exact himp a u.1 b w.1 hn
    | error e w =>
      rw [hx, hy] at hn
      exact hn
  | error e u =>
    cases hy : y (t, n') with
    | ok b w =>
      rw [hx, hy] at hn
      exact hn
    | error e' w => trivial

theorem concur_pure {a : α} {b : β} (h : R a s b t) :
    Concur R (pure a : Metered σ α) s (pure b : Metered τ β) t := fun _ _ => h

theorem concur_throw {e e' : GraphError} :
    Concur R (throw e : Metered σ α) s (throw e' : Metered τ β) t := fun _ _ => trivial

theorem concur_tally {c : Call} {R : Unit → σ → Unit → τ → Prop} (h : R () s () t) :
    Concur R (tally c) s (tally c) t := fun _ _ => h

theorem concur_subject {f : σ → Metered σ α'} {g : τ → Metered τ β'} (h : Concur S (f s) s (g t) t) :
    Concur S (subject >>= f) s (subject >>= g) t := fun n n' => h n n'

theorem Concur.bind {f : α → Metered σ α'} {g : β → Metered τ β'} (h : Concur R x s y t)
    (hk : ∀ a u b w, R a u b w → Concur S (f a) u (g b) w) : Concur S (x >>= f) s (y >>= g) t := by
  intro n n'
  have hn := h n n'
  simp only [Bind.bind, EStateM.bind]
  cases hx : x (s, n) with
  | ok a u =>
    cases hy : y (t, n') with
    | ok b w =>
      rw [hx, hy] at hn
      exact hk a u.1 b w.1 hn u.2 w.2
    | error e w =>
      rw [hx, hy] at hn
      cases hf : f a u with
      | ok a' u' => simpa only [hf] using hn
      | error e' u' => simp only [hf]
  | error e u =>
    cases hy : y (t, n') with
    | ok b w =>
      rw [hx, hy] at hn
      cases hg : g b w with
      | ok b' w' => simpa only [hg] using hn
      | error e' w' => simp only [hg]
    | error e' w => trivial

/-- The same check in both runs. -/
theorem concur_guard {c c' : Prop} [Decidable c] [Decidable c'] {e e' : GraphError}
    {k : Unit → Metered σ α} {k' : Unit → Metered τ β} (hc : c ↔ c') (hk : ¬c → Concur R (k ()) s (k' ()) t) :
    Concur R (if c then (throw e : Metered σ Unit) >>= k else k ()) s
      (if c' then (throw e' : Metered τ Unit) >>= k' else k' ()) t := by
  by_cases h : c
  · rw [if_pos h, if_pos (hc.1 h)]
    exact fun _ _ => trivial
  · rw [if_neg h, if_neg fun h' => h (hc.2 h')]
    exact hk h

/-- Both actions leave alone what they are run on, and their answers are related. -/
def Both (s : σ) (R : α → β → Prop) (a : α) (u : σ) (b : β) (w : σ) : Prop := u = s ∧ w = s ∧ R a b

theorem Concur.both_bind {R : α → β → Prop} {T : α' → σ → β' → σ → Prop} {x : Metered σ α} {y : Metered σ β}
    {f : α → Metered σ α'} {g : β → Metered σ β'} (h : Concur (Both s R) x s y s)
    (hk : ∀ a b, R a b → Concur T (f a) s (g b) s) : Concur T (x >>= f) s (y >>= g) s := by
  refine h.bind ?_
  rintro a _ b _ ⟨rfl, rfl, hab⟩
  exact hk a b hab

end Metered

open Metered

/-! ## Matrices -/

namespace Matrix

/-- The same type and shape, and the same value at every cell, in whatever orientation and format and with
whatever deferred. -/
structure Matches (m m' : Matrix) : Prop where
  left : m.Inv
  right : m'.Inv
  type : m'.type = m.type
  nrows : m'.nrows = m.nrows
  ncols : m'.ncols = m.ncols
  cell : m'.cell = m.cell

variable {a a' b b' m m' : Matrix} {σ : Type} {s : σ} {options : MatrixOptions}

theorem Matches.refl (h : m.Inv) : m.Matches m := ⟨h, h, rfl, rfl, rfl, rfl⟩

theorem Matches.symm (h : m.Matches m') : m'.Matches m :=
  ⟨h.right, h.left, h.type.symm, h.nrows.symm, h.ncols.symm, h.cell.symm⟩

theorem Matches.transposed (h : m.Matches m') : m.transposed.Matches m'.transposed where
  left := h.left.transposed.1
  right := h.right.transposed.1
  type := h.type
  nrows := h.ncols
  ncols := h.nrows
  cell := by
    funext row col
    rw [h.right.cell_transposed, h.left.cell_transposed, h.cell]

theorem SameShape.matches (hs : m.SameShape a) (hs' : m.SameShape a') (h : a.Inv) (h' : a'.Inv)
    (hcell : a'.cell = a.cell) : a.Matches a' :=
  ⟨h, h', hs'.type.trans hs.type.symm, hs'.nrows.trans hs.nrows.symm, hs'.ncols.trans hs.ncols.symm, hcell⟩

theorem Committed.matches (h : m.Inv) (hc : m.Committed m') : m.Matches m' :=
  ⟨h, hc.inv, hc.type, hc.nrows, hc.ncols, hc.cell⟩

/-- Look-ups give the same answer, or refuse in the same way. -/
theorem Matches.extract (h : m.Matches m') (row col : Nat) : m'.extract row col = m.extract row col := by
  have hbounds : m'.checkBounds row col = m.checkBounds row col := by
    rw [checkBounds, checkBounds, h.nrows, h.ncols]
  cases hb : m.checkBounds row col with
  | ok u =>
    obtain ⟨hr, hc⟩ := checkBounds_ok hb
    rw [h.right.extract_eq (h.nrows ▸ hr) (h.ncols ▸ hc), h.left.extract_eq hr hc, h.cell]
  | error e =>
    rw [Matrix.extract, Matrix.extract, hbounds, hb]
    rfl

theorem Matches.products (ha : a.Matches a') (hb : b.Matches b') (k : Semiring) (ty : ScalarType) :
    products k ty a' b' = products k ty a b := by
  funext row col
  rw [Matrix.products, Matrix.products, ha.ncols, ha.cell, hb.cell]

theorem Matches.concur_product (ha : a.Matches a') (hb : b.Matches b') (k : Semiring)
    (hlimit : options.maxDenseCells < UInt64.size) :
    Concur (Both s Matches) (a.product b k options) s (a'.product b' k options) s := by
  have hrefused : a'.ncols ≠ b'.nrows ↔ a.ncols ≠ b.nrows := by rw [ha.ncols, hb.nrows]
  refine concur_of_ensures (ensures_product ha.left hb.left k hlimit)
    (ensures_product ha.right hb.right k hlimit) ?_ ?_ ?_
  · rintro r _ r' _ ⟨rfl, hr, -, hs, hcell⟩ ⟨rfl, hr', -, hs', hcell'⟩
    rw [ha.type, ha.nrows, hb.ncols] at hs'
    rw [ha.type, ha.products hb] at hcell'
    refine ⟨rfl, rfl, hs.matches hs' hr hr' ?_⟩
    funext row col
    rw [hcell, hcell']
  · rintro r u e w ⟨-, -, hinner, -⟩ ⟨-, hmem | ⟨hne, -⟩⟩
    · exact hmem
    · exact absurd hinner (hrefused.1 hne)
  · rintro e u r w ⟨-, hmem | ⟨hne, -⟩⟩ ⟨-, -, hinner, -⟩
    · exact hmem
    · exact absurd hinner (hrefused.2 hne)

/-- A value that cannot be cast keeps a matrix from being taken in. -/
theorem Inv.not_castable (h : m.Inv) {ty : ScalarType} {row col : Nat} {v : Scalar}
    (hv : m.cell row col = some v) (hcast : m.type.castable ty = false) : ¬(v.cast ty).isSome := by
  intro hsome
  obtain ⟨w, hw⟩ := Option.isSome_iff_exists.1 hsome
  have := (Scalar.cast_eq_some hw).2
  rw [h.value_type hv, hcast] at this
  cases this

theorem Matches.concur_union (ha : a.Matches a') (hb : b.Matches b') (op : DupOp)
    (hlimit : options.maxDenseCells < UInt64.size) :
    Concur (Both s Matches) (a.union b op options) s (a'.union b' op options) s := by
  refine concur_of_ensures (ensures_union ha.left hb.left op hlimit)
    (ensures_union ha.right hb.right op hlimit) ?_ ?_ ?_
  · rintro r _ r' _ ⟨rfl, hr, -, -, hs, -, -, hcell⟩ ⟨rfl, hr', -, -, hs', -, -, hcell'⟩
    rw [ha.type, ha.nrows, ha.ncols] at hs'
    rw [ha.type, ha.cell, hb.cell] at hcell'
    refine ⟨rfl, rfl, hs.matches hs' hr hr' ?_⟩
    funext row col
    rw [hcell, hcell']
  · rintro r u e w ⟨-, -, hrows, hcols, -, -, hcast, -⟩ ⟨-, hmem | ⟨hne, -⟩ | ⟨⟨row, col, v, hv⟩, hno, -⟩⟩
    · exact hmem
    · rw [ha.nrows, ha.ncols, hb.nrows, hb.ncols] at hne
      exact absurd hne (by simp [hrows, hcols])
    · rw [ha.type] at hno
      exact absurd (hcast row col v (hb.cell ▸ hv)) (hb.right.not_castable hv hno)
  · rintro e u r w ⟨-, hmem | ⟨hne, -⟩ | ⟨⟨row, col, v, hv⟩, hno, -⟩⟩ ⟨-, -, hrows, hcols, -, -, hcast, -⟩
    · exact hmem
    · rw [← ha.nrows, ← ha.ncols, ← hb.nrows, ← hb.ncols] at hne
      exact absurd hne (by simp [hrows, hcols])
    · rw [← ha.type] at hno
      exact absurd (hcast row col v (hb.cell ▸ hv)) (hb.left.not_castable hv hno)

theorem Matches.concur_wait (h : m.Matches m') :
    Concur (fun _ u _ w => u.Matches w) wait m wait m' := by
  refine concur_of_ensures (ensures_wait h.left) (ensures_wait h.right) ?_ ?_ ?_
  · rintro _ u _ w ⟨hu, hk, -⟩ ⟨hw, hk', -⟩
    exact ⟨hu, hw, hk'.type.trans (h.type.trans hk.type.symm), hk'.nrows.trans (h.nrows.trans hk.nrows.symm),
      hk'.ncols.trans (h.ncols.trans hk.ncols.symm), by rw [hk'.cell, hk.cell, h.cell]⟩
  · exact fun _ _ _ _ _ he => he.1
  · exact fun _ _ _ _ he _ => he.1

/-- Whether an assignment goes through shows in the shape and the values of its source. -/
theorem Matches.assign_refused (h : a.Matches a') {e : GraphError} (hfault : m.AssignFault a' e)
    (hrows : a.nrows = m.nrows) (hcols : a.ncols = m.ncols)
    (hcast : ∀ row col v, a.cell row col = some v → (v.cast m.type).isSome) : False := by
  rcases hfault with ⟨hne, -⟩ | ⟨⟨hno, row, col, v, hv⟩, -⟩
  · rw [h.nrows, h.ncols] at hne
    exact hne.elim (fun hne => hne hrows) fun hne => hne hcols
  · exact h.right.not_castable hv hno (hcast row col v (h.cell ▸ hv))

theorem Matches.concur_assignFrom (h : a.Matches a') (hm : m.Inv) :
    Concur (fun _ u _ w => u.Matches w) (assignFrom a) m (assignFrom a') m := by
  refine concur_of_ensures (ensures_assignFrom hm h.left) (ensures_assignFrom hm h.right) ?_ ?_ ?_
  · rintro _ u _ w ⟨hu, hs, -, -, hcell, -⟩ ⟨hw, hs', -, -, hcell', -⟩
    refine hs.matches hs' hu hw ?_
    funext row col
    rw [hcell, hcell', h.cell]
  · rintro _ u e w ⟨-, -, hrows, hcols, -, hcast⟩ ⟨-, hmem | hfault⟩
    · exact hmem
    · exact (h.assign_refused hfault hrows hcols hcast).elim
  · rintro e u _ w ⟨-, hmem | hfault⟩ ⟨-, -, hrows, hcols, -, hcast⟩
    · exact hmem
    · exact (h.symm.assign_refused hfault hrows hcols hcast).elim

end Matrix

/-! ## Evaluations -/

namespace Expression

variable {σ : Type} {s : σ} {ctx : EvalContext} {options : MatrixOptions} {m m' : Matrix}
  {ms ms' : List Matrix} {e e' : Expression} {es es' : List Expression}

theorem concur_productsRight (hlimit : options.maxDenseCells < UInt64.size) (hm : m.Matches m')
    (hms : List.Forall₂ Matrix.Matches ms ms') :
    Concur (Both s Matrix.Matches) (productsRight options m ms) s (productsRight options m' ms') s := by
  induction hms generalizing m m' with
  | nil => exact concur_pure ⟨rfl, rfl, hm⟩
  | cons hn hns ih =>
    unfold productsRight
    exact (hm.concur_product hn .lorLand hlimit).both_bind fun r r' hr => ih hr

theorem concur_productsLeft (hlimit : options.maxDenseCells < UInt64.size) (hm : m.Matches m')
    (hms : List.Forall₂ Matrix.Matches ms ms') :
    Concur (Both s Matrix.Matches) (productsLeft options m ms) s (productsLeft options m' ms') s := by
  induction hms generalizing m m' with
  | nil => exact concur_pure ⟨rfl, rfl, hm⟩
  | cons hn hns ih =>
    unfold productsLeft
    exact (hn.concur_product hm .lorLand hlimit).both_bind fun r r' hr => ih hr

/-- Chains of matches fold in the same direction. -/
theorem concur_chainProduct (hlimit : ctx.options.maxDenseCells < UInt64.size) (led : Bool)
    (hms : List.Forall₂ Matrix.Matches ms ms') :
    Concur (Both s Matrix.Matches) (chainProduct ctx led ms) s (chainProduct ctx led ms') s := by
  have hrev := List.rel_reverse hms
  unfold chainProduct
  cases hms with
  | nil => exact concur_throw
  | @cons first first' rest rest' hfirst hrest =>
    cases hback : (first :: rest).reverse with
    | nil => simp at hback
    | cons last before =>
      cases hback' : (first' :: rest').reverse with
      | nil => simp at hback'
      | cons last' before' =>
        rw [hback, hback'] at hrev
        obtain ⟨hlast, hbefore⟩ := List.forall₂_cons.1 hrev
        dsimp only
        -- the direction is chosen by the outer sizes, which are the same in both chains
        rw [hfirst.nrows, hlast.ncols]
        by_cases hright : (led || decide (first.nrows ≤ last.ncols)) = true
        · rw [if_pos hright, if_pos hright]
          exact concur_productsRight hlimit hfirst hrest
        · rw [if_neg hright, if_neg hright]
          exact concur_productsLeft hlimit hlast hbefore

/-- Evaluated, the expressions give matrices that match. An expression led by the filter is so in both
runs, which decides how a chain folds. -/
structure Matched (ctx : EvalContext) (s : σ) (e e' : Expression) : Prop where
  isFilter : e'.isFilter = e.isFilter
  concur : Concur (Both s Matrix.Matches) (evaluate ctx e) s (evaluate ctx e') s

theorem concur_evaluateAll (hes : List.Forall₂ (Matched ctx s) es es') :
    Concur (Both s (List.Forall₂ Matrix.Matches)) (evaluateAll ctx es) s (evaluateAll ctx es') s := by
  induction hes with
  | nil =>
    rw [evaluateAll]
    exact concur_pure ⟨rfl, rfl, .nil⟩
  | cons he hes ih =>
    rw [evaluateAll, evaluateAll]
    refine he.concur.both_bind fun m m' hm => ?_
    refine ih.both_bind fun ms ms' hms => ?_
    exact concur_pure ⟨rfl, rfl, .cons hm hms⟩

theorem concur_evaluateUnion (hlimit : ctx.options.maxDenseCells < UInt64.size) (hm : m.Matches m')
    (hes : List.Forall₂ (Matched ctx s) es es') :
    Concur (Both s Matrix.Matches) (evaluateUnion ctx m es) s (evaluateUnion ctx m' es') s := by
  induction hes generalizing m m' with
  | nil =>
    rw [evaluateUnion, evaluateUnion]
    exact concur_pure ⟨rfl, rfl, hm⟩
  | cons he hes ih =>
    rw [evaluateUnion, evaluateUnion]
    refine he.concur.both_bind fun n n' hn => ?_
    exact (hm.concur_union hn .lor hlimit).both_bind fun r r' hr => ih hr

/-- **An evaluation does not tell operands apart that match.** -/
theorem Matched.operation (hlimit : ctx.options.maxDenseCells < UInt64.size) (op : Combination)
    (hes : List.Forall₂ (Matched ctx s) es es') :
    Matched ctx s (.operation op es) (.operation op es') := by
  refine ⟨rfl, ?_⟩
  cases hes with
  | nil =>
    rw [evaluate]
    exact concur_throw
  | cons he hes =>
    cases op with
    | multiply =>
      rw [evaluate, evaluate]
      refine he.concur.both_bind fun m m' hm => ?_
      refine (concur_evaluateAll hes).both_bind fun ms ms' hms => ?_
      rw [he.isFilter]
      exact concur_chainProduct hlimit _ (.cons hm hms)
    | add =>
      rw [evaluate, evaluate]
      exact he.concur.both_bind fun m m' hm => concur_evaluateUnion hlimit hm hes
    | transpose =>
      cases hes with
      | nil =>
        rw [evaluate, evaluate]
        exact he.concur.both_bind fun m m' hm => concur_pure ⟨rfl, rfl, hm.transposed⟩
      | cons =>
        rw [evaluate, evaluate]
        exact concur_throw

end Expression

end Adjacency
