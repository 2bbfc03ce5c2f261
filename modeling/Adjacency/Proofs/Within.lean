import Adjacency.Proofs.Batch
import Adjacency.Proofs.Frame

/-!
# Entries within a relation

Whatever its leaves are, and whether or not shapes and element types agree, an evaluation finds no pair that
the expression does not mean; and a write that fails adds none.

* `Matrix.Within`: a matrix in order without an entry outside a relation.
* `Within.ensures_set`, `Within.leaves_wait`: writes and commits, failed ones included.
* `Expression.Confined`: evaluated under any filter, an expression gives no pair outside a meaning.
* `Formed.ensures_filtered_confined`: **the prepared filtered expression gives no pair but those that a pair
  of the filter and a pair of the expression make up.**
* `Confined.ensures_evalInto`: the same of the matrix that the value goes to.
-/

namespace Adjacency

open Metered

namespace Matrix

variable {m n t : Matrix} {q q' : Nat → Nat → Prop} {x y : Meaning} {c : Cursor}

/-- A matrix in order without an entry outside `q`. -/
structure Within (m : Matrix) (q : Nat → Nat → Prop) : Prop where
  inv : m.Inv
  pair : ∀ row col v, m.cell row col = some v → q row col

theorem Inv.within (h : m.Inv) : m.Within m.HasEntry :=
  ⟨h, fun _ _ v hv => ⟨v, h.extract_eq_some_iff.2 hv⟩⟩

theorem Within.mono (h : m.Within q) (hq : ∀ row col, q row col → q' row col) : m.Within q' :=
  ⟨h.inv, fun row col v hv => hq row col (h.pair row col v hv)⟩

theorem Within.of_cell_eq (h : m.Within q) (ht : t.Inv) (hcell : t.cell = m.cell) : t.Within q :=
  ⟨ht, fun row col v hv => h.pair row col v (hcell ▸ hv)⟩

theorem Inv.within_cleared (h : m.Inv) (q : Nat → Nat → Prop) : m.cleared.Within q := by
  obtain ⟨hinv, -, hnone⟩ := h.cleared
  refine ⟨hinv, fun row col v hv => ?_⟩
  rw [Matrix.cell, hnone] at hv
  cases hv

theorem Means.within (h : m.Means .presence x) : m.Within x.links :=
  ⟨h.inv, fun row col v hv => (h.shows_cell row col).1 ⟨v, hv, trivial⟩⟩

theorem Within.transposed (h : m.Within x.links) : m.transposed.Within x.swap.links := by
  refine ⟨h.inv.transposed.1, fun row col v hv => ?_⟩
  rw [h.inv.cell_transposed] at hv
  exact h.pair col row v hv

/-! ## Writes and commits -/

/-- A write adds at most its own pair; a failed one adds none. -/
theorem Within.ensures_set (h : m.Within q) (v : Scalar) (row col : Nat) :
    Ensures (setElement v row col) m (fun _ t => t.Within fun r c => q r c ∨ r = row ∧ c = col)
      (fun _ t => t.Within q) := by
  refine (ensures_accumulate h.inv v row col .second).mono ?_ ?_
  · rintro _ t ⟨ht, -, -, w, -, hputs⟩
    refine ⟨ht, fun r c u hu => ?_⟩
    rw [Puts.cell hputs, Cells.put] at hu
    by_cases hp : r = row ∧ c = col
    · exact .inr hp
    · rw [if_neg hp] at hu
      exact .inl (h.pair r c u hu)
  · rintro e t ⟨ht, hk, -⟩
    exact h.of_cell_eq ht hk.cell

theorem Within.leaves_wait (h : m.Within q) : Leaves wait m (Within · q) := by
  refine (Matrix.ensures_wait h.inv).mono ?_ ?_
  · rintro _ t ⟨ht, hk, -⟩
    exact h.of_cell_eq ht hk.cell
  · rintro e t ⟨-, ht, hk⟩
    exact h.of_cell_eq ht hk.cell

/-! ## Kernels -/

/-- Both values of a product are entries, one in the row and one in the column. -/
theorem exists_of_mem_products {s : Semiring} {ty : ScalarType} {row col : Nat} {v : Scalar}
    (h : v ∈ products s ty m n row col) :
    ∃ k u w, m.cell row k = some u ∧ n.cell k col = some w := by
  obtain ⟨k, -, hk⟩ := List.mem_filterMap.1 h
  obtain ⟨u, hu, hw⟩ := Option.bind_eq_some_iff.1 hk
  obtain ⟨w, hw, -⟩ := Option.map_eq_some_iff.1 hw
  exact ⟨k, u, w, hu, hw⟩

theorem foldOnto_isSome {f : Scalar → Scalar → Scalar} {start : Option Scalar} {vs : List Scalar} {v : Scalar}
    (h : foldOnto f start vs = some v) : (∃ u, start = some u) ∨ ∃ u, u ∈ vs := by
  cases vs with
  | nil => exact .inl ⟨v, h⟩
  | cons u us => exact .inr ⟨u, List.mem_cons_self⟩

/-- The kernels compute no pair but those that the meanings combine to, whatever the element types are. -/
theorem respected_within {σ : Type} {s : σ} {options : MatrixOptions}
    (hlimit : options.maxDenseCells < UInt64.size) :
    Expression.Respected (fun m x => m.Within x.links) (fun _ _ => True) options s where
  product hm hn := by
    refine (Matrix.ensures_product hm.inv hn.inv .lorLand hlimit).mono ?_ fun _ _ he => ⟨he.1, trivial⟩
    rintro r _ ⟨rfl, hinv, -, -, hcell⟩
    refine ⟨rfl, hinv, fun row col v hv => ?_⟩
    rw [hcell] at hv
    -- a sum that starts from nothing has a value only if there is something to add
    obtain ⟨u, hu⟩ := (foldOnto_isSome hv).resolve_left fun ⟨u, hu⟩ => by cases hu
    obtain ⟨k, a, b, ha, hb⟩ := exists_of_mem_products hu
    exact ⟨k, hm.pair row k a ha, hn.pair k col b hb⟩
  union hm hn := by
    refine (Matrix.ensures_union hm.inv hn.inv .lor hlimit).mono ?_ fun _ _ he => ⟨he.1, trivial⟩
    rintro r _ ⟨rfl, hinv, -, -, -, -, -, hcell⟩
    refine ⟨rfl, hinv, fun row col v hv => ?_⟩
    rw [hcell] at hv
    rcases foldOnto_isSome hv with ⟨u, hu⟩ | ⟨u, hu⟩
    · exact .inl (hm.pair row col u hu)
    · obtain ⟨w, hw, -⟩ := Option.bind_eq_some_iff.1 (Option.mem_toList.1 hu)
      exact .inr (hn.pair row col w hw)
  transposed hm := hm.transposed
  fails_times _ := trivial
  fails_plus _ := trivial
  fails_swap _ := trivial

end Matrix

namespace Expression

variable {g : Graph} {e e' : Expression} {es es' : List Expression} {arity : Nat → Prop} {source : Operand}
  {x : Matrix → Meaning} {f m : Matrix} {σ : Type} {s : σ}

/-! ## Leaves -/

/-- A leaf that brings a matrix along brings one in order. -/
def Ordered (source : Operand) : Prop := ∀ m, source = .matrix m → m.Inv

/-- **The matrix of a leaf has no entry that the leaf does not mean.** -/
theorem within_of_leafMatrix (ctx : EvalContext) (hg : ctx.graph.Inv) (hs : Ordered source)
    (hf : ∀ f, ctx.filter = some f → f.Inv) {transposed : Bool}
    (hm : leafMatrix ctx source transposed = .ok m) :
    m.Within ((operand source transposed).meaning (Operand.meaning ctx.graph ctx.filter .presence)).links := by
  -- the matrices of the graph hold exactly what they mean; the others mean what they hold
  have hown : ∀ {f : Matrix} {y : Meaning}, f.Inv → (∀ row col, f.HasEntry row col → y.links row col) →
      (if transposed then f.transposed else f).Within (if transposed then y.swap else y).links := by
    intro f y hf hy
    have hwithin : f.Within y.links := hf.within.mono hy
    cases transposed with
    | false => exact hwithin
    | true => exact hwithin.transposed
  rw [meaning]
  cases source with
  | relation id =>
    have hmeans : Sound ctx (fun _ => True) .presence (.relation id) :=
      hg.leafMeans trivial (.inr fun _ => trivial)
    exact ((hmeans transposed).1 m hm).within
  | label id =>
    have hmeans : Sound ctx (fun _ => True) .presence (.label id) :=
      hg.leafMeans trivial (.inr fun _ => trivial)
    exact ((hmeans transposed).1 m hm).within
  | matrix m₀ =>
    rw [← Except.ok.inj hm]
    refine hown (hs m₀ rfl) ?_
    rintro row col ⟨v, hv⟩
    exact ⟨v, hv, trivial⟩
  | filter =>
    unfold leafMatrix at hm
    cases hfilter : ctx.filter with
    | none =>
      rw [hfilter] at hm
      cases hm
    | some f =>
      rw [hfilter] at hm
      rw [← Except.ok.inj hm]
      refine hown (hf f hfilter) ?_
      rintro row col ⟨v, hv⟩
      exact ⟨f, rfl, v, hv, trivial⟩

/-- Only the filter means something else under a filter. -/
theorem meaning_of_ne_filter (hne : source ≠ .filter) (f : Matrix) :
    Operand.meaning g (some f) .presence source = Operand.meaning g none .presence source := by
  cases source with
  | filter => exact absurd rfl hne
  | _ => rfl

/-! ## Preparing -/

/-- Evaluated under any filter, the expression gives no pair outside `x`, which may depend on the filter. -/
def Confined (g : Graph) (x : Matrix → Meaning) (e : Expression) : Prop :=
  ∀ f : Matrix, f.Inv → ∀ out : Matrix,
    Gives (fun m y => m.Within y.links) (fun _ _ => True) (filterContext g f) out e (x f)

/-- What an expression means under a filter. -/
abbrev under (g : Graph) (e : Expression) (f : Matrix) : Meaning :=
  e.meaning (Operand.meaning g (some f) .presence)

theorem confined_operand (hg : g.Inv) (hs : Ordered source) (transposed : Bool) :
    Confined g (under g (operand source transposed)) (operand source transposed) := by
  intro f hf out
  rw [Gives, evaluate]
  refine ensures_require (fun m hm => ⟨rfl, ?_⟩) fun _ _ => ⟨rfl, trivial⟩
  refine within_of_leafMatrix (filterContext g f) hg hs (fun f' hf' => ?_) hm
  rwa [← Option.some.inj hf']

theorem confined_matrix (hm : ∀ f, m.Within (x f).links) : Confined g x (matrix m) := by
  intro f _ out
  rw [Gives, matrix, evaluate]
  refine ensures_require (fun n hn => ⟨rfl, ?_⟩) fun _ _ => ⟨rfl, trivial⟩
  rw [← Except.ok.inj hn]
  exact hm f

/-- A prepared leaf gives no more than the leaf means. -/
theorem PreparedLeaf.confined (hg : g.Inv) (hs : Ordered source) (h : PreparedLeaf g source transposed e) :
    Confined g (under g (operand source transposed)) e := by
  cases h with
  | filter => exact confined_operand hg hs transposed
  | kept => exact confined_operand hg hs transposed
  | @replaced m r hne hm hr =>
    refine confined_matrix fun f => ?_
    have hwithin := within_of_leafMatrix { graph := g } hg hs (fun f hf => by cases hf) hm
    rw [meaning, ← meaning_of_ne_filter hne f, ← meaning] at hwithin
    exact hwithin.of_cell_eq hr.inv hr.cell

/-- **A prepared expression gives no more than the expression means.** -/
theorem Formed.ensures_prepared_confined (hg : g.Inv) (he : e.Formed Ordered arity) :
    Ensures (prepared g e) s (fun e' t => t = s ∧ Confined g (under g e) e') (fun _ t => t = s) := by
  induction he with
  | operand hs =>
    rw [prepared]
    refine (ensures_preparedLeaf fun m hm => ?_).mono (fun p t hp => ⟨hp.1, hp.2.confined hg hs⟩)
      fun _ _ he => he.1
    exact (within_of_leafMatrix { graph := g } hg hs (fun f hf => by cases hf) hm).inv
  | @operation op es _ _ _ ih =>
    rw [prepared]
    have ih := fun e he => (ih e he).mono (fun _ _ h => h) fun _ _ h => And.intro h trivial
    refine (ensures_preparedAll ih).andThen (fun _ _ he => he.1) ?_
    rintro es' t ⟨rfl, hes'⟩
    refine ensures_pure ⟨rfl, fun f hf out => ?_⟩
    have hlimit : MatrixOptions.sparseFamily.maxDenseCells < UInt64.size := by decide
    rw [under, meaning_operation]
    refine (Matrix.respected_within hlimit).ensures_operation ?_ fun _ => ⟨trivial, trivial⟩
    exact List.forall₂_map_right_iff.2 (hes'.flip.imp fun _ _ h => h f hf out)

/-- The filter, and behind it the pairs of the expression. -/
abbrev filteredBy (g : Graph) (e : Expression) (f : Matrix) : Meaning :=
  (Operand.meaning g (some f) .presence .filter).times (e.meaning (Operand.meaning g none .presence))

/-- **The prepared filtered expression** gives no pair but those that a pair of the filter and a pair of the
expression make up. -/
theorem Formed.ensures_filtered_confined (hg : g.Inv)
    (he : e.Formed (fun source => source ≠ .filter ∧ Ordered source) arity) :
    Ensures ((e.multiplyLeft .filter).optimized.prepared g) s
      (fun e' t => t = s ∧ Confined g (filteredBy g e) e') (fun _ t => t = s) := by
  have hproduct : (e.multiplyLeft .filter).Formed Ordered arity :=
    Formed.multiplyLeft (.operand fun m hm => by cases hm) (he.mono fun _ hs => hs.2)
  refine ((hproduct.optimized fun _ => .nothing).1.ensures_prepared_confined hg).mono ?_ fun _ _ h => h
  rintro e' t ⟨rfl, hconfined⟩
  refine ⟨rfl, fun f hf out => ?_⟩
  have hleaves : e.meaning (Operand.meaning g (some f) .presence) =
      e.meaning (Operand.meaning g none .presence) :=
    he.meaning_congr fun source hs => meaning_of_ne_filter hs.1 f
  have hsame : under g (e.multiplyLeft .filter).optimized f = filteredBy g e f := by
    rw [under, (hproduct.optimized _).2, meaning_multiplyLeft he, hleaves]
    rfl
  rw [← hsame]
  exact hconfined f hf out

/-! ## Evaluating -/

/-- **Evaluated into a matrix**, the expression leaves no pair there but those of `x`, and nothing deferred;
if it fails the matrix stays in order. -/
theorem Confined.ensures_evalInto (h : Confined g x e) (hf : f.Inv) {out : Matrix} (hout : out.Inv) :
    Ensures (e.evalInto (filterContext g f)) out
      (fun _ t => t.Within (x f).links ∧ t.deferred = false) (fun _ t => t.Inv) := by
  unfold evalInto
  refine (h f hf out).andThen (fun _ _ he => he.1 ▸ hout) ?_
  rintro m t ⟨rfl, hm⟩
  refine ensures_subject (ensures_guard (fun _ => hout) fun _ => ?_)
  refine (Matrix.ensures_assignFrom hout hm.inv).andThen (fun _ _ he => he.1 ▸ hout) ?_
  rintro _ u ⟨hu, -, -, -, hcell, -⟩
  have hwithin : u.Within (x f).links := by
    refine ⟨hu, fun row col v hv => ?_⟩
    rw [hcell] at hv
    obtain ⟨w, hw, -⟩ := Option.bind_eq_some_iff.1 hv
    exact hm.pair row col w hw
  refine (Matrix.ensures_wait hu).andThen (fun _ _ he => he.2.1) ?_
  rintro _ v ⟨hv, hk, hdef⟩
  exact ensures_tally ⟨hwithin.of_cell_eq hv hk.cell, hdef⟩

end Expression

end Adjacency
