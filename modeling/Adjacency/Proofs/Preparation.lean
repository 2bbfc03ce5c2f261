import Adjacency.Proofs.Optimization

/-!
# Filtering an expression

A traversal puts a filter in front of its expression, optimizes the product and prepares it once: then it
evaluates it under one filter after another.

* `Operand.Square`: a leaf that the graph has, as large as the graph.
* `meaning_multiplyLeft`, `Formed.shape_square`: what the product means, and its shape.
* `Formed.ensures_prepared`: preparing keeps what an expression means under every filter.
* `Expression.Filtered`: an expression that means the product, whatever filter is supplied.
* `Formed.ensures_filtered`, `Filtered.ensures_evalInto`: how such an expression comes about, and what its
  evaluation leaves.
-/

namespace Adjacency

open Metered

/-- The leaf has a matrix to read, of a built-in type and of the graph's dimension. -/
def Operand.Square (g : Graph) (source : Operand) : Prop :=
  source.Registered g none ∧ source.Typed none ScalarType.BuiltIn ∧
    (Operand.meaning g none .presence source).shape = some (g.dim, g.dim)

theorem Operand.Square.ne_filter {g : Graph} {source : Operand} (h : source.Square g) :
    source ≠ .filter := by
  rintro rfl
  exact Bool.noConfusion h.1

namespace Meaning

theorem times_shape {x y : Meaning} {rows d cols : Nat} (hx : x.shape = some (rows, d))
    (hy : y.shape = some (d, cols)) : (x.times y).shape = some (rows, cols) := by
  simp [times, chained, hx, hy]

theorem plus_shape {x y : Meaning} {s : Nat × Nat} (hx : x.shape = some s) (hy : y.shape = some s) :
    (x.plus y).shape = some s := by
  simp [plus, shared, hx, hy]

theorem fold_shape {f : Meaning → Meaning → Meaning} {s : Option (Nat × Nat)}
    (hf : ∀ x y, x.shape = s → y.shape = s → (f x y).shape = s) {xs : List Meaning} (hne : xs ≠ [])
    (h : ∀ x ∈ xs, x.shape = s) : (fold f xs).shape = s := by
  induction xs with
  | nil => exact absurd rfl hne
  | cons x xs ih =>
    have hx := h x List.mem_cons_self
    by_cases hxs : xs = []
    · subst hxs
      exact hx
    · rw [fold_cons x hxs]
      exact hf _ _ hx (ih hxs fun y hy => h y (List.mem_cons_of_mem x hy))

end Meaning

namespace Expression

variable {g : Graph} {e e' : Expression} {leaf : Operand → Prop} {arity : Nat → Prop}
  {μ ν : Operand → Meaning} {σ : Type} {s : σ}

/-- Leaves that mean the same give expressions that mean the same. -/
theorem Formed.meaning_congr (he : e.Formed leaf arity) (h : ∀ source, leaf source → μ source = ν source) :
    e.meaning μ = e.meaning ν := by
  induction he with
  | operand hs => rw [meaning, meaning, h _ hs]
  | operation hne harity hes ih => rw [meaning_operation, meaning_operation, List.map_congr_left ih]

theorem Formed.exists_leaf (he : e.Formed leaf (· = 1)) : ∃ source, leaf source := by
  induction he with
  | operand hs => exact ⟨_, hs⟩
  | @operation op es hne harity hes ih =>
    have hsome : es ≠ [] := by
      by_cases hop : op = .transpose
      · have hlen := harity hop
        rintro rfl
        cases hlen
      · exact hne hop
    obtain ⟨e, es, rfl⟩ := List.exists_cons_of_ne_nil hsome
    exact ih e List.mem_cons_self

/-- Square leaves give a square expression. -/
theorem Formed.shape_square {d : Nat}
    (he : e.Formed (fun source => (μ source).shape = some (d, d)) (· = 1)) :
    (e.meaning μ).shape = some (d, d) := by
  have hswap : ∀ x : Meaning, x.shape = some (d, d) → x.swap.shape = some (d, d) := by
    intro x hx
    unfold Meaning.swap
    rw [hx]
    rfl
  induction he with
  | @operand source transposed hs =>
    rw [meaning]
    cases transposed with
    | false => exact hs
    | true => exact hswap _ hs
  | @operation op es hne harity hes ih =>
    have hall : ∀ x ∈ es.map (meaning μ), x.shape = some (d, d) := by
      intro x hx
      obtain ⟨e, hmem, rfl⟩ := List.mem_map.1 hx
      exact ih e hmem
    rw [meaning_operation]
    cases op with
    | multiply =>
      exact Meaning.fold_shape (fun _ _ => Meaning.times_shape)
        (by simpa using hne Combination.noConfusion) hall
    | add =>
      exact Meaning.fold_shape (fun _ _ => Meaning.plus_shape)
        (by simpa using hne Combination.noConfusion) hall
    | transpose =>
      obtain ⟨e, rfl⟩ := List.length_eq_one_iff.1 (harity rfl)
      exact hswap _ (ih e List.mem_cons_self)

/-! ## A factor in front -/

theorem meaning_multiplyLeft (he : e.Formed leaf arity) (first : Expression) :
    (e.multiplyLeft first).meaning μ = (first.meaning μ).times (e.meaning μ) := by
  unfold multiplyLeft
  split
  · next es =>
    cases he with
    | operation hne harity hes =>
      have hsome : es.map (meaning μ) ≠ [] := by simpa using hne Combination.noConfusion
      unfold multiply
      rw [meaning_operation, meaning_operation, List.map_cons]
      exact Meaning.fold_cons _ hsome
  · unfold multiply
    rw [meaning_operation]
    rfl

theorem Formed.multiplyLeft {first : Expression} (hfirst : first.Formed leaf arity)
    (he : e.Formed leaf arity) : (e.multiplyLeft first).Formed leaf arity := by
  unfold Expression.multiplyLeft
  split
  · cases he with
    | operation hne harity hes =>
      exact .operation (fun _ => List.cons_ne_nil _ _) Combination.noConfusion
        (List.forall_mem_cons.2 ⟨hfirst, hes⟩)
  · exact .operation (fun _ => List.cons_ne_nil _ _) Combination.noConfusion
      (List.forall_mem_cons.2 ⟨hfirst, List.forall_mem_singleton.2 he⟩)

/-! ## Preparing -/

/-- What a traversal evaluates in. -/
abbrev filterContext (g : Graph) (f : Matrix) : EvalContext :=
  { graph := g, filter := some f, options := .sparseFamily }

/-- The leaf reads what it means under every boolean filter. -/
def Steady (g : Graph) (source : Operand) : Prop :=
  ∀ f : Matrix, f.Inv → f.type = .bool →
    Sound (filterContext g f) GraphError.OfShape .presence source

/-- The leaf is the filter, or it can be read without one. -/
def Preparable (g : Graph) (source : Operand) : Prop :=
  source = .filter ∨ source ≠ .filter ∧ Sound { graph := g } (fun _ => False) .presence source

theorem steady_filter : Steady g .filter := fun _ hf htype =>
  hf.leafMeans_filter (htype ▸ Aspect.reads_bool .presence) rfl

theorem steady_matrix {m : Matrix} (h : m.Inv) (hreads : Aspect.presence.Reads m.type) :
    Steady g (.matrix m) := fun _ _ _ => h.leafMeans hreads

/-- Only the filter leaf depends on the filter. -/
theorem steady_of_sound {source : Operand} (hne : source ≠ .filter)
    (h : Sound { graph := g } (fun _ => False) .presence source) : Steady g source := by
  intro f _ _ transposed
  obtain ⟨hok, herror⟩ := h transposed
  cases source with
  | filter => exact absurd rfl hne
  | relation id => exact ⟨hok, fun e he => (herror e he).2.elim⟩
  | label id => exact ⟨hok, fun e he => (herror e he).2.elim⟩
  | matrix m => exact ⟨hok, fun e he => (herror e he).2.elim⟩

/-- The expressions mean the same, whatever filter is supplied. -/
def SameMeaning (g : Graph) (e e' : Expression) : Prop :=
  ∀ f : Matrix, e'.meaning (Operand.meaning g (some f) .presence) =
    e.meaning (Operand.meaning g (some f) .presence)

/-- A matrix with what a leaf means can take the place of the leaf. -/
theorem sameMeaning_matrix {m : Matrix} {source : Operand} {transposed : Bool} (hne : source ≠ .filter)
    (hm : m.Means .presence ((operand source transposed).meaning (Operand.meaning g none .presence))) :
    SameMeaning g (.operand source transposed) (matrix m) := by
  intro f
  have hsame : Operand.meaning g (some f) .presence source = Operand.meaning g none .presence source := by
    cases source with
    | filter => exact absurd rfl hne
    | _ => rfl
  rw [meaning, hsame, ← meaning]
  exact Meaning.ext hm.shape.symm
    (funext fun row => funext fun col => propext (hm.links row col))

theorem Preparable.ensures_preparedLeaf {source : Operand} (h : Preparable g source) (transposed : Bool) :
    Ensures (preparedLeaf g source transposed) s
      (fun e t => t = s ∧ e.Formed (Steady g) (· = 1) ∧ SameMeaning g (.operand source transposed) e)
      (fun err t => t = s ∧ err.OfMemory) := by
  have hmeans {m : Matrix} (hne : source ≠ .filter)
      (hm : leafMatrix { graph := g } source transposed = .ok m) :
      m.Means .presence ((operand source transposed).meaning (Operand.meaning g none .presence)) := by
    rw [meaning]
    exact ((h.resolve_left hne).2 transposed).1 m hm
  have hinv : ∀ m, leafMatrix { graph := g } source transposed = .ok m → m.Inv := by
    intro m hm
    rcases h with rfl | ⟨hne, -⟩
    · cases hm
    · exact (hmeans hne hm).inv
  refine (Expression.ensures_preparedLeaf hinv).mono ?_ ?_
  · rintro e t ⟨rfl, he⟩
    refine ⟨rfl, ?_⟩
    cases he with
    | filter hfilter =>
      subst hfilter
      exact ⟨.operand steady_filter, fun _ => rfl⟩
    | kept hne hm hc => exact ⟨.operand (steady_of_sound hne (h.resolve_left hne).2), fun _ => rfl⟩
    | @replaced m r hne hm hr =>
      have hm := hmeans hne hm
      have hcopy : r.Means .presence _ := ⟨hr.inv, hr.type ▸ hm.reads,
        by rw [hm.shape, hr.nrows, hr.ncols], fun row col => by
          rw [hr.inv.shows_iff, hr.cell]
          exact hm.shows_cell row col⟩
      exact ⟨.operand (steady_matrix hr.inv hcopy.reads), sameMeaning_matrix hne hcopy⟩
  · rintro err t ⟨ht, hmem | ⟨hne, herr⟩⟩
    · exact ⟨ht, hmem⟩
    · exact (((h.resolve_left hne).2 transposed).2 err herr).2.elim

/-- **Preparing keeps what an expression means**, and leaves no leaf that cannot be read. -/
theorem Formed.ensures_prepared (he : e.Formed (Preparable g) (· = 1)) : Ensures (prepared g e) s
    (fun e' t => t = s ∧ e'.Formed (Steady g) (· = 1) ∧ SameMeaning g e e')
    (fun err t => t = s ∧ err.OfMemory) := by
  induction he with
  | operand hs =>
    rw [prepared]
    exact hs.ensures_preparedLeaf _
  | @operation op es hne harity hes ih =>
    rw [prepared]
    refine (ensures_preparedAll ih).bind ?_
    rintro es' t ⟨rfl, hes'⟩
    have hlen : es.length = es'.length := hes'.length_eq
    have hall : ∀ e' ∈ es', e'.Formed (Steady g) (· = 1) :=
      ((List.forall₂_and_left es' es).1 (hes'.flip.imp fun e' e h => ⟨h.1, h⟩)).1
    refine ensures_pure ⟨rfl, .operation (fun hop hnil => hne hop ?_) (fun hop => ?_) hall, fun f => ?_⟩
    · rw [hnil] at hlen
      exact List.eq_nil_of_length_eq_zero hlen
    · rw [← hlen]
      exact harity hop
    · have hmap : es'.map (meaning (Operand.meaning g (some f) .presence)) =
          es.map (meaning (Operand.meaning g (some f) .presence)) := by
        rw [← List.forall₂_eq_eq_eq, List.forall₂_map_left_iff, List.forall₂_map_right_iff]
        exact hes'.flip.imp fun e' e h => h.2 f
      rw [meaning_operation, meaning_operation, hmap]

/-! ## The filtered expression -/

/-- `e'` can be evaluated under every boolean filter, and means the filter times `e`. -/
structure Filtered (g : Graph) (e e' : Expression) : Prop where
  formed : e'.Formed (Steady g) (· = 1)
  meaning_eq : ∀ f : Matrix, e'.meaning (Operand.meaning g (some f) .presence) =
    (Operand.meaning g (some f) .presence .filter).times (e.meaning (Operand.meaning g none .presence))

/-- **The filtered expression is prepared**, or memory runs out. -/
theorem Formed.ensures_filtered (hg : g.Mirrored) (he : e.Formed (Operand.Square g) (· = 1)) :
    Ensures ((e.multiplyLeft .filter).optimized.prepared g) s
      (fun e' t => t = s ∧ Filtered g e e') (fun err t => t = s ∧ err.OfMemory) := by
  have hpreparable : e.Formed (Preparable g) (· = 1) := he.mono fun source hs =>
    .inr ⟨hs.ne_filter, hg.leafMeans hs.2.1 (.inl hs.1)⟩
  have hproduct : (e.multiplyLeft .filter).Formed (Preparable g) (· = 1) :=
    Formed.multiplyLeft (.operand (.inl rfl)) hpreparable
  refine (hproduct.optimized fun _ => .nothing).1.ensures_prepared.mono ?_ fun _ _ h => h
  rintro e' t ⟨rfl, hformed, hsame⟩
  refine ⟨rfl, hformed, fun f => ?_⟩
  have hleaves : e.meaning (Operand.meaning g (some f) .presence) =
      e.meaning (Operand.meaning g none .presence) := by
    refine he.meaning_congr fun source hs => ?_
    cases source with
    | filter => exact absurd rfl hs.ne_filter
    | _ => rfl
  rw [hsame f, (hproduct.optimized _).2, meaning_multiplyLeft he, hleaves]
  rfl

/-- **An evaluation under a filter** leaves the pairs that a marked pair and a pair of the expression make
up. -/
theorem Filtered.ensures_evalInto (h : Filtered g e e')
    (hshape : (e.meaning (Operand.meaning g none .presence)).shape = some (g.dim, g.dim)) {rows : Nat}
    {f out : Matrix} {p : Nat → Nat → Prop} (hf : f.Marked rows g.dim p) (hout : out.Inv)
    (htype : out.type = .bool) (hrows : out.nrows = rows) (hcols : out.ncols = g.dim) :
    Ensures (e'.evalInto (filterContext g f)) out
      (fun _ t => t.Inv ∧ out.SameShape t ∧ t.deferred = false ∧ ∀ row col,
        (∃ v, t.cell row col = some v) ↔
          ∃ k, p row k ∧ (e.meaning (Operand.meaning g none .presence)).links k col)
      (fun err _ => err.OfMemory) := by
  have hfilter : Operand.meaning g (some f) .presence .filter = ⟨some (rows, g.dim), p⟩ := by
    rw [Operand.meaning_filter, hf.nrows, hf.ncols]
    refine Meaning.ext rfl (funext fun row => funext fun col => propext ?_)
    exact (hf.means (x := ⟨some (rows, g.dim), p⟩) rfl fun _ _ => Iff.rfl).links row col
  have hmeaning := h.meaning_eq f
  rw [hfilter] at hmeaning
  have hfits : (e'.meaning (Operand.meaning g (some f) .presence)).shape = some (rows, g.dim) := by
    rw [hmeaning]
    exact Meaning.times_shape rfl hshape
  have hlimit : MatrixOptions.sparseFamily.maxDenseCells < UInt64.size := by decide
  have hevaluates := (h.formed.mono fun source hs => hs f hf.inv hf.type).ensures_evaluate (s := out)
    (fun _ he => he) hlimit fun n hn => .inl hn
  have hcast : ∀ m : Matrix, m.Means .presence (e'.meaning (Operand.meaning g (some f) .presence)) →
      m.type.castable out.type = true := fun m hm =>
    Aspect.castable_of_builtIn hm.reads (htype ▸ Aspect.reads_bool .presence)
  refine (Expression.ensures_evalInto hevaluates hout fun m hm => ⟨hm.inv, hcast m hm⟩).mono ?_ ?_
  · rintro _ t ⟨m, hm, -, -, ht, hs, hdef, hcell⟩
    refine ⟨ht, hs, hdef, fun row col => ?_⟩
    have hlinked := hm.shows_cell row col
    rw [hmeaning] at hlinked
    refine Iff.trans ?_ hlinked
    rw [hcell]
    constructor
    · rintro ⟨v, hv⟩
      obtain ⟨w, hw, -⟩ := Option.bind_eq_some_iff.1 hv
      exact ⟨w, hw, trivial⟩
    · rintro ⟨v, hv, -⟩
      obtain ⟨w, hw⟩ := Scalar.cast_isSome (hm.inv.value_type hv ▸ hcast m hm)
      exact ⟨w, by rw [hv]; exact hw⟩
  · -- the shapes agree, so that only memory can be wanting
    rintro err t (hmem | ⟨-, (hmem | ⟨hnone, -⟩) | ⟨m, hm, hne, -⟩⟩)
    · exact hmem
    · exact hmem
    · rw [hfits] at hnone
      cases hnone
    · have heq := hm.shape.symm.trans hfits
      rw [Option.some.injEq, Prod.mk.injEq] at heq
      omega

end Expression

end Adjacency
