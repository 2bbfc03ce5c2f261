import Adjacency.Proofs.Reachable

/-!
# What the kernels return

A product and a union as textbooks have them, said of what look-ups answer.

* `Matrix.entry`: what a look-up finds in a cell, whatever is still deferred there.
* `Matrix.IsProduct`, `Matrix.IsUnion`: the two specifications.
* `Reachable.product_spec`: **a product is the sum over the inner index**, before a commit and after it.
* `Reachable.union_spec`: **a union takes over what one operand has, and combines what both have.**
-/

namespace Adjacency

open Metered

/-- The sum of some products, added up from the first one on; none without any. -/
def Semiring.sum (s : Semiring) (ty : ScalarType) : List Scalar → Option Scalar
  | [] => none
  | p :: ps => some (ps.foldl (s.add ty) p)

/-- The outcome at a cell of a union: what one operand has, or both combined; the right one is cast. -/
def DupOp.merge (op : DupOp) (ty : ScalarType) : Option Scalar → Option Scalar → Option Scalar
  | none, none => none
  | some v, none => some v
  | none, some w => w.cast ty
  | some v, some w => (w.cast ty).map (op.apply ty v)

theorem foldOnto_some_eq (f : Scalar → Scalar → Scalar) (v : Scalar) (vs : List Scalar) :
    foldOnto f (some v) vs = some (vs.foldl f v) := by
  induction vs generalizing v with
  | nil => rfl
  | cons w vs ih => exact ih (f v w)

theorem Semiring.sum_eq_foldOnto (s : Semiring) (ty : ScalarType) (ps : List Scalar) :
    s.sum ty ps = foldOnto (s.add ty) none ps := by
  cases ps with
  | nil => rfl
  | cons p ps => exact (foldOnto_some_eq _ p ps).symm

theorem Semiring.sum_isSome (s : Semiring) (ty : ScalarType) {ps : List Scalar} :
    (s.sum ty ps).isSome ↔ ∃ p, p ∈ ps := by
  cases ps with
  | nil => simp [sum]
  | cons p ps => simp [sum]

theorem DupOp.merge_eq_foldOnto (op : DupOp) (ty : ScalarType) (v : Option Scalar) {w : Option Scalar}
    (hw : ∀ u, w = some u → (u.cast ty).isSome) :
    op.merge ty v w = foldOnto (op.apply ty) v (w.bind (·.cast ty)).toList := by
  cases w with
  | none => cases v <;> rfl
  | some u =>
    obtain ⟨x, hx⟩ := Option.isSome_iff_exists.1 (hw u rfl)
    cases v <;> simp only [merge, Option.bind_some, hx] <;> rfl

namespace Matrix

variable {a b m r : Matrix} {s : Semiring} {op : DupOp} {options : MatrixOptions}

/-- What a look-up finds in a cell; nothing out of bounds. -/
def entry (m : Matrix) (row col : Nat) : Option Scalar :=
  match m.extract row col with
  | .ok v => v
  | .error _ => none

theorem Inv.entry_eq (h : m.Inv) : m.entry = m.cell := by
  funext row col
  refine Option.ext fun v => ?_
  rw [← h.extract_eq_some_iff, entry]
  cases m.extract row col with
  | ok w => simp
  | error e => simp

theorem Inv.hasEntry_iff (h : m.Inv) {row col : Nat} : m.HasEntry row col ↔ (m.cell row col).isSome := by
  rw [HasEntry, Option.isSome_iff_exists]
  exact exists_congr fun v => h.extract_eq_some_iff

/-! ## Products -/

/-- The products that meet in a cell, by the inner index: one for each index with an entry in both operands. -/
def terms (s : Semiring) (ty : ScalarType) (a b : Matrix) (row col : Nat) : List Scalar :=
  (List.range a.ncols).filterMap fun k =>
    match a.entry row k, b.entry k col with
    | some v, some w => some (s.multiply ty v w)
    | _, _ => none

/-- `r` is the product of `a` and `b`. -/
structure IsProduct (s : Semiring) (a b r : Matrix) : Prop where
  byRow : r.byRow = true
  nrows : r.nrows = a.nrows
  ncols : r.ncols = b.ncols
  type : r.type = match s with
    | .anyPair | .lorLand => .bool
    | .plusTimes => a.type
  /-- There is an entry where the row of one operand and the column of the other meet. -/
  hasEntry : ∀ row col, r.HasEntry row col ↔ ∃ k, a.HasEntry row k ∧ b.HasEntry k col
  /-- It is the sum of the products that meet there. -/
  sum : ∀ row < a.nrows, ∀ col < b.ncols,
    r.extract row col = .ok (s.sum r.type (terms s r.type a b row col))

theorem Inv.terms_eq (ha : a.Inv) (hb : b.Inv) (ty : ScalarType) (row col : Nat) :
    terms s ty a b row col = products s ty a b row col := by
  unfold terms products
  rw [ha.entry_eq, hb.entry_eq]
  congr 1
  funext k
  cases a.cell row k <;> cases b.cell k col <;> rfl

/-- Products meet in a cell where both operands have an entry at some inner index. -/
theorem Inv.mem_products (ha : a.Inv) {ty : ScalarType} {row col : Nat} :
    (∃ p, p ∈ products s ty a b row col) ↔ ∃ k, (a.cell row k).isSome ∧ (b.cell k col).isSome := by
  constructor
  · rintro ⟨p, hp⟩
    obtain ⟨k, -, hk⟩ := List.mem_filterMap.1 hp
    obtain ⟨v, hv, hk⟩ := Option.bind_eq_some_iff.1 hk
    obtain ⟨w, hw, -⟩ := Option.map_eq_some_iff.1 hk
    exact ⟨k, by rw [hv]; rfl, by rw [hw]; rfl⟩
  · rintro ⟨k, hv, hw⟩
    obtain ⟨v, hv⟩ := Option.isSome_iff_exists.1 hv
    obtain ⟨w, hw⟩ := Option.isSome_iff_exists.1 hw
    refine ⟨s.multiply ty v w, List.mem_filterMap.2 ⟨k, List.mem_range.2 (ha.lt_of_cell hv).2, ?_⟩⟩
    rw [hv, hw]
    rfl

/-- A matrix in order is the product if its cells hold the sums. -/
theorem Inv.isProduct (ha : a.Inv) (hb : b.Inv) (hr : r.Inv)
    (hs : (blank (s.outputType a.type) a.nrows b.ncols true options).SameShape r)
    (hcell : ∀ row col, r.cell row col = foldOnto (s.add (s.outputType a.type)) none
      (products s (s.outputType a.type) a b row col)) : IsProduct s a b r where
  byRow := hs.byRow
  nrows := hs.nrows
  ncols := hs.ncols
  type := by
    rw [hs.type]
    cases s <;> rfl
  hasEntry row col := by
    rw [hr.hasEntry_iff, hcell, ← Semiring.sum_eq_foldOnto, Semiring.sum_isSome, ha.mem_products]
    exact exists_congr fun k => and_congr ha.hasEntry_iff.symm hb.hasEntry_iff.symm
  sum row hrow col hcol := by
    have htype : r.type = s.outputType a.type := hs.type
    rw [hr.extract_eq (hs.nrows ▸ hrow) (hs.ncols ▸ hcol), hcell, htype, ha.terms_eq hb,
      Semiring.sum_eq_foldOnto]

/-- **The product.** It is refused when the inner dimensions differ, and otherwise fails only for want of
memory. What it returns reads as the product, also once it has been committed. -/
theorem Reachable.product_spec {σ : Type} (ha : a.Reachable) (hb : b.Reachable) (s : Semiring)
    (hlimit : options.maxDenseCells < UInt64.size) (t : σ × CallCounts) :
    match a.product b s options t with
    | .ok r _ => a.ncols = b.nrows ∧ IsProduct s a b r ∧
        ∀ n u, wait (r, n) = .ok () u → IsProduct s a b u.1
    | .error e _ => if a.ncols = b.nrows then e.OfMemory
        else e = .dimensionMismatch .product (a.nrows, a.ncols) (b.nrows, b.ncols) := by
  have hspec := ensures_product (t := t.1) ha.inv hb.inv s hlimit t.2
  cases hrun : a.product b s options t with
  | ok r t' =>
    rw [hrun] at hspec
    obtain ⟨-, hinv, hinner, hs, hcell⟩ := hspec
    refine ⟨hinner, ha.inv.isProduct hb.inv hinv hs hcell, fun n u hu => ?_⟩
    obtain ⟨hinv', hk, -⟩ := (ensures_wait hinv).of_ok hu
    exact ha.inv.isProduct hb.inv hinv' (hs.trans hk.toSameShape) fun row col => by rw [hk.cell, hcell]
  | error e t' =>
    by_cases hinner : a.ncols = b.nrows
    · rw [hrun] at hspec
      have hmem : e.OfMemory := hspec.2.resolve_right fun hne => hne.1 hinner
      exact (if_pos hinner).mpr hmem
    · -- the shapes are looked at before anything else
      have hfail : a.product b s options t =
          .error (.dimensionMismatch .product (a.nrows, a.ncols) (b.nrows, b.ncols)) t := by
        unfold Matrix.product
        rw [if_pos hinner]
        rfl
      rw [hfail] at hrun
      cases hrun
      exact (if_neg hinner).mpr rfl

/-- A matrix whose entries share one value, all of them still queued. -/
def waiting (v : Scalar) (nrows ncols : Nat) (places : Array QueuedTuple) : Matrix :=
  { blank v.type nrows ncols true {} with
    store := .hypersparse #[] #[0] #[] #[v], iso := true
    pending := some { tuples := places, type := v.type, op := .second } }

/-- Two queued entries of a row against two of a column, in a matrix that is turned. -/
theorem product_spec_queued : ∃ (a b r : Matrix) (u : Unit × CallCounts), a.deferred = true ∧
    b.byRow = false ∧ a.product b .plusTimes {} ((), {}) = .ok r u ∧ IsProduct .plusTimes a b r ∧
    r.extract 0 1 = .ok (some (.int64 20)) := by
  have hlimit : ({} : MatrixOptions).maxDenseCells < UInt64.size := by decide
  have hnew : Reachable (blank .int64 2 3 true {}) :=
    .created hlimit (show withOptions .int64 2 3 {} = .ok _ from rfl)
  have ha₁ : Reachable (waiting (.int64 2) 2 3 #[⟨1, 0, none⟩]) :=
    hnew.requested (r := .set (.int64 2) 0 1) (a := .done) (n := {}) (s := (_, {})) trivial rfl
  have ha : Reachable (waiting (.int64 2) 2 3 #[⟨1, 0, none⟩, ⟨2, 0, none⟩]) :=
    ha₁.requested (r := .set (.int64 2) 0 2) (a := .done) (n := {}) (s := (_, {})) trivial rfl
  have hb₁ : Reachable (waiting (.int64 5) 2 3 #[⟨1, 1, none⟩]) :=
    hnew.requested (r := .set (.int64 5) 1 1) (a := .done) (n := {}) (s := (_, {})) trivial rfl
  have hb : Reachable (waiting (.int64 5) 2 3 #[⟨1, 1, none⟩, ⟨2, 1, none⟩]) :=
    hb₁.requested (r := .set (.int64 5) 1 2) (a := .done) (n := {}) (s := (_, {})) trivial rfl
  have hspec := ha.product_spec hb.transposed .plusTimes hlimit ((), {})
  have hok : succeeds ((waiting (.int64 2) 2 3 #[⟨1, 0, none⟩, ⟨2, 0, none⟩]).product
      (waiting (.int64 5) 2 3 #[⟨1, 1, none⟩, ⟨2, 1, none⟩]).transposed .plusTimes {}) ((), {}) = true := by
    decide +kernel
  obtain ⟨r, u, hrun⟩ := exists_ok hok
  rw [hrun] at hspec
  refine ⟨_, _, r, u, rfl, rfl, hrun, hspec.2.1, ?_⟩
  rw [hspec.2.1.sum 0 (by decide) 1 (by decide), hspec.2.1.type]
  rfl

/-! ## Unions -/

/-- `r` is the union of `a` and `b`, overlaps combined by `op` in the type of `a`. -/
structure IsUnion (op : DupOp) (a b r : Matrix) : Prop where
  byRow : r.byRow = true
  nrows : r.nrows = a.nrows
  ncols : r.ncols = a.ncols
  type : r.type = a.type
  committed : r.pending = none
  swept : r.zombies = 0
  sorted : r.jumbled = false
  merged : ∀ row < a.nrows, ∀ col < a.ncols,
    r.extract row col = .ok (op.merge a.type (a.entry row col) (b.entry row col))

/-- **The union** of two matrices of one shape. It is refused if the right one has an entry that cannot be
cast to the type of the left one, and otherwise fails only for want of memory. -/
theorem Reachable.union_spec {σ : Type} (ha : a.Reachable) (hb : b.Reachable) (hrows : a.nrows = b.nrows)
    (hcols : a.ncols = b.ncols) (op : DupOp) (hlimit : options.maxDenseCells < UInt64.size)
    (t : σ × CallCounts) :
    match a.union b op options t with
    | .ok r _ => IsUnion op a b r ∧ ((∃ row col, b.HasEntry row col) → b.type.castable a.type = true)
    | .error e _ => e.OfMemory ∨ e = .domainMismatch b.type a.type ∧
        (∃ row col, b.HasEntry row col) ∧ b.type.castable a.type = false := by
  have hspec := ensures_union (t := t.1) ha.inv hb.inv op hlimit t.2
  cases hrun : a.union b op options t with
  | ok r t' =>
    rw [hrun] at hspec
    obtain ⟨-, hinv, -, -, hs, hdef, hcast, hcell⟩ := hspec
    obtain ⟨hp, hz, hj⟩ := deferred_eq_false_iff.1 hdef
    refine ⟨⟨hs.byRow, hs.nrows, hs.ncols, hs.type, hp, hz, hj, fun row hrow col hcol => ?_⟩, ?_⟩
    · rw [hinv.extract_eq (hs.nrows ▸ hrow) (hs.ncols ▸ hcol), hcell, ha.inv.entry_eq, hb.inv.entry_eq,
        DupOp.merge_eq_foldOnto op a.type _ (hcast row col)]
    · rintro ⟨row, col, v, hv⟩
      have hv := hb.inv.extract_eq_some_iff.1 hv
      obtain ⟨w, hw⟩ := Option.isSome_iff_exists.1 (hcast row col v hv)
      rw [← hb.inv.value_type hv]
      exact (Scalar.cast_eq_some hw).2
  | error e t' =>
    rw [hrun] at hspec
    obtain ⟨-, he | ⟨hne, -⟩ | ⟨⟨row, col, v, hv⟩, hcast, he⟩⟩ := hspec
    · exact .inl he
    · exact absurd hne (by simp [hrows, hcols])
    · exact .inr ⟨he, ⟨row, col, v, hb.inv.extract_eq_some_iff.2 hv⟩, hcast⟩

/-- A queued number meets a truth value of a matrix that is turned; the other truth value is taken over. -/
theorem union_spec_queued : ∃ (a b r : Matrix) (u : Unit × CallCounts), a.deferred = true ∧
    b.byRow = false ∧ a.union b .plus {} ((), {}) = .ok r u ∧ IsUnion .plus a b r ∧
    r.extract 0 1 = .ok (some (.int64 3)) ∧ r.extract 1 0 = .ok (some (.int64 1)) := by
  have hlimit : ({} : MatrixOptions).maxDenseCells < UInt64.size := by decide
  have hnumbers : Reachable (blank .int64 2 2 true {}) :=
    .created hlimit (show withOptions .int64 2 2 {} = .ok _ from rfl)
  have htruths : Reachable (blank .bool 2 2 true {}) :=
    .created hlimit (show withOptions .bool 2 2 {} = .ok _ from rfl)
  have ha : Reachable (waiting (.int64 2) 2 2 #[⟨1, 0, none⟩]) :=
    hnumbers.requested (r := .set (.int64 2) 0 1) (a := .done) (n := {}) (s := (_, {})) trivial rfl
  have hb₁ : Reachable (waiting (.bool true) 2 2 #[⟨0, 1, none⟩]) :=
    htruths.requested (r := .set (.bool true) 1 0) (a := .done) (n := {}) (s := (_, {})) trivial rfl
  have hb : Reachable (waiting (.bool true) 2 2 #[⟨0, 1, none⟩, ⟨1, 0, none⟩]) :=
    hb₁.requested (r := .set (.bool true) 0 1) (a := .done) (n := {}) (s := (_, {})) trivial rfl
  have hspec := ha.union_spec hb.transposed rfl rfl .plus hlimit ((), {})
  have hok : succeeds ((waiting (.int64 2) 2 2 #[⟨1, 0, none⟩]).union
      (waiting (.bool true) 2 2 #[⟨0, 1, none⟩, ⟨1, 0, none⟩]).transposed .plus {}) ((), {}) = true := by
    decide +kernel
  obtain ⟨r, u, hrun⟩ := exists_ok hok
  rw [hrun] at hspec
  refine ⟨_, _, r, u, rfl, rfl, hrun, hspec.1, ?_, ?_⟩
  · exact hspec.1.merged 0 (by decide) 1 (by decide)
  · exact hspec.1.merged 1 (by decide) 0 (by decide)

end Matrix

end Adjacency
