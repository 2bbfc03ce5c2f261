import Adjacency.Proofs.Simulation

/-!
# Matrices that mark pairs

A relation or a label is a square boolean matrix that only ever holds true entries: what it says is which
pairs it marks. The filter of a traversal is one too, though not a square one.

* `Matrix.Marked`, `Matrix.Marks`: the matrix marks the pairs of a relation on numbers, and no others.
* `Marked.ensures_set`, `Marked.ensures_remove`: one pair more, one pair less.
* `Marked.ensures_wait`, `Marks.ensures_resize`: the same pairs.
-/

namespace Adjacency

open Metered

namespace Matrix

/-- A boolean matrix with a true entry at each pair of `p`, and no other. -/
structure Marked (m : Matrix) (rows cols : Nat) (p : Nat → Nat → Prop) : Prop where
  inv : m.Inv
  type : m.type = .bool
  nrows : m.nrows = rows
  ncols : m.ncols = cols
  cell : ∀ row col v, m.cell row col = some v ↔ p row col ∧ v = .bool true

/-- A square boolean matrix of dimension `dim` with a true entry at each pair of `p`, and no other. -/
abbrev Marks (m : Matrix) (dim : Nat) (p : Nat → Nat → Prop) : Prop := m.Marked dim dim p

/-- The matrix has an entry in a cell. -/
def HasEntry (m : Matrix) (row col : Nat) : Prop := ∃ v, m.extract row col = .ok (some v)

variable {m t : Matrix} {rows cols dim : Nat} {p q : Nat → Nat → Prop}

theorem Marks.dim_le (h : m.Marks dim p) : dim ≤ maxDim := h.nrows ▸ h.inv.nrows_le

theorem Marked.congr (h : m.Marked rows cols p) (hpq : ∀ row col, p row col ↔ q row col) :
    m.Marked rows cols q :=
  ⟨h.inv, h.type, h.nrows, h.ncols, fun row col v => (h.cell row col v).trans (by rw [hpq])⟩

theorem Marked.of_keeps (h : m.Marked rows cols p) (ht : t.Inv) (hk : m.Keeps t) :
    t.Marked rows cols p :=
  ⟨ht, hk.type.trans h.type, hk.nrows.trans h.nrows, hk.ncols.trans h.ncols,
    fun row col v => by rw [hk.cell, h.cell]⟩

/-- **The entries are the pairs.** -/
theorem Marked.hasEntry_iff (h : m.Marked rows cols p) (row col : Nat) : m.HasEntry row col ↔ p row col := by
  constructor
  · rintro ⟨v, hv⟩
    exact ((h.cell row col v).1 (h.inv.extract_eq_some_iff.1 hv)).1
  · intro hp
    exact ⟨.bool true, h.inv.extract_eq_some_iff.2 ((h.cell row col _).2 ⟨hp, rfl⟩)⟩

theorem marked_blank {options : MatrixOptions} (hrows : rows ≤ maxDim) (hcols : cols ≤ maxDim)
    (hlimit : options.maxDenseCells < UInt64.size) :
    (blank .bool rows cols true options).Marked rows cols fun _ _ => False := by
  obtain ⟨hinv, hnone⟩ : (blank .bool rows cols true options).Inv ∧
    ∀ i j, (blank .bool rows cols true options).value i j = none := inv_blank hrows hcols hlimit
  refine ⟨hinv, rfl, rfl, rfl, fun row col v => ?_⟩
  rw [Matrix.cell, hnone]
  simp

theorem Marked.cleared (h : m.Marked rows cols p) : m.cleared.Marked rows cols fun _ _ => False := by
  obtain ⟨hinv, hs, hnone⟩ := h.inv.cleared
  refine ⟨hinv, hs.type.trans h.type, hs.nrows.trans h.nrows, hs.ncols.trans h.ncols, fun row col v => ?_⟩
  rw [Matrix.cell, hnone]
  simp

/-- The pairs that a change of one cell leaves. -/
theorem Marked.of_puts (h : m.Marked rows cols p) (ht : t.Inv) {row col : Nat} {w : Option Scalar}
    (hputs : m.Puts t (m.toVector row col).1 (m.toVector row col).2 w)
    (hq : ∀ r c, ¬(r = row ∧ c = col) → (q r c ↔ p r c))
    (hw : ∀ v, w = some v ↔ q row col ∧ v = .bool true) : t.Marked rows cols q := by
  refine ⟨ht, hputs.type.trans h.type, hputs.nrows.trans h.nrows, hputs.ncols.trans h.ncols,
    fun r c v => ?_⟩
  rw [Puts.cell hputs, Cells.put]
  by_cases hp : r = row ∧ c = col
  · rw [if_pos hp, hp.1, hp.2, hw]
  · rw [if_neg hp, h.cell, hq r c hp]

theorem Marked.ensures_set (h : m.Marked rows cols p) {row col : Nat} (hr : row < rows)
    (hc : col < cols) : Ensures (setElement (.bool true) row col) m
      (fun _ t => t.Marked rows cols fun r c => p r c ∨ r = row ∧ c = col) (fun e _ => e.OfMemory) := by
  refine (ensures_accumulate h.inv (.bool true) row col .second).mono ?_ ?_
  · rintro _ t ⟨ht, -, -, v, hv, hputs⟩
    rw [h.type] at hv
    obtain rfl : v = .bool true := (Option.some.inj hv).symm
    refine h.of_puts ht hputs (fun r c hne => by simp [hne]) fun w => ?_
    cases m.cell row col <;> simp [foldOnto, DupOp.apply, eq_comm]
  · rintro e t ⟨-, -, he | he | he⟩
    · exact he
    · rw [checkBounds_eq_ok (by rw [h.nrows]; exact hr) (by rw [h.ncols]; exact hc)] at he
      cases he
    · have hcast : m.castIn (.bool true) = .ok (.bool true) := by
        rw [castIn_eq_ok_iff, h.type]
        rfl
      rw [hcast] at he
      cases he

theorem Marked.ensures_remove (h : m.Marked rows cols p) {row col : Nat} (hr : row < rows)
    (hc : col < cols) : Ensures (remove row col) m
      (fun _ t => t.Marked rows cols fun r c => p r c ∧ ¬(r = row ∧ c = col)) (fun e _ => e.OfMemory) := by
  refine (Matrix.ensures_remove h.inv row col).mono ?_ ?_
  · rintro _ t ⟨ht, -, -, hputs, -⟩
    exact h.of_puts ht hputs (fun r c hne => by simp [hne]) fun w => by simp
  · rintro e t ⟨-, -, he | he⟩
    · exact he
    · rw [checkBounds_eq_ok (by rw [h.nrows]; exact hr) (by rw [h.ncols]; exact hc)] at he
      cases he

theorem Marked.ensures_wait (h : m.Marked rows cols p) :
    Ensures wait m (fun _ t => t.Marked rows cols p) (fun e _ => e.OfMemory) := by
  refine (Matrix.ensures_wait h.inv).mono ?_ fun _ _ he => he.1
  rintro _ t ⟨ht, hk, -⟩
  exact h.of_keeps ht hk

/-- Growing keeps the pairs, unless the new dimension is too large; then the matrix is untouched. -/
theorem Marks.ensures_resize (h : m.Marks dim p) {dim' : Nat} (hle : dim ≤ dim') :
    Ensures (resize dim' dim') m (fun _ t => t.Marks dim' p)
      (fun e t => e.OfMemory ∨ maxDim < dim' ∧ t = m) := by
  refine (Matrix.ensures_resize h.inv dim' dim').mono ?_ ?_
  · rintro _ t ⟨ht, hk, hr, hc⟩
    exact ⟨ht, hk.type.trans h.type, hr, hc, fun row col v => by rw [hk.cell, h.cell]⟩
  · rintro e t ⟨-, -, he | ⟨rfl, ⟨hsmall, -⟩ | ⟨hlarge, -⟩⟩⟩
    · exact .inl he
    · rw [h.nrows, h.ncols] at hsmall
      omega
    · exact .inr ⟨by omega, rfl⟩

end Matrix

end Adjacency
