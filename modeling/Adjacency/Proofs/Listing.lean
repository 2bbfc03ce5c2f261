import Adjacency.Proofs.Product

/-!
# What a cursor has still to deliver

* `Matrix.rest`, `Laid.next_rest`: a step of the cursor takes the head off the entries that are left.
* `Inv.cell_of_mem_rest`: what it delivers is an entry.
* `Inv.rest_rows`: the cursor lists a committed by-row matrix row by row, each in ascending order.
-/

namespace Adjacency

namespace Matrix

variable {m : Matrix} {c : Cursor}

/-- The entries that a cursor has still to deliver, in order. -/
def rest (m : Matrix) (c : Cursor) : List Tuple :=
  ((List.range' c.pos (m.extent - c.pos)).filter m.present).map fun pos => m.tupleOf (m.entryAt pos)

theorem Laid.fits_start (h : m.Laid) : ({} : Cursor).Fits m := by
  cases hd : m.store.dense with
  | true => exact .inl hd
  | false => exact .inr ⟨Nat.zero_le _, by rw [(h.indexed hd).ranges.first]⟩

theorem rest_start : m.rest {} = m.entries.map m.tupleOf := by
  unfold rest entries
  rw [List.map_map, List.range_eq_range']
  rfl

/-- **A step of the cursor** delivers the first of the entries that are left. -/
theorem Laid.next_rest (h : m.Laid) (hc : c.Fits m) :
    (c.next m).1 = (m.rest c).head? ∧ (c.next m).2.Fits m ∧ m.rest (c.next m).2 = (m.rest c).tail := by
  have hnext := h.next_cases hc
  have hrest : m.rest c = _ := congrArg (List.map fun pos => m.tupleOf (m.entryAt pos))
    (filter_range'_eq (m.extent - c.pos) c.pos)
  cases hf : firstFrom m.present (m.extent - c.pos) c.pos with
  | none =>
    rw [hf] at hnext hrest
    obtain ⟨c', hc', hend, hfits⟩ := hnext
    rw [hrest, hc']
    refine ⟨rfl, hfits, ?_⟩
    rw [rest, Nat.sub_eq_zero_of_le hend]
    rfl
  | some pos =>
    rw [hf] at hnext hrest
    obtain ⟨c', hc', hpos, hfits⟩ := hnext
    obtain ⟨hge, hlt, -⟩ := firstFrom_eq_some_iff.1 hf
    rw [hrest, hc']
    refine ⟨rfl, hfits, ?_⟩
    have hleft : m.extent - (pos + 1) = c.pos + (m.extent - c.pos) - (pos + 1) := by omega
    unfold rest
    rw [hpos, hleft]
    rfl

/-- What a cursor delivers is an entry, if nothing is queued. -/
theorem Inv.cell_of_mem_rest (h : m.Inv) (hpending : m.pending = none) {u : Tuple} (hu : u ∈ m.rest c) :
    m.cell u.row u.col = some u.value := by
  obtain ⟨pos, hpos, rfl⟩ := List.mem_map.1 hu
  obtain ⟨hrange, hpresent⟩ := List.mem_filter.1 hpos
  obtain ⟨hge, hlt⟩ := List.mem_range'_1.1 hrange
  have hentry : m.entryAt pos ∈ m.entries := by
    refine List.mem_map_of_mem (List.mem_filter.2 ⟨List.mem_range.2 ?_, hpresent⟩)
    omega
  have hcell : m.cell (m.tupleOf (m.entryAt pos)).row (m.tupleOf (m.entryAt pos)).col =
      m.stored (m.entryAt pos).i (m.entryAt pos).j := by
    unfold Matrix.cell tupleOf
    rw [toVector_toCell, value_of_settled hpending]
  rw [hcell]
  exact h.laid.mem_entries.1 hentry

open Classical in
/-- **The cursor lists a committed by-row matrix row by row**, and each row in ascending order. -/
theorem Inv.rest_rows (h : m.Inv) (hrow : m.byRow = true) (hdef : m.deferred = false) {rows cols : Nat}
    {p : Nat → Nat → Prop} (hp : ∀ row col, (∃ v, m.cell row col = some v) ↔ p row col)
    (hlt : ∀ row col, p row col → row < rows ∧ col < cols) :
    (m.rest {}).map (fun t => (t.row, t.col)) =
      (List.range rows).flatMap fun row => ((List.range cols).filter fun col => p row col).map (row, ·) := by
  obtain ⟨hpending, -, hj⟩ := deferred_eq_false_iff.1 hdef
  have hcells : (m.rest {}).map (fun t => (t.row, t.col)) = m.entries.map fun e => (e.j, e.i) := by
    rw [rest_start, List.map_map]
    refine List.map_congr_left fun e _ => ?_
    simp only [Function.comp, tupleOf, toCell_byRow hrow]
  rw [hcells]
  -- both sides are in the order of places, and have the same members
  refine eq_of_pairwise_of_mem_iff (R := fun a b : Nat × Nat => Before a.1 a.2 b.1 b.2) ?_ ?_ ?_ ?_
  · intro a b hab hba
    unfold Before at hab hba
    omega
  · exact List.pairwise_map.2 (h.laid.entries_sorted hj)
  · refine List.pairwise_flatMap.2 ⟨fun row _ => ?_, ?_⟩
    · refine List.pairwise_map.2 ((List.pairwise_lt_range.filter _).imp fun hab => ?_)
      exact .inr ⟨rfl, hab⟩
    · refine List.pairwise_lt_range.imp fun {a b} hab x hx y hy => ?_
      obtain ⟨_, -, rfl⟩ := List.mem_map.1 hx
      obtain ⟨_, -, rfl⟩ := List.mem_map.1 hy
      exact .inl hab
  · rintro ⟨row, col⟩
    have hmem : (row, col) ∈ m.entries.map (fun e => (e.j, e.i)) ↔ p row col := by
      rw [← hp, cell_byRow hrow, value_of_settled hpending]
      constructor
      · intro hin
        obtain ⟨e, he, heq⟩ := List.mem_map.1 hin
        obtain ⟨rfl, rfl⟩ := Prod.mk.inj heq
        exact ⟨_, h.laid.mem_entries.1 he⟩
      · rintro ⟨v, hv⟩
        exact List.mem_map.2 ⟨⟨row, col, v⟩, h.laid.mem_entries.2 hv, rfl⟩
    rw [hmem]
    simp only [List.mem_flatMap, List.mem_range, List.mem_map, List.mem_filter, decide_eq_true_eq,
      Prod.mk.injEq]
    constructor
    · intro hpc
      obtain ⟨hr, hc⟩ := hlt row col hpc
      exact ⟨row, hr, col, ⟨hc, hpc⟩, rfl, rfl⟩
    · rintro ⟨_, -, _, ⟨-, hpc⟩, rfl, rfl⟩
      exact hpc

end Matrix

end Adjacency
