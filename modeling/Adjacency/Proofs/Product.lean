import Adjacency.Matrix.Product
import Adjacency.Proofs.Copy

/-!
# Products and unions hold what their names say

A kernel reads committed by-row copies. A product lists the columns of a row as they are first reached,
and its index need not be sorted.

* `ensures_committedRows`: a committed by-row matrix with the same cells.
* `ensures_product`: **each cell of a product is the sum, over the inner index, of the products.**
* `ensures_union`: **each cell of a union is one operand's, or both combined.**
-/

namespace Adjacency

open Metered

namespace Semiring

variable (s : Semiring) (left : ScalarType)

theorem multiply_type (a b : Scalar) :
    (s.multiply (s.outputType left) a b).type = s.outputType left := by
  cases s with
  | anyPair => rfl
  | lorLand => rfl
  | plusTimes =>
    change (plusTimes.multiply left a b).type = left
    unfold multiply
    dsimp only
    split
    · next ha _ => exact (Scalar.cast_eq_some ha).1
    · next ha _ => exact (Scalar.cast_eq_some ha).1
    · next ha _ => exact (Scalar.cast_eq_some ha).1
    · next ha _ => exact (Scalar.cast_eq_some ha).1
    · exact left.zero_type

theorem add_type {a b : Scalar} (ha : a.type = s.outputType left) (hb : b.type = s.outputType left) :
    (s.add (s.outputType left) a b).type = s.outputType left := by
  cases s with
  | anyPair => rfl
  | lorLand => rfl
  | plusTimes => exact DupOp.apply_type ha hb

end Semiring

namespace Matrix

variable {m : Matrix}

/-! ## Reading by rows -/

/-- `r` is a committed by-row matrix with the cells of `m`. -/
structure Committed (m r : Matrix) : Prop where
  inv : r.Inv
  byRow : r.byRow = true
  settled : r.deferred = false
  type : r.type = m.type
  nrows : r.nrows = m.nrows
  ncols : r.ncols = m.ncols
  cell : r.cell = m.cell

theorem ensures_committedRows {σ : Type} {s : σ} (h : m.Inv) : Ensures m.committedRows s
    (fun r t => t = s ∧ m.Committed r) (fun e t => t = s ∧ e.OfMemory) := by
  unfold committedRows
  refine ensures_ite (fun hb => ?_) fun hb => ensures_ite (fun _ => ?_) fun hdef => ?_
  · refine (ensures_reoriented h true).mono ?_ fun _ _ he => he
    rintro r _ ⟨rfl, hinv, htype, hr, hc, hrow, -, hcell, hdef⟩
    exact ⟨rfl, hinv, hrow, hdef (by simpa using hb), htype, hr, hc, hcell⟩
  · refine (ensures_committed h).mono ?_ fun _ _ he => he
    rintro r _ ⟨rfl, hinv, hk, hdef⟩
    exact ⟨rfl, hinv, hk.byRow.trans (by simpa using hb), hdef, hk.type, hk.nrows, hk.ncols, hk.cell⟩
  · exact ensures_pure ⟨rfl, h, by simpa using hb, by simpa using hdef, rfl, rfl, rfl, rfl⟩

/-- The cell of a by-row matrix is the place of its row and column. -/
theorem cell_byRow (hb : m.byRow = true) (row col : Nat) : m.cell row col = m.value col row := by
  unfold cell toVector
  rw [hb]
  rfl

theorem toCell_byRow (hb : m.byRow = true) (i j : Nat) : m.toCell i j = (j, i) := by
  unfold toCell
  rw [hb]
  rfl

/-- The entries of one vector of a sorted matrix, by index. -/
theorem Laid.vector_eq (h : m.Laid) (hj : m.jumbled = false) (j : Nat) :
    ((m.entries.filter fun e => e.j == j).map fun e => (e.i, e.value)) =
      (List.range m.vlen).filterMap fun i => (m.stored i j).map (i, ·) := by
  have hleft : ((m.entries.filter fun e => e.j == j).map fun e => (e.i, e.value)).Pairwise
      fun p q => p.1 < q.1 := by
    refine List.pairwise_map.2 (((h.entries_sorted hj).filter _).imp_of_mem ?_)
    intro a b ha hb hab
    have haj := (List.mem_filter.1 ha).2
    have hbj := (List.mem_filter.1 hb).2
    rw [beq_iff_eq] at haj hbj
    rcases hab with hlt | hlt
    · omega
    · exact hlt.2
  have hright : ((List.range m.vlen).filterMap fun i => (m.stored i j).map (i, ·)).Pairwise
      fun p q => p.1 < q.1 := by
    refine List.Pairwise.filterMap _ ?_ List.pairwise_lt_range
    intro i k hik p hp q hq
    obtain ⟨_, -, rfl⟩ := Option.map_eq_some_iff.1 hp
    obtain ⟨_, -, rfl⟩ := Option.map_eq_some_iff.1 hq
    exact hik
  have hmem : ∀ p, p ∈ ((m.entries.filter fun e => e.j == j).map fun e => (e.i, e.value)) ↔
      p ∈ (List.range m.vlen).filterMap fun i => (m.stored i j).map (i, ·) := by
    rintro ⟨i, v⟩
    simp only [List.mem_map, List.mem_filter, beq_iff_eq, List.mem_filterMap, List.mem_range,
      Option.map_eq_some_iff, Prod.mk.injEq]
    constructor
    · rintro ⟨e, ⟨he, rfl⟩, rfl, rfl⟩
      exact ⟨e.i, (h.entry_lt he).1, e.value, h.mem_entries.1 he, rfl, rfl⟩
    · rintro ⟨_, -, _, hv, rfl, rfl⟩
      exact ⟨⟨j, _, _⟩, ⟨h.mem_entries.2 hv, rfl⟩, rfl, rfl⟩
  have hne : ∀ {l : List (Nat × Scalar)}, l.Pairwise (fun p q => p.1 < q.1) → l.Nodup :=
    fun hl => hl.imp fun {p q} hpq heq => by rw [heq] at hpq; exact Nat.lt_irrefl _ hpq
  exact ((List.perm_ext_iff_of_nodup (hne hleft) (hne hright)).2 hmem).eq_of_pairwise
    (fun p q _ _ hpq hqp => absurd hpq (Nat.lt_asymm hqp)) hleft hright

/-! ## Grouping by rows -/

/-- A group, as the tuples that it stands for. -/
def ungroup (g : Nat × Array (Nat × Scalar)) : List Tuple := g.2.toList.map fun p => ⟨g.1, p.1, p.2⟩

/-- Tuples in groups, each with those of one row, the rows ascending. -/
structure Groups (ts : List Tuple) (gs : List (Nat × Array (Nat × Scalar))) : Prop where
  flat : gs.flatMap ungroup = ts
  inhabited : ∀ g ∈ gs, g.2.toList ≠ []
  ascending : gs.Pairwise fun a b => a.1 < b.1

theorem modify_last {α : Type} (ys : Array α) (y : α) (f : α → α) :
    (ys.push y).modify ((ys.push y).size - 1) f = ys.push (f y) := by
  refine Array.ext (by simp) fun k h₁ h₂ => ?_
  simp only [Array.size_push] at h₂
  simp only [Array.getElem_modify, Array.getElem_push, Array.size_push, Nat.add_sub_cancel]
  by_cases hk : k < ys.size
  · rw [if_neg (by omega), dif_pos hk, dif_pos hk]
  · rw [if_pos (by omega), dif_neg hk, dif_neg hk]

/-- A tuple of a later row opens a group. -/
theorem Groups.opened {ts : List Tuple} {gs : List (Nat × Array (Nat × Scalar))} (h : Groups ts gs)
    {t : Tuple} (hlt : ∀ g ∈ gs, g.1 < t.row) :
    Groups (ts ++ [t]) (gs ++ [(t.row, #[(t.col, t.value)])]) := by
  refine ⟨by rw [List.flatMap_append, h.flat]; rfl, fun g hg => ?_, ?_⟩
  · rcases List.mem_append.1 hg with hg | hg
    · exact h.inhabited g hg
    · rw [List.mem_singleton] at hg
      rw [hg]
      exact List.cons_ne_nil _ _
  · refine List.pairwise_append.2 ⟨h.ascending, List.pairwise_singleton _ _, fun g hg b hb => ?_⟩
    rw [List.mem_singleton] at hb
    rw [hb]
    exact hlt g hg

/-- A tuple of the last row joins the last group. -/
theorem Groups.joined {ts : List Tuple} {gs : List (Nat × Array (Nat × Scalar))} {t : Tuple}
    {entries : Array (Nat × Scalar)} (h : Groups ts (gs ++ [(t.row, entries)])) :
    Groups (ts ++ [t]) (gs ++ [(t.row, entries.push (t.col, t.value))]) := by
  obtain ⟨hasc, -, hlast⟩ := List.pairwise_append.1 h.ascending
  refine ⟨?_, fun g hg => ?_, ?_⟩
  · rw [← h.flat, List.flatMap_append, List.flatMap_append, List.append_assoc]
    congr 1
    simp [ungroup]
  · rcases List.mem_append.1 hg with hg | hg
    · exact h.inhabited g (List.mem_append_left _ hg)
    · rw [List.mem_singleton] at hg
      rw [hg, Array.toList_push]
      exact List.append_ne_nil_of_right_ne_nil _ (List.cons_ne_nil _ _)
  · refine List.pairwise_append.2 ⟨hasc, List.pairwise_singleton _ _, fun g hg b hb => ?_⟩
    rw [List.mem_singleton] at hb
    rw [hb]
    exact hlast g hg (t.row, entries) (List.mem_singleton_self _)

/-- The rows of groups are those of their tuples. -/
theorem Groups.row_mem {ts : List Tuple} {gs : List (Nat × Array (Nat × Scalar))} (h : Groups ts gs)
    {g : Nat × Array (Nat × Scalar)} (hg : g ∈ gs) : ∃ t ∈ ts, t.row = g.1 := by
  obtain ⟨p, hp⟩ := List.exists_mem_of_ne_nil _ (h.inhabited g hg)
  refine ⟨⟨g.1, p.1, p.2⟩, ?_, rfl⟩
  rw [← h.flat, List.mem_flatMap]
  exact ⟨g, hg, List.mem_map_of_mem hp⟩

/-- Tuples in the order of their rows are grouped. -/
theorem groupRows_spec {ts : List Tuple} (hs : ts.Pairwise fun a b => a.row ≤ b.row) :
    Groups ts (groupRows ts.toArray).toList := by
  induction ts using List.reverseRecOn with
  | nil => exact ⟨rfl, fun _ hg => absurd hg List.not_mem_nil, List.Pairwise.nil⟩
  | append_singleton ts t ih =>
    obtain ⟨hts, -, hcross⟩ := List.pairwise_append.1 hs
    have ih := ih hts
    have hle : ∀ g ∈ (groupRows ts.toArray).toList, g.1 ≤ t.row := by
      intro g hg
      obtain ⟨u, hu, hrow⟩ := ih.row_mem hg
      rw [← hrow]
      exact hcross u hu t (List.mem_singleton_self t)
    rw [groupRows, List.foldl_toArray, List.foldl_append, List.foldl_cons, List.foldl_nil,
      ← List.foldl_toArray, ← groupRows]
    cases hback : (groupRows ts.toArray).back? with
    | none =>
      rw [Array.toList_push]
      refine ih.opened fun g hg => ?_
      rw [Array.back?_eq_none_iff.1 hback] at hg
      cases hg
    | some last =>
      obtain ⟨row, entries⟩ := last
      obtain ⟨ys, hys⟩ := Array.back?_eq_some_iff.1 hback
      rw [hys] at ih hle ⊢
      dsimp only
      split
      · next hrow =>
        subst hrow
        rw [modify_last, Array.toList_push]
        rw [Array.toList_push] at ih
        exact ih.joined
      · next hrow =>
        -- the last group has the greatest row so far
        have hlast := hle (row, entries) (by simp)
        rw [Array.toList_push]
        refine ih.opened fun g hg => ?_
        have hasc := ih.ascending
        rw [Array.toList_push] at hg hasc
        rcases List.mem_append.1 hg with hg | hg
        · have hbefore := (List.pairwise_append.1 hasc).2.2 g hg (row, entries) (List.mem_singleton_self _)
          dsimp only at hbefore hlast
          omega
        · rw [List.mem_singleton] at hg
          rw [hg]
          dsimp only at hlast ⊢
          omega

/-- The group of a row has the tuples of the row. -/
theorem Groups.filter_row {ts : List Tuple} {gs : List (Nat × Array (Nat × Scalar))} (h : Groups ts gs)
    {g : Nat × Array (Nat × Scalar)} (hg : g ∈ gs) :
    (ts.filter fun t => t.row == g.1).map (fun t => (t.col, t.value)) = g.2.toList := by
  have hself : ∀ a : Nat × Array (Nat × Scalar),
      ((ungroup a).filter fun t => t.row == g.1) = if a.1 = g.1 then ungroup a else [] := by
    intro a
    have hrow : ∀ t ∈ ungroup a, t.row = a.1 := by
      intro t ht
      obtain ⟨p, -, rfl⟩ := List.mem_map.1 ht
      rfl
    split
    · next heq => exact List.filter_eq_self.2 fun t ht => by rw [hrow t ht, heq, beq_self_eq_true]
    · next hne => exact List.filter_eq_nil_iff.2 fun t ht => by rw [hrow t ht, beq_iff_eq]; exact hne
  have hpick : ∀ l : List (Nat × Array (Nat × Scalar)), l.Pairwise (fun a b => a.1 < b.1) → g ∈ l →
      (l.flatMap ungroup).filter (fun t => t.row == g.1) = ungroup g := by
    intro l hl hgl
    induction l with
    | nil => cases hgl
    | cons a l ih =>
      obtain ⟨ha, hl⟩ := List.pairwise_cons.1 hl
      rw [List.flatMap_cons, List.filter_append, hself]
      rcases List.mem_cons.1 hgl with rfl | hgl
      · have hrest : (l.flatMap ungroup).filter (fun t => t.row == g.1) = [] := by
          rw [List.filter_flatMap, List.flatMap_eq_nil_iff]
          intro b hb
          rw [hself, if_neg (Nat.ne_of_gt (ha b hb))]
        rw [hrest, if_pos rfl, List.append_nil]
      · rw [if_neg (Nat.ne_of_lt (ha g hgl)), ih hl hgl, List.nil_append]
  rw [← h.flat, hpick gs h.ascending hg, ungroup, List.map_map]
  exact List.map_id _

/-- A row without a group has no tuples. -/
theorem Groups.filter_none {ts : List Tuple} {gs : List (Nat × Array (Nat × Scalar))} (h : Groups ts gs)
    {row : Nat} (hrow : ∀ g ∈ gs, g.1 ≠ row) : (ts.filter fun t => t.row == row) = [] := by
  rw [← h.flat, List.filter_flatMap, List.flatMap_eq_nil_iff]
  intro g hg
  rw [List.filter_eq_nil_iff]
  intro t ht
  obtain ⟨p, -, rfl⟩ := List.mem_map.1 ht
  simpa using hrow g hg

/-! ## Adding up a row -/

section Sums

variable (s : Semiring) (ty : ScalarType)

/-- The products listed for a column, in order. -/
def productsAt (l : List (Nat × Scalar)) (col : Nat) : List Scalar :=
  (l.filter fun p => p.1 == col).map (·.2)

/-- Each column once, with the sum of its products. -/
structure Sums (l : List (Nat × Scalar)) (out : List (Nat × Scalar)) : Prop where
  keys : (out.map (·.1)).Nodup
  sums : ∀ col v, (col, v) ∈ out ↔ foldOnto (s.add ty) none (productsAt l col) = some v

theorem productsAt_snoc (l : List (Nat × Scalar)) (col col' : Nat) (v : Scalar) :
    productsAt (l ++ [(col, v)]) col' = productsAt l col' ++ if col = col' then [v] else [] := by
  unfold productsAt
  rw [List.filter_append, List.map_append]
  congr 1
  by_cases h : col = col' <;> simp [h]

/-- A product goes to the sum of its column, or becomes a column at the end. -/
theorem addProduct_cases (out : Array (Nat × Scalar)) (col : Nat) (v : Scalar) :
    (∃ l₁ sum l₂, out.toList = l₁ ++ (col, sum) :: l₂ ∧
      (addProduct s ty out col v).toList = l₁ ++ (col, s.add ty sum v) :: l₂) ∨
    (∀ p ∈ out.toList, p.1 ≠ col) ∧ (addProduct s ty out col v).toList = out.toList ++ [(col, v)] := by
  unfold addProduct
  cases hf : out.findIdx? fun e => e.1 == col with
  | none =>
    right
    rw [Array.findIdx?_eq_none_iff] at hf
    refine ⟨fun p hp => ?_, Array.toList_push⟩
    simpa using hf p (Array.mem_def.2 hp)
  | some k =>
    left
    obtain ⟨hk, hcol, -⟩ := Array.findIdx?_eq_some_iff_getElem.1 hf
    have hsplit : out.toList = out.toList.take k ++ (col, out[k].2) :: out.toList.drop (k + 1) := by
      have hget : (col, out[k].2) = out.toList[k] := by
        rw [Array.getElem_toList, ← beq_iff_eq.1 hcol]
      rw [hget, List.getElem_cons_drop, List.take_append_drop]
    refine ⟨_, _, _, hsplit, ?_⟩
    rw [Array.toList_modify, List.modify_eq_take_drop, List.drop_eq_getElem_cons hk, List.modifyHead_cons]
    rw [Array.getElem_toList, ← beq_iff_eq.1 hcol]

theorem addProduct_sums {l : List (Nat × Scalar)} {out : Array (Nat × Scalar)} (h : Sums s ty l out.toList)
    (col : Nat) (v : Scalar) :
    Sums s ty (l ++ [(col, v)]) (addProduct s ty out col v).toList := by
  rcases addProduct_cases s ty out col v with ⟨l₁, sum, l₂, hout, hnew⟩ | ⟨hne, hnew⟩
  · have hkeys := h.keys
    have hsums := h.sums
    rw [hout] at hkeys hsums
    rw [hnew]
    refine ⟨by simpa using hkeys, fun col' w => ?_⟩
    rw [productsAt_snoc, foldOnto_append]
    by_cases hc : col = col'
    · subst hc
      have hsum := (hsums col sum).1 (by simp)
      have hfresh : ∀ w, (col, w) ∉ l₁ ∧ (col, w) ∉ l₂ := by
        intro w
        rw [List.map_append, List.map_cons, List.nodup_append, List.nodup_cons] at hkeys
        obtain ⟨-, ⟨hnot, -⟩, hdisj⟩ := hkeys
        exact ⟨fun hw => hdisj col (List.mem_map_of_mem hw) col List.mem_cons_self rfl,
          fun hw => hnot (List.mem_map.2 ⟨_, hw, rfl⟩)⟩
      rw [hsum, if_pos rfl]
      simp [hfresh w, eq_comm]
    · rw [if_neg hc, foldOnto_nil, ← hsums]
      simp [Ne.symm hc]
  · rw [hnew]
    refine ⟨?_, fun col' w => ?_⟩
    · rw [List.map_append, List.nodup_append]
      refine ⟨h.keys, List.nodup_singleton _, fun a ha b hb => ?_⟩
      obtain ⟨p, hp, rfl⟩ := List.mem_map.1 ha
      rw [List.map_singleton, List.mem_singleton] at hb
      rw [hb]
      exact hne p hp
    · rw [productsAt_snoc, foldOnto_append, List.mem_append, h.sums, List.mem_singleton]
      by_cases hc : col = col'
      · subst hc
        have hnone : foldOnto (s.add ty) none (productsAt l col) = none := by
          rw [Option.eq_none_iff_forall_not_mem]
          exact fun w hw => hne _ ((h.sums col w).2 hw) rfl
        rw [hnone, if_pos rfl]
        simp [eq_comm]
      · rw [if_neg hc, foldOnto_nil]
        simp [Ne.symm hc]

theorem foldl_addProduct {ps : List (Nat × Scalar)} {l : List (Nat × Scalar)}
    {out : Array (Nat × Scalar)} (h : Sums s ty l out.toList) :
    Sums s ty (l ++ ps) (ps.foldl (fun out p => addProduct s ty out p.1 p.2) out).toList := by
  induction ps generalizing l out with
  | nil => simpa using h
  | cons p ps ih =>
    have := ih (addProduct_sums s ty h p.1 p.2)
    rwa [List.append_assoc, List.singleton_append] at this

/-- **A row of a product** has each column once, with the sum of the products that reach it. -/
theorem productRow_sums (b : Matrix) (left : Array (Nat × Scalar)) :
    Sums s ty (left.toList.flatMap fun p => (b.vectorEntries p.1).map fun q =>
      (q.1, s.multiply ty p.2 q.2)) (productRow s ty b left).toList := by
  have hempty : Sums s ty [] (#[] : Array (Nat × Scalar)).toList :=
    ⟨List.nodup_nil, fun _ _ => by simp [productsAt]⟩
  have hfold : productRow s ty b left = (left.toList.flatMap fun p => (b.vectorEntries p.1).map fun q =>
      (q.1, s.multiply ty p.2 q.2)).foldl (fun out p => addProduct s ty out p.1 p.2) #[] := by
    unfold productRow
    rw [← Array.foldl_toList, List.foldl_flatMap]
    simp only [List.foldl_map]
  rw [hfold]
  exact foldl_addProduct s ty hempty

end Sums

/-! ## Products -/

/-- The products that meet in a cell, by the inner index. -/
def products (s : Semiring) (ty : ScalarType) (a b : Matrix) (row col : Nat) : List Scalar :=
  (List.range a.ncols).filterMap fun k =>
    (a.cell row k).bind fun v => (b.cell k col).map (s.multiply ty v)

/-- The entries of a product, row after row. -/
def productEntries (s : Semiring) (ty : ScalarType) (b : Matrix)
    (rows : Array (Nat × Array (Nat × Scalar))) : Array IndexEntry :=
  rows.flatMap fun (row, left) => (productRow s ty b left).map fun (col, v) => ⟨row, col, v⟩

section Product

variable {a b : Matrix} (s : Semiring) (ty : ScalarType)

/-- What a walk of a row of the right operand sends to a column. -/
theorem Inv.productsAt_vectorEntries (hb : b.Inv) (hrow : b.byRow = true) (hp : b.pending = none)
    (f : Scalar → Scalar) {k : Nat} (hk : k < b.nrows) (col : Nat) :
    productsAt ((b.vectorEntries k).map fun q => (q.1, f q.2)) col = ((b.cell k col).map f).toList := by
  have hdim : k < b.vdim := by
    unfold vdim
    rwa [if_pos hrow]
  have hvalues := hb.laid.valuesAt_entries col k
  rw [cell_byRow hrow, value_of_settled hp, Option.toList_map, ← hvalues, hb.laid.vectorEntries_eq hdim,
    productsAt, valuesAt, List.map_map, List.filter_map, List.filter_filter, List.map_map, List.map_map]
  congr 1
  exact List.filter_congr fun e _ => Bool.and_comm _ _

/-- The products for a column of a row, out of the row's entries. -/
theorem Inv.productsAt_row (hb : b.Inv) (hrow : b.byRow = true) (hp : b.pending = none)
    (f : Nat → Option Scalar) {ks : List Nat} (hks : ∀ k ∈ ks, k < b.nrows) (col : Nat) :
    productsAt ((ks.filterMap fun k => (f k).map (k, ·)).flatMap fun p =>
      (b.vectorEntries p.1).map fun q => (q.1, s.multiply ty p.2 q.2)) col =
      ks.filterMap fun k => (f k).bind fun v => (b.cell k col).map (s.multiply ty v) := by
  induction ks with
  | nil => rfl
  | cons k ks ih =>
    have ih := ih fun k' hk' => hks k' (List.mem_cons_of_mem _ hk')
    rw [List.filterMap_cons, List.filterMap_cons]
    cases hv : f k with
    | none => exact ih
    | some v =>
      have hhead := hb.productsAt_vectorEntries hrow hp (s.multiply ty v) (hks k List.mem_cons_self) col
      simp only [Option.map_some, Option.bind_some, List.flatMap_cons]
      unfold productsAt at ih hhead ⊢
      rw [List.filter_append, List.map_append, ih, hhead]
      cases b.cell k col <;> rfl

/-- The tuples of a row of a committed by-row matrix, by column. -/
theorem Inv.tuples_row (ha : a.Inv) (hrow : a.byRow = true) (hdef : a.deferred = false) (row : Nat) :
    ((a.tuples.toList.filter fun t => t.row == row).map fun t => (t.col, t.value)) =
      (List.range a.ncols).filterMap fun k => (a.cell row k).map (k, ·) := by
  obtain ⟨hp, -, hj⟩ := deferred_eq_false_iff.1 hdef
  have hlen : a.vlen = a.ncols := by
    unfold vlen
    rw [if_pos hrow]
  have hvector := ha.laid.vector_eq hj row
  rw [hlen] at hvector
  simp only [cell_byRow hrow, value_of_settled hp, ← hvector]
  rw [ha.laid.tuples_eq, List.filter_map, List.map_map]
  simp only [Function.comp_def, tupleOf, toCell_byRow hrow]

/-- The tuples of a committed by-row matrix come by rows. -/
theorem Inv.tuples_rows (ha : a.Inv) (hrow : a.byRow = true) (hdef : a.deferred = false) :
    a.tuples.toList.Pairwise fun t u => t.row ≤ u.row := by
  rw [ha.laid.tuples_eq]
  refine List.pairwise_map.2 ((ha.laid.entries_sorted (deferred_eq_false_iff.1 hdef).2.2).imp ?_)
  intro d e hde
  rw [tupleOf, tupleOf, toCell_byRow hrow, toCell_byRow hrow]
  rcases hde with hlt | heq
  · exact Nat.le_of_lt hlt
  · exact Nat.le_of_eq heq.1

theorem toList_productEntries (b : Matrix) (rows : Array (Nat × Array (Nat × Scalar))) :
    (productEntries s ty b rows).toList = rows.toList.flatMap fun g =>
      (productRow s ty b g.2).toList.map fun p => (⟨g.1, p.1, p.2⟩ : IndexEntry) := by
  rw [productEntries, Array.toList_flatMap]
  simp only [Array.toList_map]

/-- The tuples of a committed by-row matrix, in groups. -/
theorem Inv.groups (ha : a.Inv) (hrow : a.byRow = true) (hdef : a.deferred = false) :
    Groups a.tuples.toList (groupRows a.tuples).toList := by
  have hgroups := groupRows_spec (ha.tuples_rows hrow hdef)
  rwa [Array.toArray_toList] at hgroups

/-- A row of the product holds the sums that are not empty. -/
theorem Inv.mem_productRow (ha : a.Inv) (hrow : a.byRow = true) (hdef : a.deferred = false) (hb : b.Inv)
    (hbrow : b.byRow = true) (hbp : b.pending = none) (hdim : a.ncols = b.nrows)
    {g : Nat × Array (Nat × Scalar)} (hg : g ∈ (groupRows a.tuples).toList) (col : Nat) (v : Scalar) :
    (col, v) ∈ (productRow s ty b g.2).toList ↔
      foldOnto (s.add ty) none (products s ty a b g.1 col) = some v := by
  have hsums : productsAt (g.2.toList.flatMap fun p =>
      (b.vectorEntries p.1).map fun q => (q.1, s.multiply ty p.2 q.2)) col = products s ty a b g.1 col := by
    rw [← (ha.groups hrow hdef).filter_row hg, ha.tuples_row hrow hdef]
    exact hb.productsAt_row s ty hbrow hbp _ (fun k hk => hdim ▸ List.mem_range.1 hk) col
  rw [(productRow_sums s ty b g.2).sums, hsums]

/-- No products meet in a row without a group. -/
theorem Inv.products_eq_nil (ha : a.Inv) (hrow : a.byRow = true) (hdef : a.deferred = false) {row : Nat}
    (hnone : ∀ g ∈ (groupRows a.tuples).toList, g.1 ≠ row) (col : Nat) :
    products s ty a b row col = [] := by
  have hcells := ha.tuples_row hrow hdef row
  rw [(ha.groups hrow hdef).filter_none hnone, List.map_nil, eq_comm, List.filterMap_eq_nil_iff] at hcells
  refine List.filterMap_eq_nil_iff.2 fun k hk => ?_
  rw [Option.map_eq_none_iff.1 (hcells k hk)]
  rfl

/-- **The entries of a product** are grouped by row, stand at distinct places and hold the sums. -/
theorem Inv.productEntries_spec (ha : a.Inv) (hrow : a.byRow = true) (hdef : a.deferred = false)
    (hb : b.Inv) (hbrow : b.byRow = true) (hbp : b.pending = none) (hdim : a.ncols = b.nrows) :
    (productEntries s ty b (groupRows a.tuples)).toList.Pairwise (fun d e => d.j ≤ e.j) ∧
    IndexEntry.Distinct (productEntries s ty b (groupRows a.tuples)).toList ∧
    ∀ row col v, ⟨row, col, v⟩ ∈ (productEntries s ty b (groupRows a.tuples)).toList ↔
      foldOnto (s.add ty) none (products s ty a b row col) = some v := by
  have hascending := (ha.groups hrow hdef).ascending
  have hmem := fun g hg => ha.mem_productRow s ty hrow hdef hb hbrow hbp hdim (g := g) hg
  rw [toList_productEntries]
  refine ⟨?_, ?_, fun row col v => ?_⟩
  · refine List.pairwise_flatMap.2 ⟨fun g _ => ?_, hascending.imp fun hlt d hd e he => ?_⟩
    · exact List.pairwise_map.2 (List.pairwise_of_forall fun _ _ => Nat.le_refl _)
    · obtain ⟨_, -, rfl⟩ := List.mem_map.1 hd
      obtain ⟨_, -, rfl⟩ := List.mem_map.1 he
      exact Nat.le_of_lt hlt
  · refine List.pairwise_flatMap.2 ⟨fun g _ => ?_, hascending.imp fun hlt d hd e he => ?_⟩
    · refine List.pairwise_map.2 ((List.pairwise_map.1 (productRow_sums s ty b g.2).keys).imp ?_)
      exact fun hne heq => hne heq.2
    · obtain ⟨_, -, rfl⟩ := List.mem_map.1 hd
      obtain ⟨_, -, rfl⟩ := List.mem_map.1 he
      exact fun heq => Nat.ne_of_lt hlt heq.1
  · simp only [List.mem_flatMap, List.mem_map, IndexEntry.mk.injEq]
    constructor
    · rintro ⟨g, hg, p, hp, rfl, rfl, rfl⟩
      exact (hmem g hg _ _).1 hp
    · intro hv
      -- a cell with products has a group for its row
      by_cases hex : ∃ g ∈ (groupRows a.tuples).toList, g.1 = row
      · obtain ⟨g, hg, rfl⟩ := hex
        exact ⟨g, hg, (col, v), (hmem g hg col v).2 hv, rfl, rfl, rfl⟩
      · rw [ha.products_eq_nil s ty hrow hdef (fun g hg heq => hex ⟨g, hg, heq⟩)] at hv
        cases hv

/-- Neighbours in order make a sorted list. -/
theorem sorted_of_neighbours {l : List IndexEntry}
    (h : ∀ p ∈ l.zip l.tail, Before p.1.j p.1.i p.2.j p.2.i) : IndexEntry.Sorted l := by
  induction l with
  | nil => exact List.Pairwise.nil
  | cons d l ih =>
    cases l with
    | nil => exact List.pairwise_singleton _ _
    | cons e l =>
      have hde : Before d.j d.i e.j e.i := h (d, e) List.mem_cons_self
      have hl := ih fun p hp => h p (List.mem_cons_of_mem _ hp)
      refine List.pairwise_cons.2 ⟨fun f hf => ?_, hl⟩
      rcases List.mem_cons.1 hf with rfl | hf
      · exact hde
      · exact hde.trans ((List.pairwise_cons.1 hl).1 f hf)

/-- Grouped entries at distinct places are sorted, unless some row lists its columns out of order. -/
theorem sorted_of_inOrder {l : Array IndexEntry} (hg : l.toList.Pairwise fun d e => d.j ≤ e.j)
    (hd : IndexEntry.Distinct l.toList) (ho : outOfOrder l = false) : IndexEntry.Sorted l.toList := by
  refine sorted_of_neighbours fun p hp => ?_
  have hpair : ∀ {R : IndexEntry → IndexEntry → Prop}, l.toList.Pairwise R → R p.1 p.2 := by
    intro R hR
    obtain ⟨k, hk, hpk⟩ := List.getElem_of_mem hp
    rw [List.getElem_zip, List.getElem_tail] at hpk
    rw [← hpk]
    simp only [List.length_zip, List.length_tail] at hk
    exact List.pairwise_iff_getElem.1 hR k (k + 1) (by omega) (by omega) (Nat.lt_succ_self k)
  have hle := hpair hg
  have hne := hpair hd
  unfold outOfOrder at ho
  have hnot := List.any_eq_false.1 ho p hp
  simp only [Bool.and_eq_true, beq_iff_eq, decide_eq_true_eq, not_and, Nat.not_lt] at hnot
  unfold Before
  by_cases heq : p.1.j = p.2.j
  · have := hnot heq
    have : p.1.i ≠ p.2.i := fun hi => hne ⟨heq, hi⟩
    exact .inr ⟨heq, by omega⟩
  · exact .inl (by omega)

end Product

/-- A sum of products lies inside the product, and has its type. -/
theorem sum_of_products {a b : Matrix} (ha : a.Inv) (hb : b.Inv) {s : Semiring} {row col : Nat} {v : Scalar}
    (hv : foldOnto (s.add (s.outputType a.type)) none (products s (s.outputType a.type) a b row col) =
      some v) : col < b.ncols ∧ row < a.nrows ∧ v.type = s.outputType a.type := by
  have hproduct : ∀ w ∈ products s (s.outputType a.type) a b row col,
      col < b.ncols ∧ row < a.nrows ∧ w.type = s.outputType a.type := by
    intro w hw
    obtain ⟨k, -, hk⟩ := List.mem_filterMap.1 hw
    obtain ⟨x, hx, hk⟩ := Option.bind_eq_some_iff.1 hk
    obtain ⟨y, hy, rfl⟩ := Option.map_eq_some_iff.1 hk
    exact ⟨(hb.lt_of_cell hy).2, (ha.lt_of_cell hx).1, s.multiply_type a.type x y⟩
  have htype : v.type = s.outputType a.type :=
    foldOnto_all (s.add (s.outputType a.type)) (P := fun v => v.type = s.outputType a.type)
      (fun _ _ hp hq => s.add_type a.type hp hq) (fun _ hn => by cases hn)
      (fun w hw => (hproduct w hw).2.2) hv
  cases hl : products s (s.outputType a.type) a b row col with
  | nil => rw [hl] at hv; cases hv
  | cons w ws =>
    obtain ⟨hc, hr, -⟩ := hproduct w (by rw [hl]; exact List.mem_cons_self)
    exact ⟨hc, hr, htype⟩

/-- The entries of a product, out of committed copies of its operands: grouped by row and at distinct places
inside it, they hold the sums. -/
theorem Committed.productEntries_spec {a b a' b' : Matrix} (hac : a.Committed a') (ha : a.Inv)
    (hbc : b.Committed b') (hb : b.Inv) (hdim : a.ncols = b.nrows) (s : Semiring) :
    let l := (productEntries s (s.outputType a.type) b' (groupRows a'.tuples)).toList
    l.Pairwise (fun d e => d.j ≤ e.j) ∧ IndexEntry.Distinct l ∧
      (∀ row col v, ⟨row, col, v⟩ ∈ l ↔ foldOnto (s.add (s.outputType a.type)) none
        (products s (s.outputType a.type) a b row col) = some v) ∧
      ∀ e ∈ l, e.i < b.ncols ∧ e.j < a.nrows ∧ e.value.type = s.outputType a.type := by
  have hdim' : a'.ncols = b'.nrows := hac.ncols.trans (hdim.trans hbc.nrows.symm)
  obtain ⟨hgroup, hdistinct, hentry⟩ := hac.inv.productEntries_spec s (s.outputType a.type) hac.byRow
    hac.settled hbc.inv hbc.byRow (deferred_eq_false_iff.1 hbc.settled).1 hdim'
  have hproducts : products s (s.outputType a.type) a' b' = products s (s.outputType a.type) a b := by
    funext row col
    rw [products, products, hac.ncols, hac.cell, hbc.cell]
  rw [hproducts] at hentry
  exact ⟨hgroup, hdistinct, hentry,
    fun e he => sum_of_products ha hb ((hentry e.j e.i e.value).1 he)⟩

/-- A by-row matrix of entries that come by rows, whose columns may be out of order within a row. -/
theorem inv_ofRows {type : ScalarType} {nrows ncols : Nat} {options : MatrixOptions} (hr : nrows ≤ maxDim)
    (hc : ncols ≤ maxDim) (hlimit : options.maxDenseCells < UInt64.size) {l : Array IndexEntry}
    (hgroup : l.toList.Pairwise fun d e => d.j ≤ e.j) (hdistinct : IndexEntry.Distinct l.toList)
    (hin : ∀ e ∈ l.toList, e.i < ncols ∧ e.j < nrows ∧ e.value.type = type) {r : Matrix}
    (hst : r = { blank type nrows ncols true options with
      store := .ofEntries l, jumbled := outOfOrder l }) :
    r.Inv ∧ ∀ row col v, r.cell row col = some v ↔ ⟨row, col, v⟩ ∈ l.toList := by
  have hlists : (Storage.ofEntries l).Lists ncols nrows l.toList :=
    Storage.ofEntries_lists hgroup hdistinct fun e he => ⟨(hin e he).1, (hin e he).2.1⟩
  have hvalues : (Storage.ofEntries l).values.toList = l.toList.map IndexEntry.value :=
    Storage.ofEntries_values hgroup
  subst hst
  set r : Matrix :=
    { blank type nrows ncols true options with store := .ofEntries l, jumbled := outOfOrder l }
  have hcarries : r.Carries l.toList := carries_of_values rfl hvalues fun e he => (hin e he).2.2
  have hlaid : r.Laid := laid_of_lists hlists hcarries rfl fun hj => sorted_of_inOrder hgroup hdistinct hj
  refine ⟨⟨hlaid, hr, hc, hlimit, fun _ hq => by cases hq⟩, fun row col v => ?_⟩
  have hentries := entries_of_lists hlists hcarries
  rw [cell_byRow rfl, value_of_settled rfl, ← hentries]
  exact (hlaid.mem_entries (e := ⟨row, col, v⟩)).symm

/-- **A product.** Each cell holds the sum of the products that meet there, the inner index ascending. -/
theorem ensures_product {σ : Type} {t : σ} {a b : Matrix} (ha : a.Inv) (hb : b.Inv) (s : Semiring)
    {options : MatrixOptions} (hlimit : options.maxDenseCells < UInt64.size) :
    Ensures (a.product b s options) t
      (fun r t' => t' = t ∧ r.Inv ∧ a.ncols = b.nrows ∧
        (blank (s.outputType a.type) a.nrows b.ncols true options).SameShape r ∧
        ∀ row col, r.cell row col = foldOnto (s.add (s.outputType a.type)) none
          (products s (s.outputType a.type) a b row col))
      (fun e t' => t' = t ∧ (e.OfMemory ∨ a.ncols ≠ b.nrows ∧
        e = .dimensionMismatch .product (a.nrows, a.ncols) (b.nrows, b.ncols))) := by
  have hmem : ∀ e : GraphError, e.OfMemory → t = t ∧ (e.OfMemory ∨ a.ncols ≠ b.nrows ∧
      e = .dimensionMismatch .product (a.nrows, a.ncols) (b.nrows, b.ncols)) :=
    fun e he => ⟨rfl, .inl he⟩
  unfold product
  refine ensures_guard (fun hne => ⟨rfl, .inr ⟨hne, rfl⟩⟩) fun heq => ?_
  have hdim : a.ncols = b.nrows := by
    by_contra hne
    exact heq hne
  refine (ensures_committedRows ha).andThen (fun e _ he => ⟨he.1, .inl he.2⟩) ?_
  rintro a' _ ⟨rfl, hac⟩
  refine (ensures_committedRows hb).andThen (fun e _ he => ⟨he.1, .inl he.2⟩) ?_
  rintro b' _ ⟨rfl, hbc⟩
  obtain ⟨hgroup, hdistinct, hentry, hsum⟩ := hac.productEntries_spec ha hbc hb hdim s
  refine ensures_require_then (fun e he => ?_) fun r hr => ?_
  · unfold withOptions at he
    rw [if_neg (by rw [hac.nrows, hbc.ncols]; have := ha.nrows_le; have := hb.ncols_le; omega)] at he
    cases he
  obtain ⟨-, -, rfl⟩ := withOptions_eq_ok_iff.1 hr
  rw [hac.nrows, hbc.ncols]
  refine ensures_buildStorage hmem (ensures_tally_then (ensures_pure ?_))
  obtain ⟨hinv, hcell⟩ := inv_ofRows ha.nrows_le hb.ncols_le hlimit hgroup hdistinct hsum rfl
  refine ⟨rfl, hinv, hdim, ⟨rfl, rfl, rfl, rfl, rfl⟩, fun row col => ?_⟩
  exact Option.ext fun v => (hcell row col v).trans (hentry row col v)

/-! ## Unions -/

theorem tupleFault_append (m : Matrix) {ts : List Tuple} (hts : m.tupleFault ts = none) (us : List Tuple) :
    m.tupleFault (ts ++ us) = m.tupleFault us := by
  induction ts with
  | nil => rfl
  | cons t ts ih =>
    unfold tupleFault at hts
    rw [List.cons_append, tupleFault]
    split at hts
    · cases hts
    · cases hts
    · exact ih hts

/-- A matrix takes the tuples of another of its shape and type. -/
theorem Laid.tupleFault_tuples {a target : Matrix} (h : a.Laid) (hr : a.nrows = target.nrows)
    (hc : a.ncols = target.ncols) (hty : a.type = target.type) :
    target.tupleFault a.tuples.toList = none := by
  refine tupleFault_eq_none_iff.2 fun u hu => ?_
  obtain ⟨hrow, hcol, htype⟩ := h.tuples_spec hu
  refine ⟨hr ▸ hrow, hc ▸ hcol, ?_⟩
  rw [show target.type = u.value.type from (htype.trans hty).symm, Scalar.cast_self]
  rfl

/-- **A union.** Each cell holds what one operand has there, or both combined in the type of the left
one. -/
theorem ensures_union {σ : Type} {t : σ} {a b : Matrix} (ha : a.Inv) (hb : b.Inv) (op : DupOp)
    {options : MatrixOptions} (hlimit : options.maxDenseCells < UInt64.size) :
    Ensures (a.union b op options) t
      (fun r t' => t' = t ∧ r.Inv ∧ a.nrows = b.nrows ∧ a.ncols = b.ncols ∧
        (blank a.type a.nrows a.ncols true options).SameShape r ∧ r.deferred = false ∧
        (∀ row col v, b.cell row col = some v → (v.cast a.type).isSome) ∧
        ∀ row col, r.cell row col = foldOnto (op.apply a.type) (a.cell row col)
          ((b.cell row col).bind (·.cast a.type)).toList)
      (fun e t' => t' = t ∧ (e.OfMemory ∨
        (a.nrows ≠ b.nrows ∨ a.ncols ≠ b.ncols) ∧
          e = .dimensionMismatch .union (a.nrows, a.ncols) (b.nrows, b.ncols) ∨
        (∃ row col v, b.cell row col = some v) ∧ b.type.castable a.type = false ∧
          e = .domainMismatch b.type a.type)) := by
  unfold union
  refine ensures_guard (fun hne => ⟨rfl, .inr (.inl ⟨hne, rfl⟩)⟩) fun heq => ?_
  obtain ⟨hrows, hcols⟩ : a.nrows = b.nrows ∧ a.ncols = b.ncols := by
    rwa [not_or, not_not, not_not] at heq
  refine (ensures_committedRows ha).andThen (fun e _ he => ⟨he.1, .inl he.2⟩) ?_
  rintro a' _ ⟨rfl, hac⟩
  refine (ensures_committedRows hb).andThen (fun e _ he => ⟨he.1, .inl he.2⟩) ?_
  rintro b' _ ⟨rfl, hbc⟩
  rw [hac.type, hac.nrows, hac.ncols, Array.toList_append]
  have hap := (deferred_eq_false_iff.1 hac.settled).1
  have hbp := (deferred_eq_false_iff.1 hbc.settled).1
  set target := blank a.type a.nrows a.ncols true options with htarget
  have hleft : target.tupleFault a'.tuples.toList = none :=
    hac.inv.laid.tupleFault_tuples hac.nrows hac.ncols hac.type
  have hright : ∀ u ∈ b'.tuples.toList, u.row < target.nrows ∧ u.col < target.ncols ∧
      u.value.type = b.type := by
    intro u hu
    obtain ⟨hr, hc, hty⟩ := hbc.inv.laid.tuples_spec hu
    exact ⟨hrows ▸ hbc.nrows ▸ hr, hcols ▸ hbc.ncols ▸ hc, hty.trans hbc.type⟩
  refine (ensures_ofTuples (a'.tuples.toList ++ b'.tuples.toList) op hlimit).mono ?_ ?_
  · rintro r _ ⟨rfl, hinv, hs, hdef, hfault, hvalue⟩
    refine ⟨rfl, hinv, hrows, hcols, hs, hdef, fun row col v hv => ?_, fun row col => ?_⟩
    · rw [← htarget, tupleFault_append target hleft] at hfault
      rw [← hbc.cell] at hv
      exact hbc.inv.cast_of_noFault hbp hfault hv
    · have hplace : r.toVector row col = target.toVector row col := by
        rw [toVector, toVector, hs.byRow]
      rw [cell, hplace, hvalue, ← htarget, landed_append, hac.inv.landed_tuples hap,
        hbc.inv.landed_tuples hbp, foldOnto_append, foldOnto_toList, hac.cell, hbc.cell]
      rw [show target.type = a.type from rfl, ha.cast_cell]
  · rintro e _ ⟨rfl, ⟨hmem, -⟩ | ⟨hdim, -⟩ | hfault⟩
    · exact ⟨rfl, .inl hmem⟩
    · have := ha.nrows_le
      have := ha.ncols_le
      omega
    · rw [← htarget, tupleFault_append target hleft] at hfault
      obtain ⟨he, hcast⟩ := tupleFault_of_type hright hfault
      -- a tuple that cannot be cast is an entry
      obtain ⟨u, hu⟩ : ∃ u, u ∈ b'.tuples.toList :=
        List.exists_mem_of_ne_nil _ fun hnil => by rw [hnil] at hfault; cases hfault
      have hentry := (hbc.inv.mem_tuples hbp).1 hu
      rw [hbc.cell] at hentry
      exact ⟨rfl, .inr (.inr ⟨⟨_, _, _, hentry⟩, hcast, he⟩)⟩

end Matrix

end Adjacency
