import Adjacency.Proofs.Layout

/-!
# Walking the index

Every reader of the whole index sees the same thing: the storage positions in ascending order, with the
place and the value of each.

* `Matrix.Laid.tuples_eq`: the cursor lists the positions that are present.
* `Matrix.Laid.existing_eq`: a commit reads every position, a tombstone without its value.
* `Matrix.Laid.vectorEntries_eq`: the walk of one vector reads those of that vector.
-/

namespace Adjacency

/-- Two lists in a strict order with the same members are the same. -/
theorem eq_of_pairwise_of_mem_iff {α : Type} {R : α → α → Prop} (hR : ∀ a b, R a b → ¬R b a)
    {l₁ l₂ : List α} (h₁ : l₁.Pairwise R) (h₂ : l₂.Pairwise R) (hmem : ∀ a, a ∈ l₁ ↔ a ∈ l₂) :
    l₁ = l₂ := by
  have hne : ∀ a b, R a b → a ≠ b := by
    rintro a _ hab rfl
    exact hR a a hab hab
  have hperm := (List.perm_ext_iff_of_nodup (h₁.imp (hne _ _)) (h₂.imp (hne _ _))).2 hmem
  exact hperm.eq_of_pairwise (fun a b _ _ hab hba => absurd hba (hR a b hab)) h₁ h₂

theorem toList_eq_map_getD {α : Type} (a : Array α) (d : α) :
    a.toList = (List.range a.size).map fun k => a.getD k d := by
  refine List.ext_getElem (by simp) fun k h₁ h₂ => ?_
  have hk : k < a.size := by simpa using h₁
  simp [hk]

/-- The cut into ranges, walked range by range, is the walk of all positions. -/
theorem Partition.flatMap_ranges {α : Type} {start : Nat → Nat} {n size : Nat}
    (h : Partition start n size) (F : Nat → Nat → α) :
    ((List.range n).flatMap fun k =>
        (List.range' (start k) (start (k + 1) - start k)).map (F k)) =
      (List.range size).map fun pos => F (Nat.findGreatest (fun k => start k ≤ pos) n) pos := by
  have key : ∀ k, k ≤ n → ((List.range k).flatMap fun k =>
      (List.range' (start k) (start (k + 1) - start k)).map (F k)) =
      (List.range (start k)).map fun pos => F (Nat.findGreatest (fun k => start k ≤ pos) n) pos := by
    intro k hk
    induction k with
    | zero => simp [h.first]
    | succ k ih =>
      have hstep := h.step k hk
      have hsplit : List.range (start (k + 1)) =
          List.range (start k) ++ List.range' (start k) (start (k + 1) - start k) := by
        have := List.range'_append_1 (s := 0) (m := start k) (n := start (k + 1) - start k)
        rw [Nat.zero_add] at this
        rw [List.range_eq_range', List.range_eq_range', this, Nat.add_sub_of_le hstep]
      rw [List.range_succ, List.flatMap_append, ih (by omega), hsplit, List.map_append]
      simp only [List.flatMap_cons, List.flatMap_nil, List.append_nil, List.append_cancel_left_eq]
      refine List.map_congr_left fun pos hpos => ?_
      obtain ⟨h₁, h₂⟩ := List.mem_range'_1.1 hpos
      rw [h.range_eq hk h₁ (by omega)]
  rw [key n (Nat.le_refl _), h.last]

/-- The cursor's range starts no later than its position. -/
def Cursor.Fits (c : Cursor) (m : Matrix) : Prop :=
  m.store.dense = true ∨ (c.vector ≤ m.store.rangeCount ∧ m.store.start c.vector ≤ c.pos)

namespace Matrix

variable (m : Matrix)

/-- The entry at a storage position. -/
def entryAt (pos : Nat) : IndexEntry := ⟨(m.place pos).2, (m.place pos).1, m.valueAt pos⟩

/-- The slot at a storage position. -/
def existingAt (pos : Nat) : Existing :=
  ⟨(m.place pos).2, (m.place pos).1, if m.present pos then some (m.valueAt pos) else none⟩

/-- An entry as row, column and value. -/
def tupleOf (e : IndexEntry) : Tuple := ⟨(m.toCell e.i e.j).1, (m.toCell e.i e.j).2, e.value⟩

/-- A row, column and value as an entry. -/
def entryOf (t : Tuple) : IndexEntry := ⟨(m.toVector t.row t.col).2, (m.toVector t.row t.col).1, t.value⟩

/-- The entries present, in the order of their positions. -/
def entries : List IndexEntry := ((List.range m.extent).filter m.present).map m.entryAt

variable {m}

@[simp] theorem toVector_toCell (i j : Nat) :
    m.toVector (m.toCell i j).1 (m.toCell i j).2 = (i, j) := by
  unfold toVector toCell; cases m.byRow <;> rfl

@[simp] theorem toCell_toVector (row col : Nat) :
    m.toCell (m.toVector row col).1 (m.toVector row col).2 = (row, col) := by
  unfold toVector toCell; cases m.byRow <;> rfl

@[simp] theorem entryOf_tupleOf (e : IndexEntry) : m.entryOf (m.tupleOf e) = e := by
  simp [entryOf, tupleOf]

/-! ## The cursor -/

/-- Looking through the ranges from the `k`-th on is looking through all positions from `pos` on. -/
theorem Laid.seekLive_eq (h : m.Laid) (hd : m.store.dense = false) {n k pos : Nat}
    (hn : k + n = m.store.rangeCount) (hpos : m.store.start k ≤ pos) :
    m.seekLive n k pos = match firstFrom m.slotLive (m.store.slots.size - pos) pos with
      | some found => (true, ⟨m.store.rangeOf found, found⟩)
      | none => (false, ⟨m.store.rangeCount, max pos m.store.slots.size⟩) := by
  have hx := h.indexed hd
  induction n generalizing k pos with
  | zero =>
    obtain rfl : k = m.store.rangeCount := by omega
    rw [hx.ranges.last] at hpos
    rw [Nat.sub_eq_zero_of_le hpos, Nat.max_eq_left hpos]
    rfl
  | succ n ih =>
    have hk : k < m.store.rangeCount := by omega
    have hle : m.store.start (k + 1) ≤ m.store.slots.size := by
      rw [← hx.ranges.last]; exact hx.ranges.mono hk (Nat.le_refl _)
    simp only [seekLive]
    change (match firstFrom m.slotLive (m.store.start (k + 1) - max pos (m.store.start k))
      (max pos (m.store.start k)) with
      | some found => (true, (⟨k, found⟩ : Cursor))
      | none => m.seekLive n (k + 1) (max (max pos (m.store.start k)) (m.store.start (k + 1)))) = _
    rw [Nat.max_eq_left hpos]
    rcases Nat.le_total (m.store.start (k + 1)) pos with hge | hlt
    · -- the range ends before the position
      rw [Nat.sub_eq_zero_of_le hge, Nat.max_eq_left hge]
      exact ih (by omega) hge
    · rw [show m.store.slots.size - pos = (m.store.start (k + 1) - pos) +
          (m.store.slots.size - m.store.start (k + 1)) by omega, firstFrom_add, Nat.max_eq_right hlt]
      cases hf : firstFrom m.slotLive (m.store.start (k + 1) - pos) pos with
      | some found =>
        obtain ⟨h₁, h₂, -⟩ := firstFrom_eq_some_iff.1 hf
        have := hx.rangeOf_eq hk (show _ ≤ found by omega) (by omega)
        simp only [Option.some_or, this]
      | none =>
        simp only [Option.none_or]
        rw [ih (by omega) (Nat.le_refl _), show pos + (m.store.start (k + 1) - pos) =
          m.store.start (k + 1) by omega, Nat.max_eq_right hle, Nat.max_eq_right (by omega)]

/-- **One step of the cursor** delivers the first present position at or after its own, or goes to the end. -/
theorem Laid.next_cases (h : m.Laid) {c : Cursor} (hc : c.Fits m) :
    match firstFrom m.present (m.extent - c.pos) c.pos with
    | some pos => ∃ c' : Cursor, c.next m = (some (m.tupleOf (m.entryAt pos)), c') ∧
        c'.pos = pos + 1 ∧ c'.Fits m
    | none => ∃ c' : Cursor, c.next m = (none, c') ∧ m.extent ≤ c'.pos ∧ c'.Fits m := by
  unfold Cursor.next
  cases hd : m.store.dense with
  | true =>
    have hp : m.present = m.cellPresent := funext fun pos => present_dense hd pos
    have he : m.extent = m.cells := if_pos hd
    rw [hp, he]
    simp only [if_true]
    cases hf : firstFrom m.cellPresent (m.cells - c.pos) c.pos with
    | some pos =>
      refine ⟨{ c with pos := pos + 1 }, ?_, rfl, .inl hd⟩
      simp only [denseTuple, tupleOf, entryAt, place_dense hd]
    | none => exact ⟨{ c with pos := max c.pos m.cells }, rfl, he ▸ Nat.le_max_right _ _, .inl hd⟩
  | false =>
    have hx := h.indexed hd
    have hp : m.present = m.slotLive := funext fun pos => by rw [present, hd]; rfl
    rw [hp, extent_sparse hd]
    obtain ⟨hc₁, hc₂⟩ := hc.resolve_left (by simp [hd])
    have hseek := h.seekLive_eq hd
      (show c.vector + (m.store.rangeCount - c.vector) = m.store.rangeCount by omega) hc₂
    simp only [Storage.rangeCount] at hseek
    simp only [Bool.false_eq_true, if_false, hseek]
    cases hf : firstFrom m.slotLive (m.store.slots.size - c.pos) c.pos with
    | some pos =>
      obtain ⟨hge, hlt, -⟩ := firstFrom_eq_some_iff.1 hf
      obtain ⟨hr₁, hr₂, -⟩ := hx.rangeOf_lt (show pos < _ by omega)
      refine ⟨⟨m.store.rangeOf pos, pos + 1⟩, ?_, rfl, .inr ⟨Nat.le_of_lt hr₁, Nat.le_succ_of_le hr₂⟩⟩
      simp only [sparseTuple, tupleOf, entryAt, place_sparse hd, Storage.indexAt]
    | none =>
      refine ⟨⟨m.store.rangeCount, max c.pos m.store.slots.size⟩, rfl, Nat.le_max_right _ _,
        .inr ⟨Nat.le_refl _, ?_⟩⟩
      rw [hx.ranges.last]
      exact Nat.le_max_right _ _

theorem Laid.collect_eq (h : m.Laid) {n : Nat} {c : Cursor} {acc : Array Tuple} (hc : c.Fits m)
    (hn : m.extent - c.pos ≤ n) :
    (Cursor.collect m n c acc).toList = acc.toList ++
      ((List.range' c.pos (m.extent - c.pos)).filter m.present).map fun pos =>
        m.tupleOf (m.entryAt pos) := by
  induction n generalizing c acc with
  | zero => simp [Cursor.collect, Nat.le_zero.1 hn]
  | succ n ih =>
    have hnext := h.next_cases hc
    rw [filter_range'_eq, Cursor.collect]
    cases hf : firstFrom m.present (m.extent - c.pos) c.pos with
    | some pos =>
      obtain ⟨h₁, h₂, -⟩ := firstFrom_eq_some_iff.1 hf
      rw [hf] at hnext
      obtain ⟨c', hc', hpos, hfit⟩ := hnext
      simp only [hc']
      rw [ih hfit (by omega), hpos, Array.toList_push, List.append_assoc]
      simp only [List.map_cons, List.singleton_append]
      congr 5; omega
    | none =>
      rw [hf] at hnext
      obtain ⟨c', hc', -⟩ := hnext
      simp [hc']

/-- **The cursor lists the entries present, in the order of their positions.** -/
theorem Laid.tuples_eq (h : m.Laid) : m.tuples.toList = m.entries.map m.tupleOf := by
  have hc : (({} : Cursor)).Fits m := by
    cases hd : m.store.dense with
    | true => exact .inl hd
    | false => exact .inr ⟨Nat.zero_le _, by rw [(h.indexed hd).ranges.first]⟩
  rw [tuples, h.collect_eq hc (Nat.sub_le _ _), entries, List.map_map, List.range_eq_range']
  rfl

/-! ## The slots that a commit reads -/

theorem ranges_zipIdx (m : Matrix) : m.ranges.zipIdx =
    (List.range m.store.rangeCount).map fun k => ((m.store.start k, m.store.start (k + 1)), k) := by
  refine List.ext_getElem ?_ fun k h₁ h₂ => ?_
  · simp [ranges, Storage.rangeCount]
  · simp only [List.length_map, List.length_range, Storage.rangeCount] at h₂
    have hk : k < m.store.pointers.size := by omega
    have hk' : k + 1 < m.store.pointers.size := by omega
    simp [ranges, Storage.start, hk, hk']

theorem ranges_eq (m : Matrix) : m.ranges = (List.range m.store.rangeCount).map fun k =>
    (m.store.start k, m.store.start (k + 1)) := by
  have h := congrArg (List.map Prod.fst) (ranges_zipIdx m)
  simpa [List.map_map, Function.comp_def] using h

/-- A commit reads every slot, and sorts them by place when the matrix is jumbled. -/
theorem Laid.existing_eq (h : m.Laid) (hd : m.store.dense = false) :
    m.existing = if m.jumbled then
        stableSort (fun a b => placeLe a.j a.i b.j b.i) ((List.range m.extent).map m.existingAt)
      else (List.range m.extent).map m.existingAt := by
  have hx := h.indexed hd
  have hflat := hx.ranges.flatMap_ranges fun k pos =>
    (⟨m.store.vectorAt k, m.store.indexAt pos,
      if m.store.deadAt pos then none else some (m.valueAt pos)⟩ : Existing)
  have hslots : (List.range m.extent).map m.existingAt =
      (List.range m.store.rangeCount).flatMap fun k =>
        (List.range' (m.store.start k) (m.store.start (k + 1) - m.store.start k)).map fun pos =>
          (⟨m.store.vectorAt k, m.store.indexAt pos,
            if m.store.deadAt pos then none else some (m.valueAt pos)⟩ : Existing) := by
    rw [extent_sparse hd]
    refine Eq.trans (List.map_congr_left fun pos hpos => ?_) hflat.symm
    have hp := present_sparse hd (List.mem_range.1 hpos)
    simp only [existingAt, place_sparse hd, hp, Storage.rangeOf]
    cases m.store.deadAt pos <;> rfl
  rw [hslots]
  simp only [existing, hd, Bool.false_eq_true, if_false, ranges_zipIdx, List.flatMap_map]
  rfl

theorem Laid.existing_perm (h : m.Laid) (hd : m.store.dense = false) :
    m.existing.Perm ((List.range m.extent).map m.existingAt) := by
  rw [h.existing_eq hd]
  split
  · exact stableSort_perm _
  · exact List.Perm.refl _

theorem pairwise_range {R : Nat → Nat → Prop} {n : Nat} (h : ∀ a b, a < b → b < n → R a b) :
    (List.range n).Pairwise R :=
  List.pairwise_lt_range.imp_of_mem fun _ hb hab => h _ _ hab (List.mem_range.1 hb)

/-- **The slots that a commit reads are sorted by place.** -/
theorem Laid.existing_sorted (h : m.Laid) (hd : m.store.dense = false) :
    Existing.Sorted m.existing := by
  rw [h.existing_eq hd]
  split
  · refine stableSort_sorted Existing.j Existing.i (List.pairwise_map.2 (pairwise_range fun a b hab hb hp => ?_))
    have := h.place_injective (Nat.lt_trans hab hb) hb (Prod.ext hp.2 hp.1)
    omega
  · next hj =>
    exact List.pairwise_map.2 (pairwise_range fun a b hab hb =>
      h.place_before (by simpa using hj) hab hb)

theorem live_existingAt (m : Matrix) (pos : Nat) :
    (m.existingAt pos).live = if m.present pos then some (m.entryAt pos) else none := by
  unfold existingAt Existing.live entryAt
  cases m.present pos <;> rfl

/-- The live slots are the entries present. -/
theorem filterMap_existingAt (m : Matrix) (l : List Nat) :
    (l.map m.existingAt).filterMap Existing.live = (l.filter m.present).map m.entryAt := by
  induction l with
  | nil => rfl
  | cons pos l ih =>
    rw [List.map_cons, filterMap_live_cons, ih, live_existingAt, List.filter_cons]
    cases m.present pos <;> rfl

/-! ## The walk of one vector -/

/-- The storage positions of vector `j`. -/
def vectorPositions (m : Matrix) (j : Nat) : List Nat :=
  if m.store.dense then (List.range m.vlen).map fun i => i + j * m.vlen
  else match m.vectorRange j with
    | some (start, stop) => List.range' start (stop - start)
    | none => []

theorem Laid.mem_vectorPositions (h : m.Laid) {j pos : Nat} (hj : j < m.vdim) :
    pos ∈ m.vectorPositions j ↔ pos < m.extent ∧ (m.place pos).2 = j := by
  have hiff : (pos < m.extent ∧ (m.place pos).2 = j) ↔ ∃ i, m.At i j pos :=
    ⟨fun hp => ⟨_, hp.1, Prod.ext rfl hp.2⟩, fun ⟨i, hat⟩ => ⟨hat.1, by rw [hat.2]⟩⟩
  rw [hiff, vectorPositions]
  cases hd : m.store.dense with
  | true =>
    simp only [if_true, List.mem_map, List.mem_range, h.at_dense_iff hd]
    exact ⟨fun ⟨i, hi, hp⟩ => ⟨i, hi, hj, hp.symm⟩, fun ⟨i, hi, _, hp⟩ => ⟨i, hi, hp.symm⟩⟩
  | false =>
    have hx := h.indexed hd
    simp only [Bool.false_eq_true, if_false, h.at_sparse_iff hd]
    rcases h.vectorRange_cases hd hj with ⟨k, hk, hkj, hr⟩ | ⟨hr, hne⟩
    · simp only [hr, List.mem_range'_1]
      have hstep := hx.ranges.step k hk
      constructor
      · rintro ⟨h₁, h₂⟩; exact ⟨_, k, hk, hkj, h₁, by omega, rfl⟩
      · rintro ⟨i, l, hl, hlj, h₁, h₂, -⟩
        have hlk : l = k :=
          hx.ascending.injective (Nat.zero_le _) hl (Nat.zero_le _) hk (hlj.trans hkj.symm)
        subst hlk
        exact ⟨h₁, by omega⟩
    · simp only [hr, List.not_mem_nil, false_iff]
      rintro ⟨i, k, hk, hkj, -⟩
      exact hne k hk hkj

theorem vectorPositions_ascend (m : Matrix) (j : Nat) : (m.vectorPositions j).Pairwise (· < ·) := by
  unfold vectorPositions
  split
  · exact List.pairwise_map.2 (List.pairwise_lt_range.imp fun hab => by omega)
  · split
    · exact List.pairwise_lt_range'
    · exact List.Pairwise.nil

/-- The positions of a vector, out of all positions. -/
theorem Laid.vectorPositions_eq (h : m.Laid) {j : Nat} (hj : j < m.vdim) :
    m.vectorPositions j = (List.range m.extent).filter fun pos => (m.place pos).2 == j := by
  have hmem : ∀ pos, pos ∈ m.vectorPositions j ↔
      pos ∈ (List.range m.extent).filter fun pos => (m.place pos).2 == j := by
    intro pos
    rw [h.mem_vectorPositions hj, List.mem_filter, List.mem_range, beq_iff_eq]
  have hasc := (List.pairwise_lt_range (n := m.extent)).filter fun pos => (m.place pos).2 == j
  exact eq_of_pairwise_of_mem_iff (fun _ _ => Nat.lt_asymm) (m.vectorPositions_ascend j) hasc hmem

theorem filterMap_ite {α β : Type} (p : α → Bool) (f : α → β) (l : List α) :
    (l.filterMap fun a => if p a then some (f a) else none) = (l.filter p).map f := by
  induction l with
  | nil => rfl
  | cons a l ih => rw [List.filterMap_cons, List.filter_cons]; cases p a <;> simp [ih]

/-- **The walk of a vector reads its entries, in the order of their positions.** -/
theorem Laid.vectorEntries_eq (h : m.Laid) {j : Nat} (hj : j < m.vdim) :
    m.vectorEntries j = (m.entries.filter fun e => e.j == j).map fun e => (e.i, e.value) := by
  have hwalk : m.vectorEntries j =
      ((m.vectorPositions j).filter m.present).map fun pos => ((m.place pos).1, m.valueAt pos) := by
    rw [vectorEntries, if_neg (Nat.not_le.2 hj), ← filterMap_ite]
    cases hd : m.store.dense with
    | true =>
      simp only [if_true, vectorPositions, hd, List.filterMap_map]
      refine List.filterMap_congr fun i hi => ?_
      have hat := (h.at_dense_iff hd).2 ⟨List.mem_range.1 hi, hj, rfl⟩
      simp only [Function.comp, h.densePos_eq hd (List.mem_range.1 hi) hj, present_dense hd, hat.2]
    | false =>
      have hx := h.indexed hd
      simp only [Bool.false_eq_true, if_false, vectorPositions, hd]
      cases hr : m.vectorRange j with
      | none => rfl
      | some range =>
        refine List.filterMap_congr fun pos hpos => ?_
        have hmem : pos ∈ m.vectorPositions j := by rw [vectorPositions, hd]; simp only [hr]; exact hpos
        have hlt := ((h.mem_vectorPositions hj).1 hmem).1
        rw [extent_sparse hd] at hlt
        have hget : m.store.slots[pos]? = some (m.store.slots.getD pos default) := by
          simp [hlt]
        simp only [hget, present_sparse hd hlt, place_sparse hd, Storage.indexAt, Storage.deadAt]
        cases (m.store.slots.getD pos default).dead <;> rfl
  rw [hwalk, h.vectorPositions_eq hj, entries, List.filter_map, List.map_map, List.filter_filter,
    List.filter_filter]
  congr 1
  exact List.filter_congr fun pos _ => Bool.and_comm _ _

end Matrix

end Adjacency
