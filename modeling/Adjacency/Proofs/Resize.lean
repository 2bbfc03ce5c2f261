import Adjacency.Proofs.Remove
import Adjacency.Proofs.Reservations

/-!
# Other dimensions

Growing keeps every value at its place, and transposing exchanges the coordinates.

* `Matrix.Retains`: the same type, orientation, options and values.
* `Matrix.ensures_resize_keeping`: growing, with any property that commits and formats keep.
* `Matrix.ensures_resize`: **growing a matrix keeps its values.**
* `Matrix.Inv.transposed`: the transpose holds every value at the exchanged cell.
-/

namespace Adjacency

open Metered

namespace Storage

/-- Pointers for `grow` more vectors, all empty. -/
def extended (grow : Nat) : Storage → Storage
  | .sparse p i x => .sparse (p ++ Array.replicate grow (p.back?.getD 0)) i x
  | store => store

variable {s : Storage} {grow vlen vdim : Nat}

@[simp] theorem dense_extended (s : Storage) (grow : Nat) : (s.extended grow).dense = s.dense := by
  cases s <;> rfl

@[simp] theorem slots_extended (s : Storage) (grow : Nat) : (s.extended grow).slots = s.slots := by
  cases s <;> rfl

@[simp] theorem values_extended (s : Storage) (grow : Nat) : (s.extended grow).values = s.values := by
  cases s <;> rfl

@[simp] theorem vectorAt_extended (s : Storage) (grow : Nat) :
    (s.extended grow).vectorAt = s.vectorAt := by
  cases s <;> rfl

section Pointers

variable {p : Array Nat} {i : Array Slot} {x : Array Scalar}

theorem rangeCount_extended (h : (Storage.sparse p i x).Indexed vlen vdim) (grow : Nat) :
    ((Storage.sparse p i x).extended grow).rangeCount = vdim + grow := by
  have hsize : p.size = vdim + 1 := h.pointed
  change (p ++ Array.replicate grow (p.back?.getD 0)).size - 1 = _
  rw [Array.size_append, Array.size_replicate]
  omega

/-- The last pointer of a sparse format is the end of the index. -/
theorem getD_pointers_last (h : (Storage.sparse p i x).Indexed vlen vdim) : p.getD vdim 0 = i.size := by
  have hsize : p.size = vdim + 1 := h.pointed
  have hlast : p.getD (p.size - 1) 0 = i.size := h.ranges.last
  rwa [hsize, Nat.add_sub_cancel] at hlast

/-- The pointers of a sparse format, extended: behind the last range all are empty. -/
theorem start_extended (h : (Storage.sparse p i x).Indexed vlen vdim) {k : Nat} (hk : k ≤ vdim + grow) :
    ((Storage.sparse p i x).extended grow).start k = if k ≤ vdim then p.getD k 0 else i.size := by
  have hsize : p.size = vdim + 1 := h.pointed
  have hlast : p.back?.getD 0 = i.size := by
    rw [Array.back?_eq_getElem?, ← Array.getD_eq_getD_getElem?, hsize, Nat.add_sub_cancel, getD_pointers_last h]
  change (p ++ Array.replicate grow (p.back?.getD 0)).getD k 0 = _
  rw [Array.getD_eq_getD_getElem?, Array.getElem?_append, hlast]
  by_cases hlt : k < p.size
  · rw [if_pos hlt, if_pos (by omega), Array.getD_eq_getD_getElem?]
  · rw [if_neg hlt, if_neg (by omega), Array.getElem?_replicate, if_pos (by omega)]; rfl

/-- The extended pointers cut up the same slots. -/
theorem ranges_extended (h : (Storage.sparse p i x).Indexed vlen vdim) (grow : Nat) :
    Partition ((Storage.sparse p i x).extended grow).start
      ((Storage.sparse p i x).extended grow).rangeCount i.size := by
  have hsize : p.size = vdim + 1 := h.pointed
  rw [rangeCount_extended h]
  refine ⟨?_, fun k hk => ?_, ?_⟩
  · rw [start_extended h (by omega), if_pos (by omega)]
    exact h.ranges.first
  · rw [start_extended h (by omega), start_extended h (by omega)]
    split
    · split
      · exact h.ranges.step k (show k < p.size - 1 by omega)
      · next hle _ =>
        -- the range that was the last to hold slots ends where the empty ones begin
        obtain rfl : k = vdim := by omega
        exact Nat.le_of_eq (getD_pointers_last h)
    · rw [if_neg (by omega)]
  · rw [start_extended h (by omega)]
    split
    · next hle =>
      obtain rfl : grow = 0 := by omega
      exact getD_pointers_last h
    · rfl

end Pointers

/-- The ranges that hold slots are the old ones. -/
theorem range_extended (h : s.Indexed vlen vdim) (grow k pos : Nat) :
    (k < (s.extended grow).rangeCount ∧ (s.extended grow).start k ≤ pos ∧
      pos < (s.extended grow).start (k + 1)) ↔
    (k < s.rangeCount ∧ s.start k ≤ pos ∧ pos < s.start (k + 1)) := by
  cases s with
  | full x => rfl
  | bitmap b x n => rfl
  | hypersparse l p i x => rfl
  | sparse p i x =>
    have hsize : p.size = vdim + 1 := h.pointed
    have hcount : (Storage.sparse p i x).rangeCount = vdim := show p.size - 1 = vdim by omega
    have hlast := getD_pointers_last h
    rw [hcount, rangeCount_extended h]
    constructor
    · rintro ⟨hk, h₁, h₂⟩
      rw [start_extended h (by omega)] at h₁ h₂
      have hkv : k < vdim := by
        by_contra hge
        rw [if_neg (by omega)] at h₂
        split at h₁
        · next hle =>
          obtain rfl : k = vdim := by omega
          omega
        · omega
      rw [if_pos (by omega)] at h₁ h₂
      exact ⟨hkv, h₁, h₂⟩
    · rintro ⟨hk, h₁, h₂⟩
      rw [start_extended h (by omega), start_extended h (by omega), if_pos (by omega), if_pos (by omega)]
      exact ⟨by omega, h₁, h₂⟩

/-- Room for more vectors and longer ones. -/
theorem Indexed.extended (h : s.Indexed vlen vdim) (hd : s.dense = false) {vlen' : Nat}
    (hlen : vlen ≤ vlen') : (s.extended grow).Indexed vlen' (vdim + grow) := by
  have hindex : (s.extended grow).indexAt = s.indexAt := by
    funext pos; rw [indexAt, indexAt, slots_extended]
  have hdistinct : ∀ k, k < (s.extended grow).rangeCount → ∀ a b, (s.extended grow).start k ≤ a →
      a < b → b < (s.extended grow).start (k + 1) →
      (s.extended grow).indexAt a ≠ (s.extended grow).indexAt b := by
    intro k hk a b ha hab hb
    obtain ⟨hk', ha', -⟩ := (range_extended h grow k a).1 ⟨hk, ha, Nat.lt_trans hab hb⟩
    obtain ⟨-, -, hb'⟩ := (range_extended h grow k b).1 ⟨hk, Nat.le_trans ha (Nat.le_of_lt hab), hb⟩
    rw [hindex]
    exact h.distinct k hk' a b ha' hab hb'
  have hindex_lt : ∀ pos, pos < (s.extended grow).slots.size → (s.extended grow).indexAt pos < vlen' := by
    intro pos hpos
    rw [slots_extended] at hpos
    rw [hindex]
    exact Nat.lt_of_lt_of_le (h.index_lt pos hpos) hlen
  cases s with
  | full x => cases hd
  | bitmap b x n => cases hd
  | hypersparse l p i x =>
    exact ⟨h.pointed, h.ranges, fun k hk => Nat.lt_add_right _ (h.vector_lt k hk), h.ascending,
      hindex_lt, hdistinct⟩
  | sparse p i x =>
    have hcount := rangeCount_extended h grow
    have hpointed : (p ++ Array.replicate grow (p.back?.getD 0)).size = vdim + grow + 1 := by
      have hsize : p.size = vdim + 1 := h.pointed
      rw [Array.size_append, Array.size_replicate]
      omega
    exact ⟨hpointed, ranges_extended h grow, fun k hk => hcount ▸ hk, fun a b _ hab _ => hab, hindex_lt,
      hdistinct⟩

end Storage

namespace Matrix

variable {m m' m'' : Matrix}

/-- The same type, orientation, options and values; the dimensions may differ. -/
structure Retains (m m' : Matrix) : Prop where
  type : m'.type = m.type
  byRow : m'.byRow = m.byRow
  options : m'.options = m.options
  value : m'.value = m.value

theorem Keeps.retains (h : m.Keeps m') : m.Retains m' := ⟨h.type, h.byRow, h.options, h.value⟩

theorem Retains.trans (h : m.Retains m') (h' : m'.Retains m'') : m.Retains m'' :=
  ⟨h'.type.trans h.type, h'.byRow.trans h.byRow, h'.options.trans h.options, h'.value.trans h.value⟩

theorem Retains.cell (h : m.Retains m') : m'.cell = m.cell := by
  funext row col
  rw [Matrix.cell, Matrix.cell, toVector, toVector, h.byRow, h.value]

/-- The matrix with room for more rows and columns. -/
def grown (m : Matrix) (nrows ncols : Nat) : Matrix :=
  { m with
    store := m.store.extended (if m.byRow then nrows - m.nrows else ncols - m.ncols)
    nrows, ncols }

section Grown

variable {nrows ncols : Nat}

theorem vdim_grown (hr : m.nrows ≤ nrows) (hc : m.ncols ≤ ncols) : (m.grown nrows ncols).vdim =
    m.vdim + if m.byRow then nrows - m.nrows else ncols - m.ncols := by
  change (if m.byRow then nrows else ncols) = (if m.byRow then m.nrows else m.ncols) + _
  split <;> omega

theorem indexAt_grown (m : Matrix) (nrows ncols : Nat) :
    (m.grown nrows ncols).store.indexAt = m.store.indexAt := by
  funext pos
  rw [Storage.indexAt, Storage.indexAt, grown, Storage.slots_extended]

theorem deadAt_grown (m : Matrix) (nrows ncols : Nat) :
    (m.grown nrows ncols).store.deadAt = m.store.deadAt := by
  funext pos
  rw [Storage.deadAt, Storage.deadAt, grown, Storage.slots_extended]

/-- A sparse index is in order also when it has grown. -/
theorem Laid.grown (h : m.Laid) (hd : m.store.dense = false) (hr : m.nrows ≤ nrows) (hc : m.ncols ≤ ncols) :
    (m.grown nrows ncols).Laid := by
  have hx := h.indexed hd
  have hd' : (m.grown nrows ncols).store.dense = false := (Storage.dense_extended _ _).trans hd
  have hslots : (m.grown nrows ncols).store.slots = m.store.slots := Storage.slots_extended _ _
  have hvalues : (m.grown nrows ncols).store.values = m.store.values := Storage.values_extended _ _
  have hlen : m.vlen ≤ (m.grown nrows ncols).vlen := by
    change (if m.byRow then m.ncols else m.nrows) ≤ if m.byRow then ncols else nrows
    split <;> assumption
  refine laid_sparse hd' ?_ (fun hj k hk a b ha hab hb => ?_)
    (by rw [hslots, deadAt_grown]; exact h.zombies hd) ?_ (by rw [hvalues]; exact h.typed)
  · rw [vdim_grown hr hc]
    exact hx.extended hd hlen
  · obtain ⟨hk', ha', -⟩ := (Storage.range_extended hx _ k a).1 ⟨hk, ha, Nat.lt_trans hab hb⟩
    obtain ⟨-, -, hb'⟩ := (Storage.range_extended hx _ k b).1 ⟨hk, Nat.le_trans ha (Nat.le_of_lt hab), hb⟩
    rw [indexAt_grown]
    exact h.sorted hd hj k hk' a b ha' hab hb'
  · have hsize := h.values
    rw [extent_sparse hd] at hsize
    rw [hvalues, hslots, hsize]
    rfl

/-- Every slot keeps its place. -/
theorem Laid.at_grown (h : m.Laid) (hd : m.store.dense = false) (hr : m.nrows ≤ nrows) (hc : m.ncols ≤ ncols)
    (i j pos : Nat) : (m.grown nrows ncols).At i j pos ↔ m.At i j pos := by
  have hd' : (m.grown nrows ncols).store.dense = false := (Storage.dense_extended _ _).trans hd
  have hrange := Storage.range_extended (h.indexed hd) (if m.byRow then nrows - m.nrows else ncols - m.ncols)
  have hvector : (m.grown nrows ncols).store.vectorAt = m.store.vectorAt := Storage.vectorAt_extended _ _
  rw [(h.grown hd hr hc).at_sparse_iff hd', h.at_sparse_iff hd, indexAt_grown, hvector]
  constructor
  · rintro ⟨k, hk, hkj, h₁, h₂, hpi⟩
    obtain ⟨hk', h₁', h₂'⟩ := (hrange k pos).1 ⟨hk, h₁, h₂⟩
    exact ⟨k, hk', hkj, h₁', h₂', hpi⟩
  · rintro ⟨k, hk, hkj, h₁, h₂, hpi⟩
    obtain ⟨hk', h₁', h₂'⟩ := (hrange k pos).2 ⟨hk, h₁, h₂⟩
    exact ⟨k, hk', hkj, h₁', h₂', hpi⟩

/-- **Growing the index keeps the content.** -/
theorem Inv.grown (h : m.Inv) (hd : m.store.dense = false) (hp : m.pending = none)
    (hr : m.nrows ≤ nrows) (hc : m.ncols ≤ ncols) (hr' : nrows ≤ maxDim) (hc' : ncols ≤ maxDim) :
    (m.grown nrows ncols).Inv ∧ m.Retains (m.grown nrows ncols) := by
  have hl := h.laid
  have hd' : (m.grown nrows ncols).store.dense = false := (Storage.dense_extended _ _).trans hd
  have hp' : (m.grown nrows ncols).pending = none := hp
  have hslots : (m.grown nrows ncols).store.slots = m.store.slots := Storage.slots_extended _ _
  have hvalues : (m.grown nrows ncols).store.values = m.store.values := Storage.values_extended _ _
  have hst : (m.grown nrows ncols).stored = m.stored := by
    funext i j
    refine hl.stored_congr (hl.grown hd hr hc) (hl.at_grown hd hr hc i j) fun pos hpos => ⟨?_, fun _ => ?_⟩
    · have hlt : pos < m.store.slots.size := extent_sparse hd ▸ hpos.1
      rw [present_sparse hd' (hslots.symm ▸ hlt), present_sparse hd hlt, deadAt_grown]
    · rw [valueAt, valueAt, shared, shared, hvalues]
      rfl
  refine ⟨⟨hl.grown hd hr hc, hr', hc', h.denseLimit, fun q hq => ?_⟩, rfl, rfl, rfl, ?_⟩
  · rw [hp'] at hq
    cases hq
  · funext i j
    rw [value_of_settled hp', value_of_settled hp, hst]

end Grown

/-- Only a format with a pointer for every vector takes more pointers. -/
theorem ensures_extendPointers (m : Matrix) (grow : Nat) : Ensures (extendPointers grow) m
    (fun _ t => t = { m with store := m.store.extended grow }) (fun e t => e.OfMemory ∧ t = m) := by
  unfold extendPointers
  refine ensures_subject ?_
  cases hs : m.store with
  | sparse p i x => exact ensures_reserve (fun e he => ⟨he, rfl⟩) (ensures_put rfl)
  | full x =>
    have hsame : (Storage.full x).extended grow = m.store := hs.symm
    exact ensures_pure (by rw [hsame])
  | bitmap b x n =>
    have hsame : (Storage.bitmap b x n).extended grow = m.store := hs.symm
    exact ensures_pure (by rw [hsame])
  | hypersparse l p i x =>
    have hsame : (Storage.hypersparse l p i x).extended grow = m.store := hs.symm
    exact ensures_pure (by rw [hsame])

theorem shares_grown (m : Matrix) (nrows ncols : Nat) : m.Shares (m.grown nrows ncols) :=
  shares_of_values rfl rfl rfl fun _ => Storage.values_extended _ _

/-- **Growing**, with a property that a commit keeps and that the format has no part in. Once the new
dimensions are in place, it only fails for the format that they ask for. -/
theorem ensures_resize_keeping {P : Matrix → Prop} (h : m.Inv) (hm : P m)
    (hwait : Ensures wait m (fun _ t => P t) fun _ t => P t) (hshares : ∀ s t, P s → s.Shares t → P t)
    (nrows ncols : Nat) : Ensures (resize nrows ncols) m
    (fun _ t => t.Inv ∧ m.Retains t ∧ (t.nrows = nrows ∧ t.ncols = ncols) ∧ P t)
    (fun e t => t.Inv ∧ m.Retains t ∧ P t ∧
      (e.OfMemory ∧ (m.SameShape t ∨ (t.nrows = nrows ∧ t.ncols = ncols) ∧ t.Stranded) ∨ t = m ∧
        ((nrows < m.nrows ∨ ncols < m.ncols) ∧ e = .invalid .shrinkingResize ∨
          (maxDim < nrows ∨ maxDim < ncols) ∧ e = .invalid .dimensionTooLarge))) := by
  have hsame := (Keeps.refl m).retains
  unfold resize
  refine ensures_subject (ensures_guard
    (fun hsmall => ⟨h, hsame, hm, .inr ⟨rfl, .inl ⟨hsmall, rfl⟩⟩⟩) fun hge => ?_)
  refine ensures_guard (fun hlarge => ⟨h, hsame, hm, .inr ⟨rfl, .inr ⟨hlarge, rfl⟩⟩⟩) fun hle => ?_
  refine ensures_ite (fun _ => ?_) fun heq => ensures_pure ⟨h, hsame, by omega, hm⟩
  refine ((ensures_wait h).and hwait).andThen (fun e t ht => ?_) ?_
  · obtain ⟨⟨he, hinv, hkeeps⟩, ht⟩ := ht
    exact ⟨hinv, hkeeps.retains, ht, .inl ⟨he, .inl hkeeps.toSameShape⟩⟩
  rintro _ s ⟨⟨hinv, hkeeps, hdef⟩, hs⟩
  -- a dense layout has no room for more cells: it goes over to a sparse one
  refine ensures_subject (ensures_when (fun t => t.Inv ∧ m.Keeps t ∧ t.deferred = false ∧
    t.store.dense = false ∧ P t) (fun _ => ?_) (fun hd => ⟨hinv, hkeeps, hdef, by simpa using hd, hs⟩) ?_)
  · refine ((ensures_convertTo hinv hdef .hypersparse trivial).and
      (hinv.laid.ensures_convertTo_shares _)).mono (fun _ t ht => ?_) ?_
    · obtain ⟨⟨htinv, htkeeps, htdef, hf⟩, hsh⟩ := ht
      exact ⟨htinv, hkeeps.trans htkeeps, htdef, Storage.dense_of_hypersparse hf, hshares _ _ hs hsh⟩
    · rintro e t ⟨⟨he, rfl⟩, -⟩
      exact ⟨hinv, hkeeps.retains, hs, .inl ⟨he, .inl hkeeps.toSameShape⟩⟩
  · rintro t ⟨htinv, htkeeps, htdef, hd, ht⟩
    have hgrow : (if m.byRow then nrows - m.nrows else ncols - m.ncols) =
        if t.byRow then nrows - t.nrows else ncols - t.ncols := by
      rw [htkeeps.byRow, htkeeps.nrows, htkeeps.ncols]
    rw [hgrow]
    set grow := if t.byRow then nrows - t.nrows else ncols - t.ncols with hg
    refine (ensures_extendPointers t grow).andThen ?_ ?_
    · rintro e _ ⟨he, rfl⟩
      exact ⟨htinv, htkeeps.retains, ht, .inl ⟨he, .inl htkeeps.toSameShape⟩⟩
    · -- the dimensions are in place now, and stay if no format can be found for them
      rintro - _ rfl
      obtain ⟨hginv, hgret⟩ := htinv.grown hd (deferred_eq_false_iff.1 htdef).1
        (show t.nrows ≤ nrows by rw [htkeeps.nrows]; omega)
        (show t.ncols ≤ ncols by rw [htkeeps.ncols]; omega) (by omega) (by omega)
      have hret := htkeeps.retains.trans hgret
      have hgP := hshares _ _ ht (shares_grown t nrows ncols)
      refine ensures_update_then (((ensures_conform hginv htdef).and (hginv.laid.ensures_conform_shares.and
        (hginv.ensures_conform_stranded htdef))).mono (fun _ u hu => ?_) ?_)
      · obtain ⟨⟨huinv, hukeeps, -⟩, hsh, -⟩ := hu
        exact ⟨huinv, hret.trans hukeeps.retains, ⟨hukeeps.nrows, hukeeps.ncols⟩, hshares _ _ hgP hsh⟩
      · rintro e u ⟨⟨he, rfl⟩, -, hstranded⟩
        exact ⟨hginv, hret, hgP, .inl ⟨he, .inr ⟨⟨rfl, rfl⟩, hstranded he⟩⟩⟩

/-- **Growing** keeps every value. If it fails for the new dimensions, the matrix is untouched; if it
fails for want of memory, every value is kept as well. -/
theorem ensures_resize (h : m.Inv) (nrows ncols : Nat) : Ensures (resize nrows ncols) m
    (fun _ t => t.Inv ∧ m.Retains t ∧ t.nrows = nrows ∧ t.ncols = ncols)
    (fun e t => t.Inv ∧ m.Retains t ∧ (e.OfMemory ∨ t = m ∧
      ((nrows < m.nrows ∨ ncols < m.ncols) ∧ e = .invalid .shrinkingResize ∨
        (maxDim < nrows ∨ maxDim < ncols) ∧ e = .invalid .dimensionTooLarge))) := by
  have hwait := (ensures_wait h).mono (fun _ _ _ => trivial) fun _ _ _ => trivial
  refine (ensures_resize_keeping (P := fun _ => True) h trivial hwait (fun _ _ _ _ => trivial) nrows
    ncols).mono (fun _ t ht => ⟨ht.1, ht.2.1, ht.2.2.1⟩) fun e t ht => ?_
  exact ⟨ht.1, ht.2.1, ht.2.2.2.imp_left And.left⟩

/-- A dimension that is too large is refused at once. -/
theorem ensures_resize_refused (m : Matrix) {dim : Nat} (hlarge : maxDim < dim) :
    Ensures (resize dim dim) m (fun _ _ => False) (fun _ t => t = m) := by
  unfold resize
  refine ensures_subject (ensures_guard (fun _ => rfl) fun _ => ?_)
  exact ensures_guard (fun _ => rfl) fun hle => absurd (.inl hlarge) hle

/-! ## The transpose -/

/-- **The transpose** holds every value at the exchanged cell. -/
theorem Inv.transposed (h : m.Inv) : m.transposed.Inv ∧ m.transposed.value = m.value := by
  obtain ⟨hl, hr, hc, hlimit, hq⟩ := h
  obtain ⟨type, nrows, ncols, byRow, store, iso, pending, zombies, jumbled, options⟩ := m
  cases byRow
  all_goals
    refine ⟨⟨⟨hl.cells_lt, hl.bits, hl.indexed, hl.sorted, hl.zombies, hl.calm, hl.values, hl.typed⟩, hc,
      hr, hlimit, fun q hp => ?_⟩, rfl⟩
    obtain ⟨hne, hcast, hall⟩ := hq q hp
    exact ⟨hne, hcast, fun t ht =>
      ⟨(hall t ht).index_lt, (hall t ht).vector_lt, (hall t ht).missing, (hall t ht).carries⟩⟩

theorem Inv.cell_transposed (h : m.Inv) (row col : Nat) :
    m.transposed.cell row col = m.cell col row := by
  have hplace : m.transposed.toVector row col = m.toVector col row := by
    change (if !m.byRow then _ else _) = _
    unfold toVector
    cases m.byRow <;> rfl
  rw [cell, cell, hplace, h.transposed.2]

end Matrix

end Adjacency
