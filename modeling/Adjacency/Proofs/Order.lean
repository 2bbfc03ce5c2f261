import Adjacency.Proofs.Keeps

/-!
# Sorting the vectors

A jumbled matrix lists the indices of a vector out of order. Sorting permutes the slots inside each pointer
range, so slot by slot the sorted matrix is the jumbled one read through `sortedFrom`.

* `Matrix.sortedFrom`: the slot that sorting puts at a position.
* `Matrix.Inv.unjumbled`: **sorting the vectors keeps the content.**
-/

namespace Adjacency

namespace Matrix

variable {m : Matrix}

/-- The slots of one pointer range, sorted by index. -/
def sortedRange (m : Matrix) (k : Nat) : List Nat :=
  stableSort (fun a b => decide (m.store.indexAt a ≤ m.store.indexAt b))
    (List.range' (m.store.start k) (m.store.start (k + 1) - m.store.start k))

/-- The slots in the order that sorting the vectors gives them. -/
def sortedSlots (m : Matrix) : List Nat := (List.range m.store.rangeCount).flatMap m.sortedRange

theorem sortedSlots_eq (m : Matrix) : m.sortedSlots = m.ranges.flatMap fun (start, stop) =>
    stableSort (fun a b => decide ((m.store.slots.getD a default).index ≤
      (m.store.slots.getD b default).index)) (List.range' start (stop - start)) := by
  rw [ranges_eq, List.flatMap_map]
  rfl

theorem sortedRange_perm (m : Matrix) (k : Nat) : (m.sortedRange k).Perm
    (List.range' (m.store.start k) (m.store.start (k + 1) - m.store.start k)) := stableSort_perm _

theorem sortedRange_sorted (m : Matrix) (k : Nat) :
    (m.sortedRange k).Pairwise fun a b => m.store.indexAt a ≤ m.store.indexAt b := by
  rw [sortedRange, stableSort_eq_mergeSort]
  refine (List.pairwise_mergeSort (fun a b c hab hbc => ?_) (fun a b => ?_) _).imp fun hab => ?_
  · simp only [decide_eq_true_eq] at *; omega
  · simp only [Bool.or_eq_true, decide_eq_true_eq]; omega
  · simpa using hab

theorem flatMap_ranges_id {start : Nat → Nat} {n size : Nat} (h : Partition start n size) :
    ((List.range n).flatMap fun k => List.range' (start k) (start (k + 1) - start k)) =
      List.range size := by
  have := h.flatMap_ranges fun _ pos => pos
  simpa using this

/-- Sorting the vectors is a permutation of the slots. -/
theorem Laid.sortedSlots_perm (h : m.Laid) (hd : m.store.dense = false) :
    m.sortedSlots.Perm (List.range m.store.slots.size) := by
  rw [← flatMap_ranges_id (h.indexed hd).ranges]
  exact List.Perm.flatMap_left _ fun k _ => m.sortedRange_perm k

/-- The blocks of a cut list, read by position. -/
theorem Partition.getElem?_flatMap {α : Type} {start : Nat → Nat} {n size : Nat}
    (h : Partition start n size) {B : Nat → List α} (hB : ∀ k, k < n →
      (B k).length = start (k + 1) - start k) {k pos : Nat} (hk : k < n) (h₁ : start k ≤ pos)
    (h₂ : pos < start (k + 1)) : ((List.range n).flatMap B)[pos]? = (B k)[pos - start k]? := by
  have hlen : ∀ k, k ≤ n → ((List.range k).flatMap B).length = start k := by
    intro k hk
    induction k with
    | zero => simp [h.first]
    | succ k ih =>
      have := h.step k hk
      rw [List.range_succ, List.flatMap_append, List.length_append, ih (by omega)]
      simp only [List.flatMap_cons, List.flatMap_nil, List.append_nil, hB k hk]
      omega
  have hsplit : List.range n = List.range k ++ k :: List.range' (k + 1) (n - k - 1) := by
    have := List.range'_append_1 (s := 0) (m := k) (n := n - k)
    rw [Nat.zero_add, Nat.add_sub_of_le (Nat.le_of_lt hk)] at this
    rw [List.range_eq_range', ← this, List.range_eq_range', show n - k = (n - k - 1) + 1 by omega,
      List.range'_succ]
    rfl
  rw [hsplit, List.flatMap_append, List.flatMap_cons,
    List.getElem?_append_right (by rw [hlen k (Nat.le_of_lt hk)]; exact h₁), hlen k (Nat.le_of_lt hk),
    List.getElem?_append_left (by rw [hB k hk]; omega)]

/-- What sorting puts at a position stands in the same range. -/
theorem Laid.sortedSlots_get (h : m.Laid) (hd : m.store.dense = false) {k pos : Nat}
    (hk : k < m.store.rangeCount) (h₁ : m.store.start k ≤ pos) (h₂ : pos < m.store.start (k + 1)) :
    m.sortedSlots[pos]? = (m.sortedRange k)[pos - m.store.start k]? :=
  Partition.getElem?_flatMap (h.indexed hd).ranges
    (fun k _ => by rw [(m.sortedRange_perm k).length_eq, List.length_range']) hk h₁ h₂

/-- The position that sorting the vectors takes a slot from. -/
def sortedFrom (m : Matrix) (pos : Nat) : Nat := m.sortedSlots.getD pos 0

theorem Laid.length_sortedSlots (h : m.Laid) (hd : m.store.dense = false) :
    m.sortedSlots.length = m.store.slots.size := by
  rw [(h.sortedSlots_perm hd).length_eq, List.length_range]

theorem Laid.map_sortedFrom (h : m.Laid) (hd : m.store.dense = false) :
    (List.range m.store.slots.size).map m.sortedFrom = m.sortedSlots := by
  refine List.ext_getElem (by simp [h.length_sortedSlots hd]) fun pos h₁ h₂ => ?_
  rw [List.getElem_map, List.getElem_range, sortedFrom, List.getD_eq_getElem _ _ h₂]

theorem Laid.sortedFrom_get (h : m.Laid) (hd : m.store.dense = false) {k pos : Nat}
    (hk : k < m.store.rangeCount) (h₁ : m.store.start k ≤ pos) (h₂ : pos < m.store.start (k + 1)) :
    ∃ hlt : pos - m.store.start k < (m.sortedRange k).length,
      m.sortedFrom pos = (m.sortedRange k)[pos - m.store.start k] := by
  have hlt : pos - m.store.start k < (m.sortedRange k).length := by
    rw [(m.sortedRange_perm k).length_eq, List.length_range']; omega
  refine ⟨hlt, ?_⟩
  rw [sortedFrom, List.getD_eq_getElem?_getD, h.sortedSlots_get hd hk h₁ h₂,
    List.getElem?_eq_getElem hlt, Option.getD_some]

/-- It stands in the same range. -/
theorem Laid.sortedFrom_range (h : m.Laid) (hd : m.store.dense = false) {k pos : Nat}
    (hk : k < m.store.rangeCount) (h₁ : m.store.start k ≤ pos) (h₂ : pos < m.store.start (k + 1)) :
    m.store.start k ≤ m.sortedFrom pos ∧ m.sortedFrom pos < m.store.start (k + 1) := by
  obtain ⟨hlt, heq⟩ := h.sortedFrom_get hd hk h₁ h₂
  have hmem := (m.sortedRange_perm k).mem_iff.1 (List.getElem_mem hlt)
  rw [← heq, List.mem_range'_1] at hmem
  omega

theorem Laid.sortedFrom_lt (h : m.Laid) (hd : m.store.dense = false) {pos : Nat}
    (hpos : pos < m.store.slots.size) : m.sortedFrom pos < m.store.slots.size := by
  have hx := h.indexed hd
  obtain ⟨hr, h₁, h₂⟩ := hx.rangeOf_lt hpos
  exact hx.lt_size hr (h.sortedFrom_range hd hr h₁ h₂).2

/-- Inside a range, indices ascend. -/
theorem Laid.sortedFrom_ascend (h : m.Laid) (hd : m.store.dense = false) {k a b : Nat}
    (hk : k < m.store.rangeCount) (ha : m.store.start k ≤ a) (hab : a < b)
    (hb : b < m.store.start (k + 1)) :
    m.store.indexAt (m.sortedFrom a) < m.store.indexAt (m.sortedFrom b) := by
  have hx := h.indexed hd
  obtain ⟨hal, hae⟩ := h.sortedFrom_get hd hk ha (Nat.lt_trans hab hb)
  obtain ⟨hbl, hbe⟩ := h.sortedFrom_get hd hk (Nat.le_trans ha (Nat.le_of_lt hab)) hb
  have hle := List.pairwise_iff_getElem.1 (m.sortedRange_sorted k) _ _ hal hbl (by omega)
  rw [← hae, ← hbe] at hle
  obtain ⟨ha₁, ha₂⟩ := h.sortedFrom_range hd hk ha (Nat.lt_trans hab hb)
  obtain ⟨hb₁, hb₂⟩ := h.sortedFrom_range hd hk (Nat.le_trans ha (Nat.le_of_lt hab)) hb
  refine Nat.lt_of_le_of_ne hle fun heq => ?_
  rcases Nat.lt_trichotomy (m.sortedFrom a) (m.sortedFrom b) with hlt | hc | hlt
  · exact hx.distinct k hk _ _ ha₁ hlt hb₂ heq
  · -- sorting is a permutation, so it takes no slot twice
    have hnodup : (m.sortedRange k).Nodup :=
      (m.sortedRange_perm k).nodup_iff.2 List.nodup_range'
    rw [hae, hbe] at hc
    have := (hnodup.getElem_inj_iff).1 hc
    omega
  · exact hx.distinct k hk _ _ hb₁ hlt ha₂ heq.symm

theorem unjumbled_store (m : Matrix) (hd : m.store.dense = false) : m.unjumbled.store =
    if m.iso then m.store.mapSlots fun i => (m.sortedSlots.map fun pos => i.getD pos default).toArray
    else (m.store.mapSlots fun i => (m.sortedSlots.map fun pos => i.getD pos default).toArray).mapValues
      fun x => (m.sortedSlots.map fun pos => x.getD pos m.type.zero).toArray := by
  rw [sortedSlots_eq, unjumbled]
  simp only [hd, Bool.false_eq_true, if_false]

section Sorted

variable (hd : m.store.dense = false)

include hd

theorem unjumbled_dense : m.unjumbled.store.dense = false := by
  rw [m.unjumbled_store hd]
  split <;> simp [hd]

theorem unjumbled_pointers : m.unjumbled.store.pointers = m.store.pointers := by
  rw [m.unjumbled_store hd]
  split <;> simp

theorem unjumbled_vectorAt : m.unjumbled.store.vectorAt = m.store.vectorAt := by
  rw [m.unjumbled_store hd]
  split <;> simp

theorem unjumbled_slots : m.unjumbled.store.slots =
    (m.sortedSlots.map fun pos => m.store.slots.getD pos default).toArray := by
  rw [m.unjumbled_store hd]
  split <;> simp [Storage.slots_mapSlots _ hd]

theorem unjumbled_values : m.unjumbled.store.values = if m.iso then m.store.values
    else (m.sortedSlots.map fun pos => m.store.values.getD pos m.type.zero).toArray := by
  rw [m.unjumbled_store hd]
  split <;> simp

variable (h : m.Laid)

include h

theorem Laid.unjumbled_size : m.unjumbled.store.slots.size = m.store.slots.size := by
  rw [unjumbled_slots hd]
  simp [h.length_sortedSlots hd]

/-! Slot by slot, the sorted matrix is the jumbled one elsewhere. -/

variable {pos : Nat} (hpos : pos < m.store.slots.size)

include hpos

theorem Laid.unjumbled_slot :
    m.unjumbled.store.slots.getD pos default = m.store.slots.getD (m.sortedFrom pos) default := by
  rw [← h.length_sortedSlots hd] at hpos
  rw [unjumbled_slots hd, sortedFrom, List.getD_eq_getElem _ _ hpos]
  simp [hpos]

theorem Laid.unjumbled_indexAt : m.unjumbled.store.indexAt pos = m.store.indexAt (m.sortedFrom pos) := by
  rw [Storage.indexAt, h.unjumbled_slot hd hpos]
  rfl

theorem Laid.unjumbled_deadAt : m.unjumbled.store.deadAt pos = m.store.deadAt (m.sortedFrom pos) := by
  rw [Storage.deadAt, h.unjumbled_slot hd hpos]
  rfl

theorem Laid.unjumbled_valueAt : m.unjumbled.valueAt pos = m.valueAt (m.sortedFrom pos) := by
  have hiso : m.unjumbled.iso = m.iso := rfl
  have hlen := h.length_sortedSlots hd
  have hpos' : pos < m.sortedSlots.length := hlen.symm ▸ hpos
  rw [valueAt, valueAt, hiso]
  cases hi : m.iso with
  | true =>
    rw [if_pos rfl, if_pos rfl, shared, shared, unjumbled_values hd, if_pos hi]
    rfl
  | false =>
    rw [if_neg (by simp), if_neg (by simp), unjumbled_values hd, if_neg (by simp [hi]), sortedFrom,
      List.getD_eq_getElem _ _ hpos']
    simp [hlen, hpos]

/-- Sorting leaves a slot in its vector, so it stands for the same place. -/
theorem Laid.unjumbled_place : m.unjumbled.place pos = m.place (m.sortedFrom pos) := by
  have hx := h.indexed hd
  obtain ⟨hr, h₁, h₂⟩ := hx.rangeOf_lt hpos
  obtain ⟨hs₁, hs₂⟩ := h.sortedFrom_range hd hr h₁ h₂
  rw [place_sparse hd, place_sparse (unjumbled_dense hd), h.unjumbled_indexAt hd hpos, unjumbled_vectorAt hd,
    Storage.rangeOf_congr (unjumbled_pointers hd), hx.rangeOf_eq hr hs₁ hs₂]

omit hpos

theorem Laid.unjumbled_indexed : m.unjumbled.store.Indexed m.vlen m.vdim := by
  have hx := h.indexed hd
  have hpointed : m.unjumbled.store.Pointed m.vdim := by
    rw [m.unjumbled_store hd]
    split <;> simp [hx.pointed]
  refine hx.of_slots hpointed (unjumbled_pointers hd) (unjumbled_vectorAt hd) (h.unjumbled_size hd)
    (fun pos hpos => ?_) fun k hk a b ha hab hb => ?_
  · rw [h.unjumbled_indexAt hd hpos]
    exact hx.index_lt _ (h.sortedFrom_lt hd hpos)
  · have hbs := hx.lt_size hk hb
    rw [h.unjumbled_indexAt hd (Nat.lt_trans hab hbs), h.unjumbled_indexAt hd hbs]
    exact Nat.ne_of_lt (h.sortedFrom_ascend hd hk ha hab hb)

theorem Laid.unjumbled : m.unjumbled.Laid := by
  have hx := h.indexed hd
  have hlen := h.length_sortedSlots hd
  have hsize := h.unjumbled_size hd
  have hvalues := h.values
  rw [extent_sparse hd] at hvalues
  refine laid_sparse (unjumbled_dense hd) (h.unjumbled_indexed hd) (fun _ k hk a b ha hab hb => ?_) ?_ ?_
    fun v hv => ?_
  · rw [Storage.rangeCount_congr (unjumbled_pointers hd)] at hk
    rw [Storage.start_congr (unjumbled_pointers hd)] at ha hb
    have hbs := hx.lt_size hk hb
    rw [h.unjumbled_indexAt hd (Nat.lt_trans hab hbs), h.unjumbled_indexAt hd hbs]
    exact h.sortedFrom_ascend hd hk ha hab hb
  · -- a permutation of the slots has as many tombstones
    have hcount := ((h.sortedSlots_perm hd).countP_eq m.store.deadAt).symm
    rw [← h.map_sortedFrom hd, List.countP_map] at hcount
    rw [hsize, countP_range_congr fun pos hpos => h.unjumbled_deadAt hd hpos]
    exact (h.zombies hd).trans hcount
  · have hiso : m.unjumbled.iso = m.iso := rfl
    rw [hsize, unjumbled_values hd, hiso]
    by_cases hi : m.iso = true
    · rw [if_pos hi, if_pos hi, hvalues, if_pos hi]
    · simp [hi, hlen]
  · rw [unjumbled_values hd] at hv
    split at hv
    · exact h.typed v hv
    · next hi =>
      simp only [List.mem_map] at hv
      obtain ⟨pos, hpos, rfl⟩ := hv
      have hpos' := List.mem_range.1 ((h.sortedSlots_perm hd).mem_iff.1 hpos)
      rw [if_neg hi] at hvalues
      exact h.typed _ (mem_values_getD (by omega))

/-- Sorting permutes the entries. -/
theorem Laid.unjumbled_entries : m.unjumbled.entries.Perm m.entries := by
  have hsize := h.unjumbled_size hd
  have hd' := unjumbled_dense hd
  have hentry : ∀ pos ∈ (List.range m.store.slots.size).filter m.unjumbled.present,
      m.unjumbled.entryAt pos = m.entryAt (m.sortedFrom pos) := by
    intro pos hpos
    have hlt := List.mem_range.1 (List.mem_of_mem_filter hpos)
    rw [entryAt, entryAt, h.unjumbled_place hd hlt, h.unjumbled_valueAt hd hlt]
  have hpresent : ∀ pos ∈ List.range m.store.slots.size,
      m.unjumbled.present pos = (m.present ∘ m.sortedFrom) pos := by
    intro pos hpos
    have hlt := List.mem_range.1 hpos
    rw [Function.comp, present_sparse hd' (hsize.symm ▸ hlt), present_sparse hd (h.sortedFrom_lt hd hlt),
      h.unjumbled_deadAt hd hlt]
  rw [entries, entries, extent_sparse hd, extent_sparse hd', hsize, List.map_congr_left hentry,
    List.filter_congr hpresent, ← Function.comp_def m.entryAt, ← List.map_map, ← List.filter_map,
    h.map_sortedFrom hd]
  exact ((h.sortedSlots_perm hd).filter _).map _

theorem Laid.at_unjumbled {i j : Nat} (hat : m.unjumbled.At i j pos) : m.At i j (m.sortedFrom pos) := by
  rw [At, extent_sparse (unjumbled_dense hd), h.unjumbled_size hd] at hat
  obtain ⟨hlt, hplace⟩ := hat
  rw [h.unjumbled_place hd hlt] at hplace
  rw [At, extent_sparse hd]
  exact ⟨h.sortedFrom_lt hd hlt, hplace⟩

end Sorted

/-- **Sorting the vectors** keeps the content and whatever else is deferred. -/
theorem Inv.unjumbled (h : m.Inv) (hj : m.jumbled = true) :
    m.unjumbled.Inv ∧ m.Keeps m.unjumbled ∧ m.unjumbled.jumbled = false ∧
      m.unjumbled.pending = m.pending ∧ m.unjumbled.iso = m.iso := by
  have hd : m.store.dense = false := h.sparse_of_deferred (by simp [deferred, hj])
  have hl := h.laid.unjumbled hd
  have hshape : m.SameShape m.unjumbled := ⟨rfl, rfl, rfl, rfl, rfl⟩
  have hshared : m.iso = true → m.unjumbled.shared = m.shared := by
    intro hi
    rw [shared, shared, unjumbled_values hd, if_pos hi]
    rfl
  have hstored := h.laid.stored_eq hl fun e => (h.laid.unjumbled_entries hd).mem_iff
  obtain ⟨hinv, hkeeps⟩ := h.of_layout hshape hl rfl rfl hshared
    (fun i j pos hat => ⟨_, h.laid.at_unjumbled hd hat⟩) hstored
  exact ⟨hinv, hkeeps, rfl, rfl, rfl⟩

end Matrix

end Adjacency
