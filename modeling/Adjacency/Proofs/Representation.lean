import Adjacency.Proofs.Reachable

/-!
# The representation invariant

`Matrix.Inv` speaks of storage positions, which is what proofs need. Here the same is said of the arrays
themselves, as they stand in the record.

* `Storage.Cuts`: pointers that cut an index into ranges.
* `Matrix.WellFormed`: index, values, counters, flags and queue fit together.
* `Matrix.Reachable.wellFormed`: **so it is in every matrix there can be.**
-/

namespace Adjacency

/-- The values that a queue holds. Without a value of its own a tuple holds none. -/
def Pending.values (q : Pending) : List Scalar := q.tuples.toList.filterMap QueuedTuple.value

/-- The pointers cut an index of `n` slots into ranges. -/
structure Storage.Cuts (p : Array Nat) (n : Nat) : Prop where
  first : p[0]? = some 0
  ascending : p.toList.Pairwise (· ≤ ·)
  last : p.back? = some n

namespace Matrix

/-- The slots of every vector of a sparse format, in the order of the pointers. -/
def vectorSlots (m : Matrix) : List (List Slot) :=
  m.ranges.map fun (start, stop) => (m.store.slots.extract start stop).toList

/-- A queued tuple stands inside the matrix, and its vector has no slot with its index, dead or alive. -/
structure Misses (m : Matrix) (t : QueuedTuple) : Prop where
  index_lt : t.i < m.vlen
  vector_lt : t.j < m.vdim
  missing : ∀ k v, m.vectorSlots[k]? = some v → m.store.vectorAt k = t.j → t.i ∉ v.map Slot.index

/-- Index, values, counters, flags and queue fit together. -/
structure WellFormed (m : Matrix) : Prop where
  /-- A sparse index has a pointer for every vector and one more. -/
  sparse : ∀ p i x, m.store = .sparse p i x → p.size = m.vdim + 1 ∧ Storage.Cuts p i.size
  /-- A hypersparse one lists its vectors in ascending order; each has a slot. -/
  hypersparse : ∀ h p i x, m.store = .hypersparse h p i x →
    h.toList.Pairwise (· < ·) ∧ (∀ j ∈ h, j < m.vdim) ∧
      p.size = h.size + 1 ∧ Storage.Cuts p i.size ∧ p.toList.Pairwise (· < ·)
  /-- The indices of a vector are inside the matrix, and differ; they ascend unless the matrix is jumbled.
  This holds of tombstones too. -/
  vectors : ∀ v ∈ m.vectorSlots, (∀ slot ∈ v, slot.index < m.vlen) ∧ (v.map Slot.index).Nodup ∧
    (m.jumbled = false → (v.map Slot.index).Pairwise (· < ·))
  zombies : m.zombies = m.store.slots.toList.countP Slot.dead
  /-- A bitmap has a bit for every cell, and counts those that are set. -/
  bitmap : ∀ b x n, m.store = .bitmap b x n → b.size = m.vlen * m.vdim ∧ n = b.toList.count true
  /-- One value is stored when all entries share it, else one for every slot or cell. -/
  values : m.store.values.size =
    if m.iso then 1 else if m.store.dense then m.vlen * m.vdim else m.store.slots.size
  typed : ∀ v ∈ m.store.values, v.type = m.type
  /-- Nothing is deferred over a dense format. -/
  dense : m.store.dense = true → m.pending = none ∧ m.zombies = 0 ∧ m.jumbled = false
  /-- Queued tuples miss the index. They hold values of the declared type, or none at all when the entries
  share one. -/
  pending : ∀ q, m.pending = some q → q.tuples ≠ #[] ∧ (∀ t ∈ q.tuples, m.Misses t) ∧
    q.values.length = (if m.iso then 0 else q.tuples.size) ∧ (∀ v ∈ q.values, v.type = q.type) ∧
    q.type.castable m.type = true

variable {m : Matrix}

/-! ## Arrays by position -/

/-- What holds between the places of an array holds along its list. -/
theorem pairwise_toList {α : Type} {a : Array α} {R : α → α → Prop} (d : α)
    (h : ∀ k l, k < l → l < a.size → R (a.getD k d) (a.getD l d)) : a.toList.Pairwise R := by
  rw [toList_eq_map_getD a d]
  exact List.pairwise_map.2 (pairwise_range h)

theorem cuts_of_partition {p : Array Nat} {n size : Nat} (h : Partition (p.getD · 0) n size)
    (hp : p.size = n + 1) : Storage.Cuts p size := by
  have hfirst := h.first
  have hlast := h.last
  refine ⟨?_, ?_, ?_⟩
  · rw [Storage.getElem?_eq_some_iff_getD]
    exact ⟨by omega, hfirst⟩
  · refine pairwise_toList 0 fun k l hkl hl => ?_
    exact h.mono (by omega) (by omega)
  · rw [Array.back?, Storage.getElem?_eq_some_iff_getD, hp, Nat.add_sub_cancel]
    exact ⟨by omega, hlast⟩

/-! ## Pointers -/

/-- A sparse index has a pointer for every vector and one more. -/
theorem Laid.cuts_of_sparse (h : m.Laid) {p : Array Nat} {i : Array Slot} {x : Array Scalar}
    (hs : m.store = .sparse p i x) : p.size = m.vdim + 1 ∧ Storage.Cuts p i.size := by
  have hx := h.indexed (by rw [hs]; rfl)
  rw [hs] at hx
  have hp : p.size = m.vdim + 1 := hx.pointed
  have hn : (Storage.sparse p i x).rangeCount = m.vdim := show p.size - 1 = _ by omega
  have hcut := hx.ranges
  rw [hn] at hcut
  exact ⟨hp, cuts_of_partition hcut hp⟩

/-- A hypersparse index lists its vectors in ascending order, and each of them has a slot. -/
theorem Laid.cuts_of_hypersparse (h : m.Laid) {l p : Array Nat} {i : Array Slot} {x : Array Scalar}
    (hs : m.store = .hypersparse l p i x) :
    l.toList.Pairwise (· < ·) ∧ (∀ j ∈ l, j < m.vdim) ∧
      p.size = l.size + 1 ∧ Storage.Cuts p i.size ∧ p.toList.Pairwise (· < ·) := by
  have hx := h.indexed (by rw [hs]; rfl)
  rw [hs] at hx
  obtain ⟨hp, hstep⟩ := hx.pointed
  have hn : (Storage.hypersparse l p i x).rangeCount = l.size := show p.size - 1 = _ by omega
  have hcut := hx.ranges
  have hasc := hx.ascending
  have hlt := hx.vector_lt
  rw [hn] at hcut hasc hlt
  refine ⟨pairwise_toList 0 fun a b hab hb => hasc a b (Nat.zero_le _) hab hb, fun j hj => ?_, hp,
    cuts_of_partition hcut hp, pairwise_toList 0 fun a b hab hb => ?_⟩
  · obtain ⟨k, hk, rfl⟩ := Array.getElem_of_mem hj
    have := hlt k hk
    simpa [Storage.vectorAt, hk] using this
  · -- every range has a slot, so the next pointer is larger
    have hnext := hstep a (by omega)
    have hmono := hcut.mono (a := a + 1) (b := b) hab (by omega)
    exact Nat.lt_of_lt_of_le hnext hmono

/-! ## Vectors -/

theorem vectorSlots_eq (m : Matrix) : m.vectorSlots = (List.range m.store.rangeCount).map fun k =>
    (m.store.slots.extract (m.store.start k) (m.store.start (k + 1))).toList := by
  rw [vectorSlots, ranges_eq, List.map_map]
  rfl

/-- The slots of a vector are those at the positions of its range. -/
theorem map_extract {β : Type} (f : Slot → β) {s : Storage} {a b : Nat} (hb : b ≤ s.slots.size) :
    (s.slots.extract a b).toList.map f =
      (List.range' a (b - a)).map fun pos => f (s.slots.getD pos default) := by
  refine List.ext_getElem (by simp; omega) fun k h₁ h₂ => ?_
  have hk : k < b - a := by simpa using h₂
  have hlt : a + k < s.slots.size := by omega
  simp [hlt]

theorem Laid.range_le (h : m.Laid) (hd : m.store.dense = false) {k : Nat} (hk : k < m.store.rangeCount) :
    m.store.start (k + 1) ≤ m.store.slots.size := by
  have hx := h.indexed hd
  rw [← hx.ranges.last]
  exact hx.ranges.mono hk (Nat.le_refl _)

/-- Only a sparse format has vectors of slots. -/
theorem rangeCount_dense (hd : m.store.dense = true) : m.store.rangeCount = 0 := by
  cases hs : m.store with
  | full x => rfl
  | bitmap b x n => rfl
  | sparse p i x => rw [hs] at hd; cases hd
  | hypersparse h p i x => rw [hs] at hd; cases hd

theorem Laid.vectors (h : m.Laid) {v : List Slot} (hv : v ∈ m.vectorSlots) :
    (∀ slot ∈ v, slot.index < m.vlen) ∧ (v.map Slot.index).Nodup ∧
      (m.jumbled = false → (v.map Slot.index).Pairwise (· < ·)) := by
  rw [vectorSlots_eq, List.mem_map] at hv
  obtain ⟨k, hk, rfl⟩ := hv
  rw [List.mem_range] at hk
  cases hd : m.store.dense with
  | true =>
    rw [rangeCount_dense hd] at hk
    omega
  | false =>
    have hx := h.indexed hd
    have hle := h.range_le hd hk
    have hmap := map_extract (s := m.store) (a := m.store.start k) Slot.index hle
    have hrange := List.pairwise_lt_range' (s := m.store.start k)
      (n := m.store.start (k + 1) - m.store.start k)
    refine ⟨fun slot hslot => ?_, ?_, fun hj => ?_⟩
    · have hmem := List.mem_map_of_mem (f := Slot.index) hslot
      rw [hmap, List.mem_map] at hmem
      obtain ⟨pos, hpos, heq⟩ := hmem
      rw [← heq]
      rw [List.mem_range'_1] at hpos
      exact hx.index_lt pos (by omega)
    · rw [hmap]
      refine List.pairwise_map.2 (hrange.imp_of_mem fun {a b} ha hb hab => ?_)
      rw [List.mem_range'_1] at ha hb
      exact hx.distinct k hk a b ha.1 hab (by omega)
    · rw [hmap]
      refine List.pairwise_map.2 (hrange.imp_of_mem fun {a b} ha hb hab => ?_)
      rw [List.mem_range'_1] at ha hb
      exact h.sorted hd hj k hk a b ha.1 hab (by omega)

theorem Laid.zombies_eq (h : m.Laid) : m.zombies = m.store.slots.toList.countP Slot.dead := by
  cases hd : m.store.dense with
  | true =>
    have hslots : m.store.slots = #[] := by
      cases hs : m.store with
      | full x => rfl
      | bitmap b x n => rfl
      | sparse p i x => rw [hs] at hd; cases hd
      | hypersparse l p i x => rw [hs] at hd; cases hd
    rw [hslots]
    exact (deferred_eq_false_iff.1 (h.calm hd)).2.1
  | false =>
    rw [h.zombies hd, toList_eq_map_getD m.store.slots default, List.countP_map]
    rfl

/-! ## The queue -/

/-- A tuple whose place is not in the index misses every slot of its vector. -/
theorem Awaits.misses (h : m.Laid) (hd : m.store.dense = false) {type : ScalarType} {t : QueuedTuple}
    (ht : m.Awaits type t) : m.Misses t := by
  refine ⟨ht.index_lt, ht.vector_lt, fun k v hv hkj hmem => ?_⟩
  rw [vectorSlots_eq, List.getElem?_map, Option.map_eq_some_iff] at hv
  obtain ⟨k', hk', rfl⟩ := hv
  obtain ⟨hk, rfl⟩ := List.getElem?_eq_some_iff.1 hk'
  simp only [List.getElem_range, List.length_range] at hk hmem
  rw [map_extract Slot.index (h.range_le hd hk), List.mem_map] at hmem
  obtain ⟨pos, hpos, hi⟩ := hmem
  rw [List.mem_range'_1] at hpos
  refine ht.missing pos ((h.at_sparse_iff hd).2 ⟨k, hk, hkj, hpos.1, ?_, hi⟩)
  have := (h.indexed hd).ranges.step k hk
  omega

theorem length_values (q : Pending) {iso : Bool}
    (h : ∀ t ∈ q.tuples.toList, match t.value with
      | none => iso = true
      | some _ => iso = false) :
    q.values.length = if iso then 0 else q.tuples.size := by
  unfold Pending.values
  cases iso with
  | true =>
    have hnone : q.tuples.toList.filterMap QueuedTuple.value = [] := by
      rw [List.filterMap_eq_nil_iff]
      intro t ht
      have := h t ht
      cases hv : t.value with
      | none => rfl
      | some v => rw [hv] at this; cases this
    rw [hnone]
    rfl
  | false =>
    rw [List.length_filterMap_eq_countP, if_neg Bool.false_ne_true, ← Array.length_toList]
    refine List.countP_eq_length.2 fun t ht => ?_
    have := h t ht
    cases hv : t.value with
    | none => rw [hv] at this; cases this
    | some v => rfl

/-- The tuples of the queue miss the index, and the values they carry are typed. -/
theorem Inv.queue_formed (h : m.Inv) {q : Pending} (hq : m.pending = some q) :
    q.tuples ≠ #[] ∧ (∀ t ∈ q.tuples, m.Misses t) ∧
      q.values.length = (if m.iso then 0 else q.tuples.size) ∧ (∀ v ∈ q.values, v.type = q.type) ∧
      q.type.castable m.type = true := by
  obtain ⟨hne, hcast, hall⟩ := h.queued q hq
  have hd : m.store.dense = false := h.sparse_of_deferred (by rw [deferred, hq]; rfl)
  refine ⟨fun hnil => hne (by rw [hnil]), fun t ht => (hall t (by simpa using ht)).misses h.laid hd,
    length_values q fun t ht => ?_, fun v hv => ?_, hcast⟩
  · have := (hall t ht).carries
    cases hv : t.value with
    | none => rwa [hv] at this
    | some v => rw [hv] at this; exact this.1
  · rw [Pending.values, List.mem_filterMap] at hv
    obtain ⟨t, ht, hv⟩ := hv
    have := (hall t ht).carries
    rw [hv] at this
    exact this.2

/-- **A matrix in order is well formed.** -/
theorem wellFormed_of_inv (h : m.Inv) : m.WellFormed := by
  have hl := h.laid
  refine ⟨fun p i x hs => hl.cuts_of_sparse hs, fun l p i x hs => hl.cuts_of_hypersparse hs,
    fun v hv => hl.vectors hv, hl.zombies_eq, fun b x n hs => ?_, ?_,
    fun v hv => hl.typed v (by simpa using hv), fun hd => deferred_eq_false_iff.1 (hl.calm hd),
    fun q hq => h.queue_formed hq⟩
  · obtain ⟨hb, hn⟩ := hl.bits b x n hs
    refine ⟨hb, ?_⟩
    rw [hn, ← hb, toList_eq_map_getD b false, List.count_eq_countP, List.countP_map]
    refine List.countP_congr fun k _ => ?_
    simp
  · rw [hl.values]
    cases hd : m.store.dense with
    | true => rw [extent_dense hl hd]; rfl
    | false => rw [extent_sparse hd]; rfl

/-- **Every matrix there can be is well formed**, whatever calls led to it, those that failed included. -/
theorem Reachable.wellFormed (h : m.Reachable) : m.WellFormed := wellFormed_of_inv h.inv

/-- A write queued without a value, over an index that is still empty. -/
theorem wellFormed_queued_write : ∃ m : Matrix, m.pending.isSome = true ∧ m.iso = true ∧ m.WellFormed := by
  have hlimit : ({} : MatrixOptions).maxDenseCells < UInt64.size := by decide
  have hnew : withOptions .int64 3 4 {} = .ok (blank .int64 3 4 true {}) := rfl
  have hm := (Reachable.created hlimit hnew).requested (r := .set (.int64 5) 1 2) (n := {}) trivial rfl
  exact ⟨_, rfl, rfl, Reachable.wellFormed hm⟩

end Matrix

end Adjacency
