import Adjacency.Proofs.Search
import Adjacency.Proofs.Entries

/-!
# Where entries stand in the index

Storage positions run from `0` to the extent of a matrix. In a dense format a position is a cell; in a
sparse one it is an index slot inside one of the pointer ranges. `Matrix.place` gives the index and
vector of a position in either case, and `Matrix.Laid` says that the index is in order.

* `Partition.range_of_lt`: every position lies in exactly one range.
* `Matrix.Laid.place_injective`, `Matrix.Laid.place_before`: no two positions share a place, and unless
  the matrix is jumbled positions ascend with their places.
* `Matrix.Laid.locate_cases`: what the point lookup finds.
-/

namespace Adjacency

/-- The numbers from `0` to `size`, cut into `n` ranges by their starts. -/
structure Partition (start : Nat → Nat) (n size : Nat) : Prop where
  first : start 0 = 0
  step : ∀ k, k < n → start k ≤ start (k + 1)
  last : start n = size

namespace Partition

variable {start : Nat → Nat} {n size : Nat}

theorem mono (h : Partition start n size) {a b : Nat} (hab : a ≤ b) (hb : b ≤ n) :
    start a ≤ start b := by
  induction b with
  | zero => rw [Nat.le_zero.1 hab]
  | succ b ih =>
    rcases Nat.eq_or_lt_of_le hab with rfl | hlt
    · exact Nat.le_refl _
    · exact Nat.le_trans (ih (by omega) (by omega)) (h.step b (by omega))

/-- The range that a number lies in. -/
theorem range_of_lt (h : Partition start n size) {pos : Nat} (hpos : pos < size) :
    Nat.findGreatest (fun k => start k ≤ pos) n < n ∧
      start (Nat.findGreatest (fun k => start k ≤ pos) n) ≤ pos ∧
      pos < start (Nat.findGreatest (fun k => start k ≤ pos) n + 1) := by
  have hle : Nat.findGreatest (fun k => start k ≤ pos) n ≤ n := Nat.findGreatest_le n
  have hspec : start (Nat.findGreatest (fun k => start k ≤ pos) n) ≤ pos :=
    Nat.findGreatest_spec (P := fun k => start k ≤ pos) (Nat.zero_le n) (by rw [h.first]; omega)
  have hlt : Nat.findGreatest (fun k => start k ≤ pos) n < n := by
    rcases Nat.eq_or_lt_of_le hle with heq | hlt
    · rw [heq, h.last] at hspec; omega
    · exact hlt
  refine ⟨hlt, hspec, Nat.lt_of_not_le fun hge => ?_⟩
  exact Nat.findGreatest_is_greatest (P := fun k => start k ≤ pos) (Nat.lt_succ_self _) hlt hge

theorem range_unique (h : Partition start n size) {a b pos : Nat} (ha : a < n) (hb : b < n)
    (ha₁ : start a ≤ pos) (ha₂ : pos < start (a + 1)) (hb₁ : start b ≤ pos)
    (hb₂ : pos < start (b + 1)) : a = b := by
  rcases Nat.lt_trichotomy a b with hlt | heq | hlt
  · have := h.mono (a := a + 1) (b := b) hlt (by omega); omega
  · exact heq
  · have := h.mono (a := b + 1) (b := a) hlt (by omega); omega

theorem range_eq (h : Partition start n size) {k pos : Nat} (hk : k < n) (h₁ : start k ≤ pos)
    (h₂ : pos < start (k + 1)) : Nat.findGreatest (fun k => start k ≤ pos) n = k := by
  have hsize : pos < size := by
    have := h.mono (a := k + 1) (b := n) hk (Nat.le_refl _)
    rw [h.last] at this; omega
  obtain ⟨hr₁, hr₂, hr₃⟩ := h.range_of_lt hsize
  exact h.range_unique hr₁ hk hr₂ hr₃ h₁ h₂

end Partition

/-- The formats that hold a cell for every position. -/
def Format.dense : Format → Bool
  | .full | .bitmap => true
  | .sparse | .hypersparse => false

namespace Storage

variable (s : Storage)

/-- The number of pointer ranges. -/
def rangeCount : Nat := s.pointers.size - 1

/-- Where a pointer range starts. -/
def start (k : Nat) : Nat := s.pointers.getD k 0

/-- The pointer range of an index slot. -/
def rangeOf (pos : Nat) : Nat := Nat.findGreatest (fun k => s.start k ≤ pos) s.rangeCount

/-- The index in a slot. -/
def indexAt (pos : Nat) : Nat := (s.slots.getD pos default).index

/-- A slot is a tombstone. -/
def deadAt (pos : Nat) : Bool := (s.slots.getD pos default).dead

theorem dense_eq (s : Storage) : s.dense = s.format.dense := by cases s <;> rfl

theorem format_of_dense {s : Storage} (hd : s.dense = true) (hf : s.format ≠ .full) :
    s.format = .bitmap := by
  rw [dense_eq] at hd
  cases h : s.format with
  | full => exact absurd h hf
  | bitmap => rfl
  | sparse => rw [h] at hd; cases hd
  | hypersparse => rw [h] at hd; cases hd

theorem exists_bitmap {s : Storage} (hf : s.format = .bitmap) : ∃ b x n, s = .bitmap b x n := by
  cases s with
  | bitmap b x n => exact ⟨b, x, n, rfl⟩
  | full x => cases hf
  | sparse p i x => cases hf
  | hypersparse h p i x => cases hf

theorem dense_of_hypersparse {s : Storage} (hf : s.format = .hypersparse) : s.dense = false := by
  rw [dense_eq, hf]
  rfl

/-- The pointers of a format: one range for each of `vdim` vectors, or one non-empty range for each
vector listed. -/
def Pointed (s : Storage) (vdim : Nat) : Prop :=
  match s with
  | .sparse p _ _ => p.size = vdim + 1
  | .hypersparse h p _ _ => p.size = h.size + 1 ∧ ∀ k, k < h.size → p.getD k 0 < p.getD (k + 1) 0
  | _ => True

/-- The index of a sparse format is in order: the ranges cut up the slots, their vectors ascend, and
inside a range no index stands twice. -/
structure Indexed (s : Storage) (vlen vdim : Nat) : Prop where
  pointed : s.Pointed vdim
  ranges : Partition s.start s.rangeCount s.slots.size
  vector_lt : ∀ k, k < s.rangeCount → s.vectorAt k < vdim
  ascending : Ascending s.vectorAt 0 s.rangeCount
  index_lt : ∀ pos, pos < s.slots.size → s.indexAt pos < vlen
  distinct : ∀ k, k < s.rangeCount → ∀ a b, s.start k ≤ a → a < b → b < s.start (k + 1) →
    s.indexAt a ≠ s.indexAt b

variable {s} {vlen vdim : Nat}

theorem Indexed.rangeOf_lt (h : s.Indexed vlen vdim) {pos : Nat} (hpos : pos < s.slots.size) :
    s.rangeOf pos < s.rangeCount ∧ s.start (s.rangeOf pos) ≤ pos ∧ pos < s.start (s.rangeOf pos + 1) :=
  h.ranges.range_of_lt hpos

theorem Indexed.rangeOf_eq (h : s.Indexed vlen vdim) {k pos : Nat} (hk : k < s.rangeCount)
    (h₁ : s.start k ≤ pos) (h₂ : pos < s.start (k + 1)) : s.rangeOf pos = k :=
  h.ranges.range_eq hk h₁ h₂

theorem Indexed.lt_size (h : s.Indexed vlen vdim) {k pos : Nat} (hk : k < s.rangeCount)
    (hp : pos < s.start (k + 1)) : pos < s.slots.size := by
  have := h.ranges.mono (a := k + 1) hk (Nat.le_refl _)
  rw [h.ranges.last] at this; omega

theorem Indexed.rangeOf_mono (h : s.Indexed vlen vdim) {a b : Nat} (hab : a < b)
    (hb : b < s.slots.size) : s.rangeOf a ≤ s.rangeOf b := by
  obtain ⟨ha₁, -, ha₃⟩ := h.rangeOf_lt (show a < _ by omega)
  obtain ⟨hb₁, hb₂, hb₃⟩ := h.rangeOf_lt hb
  by_contra hlt
  have := h.ranges.mono (a := s.rangeOf b + 1) (b := s.rangeOf a) (by omega) (by omega)
  have := (h.rangeOf_lt (show a < _ by omega)).2.1
  omega

/-! ## Changing slots and values -/

variable (s)

@[simp] theorem format_mapValues (f : Array Scalar → Array Scalar) : (s.mapValues f).format = s.format := by
  cases s <;> rfl

@[simp] theorem format_mapSlots (f : Array Slot → Array Slot) : (s.mapSlots f).format = s.format := by
  cases s <;> rfl

@[simp] theorem dense_mapValues (f : Array Scalar → Array Scalar) : (s.mapValues f).dense = s.dense := by
  cases s <;> rfl

@[simp] theorem dense_mapSlots (f : Array Slot → Array Slot) : (s.mapSlots f).dense = s.dense := by
  cases s <;> rfl

@[simp] theorem pointers_mapValues (f : Array Scalar → Array Scalar) :
    (s.mapValues f).pointers = s.pointers := by
  cases s <;> rfl

@[simp] theorem pointers_mapSlots (f : Array Slot → Array Slot) :
    (s.mapSlots f).pointers = s.pointers := by
  cases s <;> rfl

@[simp] theorem slots_mapValues (f : Array Scalar → Array Scalar) : (s.mapValues f).slots = s.slots := by
  cases s <;> rfl

theorem slots_mapSlots (hd : s.dense = false) (f : Array Slot → Array Slot) :
    (s.mapSlots f).slots = f s.slots := by
  cases s <;> first | rfl | simp [dense] at hd

@[simp] theorem values_mapValues (f : Array Scalar → Array Scalar) :
    (s.mapValues f).values = f s.values := by
  cases s <;> rfl

@[simp] theorem values_mapSlots (f : Array Slot → Array Slot) : (s.mapSlots f).values = s.values := by
  cases s <;> rfl

@[simp] theorem vectorAt_mapValues (f : Array Scalar → Array Scalar) :
    (s.mapValues f).vectorAt = s.vectorAt := by
  cases s <;> rfl

@[simp] theorem vectorAt_mapSlots (f : Array Slot → Array Slot) :
    (s.mapSlots f).vectorAt = s.vectorAt := by
  cases s <;> rfl

@[simp] theorem pointed_mapValues (f : Array Scalar → Array Scalar) :
    (s.mapValues f).Pointed vdim ↔ s.Pointed vdim := by
  cases s <;> rfl

@[simp] theorem pointed_mapSlots (f : Array Slot → Array Slot) :
    (s.mapSlots f).Pointed vdim ↔ s.Pointed vdim := by
  cases s <;> rfl

variable {s} {s' : Storage}

/-- Two formats with the same pointers cut up the same ranges. -/
theorem rangeCount_congr (hp : s'.pointers = s.pointers) : s'.rangeCount = s.rangeCount := by
  rw [rangeCount, rangeCount, hp]

theorem start_congr (hp : s'.pointers = s.pointers) : s'.start = s.start := by
  funext k; rw [start, start, hp]

theorem rangeOf_congr (hp : s'.pointers = s.pointers) : s'.rangeOf = s.rangeOf := by
  funext pos; rw [rangeOf, rangeOf, start_congr hp, rangeCount_congr hp]

/-- New slots under the same pointers. -/
theorem Indexed.of_slots (h : s.Indexed vlen vdim) (hpt : s'.Pointed vdim)
    (hp : s'.pointers = s.pointers) (hv : s'.vectorAt = s.vectorAt)
    (hsize : s'.slots.size = s.slots.size)
    (hlt : ∀ pos, pos < s.slots.size → s'.indexAt pos < vlen)
    (hne : ∀ k, k < s.rangeCount → ∀ a b, s.start k ≤ a → a < b → b < s.start (k + 1) →
      s'.indexAt a ≠ s'.indexAt b) : s'.Indexed vlen vdim := by
  refine ⟨hpt, ?_, ?_, ?_, ?_, ?_⟩
  · rw [start_congr hp, rangeCount_congr hp, hsize]; exact h.ranges
  · rw [rangeCount_congr hp, hv]; exact h.vector_lt
  · rw [rangeCount_congr hp, hv]; exact h.ascending
  · rw [hsize]; exact hlt
  · rw [rangeCount_congr hp, start_congr hp]; exact hne

/-- The same indices under the same pointers. -/
theorem Indexed.congr (h : s.Indexed vlen vdim) (hpt : s'.Pointed vdim)
    (hp : s'.pointers = s.pointers) (hv : s'.vectorAt = s.vectorAt)
    (hsize : s'.slots.size = s.slots.size)
    (hidx : ∀ pos, pos < s.slots.size → s'.indexAt pos = s.indexAt pos) : s'.Indexed vlen vdim := by
  refine h.of_slots hpt hp hv hsize (fun pos hpos => ?_) fun k hk a b ha hab hb => ?_
  · rw [hidx pos hpos]; exact h.index_lt pos hpos
  · have hbs := h.lt_size hk hb
    rw [hidx a (Nat.lt_trans hab hbs), hidx b hbs]
    exact h.distinct k hk a b ha hab hb

end Storage

namespace Matrix

variable (m : Matrix)

/-- Index and vector of a storage position. -/
def place (pos : Nat) : Nat × Nat :=
  if m.store.dense then (pos % m.vlen, pos / m.vlen)
  else (m.store.indexAt pos, m.store.vectorAt (m.store.rangeOf pos))

/-- There is an entry at a storage position. -/
def present (pos : Nat) : Bool := if m.store.dense then m.cellPresent pos else m.slotLive pos

/-- Index `i` of vector `j` stands at a storage position, as an entry or not. -/
def At (i j pos : Nat) : Prop := pos < m.extent ∧ m.place pos = (i, j)

/-- The index and the values are in order. -/
structure Laid (m : Matrix) : Prop where
  cells_lt : m.store.dense → m.vlen * m.vdim < UInt64.size
  bits : ∀ b x n, m.store = .bitmap b x n →
    b.size = m.vlen * m.vdim ∧ n = (List.range (m.vlen * m.vdim)).countP (b.getD · false)
  indexed : m.store.dense = false → m.store.Indexed m.vlen m.vdim
  sorted : m.store.dense = false → m.jumbled = false → ∀ k, k < m.store.rangeCount →
    Ascending m.store.indexAt (m.store.start k) (m.store.start (k + 1))
  zombies : m.store.dense = false →
    m.zombies = (List.range m.store.slots.size).countP m.store.deadAt
  calm : m.store.dense → m.deferred = false
  values : m.store.values.size = if m.iso then 1 else m.extent
  typed : ∀ v ∈ m.store.values.toList, v.type = m.type

variable {m}

/-- A dense format in order. -/
theorem laid_dense (hd : m.store.dense = true) (hcells : m.vlen * m.vdim < UInt64.size)
    (hbits : ∀ b x n, m.store = .bitmap b x n →
      b.size = m.vlen * m.vdim ∧ n = (List.range (m.vlen * m.vdim)).countP (b.getD · false))
    (hcalm : m.deferred = false) (hsize : m.store.values.size = if m.iso then 1 else m.extent)
    (htyped : ∀ v ∈ m.store.values.toList, v.type = m.type) : m.Laid where
  cells_lt _ := hcells
  bits := hbits
  indexed hs := by rw [hd] at hs; cases hs
  sorted hs := by rw [hd] at hs; cases hs
  zombies hs := by rw [hd] at hs; cases hs
  calm _ := hcalm
  values := hsize
  typed := htyped

/-- A sparse format in order. -/
theorem laid_sparse (hd : m.store.dense = false) (hindexed : m.store.Indexed m.vlen m.vdim)
    (hsorted : m.jumbled = false → ∀ k, k < m.store.rangeCount →
      Ascending m.store.indexAt (m.store.start k) (m.store.start (k + 1)))
    (hzombies : m.zombies = (List.range m.store.slots.size).countP m.store.deadAt)
    (hsize : m.store.values.size = if m.iso then 1 else m.store.slots.size)
    (htyped : ∀ v ∈ m.store.values.toList, v.type = m.type) : m.Laid where
  cells_lt hs := by rw [hd] at hs; cases hs
  bits b x n hs := by rw [hs] at hd; cases hd
  indexed _ := hindexed
  sorted _ := hsorted
  zombies _ := hzombies
  calm hs := by rw [hd] at hs; cases hs
  values := by rw [hsize, extent, hd]; rfl
  typed := htyped

theorem wordOf_eq {n : Nat} (h : n < UInt64.size) : wordOf n = n := Nat.mod_eq_of_lt h

theorem extent_dense (h : m.Laid) (hd : m.store.dense = true) : m.extent = m.vlen * m.vdim := by
  rw [extent, if_pos hd, cells, wordOf_eq (h.cells_lt hd)]

theorem extent_sparse (hd : m.store.dense = false) : m.extent = m.store.slots.size := by
  rw [extent, hd]; rfl

theorem place_dense (hd : m.store.dense = true) (pos : Nat) :
    m.place pos = (pos % m.vlen, pos / m.vlen) := if_pos hd

theorem place_sparse (hd : m.store.dense = false) (pos : Nat) :
    m.place pos = (m.store.indexAt pos, m.store.vectorAt (m.store.rangeOf pos)) := by
  rw [place, hd]; rfl

/-- In a dense format index `i` of vector `j` is cell `i + j * vlen`. -/
theorem Laid.at_dense_iff (h : m.Laid) (hd : m.store.dense = true) {i j pos : Nat} :
    m.At i j pos ↔ i < m.vlen ∧ j < m.vdim ∧ pos = i + j * m.vlen := by
  rw [At, extent_dense h hd, place_dense hd, Prod.mk.injEq]
  constructor
  · rintro ⟨hpos, rfl, rfl⟩
    have hv : 0 < m.vlen := by
      rcases Nat.eq_zero_or_pos m.vlen with hz | hp
      · rw [hz, Nat.zero_mul] at hpos; omega
      · exact hp
    exact ⟨Nat.mod_lt _ hv, Nat.div_lt_of_lt_mul hpos, (Nat.mod_add_div' pos m.vlen).symm⟩
  · rintro ⟨hi, hj, rfl⟩
    have hv : 0 < m.vlen := by omega
    have hmul : (j + 1) * m.vlen ≤ m.vdim * m.vlen := Nat.mul_le_mul_right _ hj
    rw [Nat.succ_mul, Nat.mul_comm m.vdim] at hmul
    refine ⟨by omega, ?_, ?_⟩
    · rw [Nat.add_mul_mod_self_right, Nat.mod_eq_of_lt hi]
    · rw [Nat.add_mul_div_right _ _ hv, Nat.div_eq_of_lt hi, Nat.zero_add]

theorem Laid.densePos_eq (h : m.Laid) (hd : m.store.dense = true) {i j : Nat} (hi : i < m.vlen)
    (hj : j < m.vdim) : m.densePos i j = i + j * m.vlen := by
  have hat : m.At i j (i + j * m.vlen) := (h.at_dense_iff hd).2 ⟨hi, hj, rfl⟩
  have hlt := hat.1
  rw [extent_dense h hd] at hlt
  have := h.cells_lt hd
  rw [densePos, wordOf_eq (n := j * m.vlen) (by omega), wordOf_eq (by omega)]

/-- In a sparse format index `i` of vector `j` stands in the range of its vector. -/
theorem Laid.at_sparse_iff (h : m.Laid) (hd : m.store.dense = false) {i j pos : Nat} :
    m.At i j pos ↔ ∃ k, k < m.store.rangeCount ∧ m.store.vectorAt k = j ∧ m.store.start k ≤ pos ∧
      pos < m.store.start (k + 1) ∧ m.store.indexAt pos = i := by
  have hx := h.indexed hd
  rw [At, extent_sparse hd, place_sparse hd, Prod.mk.injEq]
  constructor
  · rintro ⟨hpos, rfl, rfl⟩
    obtain ⟨h₁, h₂, h₃⟩ := hx.rangeOf_lt hpos
    exact ⟨_, h₁, rfl, h₂, h₃, rfl⟩
  · rintro ⟨k, hk, rfl, h₁, h₂, rfl⟩
    exact ⟨hx.lt_size hk h₂, rfl, by rw [hx.rangeOf_eq hk h₁ h₂]⟩

theorem Laid.at_lt (h : m.Laid) {i j pos : Nat} (hat : m.At i j pos) : i < m.vlen ∧ j < m.vdim := by
  cases hd : m.store.dense with
  | true => exact ⟨((h.at_dense_iff hd).1 hat).1, ((h.at_dense_iff hd).1 hat).2.1⟩
  | false =>
    obtain ⟨k, hk, rfl, -, h₂, rfl⟩ := (h.at_sparse_iff hd).1 hat
    have hx := h.indexed hd
    exact ⟨hx.index_lt _ (hx.lt_size hk h₂), hx.vector_lt k hk⟩

/-- **No two positions share a place.** -/
theorem Laid.at_unique (h : m.Laid) {i j a b : Nat} (ha : m.At i j a) (hb : m.At i j b) : a = b := by
  cases hd : m.store.dense with
  | true => rw [((h.at_dense_iff hd).1 ha).2.2, ((h.at_dense_iff hd).1 hb).2.2]
  | false =>
    have hx := h.indexed hd
    obtain ⟨k, hk, hkj, ha₁, ha₂, hai⟩ := (h.at_sparse_iff hd).1 ha
    obtain ⟨l, hl, hlj, hb₁, hb₂, hbi⟩ := (h.at_sparse_iff hd).1 hb
    have hkl : k = l :=
      hx.ascending.injective (Nat.zero_le _) hk (Nat.zero_le _) hl (hkj.trans hlj.symm)
    subst hkl
    rcases Nat.lt_trichotomy a b with hlt | heq | hlt
    · exact absurd (hai.trans hbi.symm) (hx.distinct k hk a b ha₁ hlt hb₂)
    · exact heq
    · exact absurd (hbi.trans hai.symm) (hx.distinct k hk b a hb₁ hlt ha₂)

theorem at_place {pos : Nat} (hpos : pos < m.extent) :
    m.At (m.place pos).1 (m.place pos).2 pos := ⟨hpos, rfl⟩

theorem Laid.place_injective (h : m.Laid) {a b : Nat} (ha : a < m.extent) (hb : b < m.extent)
    (he : m.place a = m.place b) : a = b :=
  h.at_unique (at_place ha) ⟨hb, he.symm⟩

/-- **Unless the matrix is jumbled, positions ascend with their places.** -/
theorem Laid.place_before (h : m.Laid) (hj : m.jumbled = false) {a b : Nat} (hab : a < b)
    (hb : b < m.extent) : Before (m.place a).2 (m.place a).1 (m.place b).2 (m.place b).1 := by
  cases hd : m.store.dense with
  | true =>
    rw [place_dense hd, place_dense hd]
    have ha := (h.at_dense_iff hd).1 (at_place (Nat.lt_trans hab hb))
    have hb' := (h.at_dense_iff hd).1 (at_place hb)
    simp only [place_dense hd, Before] at ha hb' ⊢
    have hdiv : a / m.vlen ≤ b / m.vlen := Nat.div_le_div_right (Nat.le_of_lt hab)
    rcases Nat.eq_or_lt_of_le hdiv with heq | hlt
    · refine .inr ⟨heq, ?_⟩
      rw [heq] at ha; omega
    · exact .inl hlt
  | false =>
    have hx := h.indexed hd
    rw [extent_sparse hd] at hb
    rw [place_sparse hd, place_sparse hd]
    obtain ⟨ha₁, ha₂, -⟩ := hx.rangeOf_lt (show a < _ by omega)
    obtain ⟨hb₁, -, hb₃⟩ := hx.rangeOf_lt hb
    rcases Nat.eq_or_lt_of_le (hx.rangeOf_mono hab hb) with heq | hlt
    · rw [← heq] at hb₃ ⊢
      exact .inr ⟨rfl, h.sorted hd hj _ ha₁ a b ha₂ hab hb₃⟩
    · exact .inl (hx.ascending _ _ (Nat.zero_le _) hlt hb₁)

theorem slotLive_eq {pos : Nat} (hpos : pos < m.store.slots.size) :
    m.slotLive pos = !m.store.deadAt pos := by
  rw [slotLive, Array.getElem?_eq_getElem hpos, Storage.deadAt, Array.getD_eq_getD_getElem?,
    Array.getElem?_eq_getElem hpos]
  rfl

theorem present_dense (hd : m.store.dense = true) (pos : Nat) : m.present pos = m.cellPresent pos :=
  if_pos hd

theorem present_sparse (hd : m.store.dense = false) {pos : Nat} (hpos : pos < m.store.slots.size) :
    m.present pos = !m.store.deadAt pos := by
  rw [present, hd, ← slotLive_eq hpos]; rfl

/-- The pointer range of a vector, if it has one. -/
theorem Laid.vectorRange_cases (h : m.Laid) (hd : m.store.dense = false) {j : Nat} (hj : j < m.vdim) :
    (∃ k, k < m.store.rangeCount ∧ m.store.vectorAt k = j ∧
      m.vectorRange j = some (m.store.start k, m.store.start (k + 1))) ∨
    (m.vectorRange j = none ∧ ∀ k, k < m.store.rangeCount → m.store.vectorAt k ≠ j) := by
  have hx := h.indexed hd
  rw [vectorRange]
  cases hs : m.store with
  | full x => simp [hs, Storage.dense] at hd
  | bitmap b x n => simp [hs, Storage.dense] at hd
  | sparse p i x =>
    rw [hs] at hx
    have hp : p.size = m.vdim + 1 := hx.pointed
    exact .inl ⟨j, show j < p.size - 1 by omega, rfl, rfl⟩
  | hypersparse hl p i x =>
    rw [hs] at hx
    have hp : p.size = hl.size + 1 := hx.pointed.1
    have hn : (Storage.hypersparse hl p i x).rangeCount = hl.size := show p.size - 1 = _ by omega
    have hasc : Ascending (hl.getD · 0) 0 hl.size := hn ▸ hx.ascending
    rw [hn]
    cases hf : searchSorted (hl.getD · 0) j 0 hl.size with
    | some k =>
      obtain ⟨-, hk, hkj⟩ := (searchSorted_eq_some_iff hasc (Nat.zero_le _)).1 hf
      exact .inl ⟨k, hk, hkj, by simp only [hf, Option.map_some]; rfl⟩
    | none =>
      have hne := (searchSorted_eq_none_iff hasc (Nat.zero_le _)).1 hf
      exact .inr ⟨by simp only [hf, Option.map_none], fun k hk => hne k (Nat.zero_le _) hk⟩

/-- The search for an index inside a pointer range finds it exactly when it is there. -/
theorem Laid.search_eq_some_iff (h : m.Laid) (hd : m.store.dense = false) {k : Nat} (i pos : Nat)
    (hk : k < m.store.rangeCount) :
    (if m.jumbled then
        firstFrom (fun pos => m.store.indexAt pos == i) (m.store.start (k + 1) - m.store.start k)
          (m.store.start k)
      else searchSorted m.store.indexAt i (m.store.start k) (m.store.start (k + 1))) = some pos ↔
      m.store.start k ≤ pos ∧ pos < m.store.start (k + 1) ∧ m.store.indexAt pos = i := by
  have hx := h.indexed hd
  have hle := hx.ranges.step k hk
  cases hj : m.jumbled with
  | true =>
    simp only [if_true, firstFrom_eq_some_iff, beq_iff_eq, beq_eq_false_iff_ne]
    constructor
    · rintro ⟨h₁, h₂, h₃, -⟩; exact ⟨h₁, by omega, h₃⟩
    · rintro ⟨h₁, h₂, rfl⟩
      exact ⟨h₁, by omega, rfl, fun q hq₁ hq₂ => hx.distinct k hk q pos hq₁ hq₂ h₂⟩
  | false =>
    simp only [Bool.false_eq_true, if_false]
    exact searchSorted_eq_some_iff (h.sorted hd hj k hk) hle

/-- **The point lookup** reports the position of a place, and absence when there is none. -/
theorem Laid.locate_cases (h : m.Laid) {i j : Nat} (hi : i < m.vlen) (hj : j < m.vdim) :
    match m.locate i j with
    | .cell pos => m.store.dense = true ∧ m.At i j pos
    | .live pos => m.store.dense = false ∧ m.At i j pos ∧ m.present pos = true
    | .zombie pos => m.store.dense = false ∧ m.At i j pos ∧ m.present pos = false
    | .absent => m.store.dense = false ∧ ∀ pos, ¬m.At i j pos := by
  rw [locate]
  cases hd : m.store.dense with
  | true => exact ⟨rfl, (h.at_dense_iff hd).2 ⟨hi, hj, h.densePos_eq hd hi hj⟩⟩
  | false =>
    have hx := h.indexed hd
    rcases h.vectorRange_cases hd hj with ⟨k, hk, hkj, hr⟩ | ⟨hr, hne⟩
    · have hsearch := fun pos => h.search_eq_some_iff hd i pos hk
      unfold Storage.indexAt at hsearch
      simp only [Bool.false_eq_true, if_false, hr]
      generalize (if m.jumbled then _ else _ : Option Nat) = found at hsearch ⊢
      cases found with
      | some pos =>
        obtain ⟨h₁, h₂, h₃⟩ := (hsearch pos).1 rfl
        have hat : m.At i j pos := (h.at_sparse_iff hd).2 ⟨k, hk, hkj, h₁, h₂, h₃⟩
        have hp := present_sparse hd (hx.lt_size hk h₂)
        have hdeadAt : (m.store.slots.getD pos default).dead = m.store.deadAt pos := rfl
        dsimp only
        rw [hdeadAt]
        cases hdead : m.store.deadAt pos with
        | true => rw [hdead] at hp; exact ⟨trivial, hat, hp⟩
        | false => rw [hdead] at hp; exact ⟨trivial, hat, hp⟩
      | none =>
        refine ⟨trivial, fun pos hat => ?_⟩
        obtain ⟨l, hl, hlj, h₁, h₂, h₃⟩ := (h.at_sparse_iff hd).1 hat
        have hlk : l = k :=
          hx.ascending.injective (Nat.zero_le _) hl (Nat.zero_le _) hk (hlj.trans hkj.symm)
        subst hlk
        cases (hsearch pos).2 ⟨h₁, h₂, h₃⟩
    · simp only [Bool.false_eq_true, if_false, hr]
      refine ⟨trivial, fun pos hat => ?_⟩
      obtain ⟨k, hk, hkj, -⟩ := (h.at_sparse_iff hd).1 hat
      exact hne k hk hkj

end Matrix

end Adjacency
