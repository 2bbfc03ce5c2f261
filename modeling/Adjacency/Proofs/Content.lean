import Adjacency.Proofs.Walk
import Adjacency.Matrix.Update

/-!
# The logical content of a matrix

What a matrix stores in its index, what is queued on top, and the value of each cell that results.

* `Matrix.Inv`: the index is in order, and everything queued is of the declared type and stands at a
  place that is not in the index.
* `Matrix.value`, `Matrix.cell`: the value at a place, and at a row and column.
* `Matrix.Inv.extract_eq`: the lookup of a cell never fails inside the matrix, and returns its value.
-/

namespace Adjacency

theorem ScalarType.zero_type (ty : ScalarType) : ty.zero.type = ty := by cases ty <;> rfl

theorem ScalarType.castable_self (ty : ScalarType) : ty.castable ty = true := by
  cases ty <;> simp [castable]

namespace Scalar

theorem cast_eq_some {s w : Scalar} {ty : ScalarType} (h : s.cast ty = some w) :
    w.type = ty ∧ s.type.castable ty = true := by
  unfold cast at h
  split at h
  · next hc =>
    refine ⟨?_, hc⟩
    cases ty <;> simp only [Option.some.injEq] at h <;> subst h <;> try rfl
    cases s <;> simp_all [ScalarType.castable, type]
  · cases h

theorem cast_isSome {s : Scalar} {ty : ScalarType} (h : s.type.castable ty = true) :
    ∃ w, s.cast ty = some w := by
  unfold cast
  rw [if_pos h]
  cases ty <;> exact ⟨_, rfl⟩

/-- A cast to the scalar's own type changes nothing. -/
theorem cast_self (s : Scalar) : s.cast s.type = some s := by
  unfold cast
  rw [if_pos s.type.castable_self]
  cases s <;> rfl

end Scalar

/-- Combining stays within a type. -/
theorem DupOp.apply_type {op : DupOp} {ty : ScalarType} {a b : Scalar} (ha : a.type = ty)
    (hb : b.type = ty) : (op.apply ty a b).type = ty := by
  cases op <;> cases a <;> cases b <;> subst ha <;>
    simp_all [DupOp.apply, Scalar.type, Scalar.cast, ScalarType.castable]

namespace Matrix

variable (m : Matrix)

/-! ## The committed content -/

/-- The value in the index at a place of the matrix. -/
def stored (i j : Nat) : Option Scalar := if i < m.vlen ∧ j < m.vdim then m.committed i j else none

variable {m}

theorem Laid.stored_of_at (h : m.Laid) {i j pos : Nat} (hat : m.At i j pos) :
    m.stored i j = if m.present pos then some (m.valueAt pos) else none := by
  obtain ⟨hi, hj⟩ := h.at_lt hat
  rw [stored, if_pos ⟨hi, hj⟩, committed]
  have hloc := h.locate_cases hi hj
  cases hl : m.locate i j with
  | cell pos' =>
    rw [hl] at hloc
    obtain rfl := h.at_unique hat hloc.2
    simp only [present_dense hloc.1]
  | live pos' =>
    rw [hl] at hloc
    obtain rfl := h.at_unique hat hloc.2.1
    simp only [hloc.2.2, if_true]
  | zombie pos' =>
    rw [hl] at hloc
    obtain rfl := h.at_unique hat hloc.2.1
    simp only [hloc.2.2]; rfl
  | absent =>
    rw [hl] at hloc
    exact absurd hat (hloc.2 pos)

theorem Laid.stored_of_absent (h : m.Laid) {i j : Nat} (ha : ∀ pos, ¬m.At i j pos) :
    m.stored i j = none := by
  rw [stored]
  split
  · next hb =>
    rw [committed]
    have hloc := h.locate_cases hb.1 hb.2
    cases hl : m.locate i j with
    | cell pos => rw [hl] at hloc; exact absurd hloc.2 (ha pos)
    | live pos => rw [hl] at hloc; exact absurd hloc.2.1 (ha pos)
    | zombie pos => rfl
    | absent => rfl
  · rfl

theorem Laid.stored_eq_some_iff (h : m.Laid) {i j : Nat} {v : Scalar} :
    m.stored i j = some v ↔ ∃ pos, m.At i j pos ∧ m.present pos = true ∧ m.valueAt pos = v := by
  constructor
  · intro hs
    by_cases hat : ∃ pos, m.At i j pos
    · obtain ⟨pos, hat⟩ := hat
      rw [h.stored_of_at hat] at hs
      split at hs
      · next hp => exact ⟨pos, hat, hp, Option.some.inj hs⟩
      · cases hs
    · rw [h.stored_of_absent fun pos hp => hat ⟨pos, hp⟩] at hs; cases hs
  · rintro ⟨pos, hat, hp, rfl⟩
    rw [h.stored_of_at hat, if_pos hp]

/-- The content is that of another matrix whose positions stand at the same places and hold the same
entries. -/
theorem Laid.stored_congr (h : m.Laid) {m' : Matrix} (h' : m'.Laid) {i j i' j' : Nat}
    (hat : ∀ pos, m'.At i' j' pos ↔ m.At i j pos)
    (heq : ∀ pos, m.At i j pos → m'.present pos = m.present pos ∧
      (m.present pos = true → m'.valueAt pos = m.valueAt pos)) :
    m'.stored i' j' = m.stored i j := by
  by_cases hex : ∃ pos, m.At i j pos
  · obtain ⟨pos, hp⟩ := hex
    rw [h.stored_of_at hp, h'.stored_of_at ((hat pos).2 hp), (heq pos hp).1]
    split
    · next hpres => rw [(heq pos hp).2 hpres]
    · rfl
  · rw [h.stored_of_absent fun pos hp => hex ⟨pos, hp⟩,
      h'.stored_of_absent fun pos hp => hex ⟨pos, (hat pos).1 hp⟩]

theorem Laid.entries_distinct (h : m.Laid) : IndexEntry.Distinct m.entries := by
  refine List.pairwise_map.2 (((pairwise_range fun a b hab hb hp => ?_)).filter _)
  have := h.place_injective (Nat.lt_trans hab hb) hb (Prod.ext hp.2 hp.1)
  omega

/-- Unless the matrix is jumbled, its entries come sorted by place. -/
theorem Laid.entries_sorted (h : m.Laid) (hj : m.jumbled = false) : IndexEntry.Sorted m.entries :=
  List.pairwise_map.2 (((pairwise_range fun _ _ hab hb => h.place_before hj hab hb)).filter _)

/-- **The entries of the index are its content.** -/
theorem Laid.mem_entries (h : m.Laid) {e : IndexEntry} :
    e ∈ m.entries ↔ m.stored e.i e.j = some e.value := by
  rw [h.stored_eq_some_iff, entries]
  simp only [List.mem_map, List.mem_filter, List.mem_range]
  constructor
  · rintro ⟨pos, ⟨hlt, hp⟩, rfl⟩; exact ⟨pos, ⟨hlt, rfl⟩, hp, rfl⟩
  · rintro ⟨pos, ⟨hlt, hpl⟩, hp, hv⟩
    refine ⟨pos, ⟨hlt, hp⟩, ?_⟩
    rw [entryAt, hpl, hv]

theorem Laid.valuesAt_entries (h : m.Laid) (i j : Nat) :
    valuesAt m.entries j i = (m.stored i j).toList := by
  rw [← h.entries_distinct.toList_head?]
  congr 1
  rw [Option.ext_iff]
  intro v
  rw [h.entries_distinct.valuesAt_eq_some_iff, h.mem_entries]

theorem mem_values_getD {x : Array Scalar} {k : Nat} {d : Scalar} (h : k < x.size) :
    x.getD k d ∈ x.toList := by
  simp [h]

theorem Laid.shared_type (h : m.Laid) (hi : m.iso = true) : m.shared.type = m.type := by
  have hsize := h.values
  rw [if_pos hi] at hsize
  exact h.typed _ (mem_values_getD (by omega))

theorem Laid.valueAt_type (h : m.Laid) {pos : Nat} (hpos : pos < m.extent) :
    (m.valueAt pos).type = m.type := by
  rw [valueAt]
  split
  · next hi => exact h.shared_type hi
  · next hi =>
    have hsize := h.values
    rw [if_neg hi] at hsize
    exact h.typed _ (mem_values_getD (by omega))

theorem Laid.stored_type (h : m.Laid) {i j : Nat} {v : Scalar} (hv : m.stored i j = some v) :
    v.type = m.type := by
  obtain ⟨pos, hat, -, rfl⟩ := h.stored_eq_some_iff.1 hv
  exact h.valueAt_type hat.1

/-! ## The queue -/

variable (m)

/-- The queued tuples, oldest first. -/
def queue : List QueuedTuple :=
  match m.pending with
  | some q => q.tuples.toList
  | none => []

/-- How queued writes combine. -/
def queueOp : DupOp :=
  match m.pending with
  | some q => q.op
  | none => .second

/-- The value that a queued tuple writes. -/
def written (t : QueuedTuple) : Scalar :=
  ((t.value.or m.sharedIfIso).bind (·.cast m.type)).getD m.type.zero

/-- The values queued for a place, oldest first. -/
def queuedAt (i j : Nat) : List Scalar :=
  (m.queue.filter fun t => t.i == i && t.j == j).map m.written

/-- The logical value at a place: what is stored, with what is queued on top. -/
def value (i j : Nat) : Option Scalar :=
  foldOnto (m.queueOp.apply m.type) (m.stored i j) (m.queuedAt i j)

/-- The logical value of a cell. -/
def cell (row col : Nat) : Option Scalar :=
  m.value (m.toVector row col).1 (m.toVector row col).2

/-- A queued tuple stands inside the matrix at a place that is not in the index. It carries a value of
the declared type, or none when all entries share one. -/
structure Awaits (type : ScalarType) (t : QueuedTuple) : Prop where
  index_lt : t.i < m.vlen
  vector_lt : t.j < m.vdim
  missing : ∀ pos, ¬m.At t.i t.j pos
  carries : match t.value with
    | none => m.iso = true
    | some v => m.iso = false ∧ v.type = type

/-- A matrix in order. -/
structure Inv (m : Matrix) : Prop where
  laid : m.Laid
  nrows_le : m.nrows ≤ maxDim
  ncols_le : m.ncols ≤ maxDim
  denseLimit : m.options.maxDenseCells < UInt64.size
  queued : ∀ q, m.pending = some q → q.tuples.toList ≠ [] ∧ q.type.castable m.type = true ∧
    ∀ t ∈ q.tuples.toList, m.Awaits q.type t

variable {m}

theorem Inv.awaits (h : m.Inv) {t : QueuedTuple} (ht : t ∈ m.queue) :
    ∃ type : ScalarType, type.castable m.type = true ∧ m.Awaits type t := by
  unfold queue at ht
  cases hq : m.pending with
  | none => rw [hq] at ht; cases ht
  | some q =>
    rw [hq] at ht
    exact ⟨q.type, (h.queued q hq).2.1, (h.queued q hq).2.2 t ht⟩

theorem castIn_eq_ok_iff {v w : Scalar} : m.castIn v = .ok w ↔ v.cast m.type = some w := by
  unfold castIn; cases v.cast m.type <;> simp

/-- A queued tuple always has a value of the element type. -/
theorem Inv.queuedValue_eq (h : m.Inv) {t : QueuedTuple} (ht : t ∈ m.queue) :
    m.queuedValue t = .ok (m.written t) ∧ (m.written t).type = m.type := by
  obtain ⟨type, hc, hw⟩ := h.awaits ht
  have hcarry := hw.carries
  unfold queuedValue written
  cases hv : t.value with
  | none =>
    rw [hv] at hcarry
    have hty := h.laid.shared_type hcarry
    have hself : m.shared.cast m.type = some m.shared := by rw [← hty]; exact m.shared.cast_self
    simp only [Option.none_or, sharedIfIso, hcarry, if_true, Option.bind_some, hself,
      Option.getD_some]
    exact ⟨castIn_eq_ok_iff.2 hself, hty⟩
  | some v =>
    rw [hv] at hcarry
    obtain ⟨w, hw⟩ := Scalar.cast_isSome (show v.type.castable m.type = true by rw [hcarry.2]; exact hc)
    simp only [Option.some_or, Option.bind_some, hw, Option.getD_some]
    exact ⟨castIn_eq_ok_iff.2 hw, (Scalar.cast_eq_some hw).1⟩

theorem Inv.queuedAt_type (h : m.Inv) {i j : Nat} {v : Scalar} (hv : v ∈ m.queuedAt i j) :
    v.type = m.type := by
  obtain ⟨t, ht, rfl⟩ := List.mem_map.1 hv
  exact (h.queuedValue_eq (List.mem_of_mem_filter ht)).2

/-- Nothing is queued for a place that is in the index. -/
theorem Inv.queuedAt_of_at (h : m.Inv) {i j pos : Nat} (hat : m.At i j pos) : m.queuedAt i j = [] := by
  rw [queuedAt, List.map_eq_nil_iff, List.filter_eq_nil_iff]
  intro t ht hp
  obtain ⟨_, -, hw⟩ := h.awaits ht
  simp only [Bool.and_eq_true, beq_iff_eq] at hp
  exact hw.missing pos (by rw [hp.1, hp.2]; exact hat)

theorem Inv.queuedAt_of_out (h : m.Inv) {i j : Nat} (hb : ¬(i < m.vlen ∧ j < m.vdim)) :
    m.queuedAt i j = [] := by
  rw [queuedAt, List.map_eq_nil_iff, List.filter_eq_nil_iff]
  intro t ht hp
  obtain ⟨_, -, hw⟩ := h.awaits ht
  simp only [Bool.and_eq_true, beq_iff_eq] at hp
  exact hb ⟨hp.1 ▸ hw.index_lt, hp.2 ▸ hw.vector_lt⟩

/-! ## The value of a place -/

theorem value_of_settled (hp : m.pending = none) (i j : Nat) : m.value i j = m.stored i j := by
  simp [value, queuedAt, queue, hp]

theorem Inv.value_of_at (h : m.Inv) {i j pos : Nat} (hat : m.At i j pos) :
    m.value i j = m.stored i j := by
  rw [value, h.queuedAt_of_at hat, foldOnto_nil]

theorem Inv.value_of_out (h : m.Inv) {i j : Nat} (hb : ¬(i < m.vlen ∧ j < m.vdim)) :
    m.value i j = none := by
  rw [value, h.queuedAt_of_out hb, foldOnto_nil, stored, if_neg hb]

theorem Inv.value_type (h : m.Inv) {i j : Nat} {v : Scalar} (hv : m.value i j = some v) :
    v.type = m.type :=
  foldOnto_all (P := fun v => v.type = m.type) _ (fun _ _ => DupOp.apply_type)
    (fun _ => h.laid.stored_type) (fun _ => h.queuedAt_type) hv

theorem foldlM_queued (q : Pending) (start : Option Scalar) {ts : List QueuedTuple}
    (h : ∀ t ∈ ts, m.queuedValue t = .ok (m.written t)) :
    (ts.foldlM (fun current t => do
      let v ← m.queuedValue t
      return some (match current with
        | some old => q.op.apply m.type old v
        | none => v)) start : Except GraphError (Option Scalar)) =
      .ok (foldOnto (q.op.apply m.type) start (ts.map m.written)) := by
  induction ts generalizing start with
  | nil => rfl
  | cons t ts ih =>
    rw [List.foldlM_cons, h t List.mem_cons_self]
    exact ih _ fun t' ht' => h t' (List.mem_cons_of_mem _ ht')

theorem checkBounds_eq_ok {row col : Nat} (hr : row < m.nrows) (hc : col < m.ncols) :
    m.checkBounds row col = .ok () := by
  rw [checkBounds, if_neg (by omega), if_neg (by omega)]

theorem checkBounds_ok {row col : Nat} (h : m.checkBounds row col = .ok ()) :
    row < m.nrows ∧ col < m.ncols := by
  unfold checkBounds at h
  split at h
  · cases h
  · split at h
    · cases h
    · omega

theorem toVector_lt {row col : Nat} (hr : row < m.nrows) (hc : col < m.ncols) :
    (m.toVector row col).1 < m.vlen ∧ (m.toVector row col).2 < m.vdim := by
  unfold toVector vlen vdim
  cases m.byRow
  · exact ⟨hr, hc⟩
  · exact ⟨hc, hr⟩

/-- **The lookup of a cell** returns its logical value. -/
theorem Inv.extract_eq (h : m.Inv) {row col : Nat} (hr : row < m.nrows) (hc : col < m.ncols) :
    m.extract row col = .ok (m.cell row col) := by
  have hin := toVector_lt hr hc
  have hstored : m.stored (m.toVector row col).1 (m.toVector row col).2 =
      m.committed (m.toVector row col).1 (m.toVector row col).2 := if_pos hin
  rw [extract, checkBounds_eq_ok hr hc, cell, value, queuedAt, hstored]
  simp only [queue, queueOp]
  cases hq : m.pending with
  | none => rfl
  | some q =>
    have hall : ∀ t ∈ q.tuples.toList.filter fun t =>
        t.i == (m.toVector row col).1 && t.j == (m.toVector row col).2,
        m.queuedValue t = .ok (m.written t) := fun t ht =>
      (h.queuedValue_eq (by rw [queue, hq]; exact List.mem_of_mem_filter ht)).1
    have hfold := foldlM_queued q (m.committed (m.toVector row col).1 (m.toVector row col).2) hall
    rw [← Array.toList_filter, Array.foldlM_toList, Array.toList_filter] at hfold
    exact hfold

theorem Inv.cell_of_out (h : m.Inv) {row col : Nat} (hb : ¬(row < m.nrows ∧ col < m.ncols)) :
    m.cell row col = none := by
  refine h.value_of_out fun hin => hb ?_
  revert hin
  unfold toVector vlen vdim
  cases m.byRow
  · exact id
  · exact And.symm

theorem Inv.lt_of_cell (h : m.Inv) {row col : Nat} {v : Scalar} (hv : m.cell row col = some v) :
    row < m.nrows ∧ col < m.ncols := by
  by_contra hout
  rw [h.cell_of_out hout] at hv
  cases hv

/-- Reading finds the entries there are. -/
theorem Inv.extract_eq_some_iff (h : m.Inv) {row col : Nat} {v : Scalar} :
    m.extract row col = .ok (some v) ↔ m.cell row col = some v := by
  constructor
  · intro hv
    have hbounds : m.checkBounds row col = .ok () := by
      unfold extract at hv
      cases hb : m.checkBounds row col with
      | ok u => rfl
      | error e => rw [hb] at hv; cases hv
    obtain ⟨hr, hc⟩ := checkBounds_ok hbounds
    rw [h.extract_eq hr hc] at hv
    exact Except.ok.inj hv
  · intro hv
    obtain ⟨hr, hc⟩ := h.lt_of_cell hv
    rw [h.extract_eq hr hc, hv]

end Matrix

end Adjacency
