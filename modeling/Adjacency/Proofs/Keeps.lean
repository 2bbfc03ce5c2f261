import Adjacency.Proofs.Action
import Adjacency.Proofs.Content

/-!
# Keeping the content

* `Matrix.SameShape`, `Matrix.Keeps`: the same type and dimensions; the same value at every place too.
* `Matrix.Inv.of_settled`, `Matrix.Inv.of_layout`: a matrix that was given a new index.
-/

namespace Adjacency

namespace Matrix

/-- The same type, dimensions, orientation and options. -/
structure SameShape (m m' : Matrix) : Prop where
  type : m'.type = m.type
  nrows : m'.nrows = m.nrows
  ncols : m'.ncols = m.ncols
  byRow : m'.byRow = m.byRow
  options : m'.options = m.options

/-- The same shape, and the same value at every place. -/
structure Keeps (m m' : Matrix) : Prop extends SameShape m m' where
  value : m'.value = m.value

variable {m m' m'' : Matrix}

theorem SameShape.vlen (h : m.SameShape m') : m'.vlen = m.vlen := by
  rw [Matrix.vlen, Matrix.vlen, h.byRow, h.ncols, h.nrows]

theorem SameShape.vdim (h : m.SameShape m') : m'.vdim = m.vdim := by
  rw [Matrix.vdim, Matrix.vdim, h.byRow, h.ncols, h.nrows]

theorem SameShape.refl (m : Matrix) : m.SameShape m := ⟨rfl, rfl, rfl, rfl, rfl⟩

theorem SameShape.trans (h : m.SameShape m') (h' : m'.SameShape m'') : m.SameShape m'' :=
  ⟨h'.type.trans h.type, h'.nrows.trans h.nrows, h'.ncols.trans h.ncols, h'.byRow.trans h.byRow,
    h'.options.trans h.options⟩

theorem Keeps.refl (m : Matrix) : m.Keeps m := ⟨SameShape.refl m, rfl⟩

theorem Keeps.trans (h : m.Keeps m') (h' : m'.Keeps m'') : m.Keeps m'' :=
  ⟨h.toSameShape.trans h'.toSameShape, h'.value.trans h.value⟩

theorem Keeps.cell (h : m.Keeps m') : m'.cell = m.cell := by
  funext row col
  rw [Matrix.cell, Matrix.cell, toVector, toVector, h.byRow, h.value]

theorem deferred_eq_false_iff :
    m.deferred = false ↔ m.pending = none ∧ m.zombies = 0 ∧ m.jumbled = false := by
  simp only [deferred, Bool.or_eq_false_iff, decide_eq_false_iff_not, Option.isSome_eq_false_iff,
    Option.isNone_iff_eq_none, Nat.not_lt, Nat.le_zero, gt_iff_lt, and_assoc]

/-- A matrix with a new index and nothing queued holds what its index holds. -/
theorem Inv.of_settled (h : m.Inv) (hs : m.SameShape m') (hl : m'.Laid) (hp : m'.pending = none)
    (hv : ∀ i j, m'.stored i j = m.value i j) : m'.Inv ∧ m.Keeps m' := by
  refine ⟨⟨hl, hs.nrows ▸ h.nrows_le, hs.ncols ▸ h.ncols_le, hs.options ▸ h.denseLimit,
    fun q hq => ?_⟩, hs, ?_⟩
  · rw [hp] at hq; cases hq
  · funext i j
    rw [value_of_settled hp, hv]

/-- A matrix with a new index under the same queue. The index may list fewer places. -/
theorem Inv.same_queue (h : m.Inv) (hs : m.SameShape m') (hl : m'.Laid) (hp : m'.pending = m.pending)
    (hi : m'.iso = m.iso) (hsh : m.iso = true → m'.shared = m.shared)
    (hat : ∀ i j pos, m'.At i j pos → ∃ pos', m.At i j pos') : m'.Inv ∧ ∀ i j,
      m'.value i j = foldOnto (m.queueOp.apply m.type) (m'.stored i j) (m.queuedAt i j) := by
  have hw : m'.written = m.written := by
    funext t
    have : m'.sharedIfIso = m.sharedIfIso := by
      rw [sharedIfIso, sharedIfIso, hi]
      split
      · next hiso => rw [hsh hiso]
      · rfl
    rw [written, written, this, hs.type]
  refine ⟨⟨hl, hs.nrows ▸ h.nrows_le, hs.ncols ▸ h.ncols_le, hs.options ▸ h.denseLimit,
    fun q hq => ?_⟩, fun i j => ?_⟩
  · rw [hp] at hq
    obtain ⟨hne, hc, hall⟩ := h.queued q hq
    refine ⟨hne, hs.type.symm ▸ hc, fun t ht => ?_⟩
    have ha := hall t ht
    refine ⟨hs.vlen.symm ▸ ha.index_lt, hs.vdim.symm ▸ ha.vector_lt, fun pos hpos => ?_, ?_⟩
    · obtain ⟨pos', hpos'⟩ := hat _ _ _ hpos
      exact ha.missing pos' hpos'
    · have := ha.carries
      rwa [hi]
  · rw [value, queuedAt, queuedAt, queueOp, queueOp, queue, queue, hp, hw, hs.type]

/-- A matrix with the same content in a new index, under the same queue. -/
theorem Inv.of_layout (h : m.Inv) (hs : m.SameShape m') (hl : m'.Laid) (hp : m'.pending = m.pending)
    (hi : m'.iso = m.iso) (hsh : m.iso = true → m'.shared = m.shared)
    (hat : ∀ i j pos, m'.At i j pos → ∃ pos', m.At i j pos') (hst : m'.stored = m.stored) :
    m'.Inv ∧ m.Keeps m' := by
  obtain ⟨hinv, hv⟩ := h.same_queue hs hl hp hi hsh hat
  exact ⟨hinv, hs, by funext i j; rw [hv, hst, value]⟩

/-- Two indices that list the same entries hold the same. -/
theorem Laid.stored_eq (h : m.Laid) (h' : m'.Laid) (he : ∀ e, e ∈ m'.entries ↔ e ∈ m.entries) :
    m'.stored = m.stored := by
  funext i j
  refine Option.ext fun v => ?_
  exact (h'.mem_entries (e := ⟨j, i, v⟩)).symm.trans ((he _).trans h.mem_entries)

/-- A deferred change stands over a sparse format. -/
theorem Inv.sparse_of_deferred (h : m.Inv) (hdef : m.deferred = true) : m.store.dense = false := by
  by_contra hd
  have := h.laid.calm (by simpa using hd)
  simp [hdef] at this

end Matrix

end Adjacency
