import Adjacency.Proofs.Write

/-!
# Deletions

A deletion clears a bit or leaves a tombstone. What is only queued is committed first.

* `Matrix.Inv.bury`, `Matrix.ensures_clearCell`: the entry at one storage position goes.
* `Matrix.ensures_remove`: **a deletion empties one cell and answers whether there was an entry.**
* `Matrix.ensures_nvals`: the number of entries.
-/

namespace Adjacency

open Metered

namespace Matrix

variable {m m' : Matrix} {i j : Nat}

/-- A matrix in which one storage position is emptied and no value moves. -/
theorem Inv.of_emptied (h : m.Inv) (hs : m.SameShape m') (hl : m'.Laid) (hp : m'.pending = m.pending)
    (hi : m'.iso = m.iso) (hvalues : m'.store.values = m.store.values) {pos : Nat} (hpos : m.At i j pos)
    (hat : ∀ i j p, m'.At i j p ↔ m.At i j p)
    (hpresent : ∀ p, p < m.extent → m'.present p = if p = pos then false else m.present p) :
    m'.Inv ∧ m.Puts m' i j none := by
  have hshared : m'.shared = m.shared := by rw [shared, shared, hvalues, hs.type]
  have hvalue : m'.valueAt = m.valueAt := by
    funext p
    rw [valueAt, valueAt, hi, hvalues, hshared, hs.type]
  obtain ⟨hinv, hputs⟩ := h.of_change hs hl hp hi (fun _ => hshared) hpos hat
    fun p hp hne => ⟨by rw [hpresent p hp, if_neg hne], fun _ => by rw [hvalue]⟩
  rw [hpresent pos hpos.1, if_pos rfl, if_neg Bool.false_ne_true] at hputs
  exact ⟨hinv, hputs⟩

/-- A slot that dies is the only one to change. -/
theorem reslots_bury (hd : m.store.dense = false) {pos : Nat} (hpos : pos < m.store.slots.size) :
    m.Reslots (m.bury pos) pos true := by
  have hslots : (m.bury pos).store.slots =
      m.store.slots.modify pos fun slot => { slot with dead := true } := by
    change (m.store.mapSlots _).slots = _
    rw [Storage.slots_mapSlots _ hd]
  refine ⟨⟨rfl, rfl, rfl, rfl, rfl⟩, rfl, m.store.dense_mapSlots _, m.store.pointed_mapSlots _,
    m.store.pointers_mapSlots _, m.store.vectorAt_mapSlots _, by rw [hslots, Array.size_modify], fun p => ?_⟩
  rw [hslots, Array.getD_eq_getD_getElem?, Array.getElem?_modify]
  split
  · next hp =>
    rw [if_pos hp.symm, ← hp, Array.getElem?_eq_getElem hpos, Storage.indexAt,
      Array.getD_eq_getD_getElem?, Array.getElem?_eq_getElem hpos]
    rfl
  · next hp => rw [if_neg fun hc => hp hc.symm, Array.getD_eq_getD_getElem?]

/-- Leaving a tombstone. -/
theorem Inv.bury (h : m.Inv) (hd : m.store.dense = false) {pos : Nat} (hat : m.At i j pos)
    (hpres : m.present pos = true) : (m.bury pos).Inv ∧ m.Puts (m.bury pos) i j none := by
  have hl := h.laid
  have hpos : pos < m.store.slots.size := extent_sparse hd ▸ hat.1
  have hdead : m.store.deadAt pos = false := by simpa [present_sparse hd hpos] using hpres
  set m' := m.bury pos
  have hr : m.Reslots m' pos true := reslots_bury hd hpos
  have hext : m'.extent = m.extent := by
    rw [extent_sparse hd, extent_sparse (hr.dense.trans hd), hr.size]
  have hvalues : m'.store.values = m.store.values := m.store.values_mapSlots _
  have hz : m'.zombies = (List.range m.store.slots.size).countP m'.store.deadAt := by
    have hcount : (List.range m.store.slots.size).countP m'.store.deadAt =
        (List.range m.store.slots.size).countP m.store.deadAt + 1 :=
      countP_range_toggle hpos hdead (by rw [hr.deadAt, if_pos rfl]) fun p hp => by
        rw [hr.deadAt, if_neg hp]
    rw [hcount, ← hl.zombies hd]
    rfl
  have hl' : m'.Laid := hr.laid hl hd hz (by rw [hvalues, hext]; exact hl.values)
    (by rw [hvalues]; exact hl.typed)
  exact h.of_emptied hr.toSameShape hl' rfl rfl hvalues hat (fun i j p => hr.at_iff hd)
    fun p hp => hr.present hd hp

/-- Clearing the bit of a dense cell. -/
theorem Inv.clearBit (h : m.Inv) {b : Array Bool} {x : Array Scalar} {n : Nat}
    (hst : m.store = .bitmap b x n) {pos : Nat} (hat : m.At i j pos) (hbit : b.getD pos false = true) :
    (m.withStore (·.clearBit pos)).Inv ∧ m.Puts (m.withStore (·.clearBit pos)) i j none := by
  have hl := h.laid
  have hd : m.store.dense = true := by rw [hst]; rfl
  have hcell : pos < m.vlen * m.vdim := extent_dense hl hd ▸ hat.1
  obtain ⟨hsz, hcount⟩ := hl.bits b x n hst
  set m' := m.withStore (·.clearBit pos)
  have hs : m.SameShape m' := ⟨rfl, rfl, rfl, rfl, rfl⟩
  have hst' : m'.store = .bitmap (b.setIfInBounds pos false) x (n - 1) := by
    change m.store.clearBit pos = _
    rw [hst]; rfl
  have hd' : m'.store.dense = true := by rw [hst']; rfl
  have hext : m'.extent = m.extent := by rw [extent, extent, if_pos hd, if_pos hd']; rfl
  have hvalues : m'.store.values = m.store.values := by rw [hst, hst']; rfl
  have hpresent : ∀ p, p < m.extent → m'.present p = if p = pos then false else m.present p := by
    intro p hp
    rw [present_dense hd', present_dense hd, cellPresent, cellPresent, hst, hst']
    exact getD_setIfInBounds (hsz.symm ▸ hcell)
  have hl' : m'.Laid := by
    refine laid_dense hd' (hl.cells_lt hd) (fun b' x' n' hb => ?_) (hl.calm hd)
      (by rw [hvalues, hext]; exact hl.values) (by rw [hvalues]; exact hl.typed)
    rw [hst'] at hb
    cases hb
    refine ⟨by rw [Array.size_setIfInBounds]; exact hsz, ?_⟩
    rw [hcount]
    exact (countP_clearBit hcell hsz hbit).symm
  exact h.of_emptied hs hl' rfl rfl hvalues hat (fun i j p => hl.at_iff_of_dense hl' hs hd hd') hpresent

/-- Nothing changes when a place without a value is emptied. -/
theorem Keeps.puts_none (h : m.Keeps m') (hv : m.value i j = none) : m.Puts m' i j none :=
  ⟨h.toSameShape, by rw [h.value, hv], fun _ _ _ => by rw [h.value]⟩

/-- Clearing a cell answers whether there was an entry. -/
theorem ensures_clearCell (h : m.Inv) {b : Array Bool} {x : Array Scalar} {n : Nat}
    (hst : m.store = .bitmap b x n) {pos : Nat} (hat : m.At i j pos) : Ensures (clearCell pos) m
    (fun done t => t.Inv ∧ m.Puts t i j none ∧ done = (m.value i j).isSome) (fun _ _ => False) := by
  have hd : m.store.dense = true := by rw [hst]; rfl
  have hpresent : m.present pos = b.getD pos false := by rw [present_dense hd, cellPresent, hst]
  have hvalue : (m.value i j).isSome = b.getD pos false := by
    rw [h.value_of_at hat, h.laid.stored_of_at hat, hpresent]
    cases b.getD pos false <;> rfl
  have hset : m.bitSet pos = b.getD pos false := by rw [bitSet, hst]
  unfold clearCell
  refine ensures_subject ?_
  rw [hset]
  refine ensures_ite (fun hbit => ?_) fun hbit => ?_
  · obtain ⟨hinv, hputs⟩ := h.clearBit hst hat hbit
    exact ensures_update_then (ensures_pure ⟨hinv, hputs, by rw [hvalue, hbit]⟩)
  · rw [Bool.not_eq_true] at hbit
    rw [hbit] at hvalue
    exact ensures_pure ⟨h, (Keeps.refl m).puts_none (by simpa using hvalue), hvalue.symm⟩

/-- **One attempt at a deletion.** It is put off when the place is not in the index. -/
theorem ensures_tryRemove (h : m.Inv) (hi : i < m.vlen) (hj : j < m.vdim) : Ensures (tryRemove i j) m
    (fun done t => t.Inv ∧ match done with
      | some b => m.Puts t i j none ∧ b = (m.value i j).isSome
      | none => m.Keeps t ∧ t.stored i j = none ∧ t.pending = m.pending)
    (fun e t => e.OfMemory ∧ t.Inv ∧ m.Keeps t) := by
  unfold tryRemove
  refine ensures_update_then ?_
  obtain ⟨hinv, hkeeps, -, hpend⟩ := h.ordered
  generalize (if m.jumbled then m.unjumbled else m) = s at hinv hkeeps hpend
  refine ensures_subject ?_
  have hi' : i < s.vlen := hkeeps.vlen.symm ▸ hi
  have hj' : j < s.vdim := hkeeps.vdim.symm ▸ hj
  have hloc := hinv.laid.locate_cases hi' hj'
  rw [← hkeeps.value]
  cases hl : s.locate i j with
  | cell pos =>
    rw [hl] at hloc
    obtain ⟨hd, hat⟩ := hloc
    refine ensures_when (fun t => t.Inv ∧ s.Keeps t ∧ t.format = .bitmap) (fun _ => ?_)
      (fun hf => ⟨hinv, Keeps.refl s, Storage.format_of_dense hd hf⟩) ?_
    · refine (ensures_convertTo hinv (hinv.laid.calm hd) .bitmap (hinv.laid.cells_lt hd)).mono
        (fun _ t ht => ⟨ht.1, ht.2.1, ht.2.2.2⟩) ?_
      rintro e t ⟨he, rfl⟩
      exact ⟨he, hinv, hkeeps⟩
    · rintro t ⟨htinv, htkeeps, hf⟩
      have hk := hkeeps.trans htkeeps
      obtain ⟨b, x, n, hst⟩ := Storage.exists_bitmap hf
      have hdt : t.store.dense = true := by rw [hst]; rfl
      have hatt : t.At i j pos := by
        rw [hinv.laid.at_dense_iff hd] at hat
        rw [htinv.laid.at_dense_iff hdt, htkeeps.vlen, htkeeps.vdim]
        exact hat
      rw [← htkeeps.value]
      refine (ensures_clearCell htinv hst hatt).andThen (fun _ _ hf => hf.elim) ?_
      rintro done u ⟨huinv, hputs, hdone⟩
      exact ensures_pure ⟨huinv, hk.puts hputs, hdone⟩
  | live pos =>
    rw [hl] at hloc
    obtain ⟨hd, hat, hpres⟩ := hloc
    obtain ⟨hinv', hputs⟩ := hinv.bury hd hat hpres
    refine ensures_update_then (ensures_pure ⟨hinv', hkeeps.puts hputs, ?_⟩)
    rw [hinv.value_of_at hat, hinv.laid.stored_of_at hat, hpres]
    rfl
  | zombie pos =>
    rw [hl] at hloc
    exact ensures_pure ⟨hinv, hkeeps, by rw [hinv.laid.stored_of_at hloc.2.1, hloc.2.2]; rfl, hpend⟩
  | absent =>
    rw [hl] at hloc
    exact ensures_pure ⟨hinv, hkeeps, hinv.laid.stored_of_absent hloc.2, hpend⟩

/-- **A deletion** empties its cell and answers whether there was an entry. If it fails, it is for its
cell or for want of memory, and nothing has changed. -/
theorem ensures_remove (h : m.Inv) (row col : Nat) : Ensures (remove row col) m
    (fun done t => t.Inv ∧ row < m.nrows ∧ col < m.ncols ∧
      m.Puts t (m.toVector row col).1 (m.toVector row col).2 none ∧ done = (m.cell row col).isSome)
    (fun e t => t.Inv ∧ m.Keeps t ∧ (e.OfMemory ∨ m.checkBounds row col = .error e)) := by
  unfold remove
  refine ensures_subject (ensures_require_then (fun e he => ⟨h, Keeps.refl m, .inr he⟩)
    fun _ hbounds => ?_)
  obtain ⟨hr, hc⟩ := checkBounds_ok hbounds
  obtain ⟨hi, hj⟩ := toVector_lt hr hc
  dsimp only
  rw [cell]
  generalize m.toVector row col = place at hi hj ⊢
  obtain ⟨i, j⟩ := place
  dsimp only at hi hj ⊢
  refine (ensures_tryRemove h hi hj).andThen (fun e t ht => ⟨ht.2.1, ht.2.2, .inl ht.1⟩) ?_
  rintro (_ | done) s ⟨hinv, hs⟩
  · obtain ⟨hkeeps, hstored, hpend⟩ := hs
    refine ensures_subject (ensures_ite (fun _ => ?_) fun hnone => ensures_pure ?_)
    · -- what is queued goes into the index first
      refine (ensures_wait hinv).andThen (fun e t ht => ⟨ht.2.1, hkeeps.trans ht.2.2, .inl ht.1⟩) ?_
      rintro _ t ⟨htinv, htkeeps, hdef⟩
      have hk := hkeeps.trans htkeeps
      refine (ensures_tryRemove htinv (hk.vlen.symm ▸ hi) (hk.vdim.symm ▸ hj)).andThen
        (fun e u hu => ⟨hu.2.1, hk.trans hu.2.2, .inl hu.1⟩) ?_
      rintro (_ | done) u ⟨huinv, hu⟩
      · obtain ⟨hukeeps, hustored, hupend⟩ := hu
        have hnone : m.value i j = none := by
          rw [← hk.value, ← hukeeps.value,
            value_of_settled (hupend.trans (deferred_eq_false_iff.1 hdef).1), hustored]
        exact ensures_pure ⟨huinv, hr, hc, (hk.trans hukeeps).puts_none hnone, by rw [hnone]; rfl⟩
      · exact ensures_pure ⟨huinv, hr, hc, hk.puts hu.1, by rw [← hk.value]; exact hu.2⟩
    · have hp : s.pending = none := by simpa using hnone
      have hnone : m.value i j = none := by rw [← hkeeps.value, value_of_settled hp, hstored]
      exact ⟨hinv, hr, hc, hkeeps.puts_none hnone, by rw [hnone]; rfl⟩
  · exact ensures_pure ⟨hinv, hr, hc, hs.1, hs.2⟩

/-! ## Counting, clearing and tuning -/

/-- **The count** is that of the entries, once everything is in the index. -/
theorem ensures_nvals (h : m.Inv) : Ensures nvals m
    (fun n t => t.Inv ∧ m.Keeps t ∧ t.deferred = false ∧ n = t.entries.length)
    (fun e t => e.OfMemory ∧ t.Inv ∧ m.Keeps t) := by
  unfold nvals
  refine (ensures_wait h).andThen (fun _ _ ht => ht) ?_
  rintro _ t ⟨hinv, hkeeps, hdef⟩
  exact ensures_subject (ensures_pure
    ⟨hinv, hkeeps, hdef, hinv.laid.slotCount_eq (deferred_eq_false_iff.1 hdef).2.1⟩)

/-- Without a store there is nothing to be out of order. -/
theorem laid_of_empty (hst : m.store = .empty) (hi : m.iso = false) (hz : m.zombies = 0) : m.Laid := by
  have hd : m.store.dense = false := by rw [hst]; rfl
  have hsize : m.store.slots.size = 0 := by rw [hst]; rfl
  have hcount : m.store.rangeCount = 0 := by rw [hst]; rfl
  refine laid_sparse hd ⟨?_, ?_, fun k hk => ?_, fun a b _ _ hb => ?_, fun pos hpos => ?_, fun k hk => ?_⟩
    (fun _ k hk => ?_) (by rw [hz, hsize]; rfl) (by rw [hi, hsize, hst]; rfl) fun v hv => ?_
  · rw [hst]; exact ⟨rfl, fun k hk => absurd hk (Nat.not_lt_zero k)⟩
  · rw [hst]; exact ⟨rfl, fun k hk => absurd hk (Nat.not_lt_zero k), rfl⟩
  · omega
  · omega
  · omega
  · omega
  · omega
  · rw [hst] at hv; cases hv

theorem stored_of_empty (hst : m.store = .empty) (i j : Nat) : m.stored i j = none := by
  have hloc : m.committed i j = none := by
    unfold committed locate vectorRange
    rw [hst]; rfl
  rw [stored, hloc, ite_self]

/-- A matrix without store and queue has no values. -/
theorem inv_of_empty (hst : m.store = .empty) (hi : m.iso = false) (hz : m.zombies = 0)
    (hp : m.pending = none) (hr : m.nrows ≤ maxDim) (hc : m.ncols ≤ maxDim)
    (hlimit : m.options.maxDenseCells < UInt64.size) : m.Inv ∧ ∀ i j, m.value i j = none :=
  ⟨⟨laid_of_empty hst hi hz, hr, hc, hlimit, fun q hq => by rw [hp] at hq; cases hq⟩,
    fun i j => by rw [value_of_settled hp, stored_of_empty hst]⟩

/-- Clearing removes every value. -/
theorem Inv.cleared (h : m.Inv) : m.cleared.Inv ∧ m.SameShape m.cleared ∧
    ∀ i j, m.cleared.value i j = none := by
  obtain ⟨hinv, hnone⟩ := inv_of_empty (m := m.cleared) rfl rfl rfl rfl h.nrows_le h.ncols_le
    h.denseLimit
  exact ⟨hinv, ⟨rfl, rfl, rfl, rfl, rfl⟩, hnone⟩

/-- Other options change no value. -/
theorem Inv.withOptions (h : m.Inv) (o : MatrixOptions) (ho : o.maxDenseCells < UInt64.size) :
    ({ m with options := o } : Matrix).Inv ∧ ({ m with options := o } : Matrix).value = m.value :=
  ⟨⟨⟨h.laid.cells_lt, h.laid.bits, h.laid.indexed, h.laid.sorted, h.laid.zombies, h.laid.calm,
      h.laid.values, h.laid.typed⟩, h.nrows_le, h.ncols_le, ho, fun q hq =>
      ⟨(h.queued q hq).1, (h.queued q hq).2.1, fun t ht =>
        have ha := (h.queued q hq).2.2 t ht
        ⟨ha.index_lt, ha.vector_lt, ha.missing, ha.carries⟩⟩⟩, rfl⟩

end Matrix

end Adjacency
