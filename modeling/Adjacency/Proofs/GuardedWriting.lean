import Adjacency.Proofs.GuardedCommit

/-!
# Guarded writes and deletions

Point changes and growth, with every access to a storage array guarded, and every counter that goes down.

* `Guarded.writeCell`, `Guarded.revive`, `Guarded.clearBit`: what a change does where its place was found.
* `Matrix.Inv.faultless_accumulate`, `Matrix.Inv.faultless_remove`: **writes and deletions meet no fault.**
* `Matrix.Inv.faultless_resize`: nor does growing.
-/

namespace Adjacency

namespace Guarded

/-- The vectors in order. -/
def ordered (m : Matrix) : Except Failure Matrix := if m.jumbled then unjumbled m else return m

/-- A write needs a value of its own: it combines, or it differs from the shared one. -/
def differs (m : Matrix) (v : Scalar) (op : DupOp) : Except Failure Bool := do
  if op ≠ .second then return true
  else return decide ((← shared m) ≠ v)

/-- The values that expansion makes room for: in a dense format there is one for each cell. -/
def expandedSize (w : Words) (m : Matrix) : Except Failure Nat :=
  if m.store.dense then cells w m else return m.store.slots.size

/-- Gives each entry a value of its own: a copy of the first value, if there is one. -/
def expandIso (w : Words) : Guarded Matrix Unit := do
  let m ← subject
  if m.iso then
    let size ← access (expandedSize w m)
    reserve size .isoExpansion
    put { m with store := m.store.mapValues fun _ => Array.replicate size m.shared, iso := false }

/-- Makes room for a write. -/
def prepareWrite (w : Words) (v : Scalar) (op : DupOp) : Guarded Matrix Unit := do
  alter ordered
  let m ← subject
  if m.iso then
    if ← access (differs m v op) then
      if m.pending.isSome then wait w
      expandIso w
  else
    let taken ← access (slotCount w m)
    if taken = 0 ∧ m.format ≠ .full ∧ m.pending.isNone then put (m.becomeIso v)

/-- The values once a dense cell is written. -/
def cellValues (m : Matrix) (pos : Nat) (v : Scalar) (op : DupOp) : Except Failure (Array Scalar) := do
  if m.iso then return m.store.values
  else if ← cellPresent m pos then
    write m.store.values pos (op.apply m.type (← read m.store.values pos) v)
  else write m.store.values pos v

/-- Sets a bit of a bitmap, and counts it if it was clear. -/
def setBit (pos : Nat) : Storage → Except Failure Storage
  | .full x => return .full x
  | .bitmap b x n => do
    if ← read b pos then return .bitmap b x n
    else return .bitmap (← write b pos true) x (n + 1)
  | .sparse .. | .hypersparse .. => throw (.fault .misplaced)

/-- Writes a dense cell. -/
def writeCell (m : Matrix) (pos : Nat) (v : Scalar) (op : DupOp) : Except Failure Matrix := do
  let x ← cellValues m pos v op
  return { m with store := ← setBit pos (m.store.mapValues fun _ => x) }

/-- Writes a live slot. -/
def writeLive (m : Matrix) (pos : Nat) (v : Scalar) (op : DupOp) : Except Failure Matrix := do
  if m.iso then return m
  else
    let x ← write m.store.values pos (op.apply m.type (← read m.store.values pos) v)
    return { m with store := m.store.mapValues fun _ => x }

/-- Changes a slot of a sparse format. -/
def writeSlot (store : Storage) (pos : Nat) (slot : Slot) : Except Failure Storage := do
  match store with
  | .sparse p i x => return .sparse p (← write i pos slot) x
  | .hypersparse h p i x => return .hypersparse h p (← write i pos slot) x
  | .full _ | .bitmap .. => throw (.fault .misplaced)

/-- The values once a tombstone has a new one. -/
def revivedValues (m : Matrix) (pos : Nat) (v : Scalar) : Except Failure (Array Scalar) :=
  if m.iso then return m.store.values else write m.store.values pos v

/-- Brings a tombstone back to life with a new value, and counts it off. -/
def revive (m : Matrix) (pos i : Nat) (v : Scalar) : Except Failure Matrix := do
  let x ← revivedValues m pos v
  let store ← writeSlot (m.store.mapValues fun _ => x) pos { index := i }
  return { m with store, zombies := ← countDown m.zombies }

/-- Marks a slot dead. -/
def bury (m : Matrix) (pos : Nat) : Except Failure Matrix := do
  let slot ← read m.store.slots pos
  return { m with
    store := ← writeSlot m.store pos { slot with dead := true }, zombies := m.zombies + 1 }

/-- One attempt at a write. -/
def tryWrite (w : Words) (raw v : Scalar) (i j : Nat) (op : DupOp) :
    Guarded Matrix (Option SetOutcome) := do
  prepareWrite w v op
  let m ← subject
  match ← access (locate w m i j) with
  | .cell pos => do
    alter (writeCell · pos v op)
    return some .inPlace
  | .live pos => do
    alter (writeLive · pos v op)
    return some .inPlace
  | .zombie pos => do
    alter (revive · pos i v)
    return some .resurrected
  | .absent =>
    if m.queueAccepts raw.type op then do
      let value := if m.iso then none else some raw
      update (·.enqueue ⟨i, j, value⟩ raw.type op)
      let m ← subject
      return some (.queued (decide (m.options.pendingThreshold ≤ m.pendingCount)))
    else return none

/-- Writes a value, combined with an entry already there by `op`. -/
def accumulate (w : Words) (raw : Scalar) (row col : Nat) (op : DupOp) : Guarded Matrix SetOutcome := do
  let m ← subject
  require (m.checkBounds row col)
  let v ← require (m.castIn raw)
  let (i, j) := m.toVector row col
  match ← tryWrite w raw v i j op with
  | some done => return done
  | none => do
    wait w
    match ← tryWrite w raw v i j op with
    | some done => return done
    | none => refuse (.contractViolation .pendingStillIncompatible)

/-- Writes a value. -/
def setElement (w : Words) (raw : Scalar) (row col : Nat) : Guarded Matrix SetOutcome :=
  accumulate w raw row col .second

/-- The bit of a cell is set. -/
def bitSet (m : Matrix) (pos : Nat) : Except Failure Bool :=
  match m.store with
  | .bitmap b _ _ => read b pos
  | _ => return false

/-- Clears a set bit of a bitmap, and counts it off. -/
def clearBit (m : Matrix) (pos : Nat) : Except Failure Matrix := do
  match m.store with
  | .bitmap b x n => return { m with store := .bitmap (← write b pos false) x (← countDown n) }
  | _ => throw (.fault .misplaced)

/-- Clears a bit; false when it was clear. -/
def clearCell (pos : Nat) : Guarded Matrix Bool := do
  let m ← subject
  if ← access (bitSet m pos) then do
    alter (clearBit · pos)
    return true
  else return false

/-- One attempt at a deletion. -/
def tryRemove (w : Words) (i j : Nat) : Guarded Matrix (Option Bool) := do
  alter ordered
  let m ← subject
  match ← access (locate w m i j) with
  | .cell pos => do
    if m.format = .full then convertTo w .bitmap
    return some (← clearCell pos)
  | .live pos => do
    alter (bury · pos)
    return some true
  | .zombie _ | .absent => return none

/-- Deletes a cell; false when there was nothing to delete. -/
def remove (w : Words) (row col : Nat) : Guarded Matrix Bool := do
  let m ← subject
  require (m.checkBounds row col)
  let (i, j) := m.toVector row col
  match ← tryRemove w i j with
  | some done => return done
  | none => do
    if (← subject).pending.isSome then do
      wait w
      return (← tryRemove w i j).getD false
    else return false

/-- The number of entries, after a commit. -/
def nvals (w : Words) : Guarded Matrix Nat := do
  wait w
  access (slotCount w (← subject))

/-- Grows the matrix; shrinking is refused. -/
def resize (w : Words) (nrows ncols : Nat) : Guarded Matrix Unit := do
  let m ← subject
  if nrows < m.nrows ∨ ncols < m.ncols then refuse (.invalid .shrinkingResize)
  if nrows > maxDim ∨ ncols > maxDim then refuse (.invalid .dimensionTooLarge)
  if nrows ≠ m.nrows ∨ ncols ≠ m.ncols then
    wait w
    if (← subject).store.dense then convertTo w .hypersparse
    lift (Matrix.extendPointers (if m.byRow then nrows - m.nrows else ncols - m.ncols))
    update fun m => { m with nrows, ncols }
    conform w

end Guarded

namespace Matrix

open Guarded

variable {m : Matrix} {w : Words} {i j : Nat}

/-! ## Room for a write -/

theorem Laid.guarded_ordered (h : m.Laid) :
    Guarded.ordered m = .ok (if m.jumbled then m.unjumbled else m) := by
  unfold Guarded.ordered
  cases hj : m.jumbled with
  | false => rfl
  | true =>
    have hd : m.store.dense = false := by
      by_contra hd
      have := (deferred_eq_false_iff.1 (h.calm (by simpa using hd))).2.2
      rw [hj] at this
      cases this
    exact h.guarded_unjumbled hd

theorem Laid.guarded_differs (h : m.Laid) (hi : m.iso = true) (v : Scalar) (op : DupOp) :
    Guarded.differs m v op = .ok (decide (op ≠ .second ∨ m.shared ≠ v)) := by
  unfold Guarded.differs
  rw [h.guarded_shared hi]
  by_cases hop : op = .second
  · simp only [hop, ne_eq, not_true, if_false, false_or, bind, Except.bind]
    rfl
  · simp only [ne_eq, hop, not_false_eq_true, if_true, true_or, decide_true]
    rfl

theorem Laid.faultless_expandIso (h : m.Laid) : Faultless (Guarded.expandIso w) expandIso m := by
  have hsize : Guarded.expandedSize w m = .ok m.expandedSize := by
    unfold Guarded.expandedSize expandedSize
    split
    · next hd => exact guarded_cells (h.cells_lt hd)
    · rfl
  unfold Guarded.expandIso expandIso
  refine faultless_subject (faultless_ite (fun _ => ?_) fun _ => faultless_pure _ _)
  exact faultless_access hsize (faultless_reserve (faultless_lift _ _))

/-- Making room for a write meets no fault. -/
theorem Inv.faultless_prepareWrite (h : m.Inv) (hcount : Counted w m.nrows m.ncols) {v : Scalar}
    (op : DupOp) : Faultless (Guarded.prepareWrite w v op) (prepareWrite v op) m := by
  unfold Guarded.prepareWrite prepareWrite
  refine faultless_alter h.laid.guarded_ordered ?_
  obtain ⟨hinv, hkeeps, -, -⟩ := h.ordered
  generalize (if m.jumbled then m.unjumbled else m) = s at hinv hkeeps
  have hcount := hcount.of_sameShape hkeeps.toSameShape
  refine faultless_subject (faultless_ite (fun hi => ?_) fun _ => ?_)
  · refine faultless_access (hinv.laid.guarded_differs hi v op) ?_
    simp only [decide_eq_true_eq]
    refine faultless_ite (fun _ => ?_) fun _ => faultless_pure _ _
    exact faultless_when (fun t => t.Inv) (fun _ => hinv.faultless_wait hcount)
      (fun _ => (ensures_wait hinv).mono (fun _ _ ht => ht.1) fun _ _ ht => ht) (fun _ => hinv)
      fun t ht => ht.laid.faultless_expandIso
  · refine faultless_access hinv.laid.guarded_slotCount ?_
    exact faultless_ite (fun _ => faultless_lift _ _) fun _ => faultless_pure _ _

/-! ## Where a write lands -/

theorem setIfInBounds_of_getD {b : Array Bool} {pos : Nat} (h : b.getD pos false = true) :
    b.setIfInBounds pos true = b := by
  refine Array.ext_getElem? fun k => ?_
  rw [Array.getElem?_setIfInBounds]
  split
  · next hk =>
    subst hk
    rw [Array.getD_eq_getD_getElem?] at h
    split
    · next hlt =>
      rw [Array.getElem?_eq_getElem hlt] at h ⊢
      exact congrArg some h.symm
    · next hge => rw [Array.getElem?_eq_none (by omega)]
  · rfl

theorem Laid.values_size_of_not_iso (h : m.Laid) (hi : ¬m.iso = true) :
    m.store.values.size = m.extent := by
  rw [h.values, if_neg hi]

/-- Values that are kept or changed in one place, put back into the format they come from. -/
theorem mapValues_kept (store : Storage) (iso : Bool) (f : Array Scalar → Array Scalar) :
    (store.mapValues fun _ => if iso then store.values else f store.values) =
      if iso then store else store.mapValues f := by
  cases iso with
  | true => cases store <;> rfl
  | false => exact mapValues_congr rfl

theorem Laid.guarded_cellValues (h : m.Laid) (hd : m.store.dense = true) {pos : Nat}
    (hpos : pos < m.extent) (v : Scalar) (op : DupOp) :
    Guarded.cellValues m pos v op = .ok (if m.iso then m.store.values else
      m.store.values.setIfInBounds pos
        (if m.cellPresent pos then op.apply m.type (m.store.values.getD pos m.type.zero) v else v)) := by
  unfold Guarded.cellValues
  by_cases hi : m.iso = true
  · rw [if_pos hi, if_pos hi]
    rfl
  · have hlt : pos < m.store.values.size := by rw [h.values_size_of_not_iso hi]; exact hpos
    rw [if_neg hi, if_neg hi, h.guarded_cellPresent hd hpos, read_of_lt m.type.zero hlt]
    simp only [bind, Except.bind, write_of_lt hlt]
    split <;> rfl

theorem guarded_setBit {store : Storage} (hd : store.dense = true) {pos : Nat}
    (hb : ∀ b x n, store = .bitmap b x n → pos < b.size) :
    Guarded.setBit pos store = .ok (store.setBit pos) := by
  cases store with
  | full x => rfl
  | bitmap b x n =>
    have hlt := hb b x n rfl
    simp only [Guarded.setBit, Storage.setBit, bind, Except.bind, read_of_lt false hlt, write_of_lt hlt]
    cases hset : b.getD pos false with
    | true => rw [setIfInBounds_of_getD hset]; rfl
    | false => rfl
  | sparse p i x => cases hd
  | hypersparse l p i x => cases hd

/-- A dense cell has a value and a bit. -/
theorem Laid.guarded_writeCell (h : m.Laid) (hd : m.store.dense = true) {pos : Nat}
    (hpos : pos < m.extent) (v : Scalar) (op : DupOp) :
    Guarded.writeCell m pos v op = .ok (m.writeCell pos v op) := by
  unfold Guarded.writeCell Matrix.writeCell
  rw [withStore_eq, h.guarded_cellValues hd hpos]
  generalize (if m.cellPresent pos = true then _ else v) = new
  have hbits : ∀ b x n, (if m.iso then m.store else m.store.mapValues (·.setIfInBounds pos new)) =
      .bitmap b x n → pos < b.size := by
    intro b x n hs
    rw [extent_dense h hd] at hpos
    cases hst : m.store with
    | bitmap b' x' n' =>
      rw [hst] at hs
      have hb : b = b' := by split at hs <;> cases hs <;> rfl
      rw [hb, (h.bits b' x' n' hst).1]
      exact hpos
    | full x' => rw [hst] at hs; split at hs <;> cases hs
    | sparse p i x' => rw [hst] at hd; cases hd
    | hypersparse l p i x' => rw [hst] at hd; cases hd
  simp only [bind, Except.bind, mapValues_kept m.store m.iso (·.setIfInBounds pos new)]
  rw [guarded_setBit (by split <;> simp [hd]) hbits]
  rfl

theorem Laid.guarded_writeLive (h : m.Laid) {pos : Nat} (hpos : pos < m.extent) (v : Scalar)
    (op : DupOp) : Guarded.writeLive m pos v op = .ok (m.writeLive pos v op) := by
  unfold Guarded.writeLive Matrix.writeLive
  by_cases hi : m.iso = true
  · rw [if_pos hi, if_pos hi]
    rfl
  · have hlt : pos < m.store.values.size := by rw [h.values_size_of_not_iso hi]; exact hpos
    rw [if_neg hi, if_neg hi, read_of_lt m.type.zero hlt]
    simp only [bind, Except.bind, write_of_lt hlt, withStore_eq]
    refine congrArg (fun store => Except.ok { m with store }) ?_
    exact mapValues_congr rfl

theorem guarded_writeSlot (store : Storage) (hd : store.dense = false) {pos : Nat}
    (hpos : pos < store.slots.size) (slot : Slot) :
    Guarded.writeSlot store pos slot = .ok (store.mapSlots (·.setIfInBounds pos slot)) := by
  cases store with
  | full x => cases hd
  | bitmap b x n => cases hd
  | sparse p i x =>
    have hlt : pos < i.size := hpos
    simp only [Guarded.writeSlot, write_of_lt hlt]
    rfl
  | hypersparse l p i x =>
    have hlt : pos < i.size := hpos
    simp only [Guarded.writeSlot, write_of_lt hlt]
    rfl

/-- A tombstone that is brought back was counted. -/
theorem Laid.zombies_pos (h : m.Laid) (hd : m.store.dense = false) {pos : Nat}
    (hpos : pos < m.store.slots.size) (hdead : m.present pos = false) : 0 < m.zombies := by
  rw [present_sparse hd hpos] at hdead
  rw [h.zombies hd, List.countP_pos_iff]
  exact ⟨pos, List.mem_range.2 hpos, by simpa using hdead⟩

theorem Laid.guarded_revivedValues (h : m.Laid) {pos : Nat} (hpos : pos < m.extent) (v : Scalar) :
    Guarded.revivedValues m pos v =
      .ok (if m.iso then m.store.values else m.store.values.setIfInBounds pos v) := by
  unfold Guarded.revivedValues
  by_cases hi : m.iso = true
  · rw [if_pos hi, if_pos hi]
    rfl
  · rw [if_neg hi, if_neg hi]
    exact write_of_lt (by rw [h.values_size_of_not_iso hi]; exact hpos)

/-- A tombstone has a slot and a value, and was counted. -/
theorem Laid.guarded_revive (h : m.Laid) (hd : m.store.dense = false) {pos : Nat}
    (hpos : pos < m.store.slots.size) (hdead : m.present pos = false) (i : Nat) (v : Scalar) :
    Guarded.revive m pos i v = .ok (m.revive pos i v) := by
  have hvalues := h.guarded_revivedValues (show pos < m.extent by rwa [extent_sparse hd]) v
  have hcount := countDown_of_pos (h.zombies_pos hd hpos hdead)
  have hslot := guarded_writeSlot
    (if m.iso then m.store else m.store.mapValues (·.setIfInBounds pos v))
    (by split <;> simp [hd]) (by split <;> simpa using hpos) { index := i }
  simp only [Guarded.revive, bind, Except.bind, hvalues,
    mapValues_kept m.store m.iso (·.setIfInBounds pos v), hslot, hcount]
  rfl

theorem modify_eq_setIfInBounds {α : Type} {a : Array α} {pos : Nat} (d : α) (f : α → α)
    (h : pos < a.size) : a.modify pos f = a.setIfInBounds pos (f (a.getD pos d)) := by
  refine Array.ext_getElem? fun k => ?_
  rw [Array.getElem?_modify, Array.getElem?_setIfInBounds]
  split
  · next hk =>
    subst hk
    simp [h]
  · rfl

theorem guarded_bury (hd : m.store.dense = false) {pos : Nat} (hpos : pos < m.store.slots.size) :
    Guarded.bury m pos = .ok (m.bury pos) := by
  have hstore : m.store.mapSlots (·.modify pos fun slot => { slot with dead := true }) =
      m.store.mapSlots
        (·.setIfInBounds pos { m.store.slots.getD pos default with dead := true }) := by
    cases hs : m.store with
    | full x => rfl
    | bitmap b x n => rfl
    | sparse p i x =>
      rw [hs] at hpos
      exact congrArg (Storage.sparse p · x) (modify_eq_setIfInBounds default _ hpos)
    | hypersparse l p i x =>
      rw [hs] at hpos
      exact congrArg (Storage.hypersparse l p · x) (modify_eq_setIfInBounds default _ hpos)
  unfold Guarded.bury Matrix.bury
  rw [withStore_eq, hstore, read_of_lt default hpos]
  simp only [bind, Except.bind, guarded_writeSlot m.store hd hpos]
  rfl

/-- Where a place was found, an attempt at a write meets no fault. -/
theorem Inv.faultless_tryWrite (h : m.Inv) (hcount : Counted w m.nrows m.ncols) {raw v : Scalar}
    (hv : raw.cast m.type = some v) (hi : i < m.vlen) (hj : j < m.vdim) (op : DupOp) :
    Faultless (Guarded.tryWrite w raw v i j op) (tryWrite raw v i j op) m := by
  have hvt := (Scalar.cast_eq_some hv).1
  unfold Guarded.tryWrite tryWrite
  refine (h.faultless_prepareWrite hcount op).bind (ensures_prepareWrite h hvt op) ?_
  rintro - s ⟨hinv, hkeeps, -, -⟩
  have hi' : i < s.vlen := hkeeps.vlen.symm ▸ hi
  have hj' : j < s.vdim := hkeeps.vdim.symm ▸ hj
  have hloc := hinv.laid.locate_cases hi' hj'
  refine faultless_subject (faultless_access (hinv.laid.guarded_locate hi' hj') ?_)
  cases hl : s.locate i j with
  | cell pos =>
    rw [hl] at hloc
    exact faultless_alter (hinv.laid.guarded_writeCell hloc.1 hloc.2.1 v op) (faultless_pure _ _)
  | live pos =>
    rw [hl] at hloc
    exact faultless_alter (hinv.laid.guarded_writeLive hloc.2.1.1 v op) (faultless_pure _ _)
  | zombie pos =>
    rw [hl] at hloc
    obtain ⟨hd, hat, hdead⟩ := hloc
    have hpos : pos < s.store.slots.size := by rw [← extent_sparse hd]; exact hat.1
    exact faultless_alter (hinv.laid.guarded_revive hd hpos hdead i v) (faultless_pure _ _)
  | absent =>
    refine faultless_ite (fun _ => ?_) fun _ => faultless_pure _ _
    exact faultless_update (faultless_subject (faultless_pure _ _))

/-- **A write** meets no fault. -/
theorem Inv.faultless_accumulate (h : m.Inv) (hcount : Counted w m.nrows m.ncols) (raw : Scalar)
    (row col : Nat) (op : DupOp) :
    Faultless (Guarded.accumulate w raw row col op) (accumulate raw row col op) m := by
  unfold Guarded.accumulate accumulate
  refine faultless_subject (faultless_require fun _ hbounds => faultless_require fun v hv => ?_)
  have hcast := castIn_eq_ok_iff.1 hv
  obtain ⟨hr, hc⟩ := checkBounds_ok hbounds
  obtain ⟨hi, hj⟩ := toVector_lt hr hc
  dsimp only
  refine (h.faultless_tryWrite hcount hcast hi hj op).bind (ensures_tryWrite h hcast hi hj op) ?_
  rintro (_ | done) s ⟨hinv, hs⟩
  · -- the queue does not take it: the commit empties the queue, and the write is tried again
    obtain ⟨hkeeps, -⟩ := hs
    refine (hinv.faultless_wait (hcount.of_sameShape hkeeps.toSameShape)).bind (ensures_wait hinv) ?_
    rintro - t ⟨htinv, htkeeps, -⟩
    have hk := hkeeps.trans htkeeps
    refine (htinv.faultless_tryWrite (hcount.of_sameShape hk.toSameShape) (hk.type.symm ▸ hcast)
      (hk.vlen.symm ▸ hi) (hk.vdim.symm ▸ hj) op).andThen ?_
    rintro (_ | done) u
    · exact faultless_refuse _ _
    · exact faultless_pure _ _
  · exact faultless_pure _ _

/-! ## Deletions -/

/-- A bit that is set was counted. -/
theorem Laid.bits_pos (h : m.Laid) {b : Array Bool} {x : Array Scalar} {n : Nat}
    (hs : m.store = .bitmap b x n) {pos : Nat} (hpos : pos < m.extent) (hset : b.getD pos false = true) :
    0 < n := by
  rw [extent_dense h (by rw [hs]; rfl)] at hpos
  rw [(h.bits b x n hs).2, List.countP_pos_iff]
  exact ⟨pos, List.mem_range.2 hpos, hset⟩

theorem Inv.faultless_clearCell (h : m.Inv) {b : Array Bool} {x : Array Scalar} {n : Nat}
    (hs : m.store = .bitmap b x n) {pos : Nat} (hpos : pos < m.extent) :
    Faultless (Guarded.clearCell pos) (clearCell pos) m := by
  have hd : m.store.dense = true := by rw [hs]; rfl
  have hlt : pos < b.size := by
    rw [(h.laid.bits b x n hs).1, ← extent_dense h.laid hd]
    exact hpos
  have hread : Guarded.bitSet m pos = .ok (m.bitSet pos) := by
    unfold Guarded.bitSet bitSet
    rw [hs]
    exact read_of_lt false hlt
  unfold Guarded.clearCell clearCell
  refine faultless_subject (faultless_access hread (faultless_ite (fun hset => ?_) fun _ =>
    faultless_pure _ _))
  have hset : b.getD pos false = true := by
    unfold bitSet at hset
    rwa [hs] at hset
  have hclear : Guarded.clearBit m pos = .ok (m.withStore (·.clearBit pos)) := by
    rw [Guarded.clearBit, withStore_eq, hs]
    simp only [write_of_lt hlt, countDown_of_pos (h.laid.bits_pos hs hpos hset)]
    rfl
  exact faultless_alter hclear (faultless_pure _ _)

/-- Where a place was found, an attempt at a deletion meets no fault. -/
theorem Inv.faultless_tryRemove (h : m.Inv) (hcount : Counted w m.nrows m.ncols) (hi : i < m.vlen)
    (hj : j < m.vdim) : Faultless (Guarded.tryRemove w i j) (tryRemove i j) m := by
  unfold Guarded.tryRemove tryRemove
  refine faultless_alter h.laid.guarded_ordered ?_
  obtain ⟨hinv, hkeeps, -, -⟩ := h.ordered
  generalize (if m.jumbled then m.unjumbled else m) = s at hinv hkeeps
  have hi' : i < s.vlen := hkeeps.vlen.symm ▸ hi
  have hj' : j < s.vdim := hkeeps.vdim.symm ▸ hj
  have hloc := hinv.laid.locate_cases hi' hj'
  refine faultless_subject (faultless_access (hinv.laid.guarded_locate hi' hj') ?_)
  cases hl : s.locate i j with
  | cell pos =>
    rw [hl] at hloc
    obtain ⟨hd, hat⟩ := hloc
    -- a full matrix goes over to the bitmap format, whose cells are the same
    refine faultless_when (fun t => t.Inv ∧ s.Keeps t ∧ t.format = .bitmap)
      (fun _ => hinv.faultless_convertTo (hcount.of_sameShape hkeeps.toSameShape) .bitmap
        (hinv.laid.cells_lt hd))
      (fun _ => (ensures_convertTo hinv (hinv.laid.calm hd) .bitmap (hinv.laid.cells_lt hd)).mono
        (fun _ t ht => ⟨ht.1, ht.2.1, ht.2.2.2⟩) fun _ _ ht => ht)
      (fun hf => ⟨hinv, Keeps.refl s, Storage.format_of_dense hd hf⟩) ?_
    rintro t ⟨htinv, htkeeps, hf⟩
    obtain ⟨b, x, n, hst⟩ := Storage.exists_bitmap hf
    have hdt : t.store.dense = true := by rw [hst]; rfl
    have hlt : pos < t.extent := by
      have := hat.1
      rwa [extent_dense htinv.laid hdt, htkeeps.vlen, htkeeps.vdim, ← extent_dense hinv.laid hd]
    exact (htinv.faultless_clearCell hst hlt).andThen fun _ _ => faultless_pure _ _
  | live pos =>
    rw [hl] at hloc
    obtain ⟨hd, hat, -⟩ := hloc
    have hpos : pos < s.store.slots.size := by rw [← extent_sparse hd]; exact hat.1
    exact faultless_alter (guarded_bury hd hpos) (faultless_pure _ _)
  | zombie pos => exact faultless_pure _ _
  | absent => exact faultless_pure _ _

/-- **A deletion** meets no fault. -/
theorem Inv.faultless_remove (h : m.Inv) (hcount : Counted w m.nrows m.ncols) (row col : Nat) :
    Faultless (Guarded.remove w row col) (remove row col) m := by
  unfold Guarded.remove remove
  refine faultless_subject (faultless_require fun _ hbounds => ?_)
  obtain ⟨hr, hc⟩ := checkBounds_ok hbounds
  obtain ⟨hi, hj⟩ := toVector_lt hr hc
  dsimp only
  refine (h.faultless_tryRemove hcount hi hj).bind (ensures_tryRemove h hi hj) ?_
  rintro (_ | done) s ⟨hinv, hs⟩
  · -- the cell may still be in the queue, which a commit brings into the index
    obtain ⟨hkeeps, -, -⟩ := hs
    refine faultless_subject (faultless_ite (fun _ => ?_) fun _ => faultless_pure _ _)
    refine (hinv.faultless_wait (hcount.of_sameShape hkeeps.toSameShape)).bind (ensures_wait hinv) ?_
    rintro - t ⟨htinv, htkeeps, -⟩
    have hk := hkeeps.trans htkeeps
    exact (htinv.faultless_tryRemove (hcount.of_sameShape hk.toSameShape) (hk.vlen.symm ▸ hi)
      (hk.vdim.symm ▸ hj)).andThen fun _ _ => faultless_pure _ _
  · exact faultless_pure _ _

/-! ## Counting and growing -/

theorem Inv.faultless_nvals (h : m.Inv) (hcount : Counted w m.nrows m.ncols) :
    Faultless (Guarded.nvals w) nvals m := by
  unfold Guarded.nvals nvals
  refine (h.faultless_wait hcount).bind (ensures_wait h) ?_
  rintro - t ⟨hinv, -, -⟩
  refine faultless_subject ?_
  rw [hinv.laid.guarded_slotCount]
  exact faultless_pure _ _

/-- **Growing** meets no fault, if the cells of the grown matrix can be counted. -/
theorem Inv.faultless_resize (h : m.Inv) {nrows ncols : Nat} (hcount : Counted w nrows ncols) :
    Faultless (Guarded.resize w nrows ncols) (resize nrows ncols) m := by
  unfold Guarded.resize resize
  refine faultless_subject (faultless_ite (fun _ => faultless_refuse _ _) fun hge => ?_)
  refine faultless_ite (fun _ => faultless_refuse _ _) fun hle => ?_
  refine faultless_ite (fun _ => ?_) fun _ => faultless_pure _ _
  -- it had no more cells before
  have hbefore : Counted w m.nrows m.ncols := fun hidle =>
    Nat.lt_of_le_of_lt (Nat.mul_le_mul (by omega) (by omega)) (hcount hidle)
  refine (h.faultless_wait hbefore).bind (ensures_wait h) ?_
  rintro - s ⟨hinv, hkeeps, hdef⟩
  have hconvert := ensures_convertTo hinv hdef .hypersparse trivial
  refine faultless_subject (faultless_when
    (fun t => t.Inv ∧ m.Keeps t ∧ t.deferred = false ∧ t.store.dense = false)
    (fun _ => hinv.faultless_convertTo (hbefore.of_sameShape hkeeps.toSameShape) .hypersparse trivial)
    (fun _ => hconvert.mono (fun _ t ht => ?_) fun _ _ ht => ht)
    (fun hd => ⟨hinv, hkeeps, hdef, by simpa using hd⟩) ?_)
  · obtain ⟨htinv, htkeeps, htdef, hf⟩ := ht
    exact ⟨htinv, hkeeps.trans htkeeps, htdef, Storage.dense_of_hypersparse hf⟩
  · rintro t ⟨htinv, htkeeps, htdef, hd⟩
    -- only a sparse format has pointers to extend, and it is in order once they are
    refine (faultless_lift _ _).bind (ensures_extendPointers t _) ?_
    rintro - _ rfl
    obtain ⟨hginv, -⟩ := htinv.grown hd (deferred_eq_false_iff.1 htdef).1
      (show t.nrows ≤ nrows by rw [htkeeps.nrows]; omega)
      (show t.ncols ≤ ncols by rw [htkeeps.ncols]; omega) (by omega) (by omega)
    rw [← htkeeps.byRow, ← htkeeps.nrows, ← htkeeps.ncols]
    exact faultless_update (hginv.faultless_conform hcount)

end Matrix

end Adjacency
