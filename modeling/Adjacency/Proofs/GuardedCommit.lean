import Adjacency.Proofs.GuardedReading

/-!
# Guarded commits

Commits and changes of format, with every access to a storage array guarded. On a matrix in order they meet
no fault.

* `Guarded.unjumbled`, `Guarded.existing`: sorting the vectors, and the slots that a commit reads.
* `Guarded.convertTo`: a change between the two sparse formats takes the cell count too, which nothing uses
  there.
* `Matrix.Counted`: the cells can be counted, if such a count is to be exact.
* `Matrix.Inv.faultless_convertTo`, `Matrix.Inv.faultless_wait`: **another format and a commit meet no
  fault.**
-/

namespace Adjacency

namespace Guarded

/-- Positions taken in the index, tombstones included. -/
def slotCount (w : Words) (m : Matrix) : Except Failure Nat :=
  match m.store with
  | .full _ => cells w m
  | _ => return m.slotCount

/-- Sorts every vector by index, within its stretch of the index and of the values. -/
def unjumbled (m : Matrix) : Except Failure Matrix := do
  m.ranges.forM fun (start, stop) => do
    slice m.store.slots start stop
    if !m.iso then slice m.store.values start stop
  return m.unjumbled

/-- The slots of the `k`-th pointer range; a tombstone has no value. -/
def existingIn (m : Matrix) (k : Nat) : Except Failure (List Existing) := do
  let j ← vectorAt m k
  let start ← read m.store.pointers k
  let stop ← read m.store.pointers (k + 1)
  (List.range' start (stop - start)).mapM fun pos => do
    let slot ← read m.store.slots pos
    if slot.dead then return ⟨j, slot.index, none⟩
    else return ⟨j, slot.index, some (← valueAt m pos)⟩

/-- The slots of the index by place. One pointer more than there are ranges is needed. -/
def existing (w : Words) (m : Matrix) : Except Failure (List Existing) := do
  let slots ←
    if m.store.dense then do
      let entries ← tuples w m
      pure (entries.toList.map fun t =>
        let (i, j) := m.toVector t.row t.col
        (⟨j, i, some t.value⟩ : Existing))
    else do
      let ranges ← countDown m.store.pointers.size
      pure (← (List.range ranges).mapM (existingIn m)).flatten
  return if m.jumbled then stableSort (fun a b => placeLe a.j a.i b.j b.i) slots else slots

/-- The pending tuples, cast to the element type, in the order of their writing. -/
def queuedEntries (m : Matrix) (q : Pending) (shared : Option Scalar) :
    Except Failure (List IndexEntry) :=
  (List.range q.tuples.size).mapM fun k => do
    let t ← read q.tuples k
    return ⟨t.j, t.i, ← queuedValue m q shared k⟩

/-- The committed entries by place. -/
def sortedEntries (w : Words) (m : Matrix) : Except Failure (List IndexEntry) := do
  let entries ← tuples w m
  return stableSort (fun a b => placeLe a.j a.i b.j b.i) (entries.toList.map fun t =>
    let (i, j) := m.toVector t.row t.col
    ⟨j, i, t.value⟩)

/-- Writes what the entries give at their cells. -/
def fill {α : Type} (w : Words) (m : Matrix) (f : IndexEntry → α) (entries : List IndexEntry)
    (a : Array α) : Except Failure (Array α) :=
  entries.foldlM (fun a e => do write a (← densePos w m e.i e.j) (f e)) a

/-- The dense values of the given entries, in so many cells. -/
def denseValues (w : Words) (m : Matrix) (cells : Nat) (shared : Option Scalar)
    (entries : List IndexEntry) : Except Failure (Array Scalar) :=
  let value := shared.getD m.type.zero
  if m.iso then return Array.replicate 1 value
  else fill w m IndexEntry.value entries (Array.replicate cells value)

/-- The presence bits of the given entries. -/
def denseBits (w : Words) (m : Matrix) (cells : Nat) (entries : List IndexEntry) :
    Except Failure (Array Bool) :=
  fill w m (fun _ => true) entries (Array.replicate cells false)

/-- A pointer for each of `vdim` vectors, from the pointers of the listed ones. -/
def allPointers (h p : Array Nat) (vdim : Nat) : Except Failure (Array Nat) := do
  let scanned ← (List.range vdim).foldlM (fun (acc, k) j => do
    let k := if h[k]? = some j then k + 1 else k
    return (acc.push (← read p k), k)) (#[0], 0)
  return scanned.1

/-- Keeps only the first of the values if all are the same. -/
def collapsed (entries : Array IndexEntry) (store : Storage) : Except Failure Storage := do
  if Matrix.isUniform entries then
    let value ← read store.values 0
    return store.mapValues fun _ => #[value]
  else return store

/-- Installs sorted entries. -/
def installSorted (entries : Array IndexEntry) : Guarded Matrix Unit := do
  let store ← lift (Matrix.buildStorage (Matrix.countVectors entries) entries)
  let store ← access (collapsed entries store)
  update fun m => { m with store, iso := Matrix.isUniform entries }

/-- Merges the pending tuples into the index and drops the tombstones. -/
def assemble (w : Words) : Guarded Matrix Unit := do
  let m ← subject
  let shared ← access (sharedIfIso m)
  let taken ← access (slotCount w m)
  reserve taken .commitExisting
  let existing ← access (existing w m)
  let (op, incoming) ← match m.pending with
    | none => pure (DupOp.second, [])
    | some q => do
      reserve q.tuples.size .commitPending
      let queued ← access (queuedEntries m q shared)
      pure (q.op, m.combined q.op queued)
  reserve (existing.length + incoming.length) .commitMerge
  installSorted
    (mergePlaces op m.type (existing.length + incoming.length + 1) #[] existing incoming)
  update fun m => { m with pending := none, zombies := 0, jumbled := false }

/-- The cell count that a change of format takes, before the target is looked at. -/
def cellsFor (w : Words) (target : Format) (m : Matrix) : Except Failure Nat :=
  if w.idle ∨ m.store.dense ∨ target.dense then cells w m else return m.cells

/-- The same content in the format `target`. -/
def convertTo (w : Words) (target : Format) : Guarded Matrix Unit := do
  let m ← subject
  if m.deferred then refuse (.contractViolation .conversionWithDeferredState)
  let cells ← access (cellsFor w target m)
  let taken ← access (slotCount w m)
  reserve taken .formatConversion
  let entries ← access (sortedEntries w m)
  let shared ← access (sharedIfIso m)
  match target with
  | .full => do
    if entries.length ≠ cells then refuse (.contractViolation .fullWithMissingCells)
    reserve (if m.iso then 1 else cells) .denseValues
    let x ← access (denseValues w m cells shared entries)
    put { m with store := m.keepShared (.full x) }
  | .bitmap => do
    reserve (if m.iso then 1 else cells) .denseValues
    reserve cells .bitmap
    let x ← access (denseValues w m cells shared entries)
    let b ← access (denseBits w m cells entries)
    put { m with store := m.keepShared (.bitmap b x entries.length) }
  | .sparse => do
    match ← lift (Matrix.buildStorage (Matrix.countVectors entries.toArray) entries.toArray) with
    | .hypersparse h p i x => do
      reserve (m.vdim + 1) .vectorPointers
      let p ← access (allPointers h p m.vdim)
      put { m with store := m.keepShared (.sparse p i x) }
    | store => put { m with store := m.keepShared store }
  | .hypersparse => do
    let store ← lift (Matrix.buildStorage (Matrix.countVectors entries.toArray) entries.toArray)
    put { m with store := m.keepShared store }

/-- Goes over to the preferred format, which depends on the positions taken. -/
def conform (w : Words) : Guarded Matrix Unit := do
  let m ← subject
  let _ ← access (slotCount w m)
  if m.preferredFormat ≠ m.format then convertTo w m.preferredFormat

/-- Commits everything deferred and chooses the format anew. -/
def wait (w : Words) : Guarded Matrix Unit := do
  if (← subject).deferred then assemble w
  conform w
  tally .commit

end Guarded

namespace Matrix

open Guarded

variable {m t : Matrix} {w : Words}

/-! ## What a commit reads -/

theorem Laid.guarded_slotCount (h : m.Laid) : Guarded.slotCount w m = .ok m.slotCount := by
  unfold Guarded.slotCount slotCount
  cases hs : m.store with
  | full x => exact guarded_cells (h.cells_lt (by rw [hs]; rfl))
  | bitmap b x n => rfl
  | sparse p i x => rfl
  | hypersparse l p i x => rfl

/-- Sorting the vectors meets no fault. -/
theorem Laid.guarded_unjumbled (h : m.Laid) (hd : m.store.dense = false) :
    Guarded.unjumbled m = .ok m.unjumbled := by
  unfold Guarded.unjumbled
  rw [Guarded.forM_eq_ok]
  · rfl
  · rintro ⟨start, stop⟩ hr
    rw [ranges_eq, List.mem_map] at hr
    obtain ⟨k, hk, hpair⟩ := hr
    obtain ⟨rfl, rfl⟩ := Prod.mk.inj hpair
    rw [List.mem_range] at hk
    simp only [bind, Except.bind, h.guarded_slice hd hk]
    cases hi : m.iso with
    | true => rfl
    | false =>
      have hsize : m.store.values.size = m.store.slots.size := by
        rw [h.values, hi, extent_sparse hd]
        rfl
      exact slice_of_le ((h.indexed hd).ranges.step k hk) (by rw [hsize]; exact h.range_le hd hk)

/-- A sparse format has one pointer more than ranges. -/
theorem Laid.size_pointers (h : m.Laid) (hd : m.store.dense = false) :
    m.store.pointers.size = m.store.rangeCount + 1 := by
  have hx := (h.indexed hd).pointed
  unfold Storage.rangeCount
  cases hs : m.store with
  | full x => rw [hs] at hd; cases hd
  | bitmap b x n => rw [hs] at hd; cases hd
  | sparse p i x =>
    rw [hs] at hx
    have hp : p.size = m.vdim + 1 := hx
    exact show p.size = p.size - 1 + 1 by omega
  | hypersparse l p i x =>
    rw [hs] at hx
    have hp : p.size = l.size + 1 := hx.1
    exact show p.size = p.size - 1 + 1 by omega

theorem Laid.guarded_existingIn (h : m.Laid) (hd : m.store.dense = false) {k : Nat}
    (hk : k < m.store.rangeCount) : Guarded.existingIn m k =
      .ok ((List.range' (m.store.start k) (m.store.start (k + 1) - m.store.start k)).map fun pos =>
        ⟨m.store.vectorAt k, m.store.indexAt pos,
          if m.store.deadAt pos then none else some (m.valueAt pos)⟩) := by
  have hsize := h.size_pointers hd
  have hle := h.range_le hd hk
  have hstart : read m.store.pointers k = .ok (m.store.start k) := read_of_lt 0 (by omega)
  have hstop : read m.store.pointers (k + 1) = .ok (m.store.start (k + 1)) := read_of_lt 0 (by omega)
  simp only [existingIn, bind, Except.bind, h.guarded_vectorAt hk, hstart, hstop]
  refine mapM_eq_ok fun pos hpos => ?_
  rw [List.mem_range'_1] at hpos
  have hlt : pos < m.store.slots.size := by omega
  simp only [read_of_lt default hlt, h.guarded_valueAt (show pos < m.extent by rwa [extent_sparse hd])]
  change (if m.store.deadAt pos = true then _ else _) = _
  cases m.store.deadAt pos <;> rfl

/-- The slots that a commit reads are there. -/
theorem Laid.guarded_existing (h : m.Laid) (hd : m.store.dense = false) :
    Guarded.existing w m = .ok m.existing := by
  have hsize := h.size_pointers hd
  have hvectors := mapM_eq_ok fun k hk => h.guarded_existingIn hd (List.mem_range.1 hk)
  have hcount : countDown m.store.pointers.size = .ok m.store.rangeCount :=
    countDown_of_pos (by omega)
  simp only [Guarded.existing, existing, hd, Bool.false_eq_true, if_false, hcount, bind, Except.bind,
    hvectors, ranges_zipIdx, List.flatMap_map]
  rfl

theorem Laid.guarded_sortedEntries (h : m.Laid) :
    Guarded.sortedEntries w m = .ok m.sortedEntries := by
  rw [Guarded.sortedEntries, h.guarded_tuples]
  rfl

theorem Inv.guarded_queuedEntries (h : m.Inv) {q : Pending} (hq : m.pending = some q) :
    Guarded.queuedEntries m q m.sharedIfIso = .ok m.incoming := by
  have hqueue : m.incoming = (List.range q.tuples.size).map fun k =>
      (⟨(q.tuples.getD k default).j, (q.tuples.getD k default).i,
        m.written (q.tuples.getD k default)⟩ : IndexEntry) := by
    rw [incoming, queue, hq]
    dsimp only
    rw [toList_eq_map_getD q.tuples default, List.map_map]
    rfl
  rw [hqueue]
  refine mapM_eq_ok fun k hk => ?_
  rw [List.mem_range] at hk
  simp only [read_of_lt default hk, h.guarded_queuedValue hq hk]
  rfl

/-! ## What a commit installs -/

theorem faultless_buildStorage {σ α : Type} {s : σ} {vectors : Nat} {entries : Array IndexEntry}
    {d : Storage → Guarded σ α} {k : Storage → Metered σ α}
    (h : Faultless (d (.ofEntries entries)) (k (.ofEntries entries)) s) :
    Faultless (lift (buildStorage vectors entries) >>= d) (buildStorage vectors entries >>= k) s := by
  have hbuilt : Metered.Ensures (buildStorage vectors entries) s
      (fun store t => store = .ofEntries entries ∧ t = s) fun _ _ => True := by
    rw [← bind_pure (buildStorage vectors entries)]
    exact ensures_buildStorage (fun _ _ => trivial) (Metered.ensures_pure ⟨rfl, rfl⟩)
  refine (faultless_lift _ s).bind hbuilt ?_
  rintro _ _ ⟨rfl, rfl⟩
  exact h

theorem mapValues_congr {s : Storage} {f g : Array Scalar → Array Scalar}
    (h : f s.values = g s.values) : s.mapValues f = s.mapValues g := by
  cases s <;> simp_all [Storage.mapValues, Storage.values]

/-- There is a first value to keep when all are the same. -/
theorem guarded_collapsed {l : List IndexEntry} (hs : IndexEntry.Sorted l) :
    collapsed l.toArray (.ofEntries l.toArray) = .ok (if isUniform l.toArray then
      (Storage.ofEntries l.toArray).mapValues fun x => x.take 1 else .ofEntries l.toArray) := by
  have hvalues := Storage.ofEntries_values (grouped_of_sorted hs)
  unfold collapsed
  cases hu : isUniform l.toArray with
  | false => rfl
  | true =>
    obtain ⟨e, he, -⟩ := uniform_iff.1 hu
    obtain ⟨a, l', rfl⟩ := List.exists_cons_of_ne_nil (List.ne_nil_of_mem he)
    have hget : (Storage.ofEntries (a :: l').toArray).values[0]? = some a.value := by
      rw [← Array.getElem?_toList, hvalues]
      rfl
    have htake : (Storage.ofEntries (a :: l').toArray).values.take 1 = #[a.value] := by
      refine Array.toList_inj.1 ?_
      rw [Array.take_eq_extract, Array.toList_extract, hvalues]
      rfl
    have hread : read (Storage.ofEntries (a :: l').toArray).values 0 = .ok a.value := by
      unfold Guarded.read
      rw [hget]
    simp only [if_true, bind, Except.bind, hread]
    exact congrArg Except.ok (mapValues_congr htake.symm)

/-- The index that a commit builds is put in place without a fault. -/
theorem faultless_installSorted (m : Matrix) {l : List IndexEntry} (hs : IndexEntry.Sorted l) :
    Faultless (Guarded.installSorted l.toArray) (installSorted l.toArray) m := by
  unfold Guarded.installSorted installSorted
  refine faultless_buildStorage (faultless_access (guarded_collapsed hs) ?_)
  exact faultless_lift _ _

/-- **The commit proper** meets no fault. -/
theorem Inv.faultless_assemble (h : m.Inv) (hd : m.store.dense = false) :
    Faultless (Guarded.assemble w) assemble m := by
  -- with or without a queue, what follows merges the index with the incoming entries
  have hrest : Faultless (do
      Guarded.reserve (m.existing.length + (m.combined m.queueOp m.incoming).length) .commitMerge
      Guarded.installSorted (mergePlaces m.queueOp m.type
        (m.existing.length + (m.combined m.queueOp m.incoming).length + 1) #[] m.existing
        (m.combined m.queueOp m.incoming))
      Guarded.update fun m => { m with pending := none, zombies := 0, jumbled := false })
      (do
        Metered.reserve (m.existing.length + (m.combined m.queueOp m.incoming).length) .commitMerge
        installSorted (mergePlaces m.queueOp m.type
          (m.existing.length + (m.combined m.queueOp m.incoming).length + 1) #[] m.existing
          (m.combined m.queueOp m.incoming))
        Metered.update fun m => { m with pending := none, zombies := 0, jumbled := false }) m := by
    refine faultless_reserve ?_
    rw [mergePlaces_committing]
    exact (faultless_installSorted m (h.committing_spec hd).1).andThen fun _ t => faultless_lift _ _
  unfold Guarded.assemble assemble
  refine faultless_subject (faultless_access h.laid.guarded_sharedIfIso ?_)
  refine faultless_access h.laid.guarded_slotCount ?_
  refine faultless_reserve (faultless_access (h.laid.guarded_existing hd) ?_)
  cases hq : m.pending with
  | none =>
    simp only [nothing_incoming hq, pure_bind]
    exact hrest
  | some q =>
    have hop : q.op = m.queueOp := by rw [queueOp, hq]
    refine faultless_reserve ?_
    rw [h.queuedEntries_eq hq]
    refine faultless_access (h.guarded_queuedEntries hq) ?_
    simp only [hop, pure_bind]
    exact hrest

/-! ## Another format -/

/-- The cells can be counted, if the counts that nothing uses are to be exact too. -/
def Counted (w : Words) (nrows ncols : Nat) : Prop := w.idle = true → nrows * ncols < UInt64.size

theorem counted_wrapping (nrows ncols : Nat) : Counted .wrapping nrows ncols := fun h => by cases h

theorem Counted.of_sameShape (h : Counted w m.nrows m.ncols) (hs : m.SameShape t) :
    Counted w t.nrows t.ncols := by
  rwa [hs.nrows, hs.ncols]

theorem Fits.cells_lt {target : Format} (h : m.Fits target) (hd : target.dense = true) :
    m.vlen * m.vdim < UInt64.size := by
  cases target with
  | full => exact h.1
  | bitmap => exact h
  | sparse => cases hd
  | hypersparse => cases hd

/-- The cells can be counted wherever a dense format is involved, and between the sparse formats if that is
asked for. -/
theorem Laid.guarded_cellsFor (h : m.Laid) (hcount : Counted w m.nrows m.ncols) {target : Format}
    (hfit : m.Fits target) : Guarded.cellsFor w target m = .ok m.cells := by
  have hcells : (w.idle ∨ m.store.dense ∨ target.dense) → m.vlen * m.vdim < UInt64.size := by
    rintro (hidle | hd | hd)
    · rw [vlen_mul_vdim]
      exact hcount hidle
    · exact h.cells_lt hd
    · exact hfit.cells_lt hd
  unfold Guarded.cellsFor
  split
  · next hc => exact guarded_cells (hcells hc)
  · rfl

/-- Entries inside the matrix have a cell in the arrays that they are written to. -/
theorem guarded_fill {α : Type} (hcells : m.vlen * m.vdim < UInt64.size) (f : IndexEntry → α)
    {l : List IndexEntry} (hb : ∀ e ∈ l, e.i < m.vlen ∧ e.j < m.vdim) {a : Array α}
    (ha : a.size = m.cells) : Guarded.fill w m f l a =
      .ok (l.foldl (fun a e => a.setIfInBounds (m.densePos e.i e.j) (f e)) a) := by
  refine foldlM_eq_ok (fun a => a.size = m.cells) ha fun e he a ha => ?_
  have hlt := cell_lt (hb e he).1 (hb e he).2
  rw [← densePos_of_lt hcells (hb e he).1 (hb e he).2, ← wordOf_eq hcells] at hlt
  simp only [guarded_densePos hcells (hb e he).1 (hb e he).2, bind, Except.bind]
  exact ⟨write_of_lt (by rw [ha]; exact hlt), by rw [Array.size_setIfInBounds, ha]⟩

theorem guarded_denseValues (hcells : m.vlen * m.vdim < UInt64.size) {l : List IndexEntry}
    (hb : ∀ e ∈ l, e.i < m.vlen ∧ e.j < m.vdim) :
    Guarded.denseValues w m m.cells m.sharedIfIso l = .ok (m.denseArrays l).2 := by
  rw [denseArrays_eq]
  unfold Guarded.denseValues
  cases hi : m.iso with
  | true =>
    simp only [if_true, List.foldl_fixed]
    rfl
  | false => exact guarded_fill hcells _ hb Array.size_replicate

theorem guarded_denseBits (hcells : m.vlen * m.vdim < UInt64.size) {l : List IndexEntry}
    (hb : ∀ e ∈ l, e.i < m.vlen ∧ e.j < m.vdim) :
    Guarded.denseBits w m m.cells l = .ok (m.denseArrays l).1 := by
  rw [denseArrays_eq]
  exact guarded_fill hcells _ hb Array.size_replicate

/-- The pointers of the listed vectors are read in step with the list, which has one fewer. -/
theorem guarded_allPointers {h p : Array Nat} (hp : p.size = h.size + 1) (vdim : Nat) :
    Guarded.allPointers h p vdim = .ok (Storage.allPointers h p vdim) := by
  unfold Guarded.allPointers Storage.allPointers
  rw [foldlM_eq_ok (fun s => s.2 ≤ h.size) (Nat.zero_le _)]
  · rfl
  · rintro j - ⟨acc, k⟩ hk
    have hk' : (if h[k]? = some j then k + 1 else k) ≤ h.size := by
      split
      · next hget => exact (Array.getElem?_eq_some_iff.1 hget).1
      · exact hk
    refine ⟨?_, hk'⟩
    dsimp only
    rw [read_of_lt 0 (show _ < p.size by omega)]
    rfl

/-- **Another format** is laid out without a fault. -/
theorem Inv.faultless_convertTo (h : m.Inv) (hcount : Counted w m.nrows m.ncols) (target : Format)
    (hfit : m.Fits target) : Faultless (Guarded.convertTo w target) (convertTo target) m := by
  have hl := h.laid
  have hmem : ∀ e, e ∈ m.sortedEntries ↔ e ∈ m.entries := fun e => hl.sortedEntries_perm.mem_iff
  have hlt := fun e he => hl.entry_lt ((hmem e).1 he)
  unfold Guarded.convertTo convertTo
  refine faultless_subject ?_
  refine faultless_ite (fun _ => faultless_refuse _ _) fun _ => ?_
  refine faultless_access (hl.guarded_cellsFor hcount hfit) (faultless_access hl.guarded_slotCount ?_)
  refine faultless_reserve ?_
  refine faultless_access hl.guarded_sortedEntries (faultless_access hl.guarded_sharedIfIso ?_)
  cases target with
  | full =>
    refine faultless_ite (fun _ => faultless_refuse _ _) fun _ => faultless_reserve ?_
    exact faultless_access (guarded_denseValues hfit.1 hlt) (faultless_lift _ _)
  | bitmap =>
    refine faultless_reserve (faultless_reserve ?_)
    refine faultless_access (guarded_denseValues hfit hlt) ?_
    exact faultless_access (guarded_denseBits hfit hlt) (faultless_lift _ _)
  | sparse =>
    refine faultless_buildStorage ?_
    have hpointed := (Storage.ofEntries_lists (grouped_of_sorted hl.sortedEntries_sorted)
      hl.sortedEntries_sorted.distinct hlt).indexed.pointed
    refine faultless_reserve ?_
    exact faultless_access (guarded_allPointers hpointed.1 m.vdim) (faultless_lift _ _)
  | hypersparse => exact faultless_buildStorage (faultless_lift _ _)

theorem Inv.faultless_conform (h : m.Inv) (hcount : Counted w m.nrows m.ncols) :
    Faultless (Guarded.conform w) conform m := by
  unfold Guarded.conform conform
  refine faultless_subject (faultless_access h.laid.guarded_slotCount ?_)
  refine faultless_ite (fun _ => ?_) fun _ => faultless_pure _ _
  exact h.faultless_convertTo hcount _ h.fits_preferred

/-- **A commit** meets no fault. -/
theorem Inv.faultless_wait (h : m.Inv) (hcount : Counted w m.nrows m.ncols) :
    Faultless (Guarded.wait w) wait m := by
  unfold Guarded.wait wait
  refine faultless_subject (faultless_when (fun t => t.Inv ∧ m.Keeps t)
    (fun hdef => h.faultless_assemble (h.sparse_of_deferred hdef))
    (fun hdef => (ensures_assemble h (h.sparse_of_deferred hdef)).mono (fun _ _ ht => ⟨ht.1, ht.2.1⟩)
      fun _ _ ht => ht) (fun _ => ⟨h, Keeps.refl m⟩) ?_)
  rintro t ⟨hinv, hkeeps⟩
  exact (hinv.faultless_conform (hcount.of_sameShape hkeeps.toSameShape)).andThen
    fun _ _ => faultless_lift _ _

end Matrix

end Adjacency
