import Adjacency.Proofs.Guarded
import Adjacency.Proofs.Representation

/-!
# Guarded readers

The readers of a matrix, with every access to a storage array guarded. On a matrix in order each returns
what the plain reader returns.

* `Words`: cell counts and the positions of dense cells are held in words, and wrap where a word is too small;
  or else such a number is a fault.
* `Guarded.cells`, `Guarded.densePos`: the cell count and the position of a dense cell, each step in a word.
* `Guarded.locate`, `Guarded.extract`: the point lookup and the value of a cell.
* `Guarded.next`, `Guarded.tuples`: the cursor, from any position at all, and the list of all entries.
* `Guarded.vectorEntries`: the entries of one vector.
-/

namespace Adjacency

/-- The search of the point lookup for index `i`, in a stretch of the index. -/
def Matrix.search (m : Matrix) (i start stop : Nat) : Option Nat :=
  if m.jumbled then firstFrom (fun pos => m.store.indexAt pos == i) (stop - start) start
  else searchSorted m.store.indexAt i start stop

/-- What becomes of a number that a word cannot hold. -/
inductive Words
  /-- It wraps. -/
  | wrapping
  /-- It is a fault. A count that nothing uses is only made if `idle` is set. -/
  | exact (idle : Bool)

/-- The counts that nothing uses are to be exact too. -/
def Words.idle : Words → Bool
  | .wrapping => false
  | .exact idle => idle

namespace Guarded

/-! ## Numbers in a word -/

/-- A number that a word has to hold. -/
def word (w : Words) (n : Nat) : Except Failure Nat :=
  match w with
  | .wrapping => .ok (wordOf n)
  | .exact _ => if n < UInt64.size then .ok n else .error (.fault (.position n UInt64.size))

/-- The cell count. -/
def cells (w : Words) (m : Matrix) : Except Failure Nat := word w (m.vlen * m.vdim)

/-- The dense position of index `i` in vector `j`. -/
def densePos (w : Words) (m : Matrix) (i j : Nat) : Except Failure Nat := do
  word w (i + (← word w (j * m.vlen)))

/-! ## Values -/

/-- The value that all entries of an iso matrix share. -/
def shared (m : Matrix) : Except Failure Scalar :=
  match m.store.values[0]? with
  | some v => .ok v
  | none => .error (.fault .nothingShared)

/-- The shared value, if the matrix is iso. -/
def sharedIfIso (m : Matrix) : Except Failure (Option Scalar) := do
  if m.iso then return some (← shared m) else return none

/-- The value at a storage position. -/
def valueAt (m : Matrix) (pos : Nat) : Except Failure Scalar :=
  if m.iso then shared m else read m.store.values pos

/-- A cell of a dense format is present. -/
def cellPresent (m : Matrix) (pos : Nat) : Except Failure Bool :=
  match m.store with
  | .bitmap b _ _ => read b pos
  | _ => return true

/-! ## The point lookup -/

/-- The index range of vector `j` in a sparse format. -/
def vectorRange (m : Matrix) (j : Nat) : Except Failure (Option (Nat × Nat)) := do
  match m.store with
  | .sparse p _ _ => return some (← read p j, ← read p (j + 1))
  | .hypersparse h p _ _ =>
    match searchSorted (h.getD · 0) j 0 h.size with
    | some k => return some (← read p k, ← read p (k + 1))
    | none => return none
  | .full _ | .bitmap .. => return none

/-- Finds index `i` of vector `j`. The search stays inside the stretch that it is given. -/
def locate (w : Words) (m : Matrix) (i j : Nat) : Except Failure Place := do
  if m.store.dense then return .cell (← densePos w m i j)
  else
    match ← vectorRange m j with
    | none => return .absent
    | some (start, stop) =>
      slice m.store.slots start stop
      match m.search i start stop with
      | some pos => if (← read m.store.slots pos).dead then return .zombie pos else return .live pos
      | none => return .absent

/-- The value in the committed index. -/
def committed (w : Words) (m : Matrix) (i j : Nat) : Except Failure (Option Scalar) := do
  match ← locate w m i j with
  | .cell pos => if ← cellPresent m pos then return some (← valueAt m pos) else return none
  | .live pos => return some (← valueAt m pos)
  | .zombie _ | .absent => return none

/-- The value of the `k`-th queued tuple, cast to the element type. The values stand in a list of their
own, which is empty when the tuples carry none. -/
def queuedValue (m : Matrix) (q : Pending) (shared : Option Scalar) (k : Nat) : Except Failure Scalar :=
  match q.values[k]?.or shared with
  | some v => raise (m.castIn v)
  | none => .error (.raised (.contractViolation .isoPendingWithoutValue))

/-- The logical value of a cell. -/
def extract (w : Words) (m : Matrix) (row col : Nat) : Except Failure (Option Scalar) := do
  raise (m.checkBounds row col)
  let (i, j) := m.toVector row col
  let current ← committed w m i j
  match m.pending with
  | none => return current
  | some q =>
    let shared ← sharedIfIso m
    (List.range q.tuples.size).foldlM (fun current k => do
      let t ← read q.tuples k
      if t.i = i ∧ t.j = j then
        let v ← queuedValue m q shared k
        return some (match current with
          | some old => q.op.apply m.type old v
          | none => v)
      else return current) current

/-! ## Walks -/

/-- The vector that the `k`-th pointer range belongs to. -/
def vectorAt (m : Matrix) (k : Nat) : Except Failure Nat :=
  match m.store with
  | .hypersparse h _ _ _ => read h k
  | _ => return k

/-- The index slot at a position is not dead. -/
def slotLive (m : Matrix) (pos : Nat) : Except Failure Bool := do
  return !(← read m.store.slots pos).dead

/-- Looks through `n` pointer ranges, from the `k`-th on, for the first live slot at or after `pos`. -/
def seekLive (m : Matrix) : (n k pos : Nat) → Except Failure (Bool × Cursor)
  | 0, k, pos => return (false, ⟨k, pos⟩)
  | n + 1, k, pos => do
    let start := max pos (← read m.store.pointers k)
    let stop ← read m.store.pointers (k + 1)
    match ← firstFrom (slotLive m) (stop - start) start with
    | some found => return (true, ⟨k, found⟩)
    | none => seekLive m n (k + 1) (max start stop)

/-- The entry at a storage position of a sparse format, in the `k`-th pointer range. -/
def sparseTuple (m : Matrix) (k pos : Nat) : Except Failure Tuple := do
  let (row, col) := m.toCell (← read m.store.slots pos).index (← vectorAt m k)
  return ⟨row, col, ← valueAt m pos⟩

/-- The entry at a storage position of a dense format. -/
def denseTuple (m : Matrix) (pos : Nat) : Except Failure Tuple := do
  let (row, col) := m.toCell (pos % m.vlen) (pos / m.vlen)
  return ⟨row, col, ← valueAt m pos⟩

/-- The next entry and the cursor behind it. -/
def next (w : Words) (c : Cursor) (m : Matrix) : Except Failure (Option Tuple × Cursor) := do
  if m.store.dense then
    let n ← cells w m
    match ← firstFrom (cellPresent m) (n - c.pos) c.pos with
    | some pos => return (some (← denseTuple m pos), { c with pos := pos + 1 })
    | none => return (none, { c with pos := max c.pos n })
  else
    match ← seekLive m (m.store.pointers.size - 1 - c.vector) c.vector c.pos with
    | (true, at_) => return (some (← sparseTuple m at_.vector at_.pos), { at_ with pos := at_.pos + 1 })
    | (false, at_) => return (none, at_)

/-- Appends up to `n` further entries. -/
def collect (w : Words) (m : Matrix) : (n : Nat) → Cursor → Array Tuple → Except Failure (Array Tuple)
  | 0, _, acc => return acc
  | n + 1, c, acc => do
    match ← next w c m with
    | (some t, c) => collect w m n c (acc.push t)
    | (none, _) => return acc

/-- The entries of the committed index in storage order. -/
def tuples (w : Words) (m : Matrix) : Except Failure (Array Tuple) := collect w m m.extent {} #[]

/-- Index and value of every committed entry of vector `j`. -/
def vectorEntries (w : Words) (m : Matrix) (j : Nat) : Except Failure (List (Nat × Scalar)) := do
  if j ≥ m.vdim then return []
  else if m.store.dense then
    filterMap (fun i => do
      let pos ← densePos w m i j
      if ← cellPresent m pos then return some (i, ← valueAt m pos) else return none) (List.range m.vlen)
  else
    match ← vectorRange m j with
    | none => return []
    | some (start, stop) =>
      filterMap (fun pos => do
        match m.store.slots[pos]? with
        | some s => if s.dead then return none else return some (s.index, ← valueAt m pos)
        | none => return none) (List.range' start (stop - start))

end Guarded

namespace Matrix

open Guarded (read_of_lt)

variable {m : Matrix} {w : Words}

/-! ## Dense cells can be counted -/

theorem guarded_word {n : Nat} (h : n < UInt64.size) : Guarded.word w n = .ok (wordOf n) := by
  cases w with
  | wrapping => rfl
  | exact idle => rw [Guarded.word, if_pos h, wordOf_eq h]

theorem guarded_cells (hcells : m.vlen * m.vdim < UInt64.size) : Guarded.cells w m = .ok m.cells :=
  guarded_word hcells

/-- Where the cells can be counted, they can be addressed. -/
theorem guarded_densePos (hcells : m.vlen * m.vdim < UInt64.size) {i j : Nat} (hi : i < m.vlen)
    (hj : j < m.vdim) : Guarded.densePos w m i j = .ok (m.densePos i j) := by
  have hlt := cell_lt hi hj
  have hvector : j * m.vlen < UInt64.size := by omega
  have hcell : i + wordOf (j * m.vlen) < UInt64.size := by rw [wordOf_eq hvector]; omega
  simp only [Guarded.densePos, guarded_word hvector, bind, Except.bind, guarded_word hcell]
  rfl

/-! ## Values are where they are looked for -/

theorem Laid.guarded_shared (h : m.Laid) (hi : m.iso = true) : Guarded.shared m = .ok m.shared := by
  have hsize : m.store.values.size = 1 := by rw [h.values, if_pos hi]
  have hlt : 0 < m.store.values.size := by omega
  rw [Guarded.shared, shared, Array.getElem?_eq_getElem hlt, Array.getD_eq_getD_getElem?,
    Array.getElem?_eq_getElem hlt]
  rfl

theorem Laid.guarded_sharedIfIso (h : m.Laid) : Guarded.sharedIfIso m = .ok m.sharedIfIso := by
  unfold Guarded.sharedIfIso sharedIfIso
  cases hi : m.iso with
  | true => rw [h.guarded_shared hi]; rfl
  | false => rfl

theorem Laid.guarded_valueAt (h : m.Laid) {pos : Nat} (hpos : pos < m.extent) :
    Guarded.valueAt m pos = .ok (m.valueAt pos) := by
  unfold Guarded.valueAt valueAt
  split
  · next hi => exact h.guarded_shared hi
  · next hi => exact read_of_lt _ (by rw [h.values, if_neg hi]; exact hpos)

theorem Laid.guarded_cellPresent (h : m.Laid) (hd : m.store.dense = true) {pos : Nat}
    (hpos : pos < m.extent) : Guarded.cellPresent m pos = .ok (m.cellPresent pos) := by
  rw [extent_dense h hd] at hpos
  unfold Guarded.cellPresent cellPresent
  cases hs : m.store with
  | bitmap b x n => exact read_of_lt _ (by rw [(h.bits b x n hs).1]; exact hpos)
  | full x => rfl
  | sparse p i x => rfl
  | hypersparse l p i x => rfl

/-! ## The pointers of a vector -/

/-- A number that the search returns is one of those searched. -/
theorem searchSorted_lt {key : Nat → Nat} {target lo hi k : Nat}
    (h : searchSorted key target lo hi = some k) : k < hi := by
  unfold searchSorted at h
  dsimp only at h
  split at h
  · next hc => cases h; exact hc.1
  · cases h

theorem Laid.guarded_vectorRange (h : m.Laid) {j : Nat} (hj : j < m.vdim) :
    Guarded.vectorRange m j = .ok (m.vectorRange j) := by
  unfold Guarded.vectorRange vectorRange
  cases hs : m.store with
  | full x => rfl
  | bitmap b x n => rfl
  | sparse p i x =>
    have hx := h.indexed (by rw [hs]; rfl)
    rw [hs] at hx
    have hp : p.size = m.vdim + 1 := hx.pointed
    have hstart := read_of_lt 0 (show j < p.size by omega)
    have hstop := read_of_lt 0 (show j + 1 < p.size by omega)
    simp only [hstart, hstop]
    rfl
  | hypersparse l p i x =>
    have hx := h.indexed (by rw [hs]; rfl)
    rw [hs] at hx
    have hp : p.size = l.size + 1 := hx.pointed.1
    dsimp only
    cases hf : searchSorted (l.getD · 0) j 0 l.size with
    | none => rfl
    | some k =>
      have hk := searchSorted_lt hf
      have hstart := read_of_lt 0 (show k < p.size by omega)
      have hstop := read_of_lt 0 (show k + 1 < p.size by omega)
      simp only [hstart, hstop]
      rfl

/-- The slots of a pointer range are there. -/
theorem Laid.guarded_slice (h : m.Laid) (hd : m.store.dense = false) {k : Nat}
    (hk : k < m.store.rangeCount) :
    Guarded.slice m.store.slots (m.store.start k) (m.store.start (k + 1)) = .ok () :=
  Guarded.slice_of_le ((h.indexed hd).ranges.step k hk) (h.range_le hd hk)

theorem locate_eq (m : Matrix) (i j : Nat) : m.locate i j =
    if m.store.dense then .cell (m.densePos i j)
    else match m.vectorRange j with
      | none => .absent
      | some (start, stop) => match m.search i start stop with
        | some pos => if (m.store.slots.getD pos default).dead then .zombie pos else .live pos
        | none => .absent := rfl

/-- **The point lookup** meets no fault. -/
theorem Laid.guarded_locate (h : m.Laid) {i j : Nat} (hi : i < m.vlen) (hj : j < m.vdim) :
    Guarded.locate w m i j = .ok (m.locate i j) := by
  unfold Guarded.locate
  rw [locate_eq]
  cases hd : m.store.dense with
  | true =>
    simp only [if_true, guarded_densePos (h.cells_lt hd) hi hj]
    rfl
  | false =>
    simp only [h.guarded_vectorRange hj, Bool.false_eq_true, if_false]
    rcases h.vectorRange_cases hd hj with ⟨k, hk, -, hr⟩ | ⟨hr, -⟩
    · simp only [hr, bind, Except.bind, h.guarded_slice hd hk]
      cases hf : m.search i (m.store.start k) (m.store.start (k + 1)) with
      | none => rfl
      | some pos =>
        -- what the search finds lies in the range, and so in the index
        have hlt := ((h.search_eq_some_iff hd i pos hk).1 hf).2.1
        have hle := h.range_le hd hk
        simp only [read_of_lt default (show pos < m.store.slots.size by omega)]
        cases (m.store.slots.getD pos default).dead <;> rfl
    · rw [hr]
      rfl

theorem Laid.guarded_committed (h : m.Laid) {i j : Nat} (hi : i < m.vlen) (hj : j < m.vdim) :
    Guarded.committed w m i j = .ok (m.committed i j) := by
  unfold Guarded.committed committed
  have hloc := h.locate_cases hi hj
  rw [h.guarded_locate hi hj]
  cases hl : m.locate i j with
  | cell pos =>
    rw [hl] at hloc
    obtain ⟨hd, hat⟩ := hloc
    simp only [bind, Except.bind, h.guarded_cellPresent hd hat.1, h.guarded_valueAt hat.1]
    cases m.cellPresent pos <;> rfl
  | live pos =>
    rw [hl] at hloc
    simp only [bind, Except.bind, h.guarded_valueAt hloc.2.1.1]
    rfl
  | zombie pos => rfl
  | absent => rfl

/-! ## The value of a cell -/

theorem getElem?_filterMap {α β : Type} {f : α → Option β} {l : List α} (h : ∀ a ∈ l, (f a).isSome)
    (k : Nat) : (l.filterMap f)[k]? = l[k]?.bind f := by
  induction l generalizing k with
  | nil => rfl
  | cons a l ih =>
    obtain ⟨b, hb⟩ := Option.isSome_iff_exists.1 (h a List.mem_cons_self)
    rw [List.filterMap_cons_some hb]
    cases k with
    | zero => exact hb.symm
    | succ k => exact ih (fun a' ha' => h a' (List.mem_cons_of_mem _ ha')) k

/-- The values of a queue belong to its tuples in order: all of them carry one, or none does. -/
theorem Inv.values_getElem? (h : m.Inv) {q : Pending} (hq : m.pending = some q) {k : Nat}
    (hk : k < q.tuples.size) : q.values[k]? = (q.tuples.getD k default).value := by
  have hcarry := fun t ht => ((h.queued q hq).2.2 t ht).carries
  have hget : q.tuples.toList[k]? = some (q.tuples.getD k default) := by simp [hk]
  unfold Pending.values
  cases hi : m.iso with
  | true =>
    have hnone : ∀ t ∈ q.tuples.toList, t.value = none := by
      intro t ht
      have := hcarry t ht
      cases hv : t.value with
      | none => rfl
      | some v => rw [hv, hi] at this; cases this.1
    rw [List.filterMap_eq_nil_iff.2 hnone, hnone _ (List.mem_of_getElem? hget)]
    rfl
  | false =>
    have hsome : ∀ t ∈ q.tuples.toList, t.value.isSome := by
      intro t ht
      have := hcarry t ht
      cases hv : t.value with
      | none => rw [hv, hi] at this; cases this
      | some v => rfl
    rw [getElem?_filterMap hsome, hget]
    rfl

/-- A queued tuple has its value, or takes the shared one. -/
theorem Inv.guarded_queuedValue (h : m.Inv) {q : Pending} (hq : m.pending = some q) {k : Nat}
    (hk : k < q.tuples.size) :
    Guarded.queuedValue m q m.sharedIfIso k = .ok (m.written (q.tuples.getD k default)) := by
  have hmem : q.tuples.getD k default ∈ m.queue := by
    rw [queue, hq]
    exact List.mem_of_getElem? (show q.tuples.toList[k]? = _ by simp [hk])
  have hplain := (h.queuedValue_eq hmem).1
  unfold queuedValue at hplain
  rw [Guarded.queuedValue, h.values_getElem? hq hk]
  cases hv : (q.tuples.getD k default).value.or m.sharedIfIso with
  | none => rw [hv] at hplain; cases hplain
  | some v =>
    rw [hv] at hplain
    simp only [hplain]
    rfl

/-- The queued values of a place, met one by one along the queue. -/
theorem foldl_queue (m : Matrix) (q : Pending) (i j : Nat) (start : Option Scalar) :
    (List.range q.tuples.size).foldl (fun current k =>
      if (q.tuples.getD k default).i = i ∧ (q.tuples.getD k default).j = j then
        some (match current with
          | some old => q.op.apply m.type old (m.written (q.tuples.getD k default))
          | none => m.written (q.tuples.getD k default))
      else current) start =
    foldOnto (q.op.apply m.type) start
      ((q.tuples.toList.filter fun t => t.i == i && t.j == j).map m.written) := by
  rw [foldOnto, List.foldl_map, List.foldl_filter, toList_eq_map_getD q.tuples default, List.foldl_map]
  congr 1
  funext current k
  exact if_congr (by simp only [Bool.and_eq_true, beq_iff_eq]) rfl rfl

/-- **The lookup of a cell** meets no fault, whatever is still deferred. -/
theorem Inv.guarded_extract (h : m.Inv) (row col : Nat) :
    Guarded.extract w m row col = Guarded.raise (m.extract row col) := by
  cases hb : m.checkBounds row col with
  | error e =>
    rw [Guarded.extract, extract, hb]
    rfl
  | ok u =>
    obtain ⟨hr, hc⟩ := checkBounds_ok hb
    obtain ⟨hi, hj⟩ := toVector_lt hr hc
    have hstored : m.stored (m.toVector row col).1 (m.toVector row col).2 =
        m.committed (m.toVector row col).1 (m.toVector row col).2 := if_pos ⟨hi, hj⟩
    rw [h.extract_eq hr hc, cell, value, queuedAt, hstored, Guarded.extract, hb]
    simp only [Guarded.raise, bind, Except.bind, h.laid.guarded_committed hi hj,
      h.laid.guarded_sharedIfIso, queue, queueOp]
    cases hq : m.pending with
    | none => rfl
    | some q =>
      -- the plain lookup filters the queue first, the guarded one meets every tuple
      rw [← foldl_queue]
      refine Guarded.foldlM_eq_ok (fun _ => True) trivial fun k hk current _ => ⟨?_, trivial⟩
      rw [List.mem_range] at hk
      simp only [read_of_lt default hk, h.guarded_queuedValue hq hk]
      generalize q.tuples.getD k default = t
      split <;> rfl

/-! ## The cursor -/

theorem Laid.guarded_vectorAt (h : m.Laid) {k : Nat} (hk : k < m.store.rangeCount) :
    Guarded.vectorAt m k = .ok (m.store.vectorAt k) := by
  unfold Guarded.vectorAt Storage.vectorAt
  cases hs : m.store with
  | hypersparse l p i x =>
    have hx := h.indexed (by rw [hs]; rfl)
    rw [hs] at hx hk
    have hp : p.size = l.size + 1 := hx.pointed.1
    have hlt : k < p.size - 1 := hk
    exact read_of_lt 0 (by omega)
  | full x => rfl
  | bitmap b x n => rfl
  | sparse p i x => rfl

theorem guarded_slotLive {pos : Nat} (hpos : pos < m.store.slots.size) :
    Guarded.slotLive m pos = .ok (m.slotLive pos) := by
  rw [Guarded.slotLive, read_of_lt default hpos, slotLive_eq hpos]
  rfl

/-- The search for a live slot meets no fault, wherever it starts. -/
theorem Laid.guarded_seekLive (h : m.Laid) (hd : m.store.dense = false) {n k : Nat}
    (hn : n ≤ m.store.rangeCount - k) (pos : Nat) :
    Guarded.seekLive m n k pos = .ok (m.seekLive n k pos) := by
  induction n generalizing k pos with
  | zero => rfl
  | succ n ih =>
    have hk : k < m.store.rangeCount := by omega
    have hlt : k + 1 < m.store.pointers.size := by unfold Storage.rangeCount at hk; omega
    have hle : m.store.pointers.getD (k + 1) 0 ≤ m.store.slots.size := h.range_le hd hk
    unfold Guarded.seekLive seekLive
    have hstart := read_of_lt 0 (show k < m.store.pointers.size by omega)
    have hstop := read_of_lt 0 hlt
    simp only [bind, Except.bind, hstart, hstop]
    -- the positions looked at lie before the end of the range
    rw [Guarded.firstFrom_eq_ok m.slotLive fun p h₁ h₂ => guarded_slotLive (by omega)]
    generalize max pos (m.store.pointers.getD k 0) = start
    cases firstFrom m.slotLive (m.store.pointers.getD (k + 1) 0 - start) start with
    | some found => rfl
    | none => exact ih (by omega) _

/-- A live slot is found in one of the ranges looked through. -/
theorem seekLive_vector {n k pos : Nat} {c : Cursor} (hs : m.seekLive n k pos = (true, c)) :
    k ≤ c.vector ∧ c.vector < k + n := by
  induction n generalizing k pos with
  | zero => simp [seekLive] at hs
  | succ n ih =>
    simp only [seekLive] at hs
    split at hs
    · cases hs
      exact ⟨Nat.le_refl _, by dsimp only; omega⟩
    · have := ih hs
      omega

/-- **The cursor** meets no fault, from any position at all. -/
theorem Laid.guarded_next (h : m.Laid) (c : Cursor) : Guarded.next w c m = .ok (c.next m) := by
  unfold Guarded.next Cursor.next
  cases hd : m.store.dense with
  | true =>
    have hcells : m.extent = m.cells := if_pos hd
    simp only [if_true, guarded_cells (h.cells_lt hd), bind, Except.bind]
    rw [Guarded.firstFrom_eq_ok m.cellPresent fun p h₁ h₂ =>
      h.guarded_cellPresent hd (by omega)]
    cases hf : firstFrom m.cellPresent (m.cells - c.pos) c.pos with
    | none => rfl
    | some pos =>
      obtain ⟨h₁, h₂, -⟩ := firstFrom_eq_some_iff.1 hf
      simp only [bind, Except.bind, Guarded.denseTuple, h.guarded_valueAt (show pos < m.extent by omega)]
      rfl
  | false =>
    have hseek := h.guarded_seekLive hd (k := c.vector) (Nat.le_refl _) c.pos
    simp only [Storage.rangeCount] at hseek
    simp only [Bool.false_eq_true, if_false, bind, Except.bind, hseek]
    obtain ⟨found, at_, hat⟩ : ∃ found at_,
        m.seekLive (m.store.pointers.size - 1 - c.vector) c.vector c.pos = (found, at_) := ⟨_, _, rfl⟩
    rw [hat]
    cases found with
    | false => rfl
    | true =>
      have hpos := (Cursor.seekLive_bounds m hat).2
      obtain ⟨hfrom, hbelow⟩ := seekLive_vector hat
      have hk : at_.vector < m.store.rangeCount := by unfold Storage.rangeCount; omega
      simp only [Guarded.sparseTuple, bind, Except.bind, read_of_lt default hpos, h.guarded_vectorAt hk,
        h.guarded_valueAt (show at_.pos < m.extent by rw [extent_sparse hd]; exact hpos)]
      rfl

theorem Laid.guarded_collect (h : m.Laid) (n : Nat) (c : Cursor) (acc : Array Tuple) :
    Guarded.collect w m n c acc = .ok (Cursor.collect m n c acc) := by
  induction n generalizing c acc with
  | zero => rfl
  | succ n ih =>
    rw [Guarded.collect, Cursor.collect, h.guarded_next c]
    obtain ⟨t, c', hc⟩ : ∃ t c', c.next m = (t, c') := ⟨_, _, rfl⟩
    rw [hc]
    cases t with
    | none => rfl
    | some t => exact ih c' (acc.push t)

/-- **The iteration over all entries** meets no fault. -/
theorem Laid.guarded_tuples (h : m.Laid) : Guarded.tuples w m = .ok m.tuples :=
  h.guarded_collect _ _ _

/-! ## One vector -/

theorem Laid.guarded_vectorEntries (h : m.Laid) (j : Nat) :
    Guarded.vectorEntries w m j = .ok (m.vectorEntries j) := by
  unfold Guarded.vectorEntries vectorEntries
  split
  · rfl
  · next hj =>
    rw [Nat.not_le] at hj
    cases hd : m.store.dense with
    | true =>
      refine Guarded.filterMap_eq_ok fun i hi => ?_
      have hi := List.mem_range.1 hi
      have hat : m.At i j (i + j * m.vlen) := (h.at_dense_iff hd).2 ⟨hi, hj, rfl⟩
      rw [← h.densePos_eq hd hi hj] at hat
      simp only [guarded_densePos (h.cells_lt hd) hi hj, bind, Except.bind, h.guarded_cellPresent hd hat.1,
        h.guarded_valueAt hat.1]
      cases m.cellPresent (m.densePos i j) <;> rfl
    | false =>
      simp only [Bool.false_eq_true, if_false, h.guarded_vectorRange hj]
      rcases m.vectorRange j with _ | ⟨start, stop⟩
      · rfl
      · refine Guarded.filterMap_eq_ok fun pos _ => ?_
        cases hs : m.store.slots[pos]? with
        | none => rfl
        | some slot =>
          -- a value is only looked for where there is a slot
          have hpos := (Array.getElem?_eq_some_iff.1 hs).1
          rw [← extent_sparse hd] at hpos
          simp only [bind, Except.bind, h.guarded_valueAt hpos]
          cases slot.dead <;> rfl

end Matrix

end Adjacency
