import Adjacency.Matrix.Basic

/-!
# Reading the committed index

Two readers beside the point lookup `Matrix.locate`: a resumable cursor over the whole matrix and a
walk of one vector. Neither sees pending tuples or tombstones, and a jumbled vector shows in stored
order.

* `Cursor.next`: the next entry. A cursor is a bare position, so the matrix may change between
  calls.
* `Matrix.tuples`: all entries, in the order of a fresh cursor.
* `Matrix.vectorEntries`: the entries of one vector.
-/

namespace Adjacency

/-- A resumable position: a vector of the pointer list and a storage position. -/
structure Cursor where
  vector : Nat := 0
  pos : Nat := 0
  deriving DecidableEq, Inhabited

namespace Matrix

variable (m : Matrix)

/-- The number of storage positions that a walk can visit. -/
def extent : Nat := if m.store.dense then m.cells else m.store.slots.size

/-- The index slot at a position exists and is not dead. -/
def slotLive (pos : Nat) : Bool :=
  match m.store.slots[pos]? with
  | some s => !s.dead
  | none => false

/-- The entry at a storage position of a dense format. -/
def denseTuple (pos : Nat) : Tuple :=
  let (row, col) := m.toCell (pos % m.vlen) (pos / m.vlen)
  ⟨row, col, m.valueAt pos⟩

/-- The entry at a storage position of a sparse format, in the `k`-th pointer range. -/
def sparseTuple (k pos : Nat) : Tuple :=
  let (row, col) := m.toCell (m.store.slots.getD pos default).index (m.store.vectorAt k)
  ⟨row, col, m.valueAt pos⟩

/-- Looks through `n` pointer ranges, from the `k`-th on, for the first live slot at or after `pos`.
The second part is the place reached, whether found or not. -/
def seekLive : (n k pos : Nat) → Bool × Cursor
  | 0, k, pos => (false, ⟨k, pos⟩)
  | n + 1, k, pos =>
    let start := max pos (m.store.pointers.getD k 0)
    let stop := m.store.pointers.getD (k + 1) 0
    match firstFrom m.slotLive (stop - start) start with
    | some found => (true, ⟨k, found⟩)
    | none => seekLive n (k + 1) (max start stop)

end Matrix

namespace Cursor

/-- The next entry and the cursor behind it. -/
def next (c : Cursor) (m : Matrix) : Option Tuple × Cursor :=
  if m.store.dense then
    match firstFrom m.cellPresent (m.cells - c.pos) c.pos with
    | some pos => (some (m.denseTuple pos), { c with pos := pos + 1 })
    | none => (none, { c with pos := max c.pos m.cells })
  else
    match m.seekLive (m.store.pointers.size - 1 - c.vector) c.vector c.pos with
    | (true, at_) => (some (m.sparseTuple at_.vector at_.pos), { at_ with pos := at_.pos + 1 })
    | (false, at_) => (none, at_)

/-- Appends up to `n` further entries. -/
def collect (m : Matrix) : (n : Nat) → Cursor → Array Tuple → Array Tuple
  | 0, _, acc => acc
  | n + 1, c, acc =>
    match c.next m with
    | (some t, c) => collect m n c (acc.push t)
    | (none, _) => acc

theorem firstFrom_bounds {test : Nat → Bool} {n start pos : Nat}
    (h : firstFrom test n start = some pos) : start ≤ pos ∧ pos < start + n ∧ test pos = true := by
  induction n generalizing start with
  | zero => simp [firstFrom] at h
  | succ n ih =>
    rw [firstFrom] at h
    split at h
    · next ht => cases h; exact ⟨Nat.le_refl _, by omega, ht⟩
    · have := ih h; exact ⟨by omega, by omega, this.2.2⟩

theorem seekLive_bounds (m : Matrix) {n k pos : Nat} {c : Cursor}
    (h : m.seekLive n k pos = (true, c)) : pos ≤ c.pos ∧ c.pos < m.store.slots.size := by
  induction n generalizing k pos with
  | zero => simp [Matrix.seekLive] at h
  | succ n ih =>
    simp only [Matrix.seekLive] at h
    split at h
    · next found hf =>
      obtain ⟨h₁, _, h₃⟩ := firstFrom_bounds hf
      cases h
      refine ⟨by simp only; omega, ?_⟩
      simp only [Matrix.slotLive] at h₃
      split at h₃
      · next hs => exact (Array.getElem?_eq_some_iff.mp hs).1
      · simp at h₃
    · have := ih h; omega

/-- A delivered entry moves the cursor forward, within the matrix. -/
theorem next_advances {c c' : Cursor} {m : Matrix} {t : Tuple} (h : c.next m = (some t, c')) :
    c.pos < c'.pos ∧ c'.pos ≤ m.extent := by
  unfold next at h
  unfold Matrix.extent
  split at h
  · next hd =>
    split at h
    · next pos hf =>
      obtain ⟨h₁, h₂, _⟩ := firstFrom_bounds hf
      cases h
      rw [if_pos hd]
      refine ⟨by simp only; omega, by simp only; omega⟩
    · cases h
  · next hd =>
    split at h
    · next d hs =>
      obtain ⟨h₁, h₂⟩ := seekLive_bounds m hs
      cases h
      rw [if_neg hd]
      exact ⟨by simp only; omega, by simp only; omega⟩
    · cases h

end Cursor

namespace Matrix

variable (m : Matrix)

/-- The entries of the committed index in storage order. Every step of the cursor passes a storage
position, so their number bounds the walk. -/
def tuples : Array Tuple := Cursor.collect m m.extent {} #[]

/-- Index and value of every committed entry of vector `j`; none when there is no such vector. -/
def vectorEntries (j : Nat) : List (Nat × Scalar) :=
  if j ≥ m.vdim then []
  else if m.store.dense then
    (List.range m.vlen).filterMap fun i =>
      let pos := m.densePos i j
      if m.cellPresent pos then some (i, m.valueAt pos) else none
  else
    match m.vectorRange j with
    | none => []
    | some (start, stop) =>
      (List.range' start (stop - start)).filterMap fun pos =>
        match m.store.slots[pos]? with
        | some s => if s.dead then none else some (s.index, m.valueAt pos)
        | none => none

end Matrix

end Adjacency
