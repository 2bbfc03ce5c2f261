import Adjacency.Metered

/-!
# Matrices with deferred changes

A `Matrix` stores its entries by vector: a by-row matrix has one vector per row, a by-column matrix
one per column, and an entry is index `i` inside vector `j`. Writes that miss the index wait in a
pending list, deletions leave tombstones, and vectors may be left unsorted until the next commit.

* `Storage`: the four physical formats.
* `Matrix.locate`: where a position stands in the index.
* `Matrix.extract`: the logical value of a cell, whatever is still deferred.
-/

namespace Adjacency

/-- A physical layout. -/
inductive Format
  | full
  | bitmap
  | sparse
  | hypersparse
  deriving DecidableEq

/-- The formats that a matrix may settle into. -/
inductive Sparsity
  | auto
  | sparseOnly
  | fixed (format : Format)
  deriving DecidableEq

/-- Tuning of a matrix. -/
structure MatrixOptions where
  /-- Pending tuples from which a commit is advised. -/
  pendingThreshold : Nat := 64 * 1024
  /-- Hypersparse while the non-empty vectors are at most this share of all. -/
  hyperSwitch : Binary64 := ⟨0x3FB0000000000000⟩
  /-- Bitmap when the entries are at least this share of the cells. -/
  bitmapSwitch : Binary64 := ⟨0x3FD0000000000000⟩
  /-- The most cells that a dense format may have. -/
  maxDenseCells : Nat := Nat.pow 2 22
  sparsity : Sparsity := .auto
  /-- Rows from which a product may be split. -/
  parallelMinVectors : Nat := 4096
  deriving DecidableEq, Inhabited

/-- Options that keep a matrix out of the dense formats. -/
def MatrixOptions.sparseFamily : MatrixOptions := { sparsity := .sparseOnly }

/-- Sets the pending threshold, which is at least one. -/
def MatrixOptions.withPendingThreshold (o : MatrixOptions) (n : Nat) : MatrixOptions :=
  { o with pendingThreshold := max n 1 }

/-- The largest number of rows or columns. -/
def maxDim : Nat := Nat.pow 2 60

/-- A place in the index of a sparse format; a dead one is a tombstone. -/
structure Slot where
  index : Nat
  dead : Bool := false
  deriving DecidableEq, Inhabited

/-- The stored index and values. Dense formats address cell `(i, j)` at `i + j * vlen`; sparse ones
keep vector `k` of the list in the index range from `p[k]` to `p[k + 1]`. -/
inductive Storage
  /-- Every cell is present. -/
  | full (x : Array Scalar)
  /-- The bits tell which cells are present. -/
  | bitmap (b : Array Bool) (x : Array Scalar) (nvals : Nat)
  /-- A pointer for every vector. -/
  | sparse (p : Array Nat) (i : Array Slot) (x : Array Scalar)
  /-- Pointers for the vectors listed in `h` only. -/
  | hypersparse (h p : Array Nat) (i : Array Slot) (x : Array Scalar)
  deriving DecidableEq

namespace Storage

/-- No entries. -/
def empty : Storage := .hypersparse #[] #[0] #[] #[]

instance : Inhabited Storage := ⟨empty⟩

def format : Storage → Format
  | .full .. => .full
  | .bitmap .. => .bitmap
  | .sparse .. => .sparse
  | .hypersparse .. => .hypersparse

/-- The formats that hold a cell for every position. -/
def dense : Storage → Bool
  | .full .. | .bitmap .. => true
  | .sparse .. | .hypersparse .. => false

def values : Storage → Array Scalar
  | .full x | .bitmap _ x _ | .sparse _ _ x | .hypersparse _ _ _ x => x

def mapValues (f : Array Scalar → Array Scalar) : Storage → Storage
  | .full x => .full (f x)
  | .bitmap b x n => .bitmap b (f x) n
  | .sparse p i x => .sparse p i (f x)
  | .hypersparse h p i x => .hypersparse h p i (f x)

/-- The index of a sparse format. -/
def slots : Storage → Array Slot
  | .full _ | .bitmap .. => #[]
  | .sparse _ i _ | .hypersparse _ _ i _ => i

def mapSlots (f : Array Slot → Array Slot) : Storage → Storage
  | .full x => .full x
  | .bitmap b x n => .bitmap b x n
  | .sparse p i x => .sparse p (f i) x
  | .hypersparse h p i x => .hypersparse h p (f i) x

/-- Sets a bit of a bitmap, and counts it if it was clear. -/
def setBit (pos : Nat) : Storage → Storage
  | .bitmap b x n =>
    let n := if b.getD pos false then n else n + 1
    .bitmap (b.setIfInBounds pos true) x n
  | store => store

/-- Clears a set bit of a bitmap. -/
def clearBit (pos : Nat) : Storage → Storage
  | .bitmap b x n => .bitmap (b.setIfInBounds pos false) x (n - 1)
  | store => store

/-- The vector pointers of a sparse format. -/
def pointers : Storage → Array Nat
  | .full _ | .bitmap .. => #[]
  | .sparse p _ _ | .hypersparse _ p _ _ => p

/-- The vector that the `k`-th pointer range belongs to. -/
def vectorAt (s : Storage) (k : Nat) : Nat :=
  match s with
  | .hypersparse h _ _ _ => h.getD k 0
  | _ => k

end Storage

/-- A queued write; a matrix whose entries share one value queues none. -/
structure QueuedTuple where
  i : Nat
  j : Nat
  value : Option Scalar
  deriving DecidableEq, Inhabited

/-- Writes waiting for the next commit, oldest first. All have the declared type and operator, and
their values are cast when they are committed. -/
structure Pending where
  tuples : Array QueuedTuple
  type : ScalarType
  op : DupOp
  deriving DecidableEq

/-- A tuple joins the list only with the same declared type and operator. -/
def Pending.accepts (q : Pending) (type : ScalarType) (op : DupOp) : Bool :=
  q.type == type && q.op == op

/-- A matrix over one scalar type. -/
structure Matrix where
  type : ScalarType
  nrows : Nat
  ncols : Nat
  byRow : Bool := true
  store : Storage := .empty
  /-- All entries share the one stored value. -/
  iso : Bool := false
  pending : Option Pending := none
  /-- Dead slots in the index. -/
  zombies : Nat := 0
  /-- Vectors may be out of order. -/
  jumbled : Bool := false
  options : MatrixOptions := {}
  deriving DecidableEq, Inhabited

/-- A row, a column and a value. -/
structure Tuple where
  row : Nat
  col : Nat
  value : Scalar
  deriving DecidableEq, Inhabited

/-- Where a position stands in the index. -/
inductive Place
  /-- A cell of a dense format. -/
  | cell (pos : Nat)
  | live (pos : Nat)
  | zombie (pos : Nat)
  | absent
  deriving DecidableEq

/-- What a write did. -/
inductive SetOutcome
  /-- An entry or a dense cell was written. -/
  | inPlace
  /-- A tombstone came back to life. -/
  | resurrected
  /-- The tuple waits; the flag advises a commit. -/
  | queued (commitAdvised : Bool)
  deriving DecidableEq

/-- Cell counts and dense positions are held in 64-bit words. -/
def wordOf (n : Nat) : Nat := n % UInt64.size

/-- The first of the `n` numbers from `start` on that passes the test. -/
def firstFrom (test : Nat → Bool) : (n start : Nat) → Option Nat
  | 0, _ => none
  | n + 1, start => if test start then some start else firstFrom test n (start + 1)

/-- Bisection with at most `n` halvings. -/
def bisect (key : Nat → Nat) (target : Nat) : (n lo hi : Nat) → Nat
  | 0, lo, _ => lo
  | n + 1, lo, hi =>
    if lo < hi then
      let mid := (lo + hi) / 2
      if key mid < target then bisect key target n (mid + 1) hi else bisect key target n lo mid
    else lo

/-- The least number in `[lo, hi)` whose key is at least `target`, for ascending keys. Each halving
shortens the range, so its length bounds their number. -/
def lowerBound (key : Nat → Nat) (target lo hi : Nat) : Nat := bisect key target (hi - lo) lo hi

/-- The number in `[lo, hi)` whose key is `target`, for ascending keys. -/
def searchSorted (key : Nat → Nat) (target lo hi : Nat) : Option Nat :=
  let k := lowerBound key target lo hi
  if k < hi ∧ key k = target then some k else none

namespace Matrix

/-- Changes the store, which the matrix gives up meanwhile, so that it is changed where it stands. -/
def withStore (f : Storage → Storage) (m : Matrix) : Matrix :=
  let store := m.store
  let m := { m with store := .empty }
  { m with store := f store }

theorem withStore_eq (f : Storage → Storage) (m : Matrix) :
    m.withStore f = { m with store := f m.store } := rfl

/-- An empty by-row matrix. -/
def withOptions (type : ScalarType) (nrows ncols : Nat) (options : MatrixOptions) :
    Except GraphError Matrix :=
  if nrows > maxDim ∨ ncols > maxDim then .error (.invalid .dimensionTooLarge)
  else .ok { type, nrows, ncols, options }

variable (m : Matrix)

/-- The length of a vector. -/
def vlen : Nat := if m.byRow then m.ncols else m.nrows

/-- The number of vectors. -/
def vdim : Nat := if m.byRow then m.nrows else m.ncols

/-- Index and vector of a cell. -/
def toVector (row col : Nat) : Nat × Nat := if m.byRow then (col, row) else (row, col)

/-- Row and column of index `i` in vector `j`. -/
def toCell (i j : Nat) : Nat × Nat := if m.byRow then (j, i) else (i, j)

/-- The cell count, as a word. -/
def cells : Nat := wordOf (m.vlen * m.vdim)

/-- The dense position of index `i` in vector `j`, as a word. -/
def densePos (i j : Nat) : Nat := wordOf (i + wordOf (j * m.vlen))

def format : Format := m.store.format

def pendingCount : Nat := match m.pending with
  | some q => q.tuples.size
  | none => 0

/-- Something waits for a commit. -/
def deferred : Bool := m.pending.isSome || decide (m.zombies > 0) || m.jumbled

/-- Positions taken in the index, tombstones included. -/
def slotCount : Nat :=
  match m.store with
  | .full _ => m.cells
  | .bitmap _ _ nvals => nvals
  | .sparse _ i _ | .hypersparse _ _ i _ => i.size

/-- The value that all entries of an iso matrix share. -/
def shared : Scalar := m.store.values.getD 0 m.type.zero

/-- The value at a storage position. -/
def valueAt (pos : Nat) : Scalar :=
  if m.iso then m.shared else m.store.values.getD pos m.type.zero

/-- The shared value, if the matrix is iso. -/
def sharedIfIso : Option Scalar := if m.iso then some m.shared else none

def checkBounds (row col : Nat) : Except GraphError Unit :=
  if row ≥ m.nrows then .error (.invalidIndex .row row m.nrows)
  else if col ≥ m.ncols then .error (.invalidIndex .column col m.ncols)
  else .ok ()

/-- A value cast to the element type. -/
def castIn (v : Scalar) : Except GraphError Scalar :=
  match v.cast m.type with
  | some w => .ok w
  | none => .error (.domainMismatch v.type m.type)

/-- The index range of vector `j` in a sparse format. -/
def vectorRange (j : Nat) : Option (Nat × Nat) :=
  match m.store with
  | .sparse p _ _ => some (p.getD j 0, p.getD (j + 1) 0)
  | .hypersparse h p _ _ =>
    (searchSorted (h.getD · 0) j 0 h.size).map fun k => (p.getD k 0, p.getD (k + 1) 0)
  | .full _ | .bitmap .. => none

/-- Finds index `i` of vector `j`: by bisection, or one by one while vectors are unsorted. -/
def locate (i j : Nat) : Place :=
  if m.store.dense then .cell (m.densePos i j)
  else
    match m.vectorRange j with
    | none => .absent
    | some (start, stop) =>
      let slots := m.store.slots
      let index (pos : Nat) : Nat := (slots.getD pos default).index
      let found :=
        if m.jumbled then firstFrom (fun pos => index pos == i) (stop - start) start
        else searchSorted index i start stop
      match found with
      | some pos => if (slots.getD pos default).dead then .zombie pos else .live pos
      | none => .absent

/-- A cell of a dense format is present. -/
def cellPresent (pos : Nat) : Bool :=
  match m.store with
  | .bitmap b _ _ => b.getD pos false
  | _ => true

/-- The value in the committed index. -/
def committed (i j : Nat) : Option Scalar :=
  match m.locate i j with
  | .cell pos => if m.cellPresent pos then some (m.valueAt pos) else none
  | .live pos => some (m.valueAt pos)
  | .zombie _ | .absent => none

/-- The value of a queued tuple, cast to the element type. -/
def queuedValue (t : QueuedTuple) : Except GraphError Scalar :=
  match t.value.or m.sharedIfIso with
  | some v => m.castIn v
  | none => .error (.contractViolation .isoPendingWithoutValue)

/-- The logical value of a cell: the committed one, with the queued ones applied in order. -/
def extract (row col : Nat) : Except GraphError (Option Scalar) := do
  m.checkBounds row col
  let (i, j) := m.toVector row col
  match m.pending with
  | none => return m.committed i j
  | some q =>
    (q.tuples.filter fun t => t.i == i && t.j == j).foldlM (fun current t => do
      let v ← m.queuedValue t
      return some (match current with
        | some old => q.op.apply m.type old v
        | none => v)) (m.committed i j)

/-- Same content with rows and columns exchanged, and so with the other orientation. -/
def transposed : Matrix := { m with nrows := m.ncols, ncols := m.nrows, byRow := !m.byRow }

/-- No entries; dimensions, type and options stay. -/
def cleared : Matrix :=
  { m with store := .empty, iso := false, pending := none, zombies := 0, jumbled := false }

end Matrix

end Adjacency
