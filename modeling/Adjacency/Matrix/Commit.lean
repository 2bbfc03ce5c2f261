import Adjacency.Matrix.Cursor
import Adjacency.StableSort

/-!
# Commits

A commit folds everything deferred into the index: it sorts jumbled vectors, drops tombstones,
merges the pending tuples, and then chooses the physical format anew.

* `Matrix.assemble`: existing slots and pending tuples merged into one sorted index.
* `Matrix.preferredFormat`: the format that the options ask for.
* `Matrix.convertTo`: the same content in another format.
* `Matrix.wait`: the commit.
-/

namespace Adjacency

/-- An entry by vector and index. -/
structure IndexEntry where
  j : Nat
  i : Nat
  value : Scalar
  deriving DecidableEq, Inhabited

/-- An index slot by vector and index; a tombstone has no value. -/
structure Existing where
  j : Nat
  i : Nat
  value : Option Scalar
  deriving DecidableEq, Inhabited

/-- Vector first, then index. -/
def placeLe (j i j' i' : Nat) : Bool := decide (j < j') || (j == j' && decide (i ≤ i'))

/-- Vector first, then index, strictly. -/
def placeLt (j i j' i' : Nat) : Bool := decide (j < j') || (j == j' && decide (i < i'))

namespace Storage

/-- The parts of an index under construction. -/
structure Builder where
  h : Array Nat := #[]
  p : Array Nat := #[0]
  i : Array Slot := #[]
  x : Array Scalar := #[]

/-- Adds an entry behind the last; it opens a new vector unless the last one is its own. -/
def Builder.push (b : Builder) (e : IndexEntry) : Builder :=
  let last := b.i.size + 1
  if b.h.back? = some e.j then
    { b with p := b.p.pop.push last, i := b.i.push { index := e.i }, x := b.x.push e.value }
  else
    { h := b.h.push e.j, p := b.p.push last, i := b.i.push { index := e.i }
      x := b.x.push e.value }

/-- Hypersparse storage of entries that are grouped by vector. -/
def ofEntries (entries : Array IndexEntry) : Storage :=
  let b := entries.foldl Builder.push {}
  .hypersparse b.h b.p b.i b.x

/-- A pointer for each of `vdim` vectors, from the pointers of the listed ones. -/
def allPointers (h p : Array Nat) (vdim : Nat) : Array Nat :=
  ((List.range vdim).foldl (fun (acc, k) j =>
    let k := if h[k]? = some j then k + 1 else k
    (acc.push (p.getD k 0), k)) (#[0], 0)).1

end Storage

/-- Combines runs of entries at one place, in order. The last entry of `acc` is still open. -/
def combineRuns (op : DupOp) (ty : ScalarType) (acc : Array IndexEntry) (e : IndexEntry) : Array IndexEntry :=
  match acc.back? with
  | some last =>
    if last.j = e.j ∧ last.i = e.i then
      acc.pop.push { last with value := op.apply ty last.value e.value }
    else acc.push e
  | none => acc.push e

/-- Appends the entry of a slot, unless it is a tombstone. -/
def keepLive (acc : Array IndexEntry) (a : Existing) : Array IndexEntry :=
  match a.value with
  | some v => acc.push ⟨a.j, a.i, v⟩
  | none => acc

/-- A new entry over the slot at its place: a live old value combines with it, a tombstone gives
way. -/
def overSlot (op : DupOp) (ty : ScalarType) (a : Existing) (b : IndexEntry) : IndexEntry :=
  match a.value with
  | some old => { b with value := op.apply ty old b.value }
  | none => b

/-- Merges slots and new entries, both sorted by place, in at most `n` steps. -/
def mergePlaces (op : DupOp) (ty : ScalarType) :
    (n : Nat) → Array IndexEntry → List Existing → List IndexEntry → Array IndexEntry
  | 0, acc, _, _ => acc
  | n + 1, acc, as, bs =>
    match as, bs with
    | [], bs => bs.foldl Array.push acc
    | as, [] => as.foldl keepLive acc
    | a :: as, b :: bs =>
      if placeLt a.j a.i b.j b.i then mergePlaces op ty n (keepLive acc a) as (b :: bs)
      else if placeLt b.j b.i a.j a.i then mergePlaces op ty n (acc.push b) (a :: as) bs
      else mergePlaces op ty n (acc.push (overSlot op ty a b)) as bs

namespace Matrix

variable (m : Matrix)

/-- The index ranges of the vectors, in pointer order. -/
def ranges : List (Nat × Nat) :=
  let p := m.store.pointers.toList
  p.zip p.tail

/-- Sorts every vector by index. Pending tuples and tombstones stay. -/
def unjumbled : Matrix :=
  let slots := m.store.slots
  let ordered : List Nat := m.ranges.flatMap fun (start, stop) =>
    stableSort (fun a b => decide ((slots.getD a default).index ≤ (slots.getD b default).index))
      (List.range' start (stop - start))
  let store := m.store.mapSlots fun i => (ordered.map fun pos => i.getD pos default).toArray
  let store :=
    if m.iso then store
    else store.mapValues fun x => (ordered.map fun pos => x.getD pos m.type.zero).toArray
  { m with store := if m.store.dense then m.store else store, jumbled := false }

/-- The slots of the index by place; a tombstone has no value. -/
def existing : List Existing :=
  let slots : List Existing :=
    if m.store.dense then
      m.tuples.toList.map fun t =>
        let (i, j) := m.toVector t.row t.col
        ⟨j, i, some t.value⟩
    else
      m.ranges.zipIdx.flatMap fun ((start, stop), k) =>
        (List.range' start (stop - start)).map fun pos =>
          let slot := m.store.slots.getD pos default
          ⟨m.store.vectorAt k, slot.index, if slot.dead then none else some (m.valueAt pos)⟩
  if m.jumbled then stableSort (fun a b => placeLe a.j a.i b.j b.i) slots else slots

/-- The pending tuples, cast to the element type, in the order of their writing. -/
def queuedEntries (q : Pending) : Except GraphError (List IndexEntry) :=
  q.tuples.toList.mapM fun t => return ⟨t.j, t.i, ← m.queuedValue t⟩

/-- The committed entries by place. -/
def sortedEntries : List IndexEntry :=
  stableSort (fun a b => placeLe a.j a.i b.j b.i) (m.tuples.toList.map fun t =>
    let (i, j) := m.toVector t.row t.col
    ⟨j, i, t.value⟩)

/-- One entry per place: writes to a place combine in the order of their writing. -/
def combined (op : DupOp) (entries : List IndexEntry) : List IndexEntry :=
  ((stableSort (fun a b => placeLe a.j a.i b.j b.i) entries).foldl (combineRuns op m.type) #[]).toList

/-- The number of vectors that have a slot. -/
def nonemptyVectors : Nat :=
  match m.store with
  | .sparse p _ _ => (p.toList.zip p.toList.tail).countP fun (a, b) => decide (a < b)
  | .hypersparse h _ _ _ => h.size
  | .bitmap b _ _ =>
    if m.vlen = 0 then 0
    else (List.range ((b.size + m.vlen - 1) / m.vlen)).countP fun j =>
      (firstFrom (fun pos => b.getD pos false) m.vlen (j * m.vlen)).isSome
  | .full _ => if m.vlen = 0 then 0 else m.vdim

/-- Sparse or hypersparse, by the share of non-empty vectors. -/
def sparseFormat : Format :=
  if (Binary64.ofNat m.nonemptyVectors).le (m.options.hyperSwitch.mul (.ofNat m.vdim)) then
    .hypersparse
  else .sparse

/-- The format that a matrix settles into. The dense formats need a positive cell count within the
limit of the options. -/
def preferredFormat : Format :=
  let cells := m.vlen * m.vdim
  let denseOk := decide (0 < cells) && decide (cells ≤ m.options.maxDenseCells)
  match m.options.sparsity with
  | .fixed .sparse => .sparse
  | .fixed .hypersparse => .hypersparse
  | .fixed .full =>
    if denseOk then (if m.slotCount = cells then .full else .bitmap) else m.sparseFormat
  | .fixed .bitmap => if denseOk then .bitmap else m.sparseFormat
  | .sparseOnly => m.sparseFormat
  | .auto =>
    if denseOk && m.slotCount == cells then .full
    else if denseOk && decide (0 < m.slotCount) &&
        (m.options.bitmapSwitch.mul (.ofNat cells)).le (.ofNat m.slotCount) then .bitmap
    else m.sparseFormat

/-- The dense arrays that hold the given entries: presence bits and values. -/
def denseArrays (entries : List IndexEntry) : Array Bool × Array Scalar :=
  let n := m.cells
  entries.foldl (fun (b, x) e =>
    let pos := m.densePos e.i e.j
    (b.setIfInBounds pos true, if m.iso then x else x.setIfInBounds pos e.value))
    (Array.replicate n false, Array.replicate (if m.iso then 1 else n) (m.sharedIfIso.getD m.type.zero))

/-- Values of a rebuilt index: an iso matrix keeps the one it had. -/
def keepShared (store : Storage) : Storage :=
  if m.iso then
    store.mapValues fun x => #[x.getD 0 m.shared]
  else store

end Matrix

open Metered

namespace Matrix

/-- Hypersparse storage of grouped entries, in memory asked for first. -/
def buildStorage {σ : Type} (vectors : Nat) (entries : Array IndexEntry) : Metered σ Storage := do
  reserve vectors .hyperlist
  reserve (vectors + 1) .vectorPointers
  reserve entries.size .indices
  reserve entries.size .values
  return .ofEntries entries

/-- The number of runs of one vector. -/
def countVectors (entries : Array IndexEntry) : Nat :=
  (entries.foldl (fun (n, last) e => if last = some e.j then (n, last) else (n + 1, some e.j))
    ((0 : Nat), (none : Option Nat))).1

/-- There are entries, and all have the same value. -/
def isUniform (entries : Array IndexEntry) : Bool :=
  match entries[0]? with
  | some first => entries.all fun e => e.value == first.value
  | none => false

/-- Installs sorted entries; if all values are the same, only one is kept. -/
def installSorted (entries : Array IndexEntry) : Metered Matrix Unit := do
  let store ← buildStorage (countVectors entries) entries
  update fun m =>
    { m with
      store := if isUniform entries then store.mapValues fun x => x.take 1 else store
      iso := isUniform entries }

/-- Merges the pending tuples into the index and drops the tombstones. -/
def assemble : Metered Matrix Unit := do
  let m ← subject
  reserve m.slotCount .commitExisting
  let existing := m.existing
  let (op, incoming) ← match m.pending with
    | none => pure (DupOp.second, [])
    | some q => do
      reserve q.tuples.size .commitPending
      let queued ← require (m.queuedEntries q)
      pure (q.op, m.combined q.op queued)
  reserve (existing.length + incoming.length) .commitMerge
  installSorted
    (mergePlaces op m.type (existing.length + incoming.length + 1) #[] existing incoming)
  update fun m => { m with pending := none, zombies := 0, jumbled := false }

/-- The same content in the format `target`. -/
def convertTo (target : Format) : Metered Matrix Unit := do
  let m ← subject
  if m.deferred then throw (.contractViolation .conversionWithDeferredState)
  let cells := m.cells
  reserve m.slotCount .formatConversion
  let entries := m.sortedEntries
  match target with
  | .full => do
    if entries.length ≠ cells then throw (.contractViolation .fullWithMissingCells)
    reserve (if m.iso then 1 else cells) .denseValues
    put { m with store := m.keepShared (.full (m.denseArrays entries).2) }
  | .bitmap => do
    reserve (if m.iso then 1 else cells) .denseValues
    reserve cells .bitmap
    let (b, x) := m.denseArrays entries
    put { m with store := m.keepShared (.bitmap b x entries.length) }
  | .sparse => do
    match ← buildStorage (countVectors entries.toArray) entries.toArray with
    | .hypersparse h p i x => do
      reserve (m.vdim + 1) .vectorPointers
      put { m with store := m.keepShared (.sparse (Storage.allPointers h p m.vdim) i x) }
    | store => put { m with store := m.keepShared store }
  | .hypersparse => do
    let store ← buildStorage (countVectors entries.toArray) entries.toArray
    put { m with store := m.keepShared store }

/-- Goes over to the preferred format. -/
def conform : Metered Matrix Unit := do
  let m ← subject
  if m.preferredFormat ≠ m.format then convertTo m.preferredFormat

/-- Commits everything deferred and chooses the format anew. -/
def wait : Metered Matrix Unit := do
  if (← subject).deferred then assemble
  conform
  tally .commit

end Matrix

end Adjacency
