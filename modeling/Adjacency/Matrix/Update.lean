import Adjacency.Matrix.Commit

/-!
# Changing a matrix

Point writes and deletions, growth, and replacement of the whole content. Writes are deferred where
that is cheaper: one that misses the index is queued, a deletion leaves a tombstone.

* `Matrix.setElement`, `Matrix.accumulate`, `Matrix.remove`: point changes.
* `Matrix.resize`: growth; the content stays.
* `Matrix.ofTuples`: a committed matrix from a list of tuples.
* `Matrix.assignFrom`, `Matrix.reoriented`: the same content in another shape of storage.
-/

namespace Adjacency

open Metered

namespace Matrix

/-- An empty matrix without index entries takes on the value that it is about to hold. -/
def becomeIso (m : Matrix) (v : Scalar) : Matrix :=
  { m with store := m.store.mapValues fun _ => #[v], iso := true }

/-- The number of values that a matrix stores when its entries do not share one. -/
def expandedSize (m : Matrix) : Nat :=
  if m.store.dense then m.cells else m.store.slots.size

/-- Gives each entry a value of its own. -/
def expandIso : Metered Matrix Unit := do
  let m ← subject
  if m.iso then
    reserve m.expandedSize .isoExpansion
    put { m with
      store := m.store.mapValues fun _ => Array.replicate m.expandedSize m.shared
      iso := false }

/-- Makes room for a write: sorts jumbled vectors, and makes the matrix iso, or no longer iso, as
the value needs. Tuples queued without a value are committed before the shared value goes. -/
def prepareWrite (v : Scalar) (op : DupOp) : Metered Matrix Unit := do
  update fun m => if m.jumbled then m.unjumbled else m
  let m ← subject
  if m.iso then
    if op ≠ .second ∨ m.shared ≠ v then
      if m.pending.isSome then wait
      expandIso
  else if m.slotCount = 0 ∧ m.format ≠ .full ∧ m.pending.isNone then put (m.becomeIso v)

/-- Writes a dense cell. A cell that was absent takes the value as it is. -/
def writeCell (m : Matrix) (pos : Nat) (v : Scalar) (op : DupOp) : Matrix :=
  let new :=
    if m.cellPresent pos then op.apply m.type (m.store.values.getD pos m.type.zero) v else v
  let iso := m.iso
  m.withStore fun store =>
    (if iso then store else store.mapValues (·.setIfInBounds pos new)).setBit pos

/-- Writes a live slot. -/
def writeLive (m : Matrix) (pos : Nat) (v : Scalar) (op : DupOp) : Matrix :=
  if m.iso then m
  else
    let new := op.apply m.type (m.store.values.getD pos m.type.zero) v
    m.withStore (·.mapValues (·.setIfInBounds pos new))

/-- Brings a tombstone back to life with a new value. -/
def revive (m : Matrix) (pos i : Nat) (v : Scalar) : Matrix :=
  let iso := m.iso
  let m := m.withStore fun store =>
    (if iso then store else store.mapValues (·.setIfInBounds pos v)).mapSlots
      (·.setIfInBounds pos { index := i })
  { m with zombies := m.zombies - 1 }

/-- Queues a tuple behind the others. -/
def enqueue (m : Matrix) (t : QueuedTuple) (type : ScalarType) (op : DupOp) : Matrix :=
  let q := m.pending.getD { tuples := #[], type, op }
  let m := { m with pending := none }
  { m with pending := some { q with tuples := q.tuples.push t } }

/-- The queue takes a tuple of this type and operator. -/
def queueAccepts (m : Matrix) (type : ScalarType) (op : DupOp) : Bool :=
  match m.pending with
  | none => true
  | some q => q.accepts type op

/-- One attempt at a write; none when the tuple has to be queued and the queue does not take it. -/
def tryWrite (raw v : Scalar) (i j : Nat) (op : DupOp) : Metered Matrix (Option SetOutcome) := do
  prepareWrite v op
  let m ← subject
  match m.locate i j with
  | .cell pos => do
    update (·.writeCell pos v op)
    return some .inPlace
  | .live pos => do
    update (·.writeLive pos v op)
    return some .inPlace
  | .zombie pos => do
    update (·.revive pos i v)
    return some .resurrected
  | .absent =>
    if m.queueAccepts raw.type op then do
      let value := if m.iso then none else some raw
      update (·.enqueue ⟨i, j, value⟩ raw.type op)
      let m ← subject
      return some (.queued (decide (m.options.pendingThreshold ≤ m.pendingCount)))
    else return none

/-- Writes a value, combined with an entry already there by `op`. At most one commit makes room for
a tuple that the queue does not take: afterwards nothing is queued. -/
def accumulate (raw : Scalar) (row col : Nat) (op : DupOp) : Metered Matrix SetOutcome := do
  let m ← subject
  require (m.checkBounds row col)
  let v ← require (m.castIn raw)
  let (i, j) := m.toVector row col
  match ← tryWrite raw v i j op with
  | some done => return done
  | none => do
    wait
    match ← tryWrite raw v i j op with
    | some done => return done
    | none => throw (.contractViolation .pendingStillIncompatible)

/-- Writes a value. -/
def setElement (raw : Scalar) (row col : Nat) : Metered Matrix SetOutcome :=
  accumulate raw row col .second

/-- Marks a slot dead. -/
def bury (m : Matrix) (pos : Nat) : Matrix :=
  let m := m.withStore (·.mapSlots (·.modify pos fun slot => { slot with dead := true }))
  { m with zombies := m.zombies + 1 }

/-- The bit of a cell is set. -/
def bitSet (m : Matrix) (pos : Nat) : Bool :=
  match m.store with
  | .bitmap b _ _ => b.getD pos false
  | _ => false

/-- Clears a bit; false when it was clear. -/
def clearCell (pos : Nat) : Metered Matrix Bool := do
  if (← subject).bitSet pos then do
    update (·.withStore (·.clearBit pos))
    return true
  else return false

/-- One attempt at a deletion; none when the position is not in the index. -/
def tryRemove (i j : Nat) : Metered Matrix (Option Bool) := do
  update fun m => if m.jumbled then m.unjumbled else m
  let m ← subject
  match m.locate i j with
  | .cell pos => do
    if m.format = .full then convertTo .bitmap
    return some (← clearCell pos)
  | .live pos => do
    update (·.bury pos)
    return some true
  | .zombie _ | .absent => return none

/-- Deletes a cell; false when there was nothing to delete. An entry not in the index may still be
queued, so the queue is committed and the index searched once more. -/
def remove (row col : Nat) : Metered Matrix Bool := do
  let m ← subject
  require (m.checkBounds row col)
  let (i, j) := m.toVector row col
  match ← tryRemove i j with
  | some done => return done
  | none => do
    if (← subject).pending.isSome then do
      wait
      return (← tryRemove i j).getD false
    else return false

/-- The number of entries, after a commit. -/
def nvals : Metered Matrix Nat := do
  wait
  return (← subject).slotCount

/-- Removes every entry. -/
def clear : Metered Matrix Unit := update cleared

/-- Replaces the options; they take effect at the next commit. -/
def setOptions (options : MatrixOptions) : Metered Matrix Unit :=
  update fun m => { m with options }

/-- Appends empty vectors to a pointer list. -/
def extendPointers (grow : Nat) : Metered Matrix Unit := do
  let m ← subject
  match m.store with
  | .sparse p i x => do
    reserve grow .vectorPointers
    put { m with store := .sparse (p ++ Array.replicate grow (p.back?.getD 0)) i x }
  | _ => pure ()

/-- Grows the matrix; shrinking is refused. -/
def resize (nrows ncols : Nat) : Metered Matrix Unit := do
  let m ← subject
  if nrows < m.nrows ∨ ncols < m.ncols then throw (.invalid .shrinkingResize)
  if nrows > maxDim ∨ ncols > maxDim then throw (.invalid .dimensionTooLarge)
  if nrows ≠ m.nrows ∨ ncols ≠ m.ncols then
    wait
    if (← subject).store.dense then convertTo .hypersparse
    extendPointers (if m.byRow then nrows - m.nrows else ncols - m.ncols)
    update fun m => { m with nrows, ncols }
    conform

/-- Queues tuples as they come, each checked and cast. -/
def queueTuples (op : DupOp) (tuples : List Tuple) : Metered Matrix Unit := do
  match tuples with
  | [] => pure ()
  | t :: rest => do
    let m ← subject
    require (m.checkBounds t.row t.col)
    let v ← require (m.castIn t.value)
    let (i, j) := m.toVector t.row t.col
    update fun m => m.enqueue ⟨i, j, some v⟩ m.type op
    queueTuples op rest

/-- A committed matrix of the given tuples; those at one cell combine by `op`, in order. -/
def ofTuples {σ : Type} (type : ScalarType) (nrows ncols : Nat) (byRow : Bool) (tuples : List Tuple)
    (op : DupOp) (options : MatrixOptions) : Metered σ Matrix := do
  let m ← require (withOptions type nrows ncols options)
  settle { m with byRow } do
    queueTuples op tuples
    wait

/-- The same content in the given orientation. -/
def reoriented {σ : Type} (m : Matrix) (byRow : Bool) : Metered σ Matrix := do
  if byRow = m.byRow then return m
  else
    let src ← settle m wait
    ofTuples m.type m.nrows m.ncols byRow src.tuples.toList .second m.options

/-- Replaces the content by that of `src`, cast and reoriented as needed. The options stay. -/
def assignFrom (src : Matrix) : Metered Matrix Unit := do
  let m ← subject
  if src.nrows ≠ m.nrows ∨ src.ncols ≠ m.ncols then
    throw (.dimensionMismatch .assign (m.nrows, m.ncols) (src.nrows, src.ncols))
  let src ←
    if src.byRow ≠ m.byRow ∨ src.type ≠ m.type then do
      let src ← settle src wait
      ofTuples m.type m.nrows m.ncols m.byRow src.tuples.toList .second m.options
    else pure src
  put { m with
    store := src.store, iso := src.iso, pending := src.pending, zombies := src.zombies
    jumbled := src.jumbled }

end Matrix

end Adjacency
