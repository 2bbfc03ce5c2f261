import Adjacency.Query.Source

/-!
# Expanding one batch of records

The part of a traversal that works on a batch already read: the source nodes of its records are
encoded in a filter matrix, the filtered expression is evaluated, and each entry of the result gives
one record, or one per connecting edge.

* `Traversal.evaluateBatch`: from a batch to a result matrix.
* `Traversal.emit`: the next record of the result.
* `Traversal.popOwed`: the next edge of an entry that has several.
-/

namespace Adjacency

/-- Which stored edges connect a source to a destination. -/
inductive Direction
  | outgoing
  | incoming
  | both
  deriving DecidableEq, Inhabited

/-- The edge variable of a traversal. -/
structure EdgeBinding where
  slot : Nat
  /-- The relations that an edge may have; any when empty. -/
  relations : List RelationId
  direction : Direction

/-- A traversal from the node at one slot to nodes bound at another. -/
structure Pattern where
  expr : Expression
  src : Nat
  dst : Nat
  edge : Option EdgeBinding := none
  /-- Records per batch, instead of the plan's. -/
  batchSize : Option Nat := none

inductive TraversalPhase
  | uninitialized
  | filling
  | emitting
  | exhausted
  deriving DecidableEq

/-- The matrices of a batch: row `k` belongs to its `k`-th record. -/
structure Workspace where
  filter : Matrix
  result : Matrix

/-- A record and the edges that it is still to be delivered with. -/
structure Owed where
  record : Record
  edges : List Edge

/-- The state of a traversal, its child aside. -/
structure Traversal where
  phase : TraversalPhase := .uninitialized
  capacity : Nat := 0
  batch : Array Record := #[]
  /-- The filtered expression, prepared once per run. -/
  prepared : Option Expression := none
  workspace : Option Workspace := none
  cursor : Cursor := {}
  owed : Option Owed := none

/-- The edges that connect two nodes as the binding asks, each once. -/
def EdgeBinding.edges (b : EdgeBinding) (g : Graph) (src dst : NodeId) : List Edge :=
  let forward :=
    if b.direction = .incoming then [] else g.edgesBetween src dst b.relations
  let backward :=
    if b.direction = .incoming ∨ (b.direction = .both ∧ src ≠ dst) then
      g.edgesBetween dst src b.relations
    else []
  forward ++ backward

open Metered

namespace Traversal

/-- Allocates the matrices of a batch at first use, and again when the graph has another
dimension. -/
def ensureWorkspace (g : Graph) : Metered Traversal Unit := do
  let t ← subject
  if t.workspace.all fun w => decide (w.filter.ncols ≠ g.dim) then
    let m ← require (Matrix.withOptions .bool t.capacity g.dim .sparseFamily)
    put { t with workspace := some ⟨m, m⟩ }

/-- Prepares the filtered expression, once per run. -/
def ensurePrepared (p : Pattern) (g : Graph) : Metered Traversal Expression := do
  match (← subject).prepared with
  | some e => return e
  | none => do
    let e ← ((p.expr.multiplyLeft .filter).optimized).prepared g
    update fun t => { t with prepared := some e }
    return e

/-- Marks the source node of each record in the record's row, and commits. -/
def fillFilter (src : Nat) : List (Record × Nat) → Metered Matrix Unit
  | [] => Matrix.wait
  | (r, row) :: rest => do
    match r.node? src with
    | none => throw (.contractViolation .batchedRecordLostSource)
    | some id => do
      discard (Matrix.setElement (.bool true) row id.toNat)
      fillFilter src rest

/-- Acts on the filter matrix. -/
def onFilter {α : Type} (act : Metered Matrix α) : Metered Traversal α :=
  withinTaken (fun t => (t.workspace.map Workspace.filter).getD default)
    (fun m t => { t with workspace := t.workspace.map fun w => { w with filter := m } }) act

/-- Acts on the result matrix. -/
def onResult {α : Type} (act : Metered Matrix α) : Metered Traversal α :=
  withinTaken (fun t => (t.workspace.map Workspace.result).getD default)
    (fun m t => { t with workspace := t.workspace.map fun w => { w with result := m } }) act

/-- Evaluates the filtered expression for the batch. The filter is emptied once that is done. -/
def evaluateBatch (p : Pattern) (g : Graph) : Metered Traversal Unit := do
  ensureWorkspace g
  let e ← ensurePrepared p g
  onFilter (fillFilter p.src (← subject).batch.toList.zipIdx)
  tally .filter
  let filter := (← subject).workspace.map Workspace.filter
  onResult (e.evalInto { graph := g, filter, options := .sparseFamily })
  onFilter Matrix.clear
  update fun t => { t with cursor := {}, phase := .emitting }

/-- The record of a result entry, with its first edge if edges are bound, and what is owed of the
others. -/
def expand (p : Pattern) (g : Graph) (batch : Array Record) (entry : Tuple) :
    Except GraphError (Record × Option Owed) :=
  match batch[entry.row]? with
  | none => .error (.contractViolation .resultRowOutsideBatch)
  | some origin =>
    match origin.node? p.src with
    | none => .error (.contractViolation .batchedRecordLostSource)
    | some src =>
      let dst := NodeId.ofNat entry.col
      let record := origin.set p.dst (.node dst)
      match p.edge with
      | none => .ok (record, none)
      | some b =>
        match b.edges g src dst with
        | [] => .error (.contractViolation .entryWithoutEdge)
        | [e] => .ok (record.set b.slot (.edge e), none)
        | e :: rest => .ok (record.set b.slot (.edge e), some ⟨record, rest⟩)

/-- The next record of the result; when there is none, the next batch is due. -/
def emit (p : Pattern) (g : Graph) : Metered Traversal (Option Record) := fun s =>
  match s.1.workspace with
  | none => .error (.contractViolation .traverseResultMissing) s
  | some w =>
    match s.1.cursor.next w.result with
    | (none, c) => .ok none ({ s.1 with cursor := c, phase := .filling }, s.2)
    | (some entry, c) =>
      match expand p g s.1.batch entry with
      | .error e => .error e ({ s.1 with cursor := c }, s.2)
      | .ok (r, owed) => .ok (some r) ({ s.1 with cursor := c, owed }, s.2)

/-- The record owed, with its next edge. -/
def popOwed (p : Pattern) (t : Traversal) : Option (Record × Traversal) :=
  match p.edge, t.owed with
  | some b, some ⟨r, e :: rest⟩ =>
    some (r.set b.slot (.edge e),
      { t with owed := if rest.isEmpty then none else some ⟨r, rest⟩ })
  | _, _ => none

/-- Storage positions of the result that the cursor has not passed. -/
def left (t : Traversal) : Nat :=
  if t.phase = .emitting then
    match t.workspace with
    | some w => w.result.extent - t.cursor.pos
    | none => 0
  else 0

/-- Edges owed. -/
def debt (t : Traversal) : Nat :=
  match t.owed with
  | some o => o.edges.length
  | none => 0

/-- A record that was owed takes an edge off the debt; the result is left alone. -/
theorem popOwed_some {p : Pattern} {t u : Traversal} {r : Record} (h : popOwed p t = some (r, u)) :
    u.left = t.left ∧ u.debt < t.debt := by
  unfold popOwed at h
  split at h
  · next b r' e rest hb ho =>
    cases h
    refine ⟨rfl, ?_⟩
    simp only [debt, ho]
    cases rest <;> simp
  · cases h

/-- A record out of the result moves the cursor on. -/
theorem emit_some {p : Pattern} {g : Graph} {s t : Traversal × CallCounts} {r : Record}
    (hs : s.1.phase = .emitting) (h : emit p g s = .ok (some r) t) : t.1.left < s.1.left := by
  unfold emit at h
  split at h
  · cases h
  · next w hw =>
    split at h
    · cases h
    · next entry c hc =>
      obtain ⟨h₁, h₂⟩ := Cursor.next_advances hc
      split at h
      · cases h
      · cases h
        simp only [left, hs, hw, if_true]
        omega

/-- A result that gives no record is used up, and a batch is due. -/
theorem emit_none {p : Pattern} {g : Graph} {s t : Traversal × CallCounts}
    (h : emit p g s = .ok none t) : t.1.left = 0 ∧ t.1.debt = s.1.debt := by
  unfold emit at h
  split at h
  · cases h
  · split at h
    · cases h; exact ⟨rfl, rfl⟩
    · split at h
      · cases h
      · cases h

end Traversal

end Adjacency
