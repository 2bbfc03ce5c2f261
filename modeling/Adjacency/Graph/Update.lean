import Adjacency.Graph.Basic

/-!
# Changing a graph

Every change keeps the matrices, the pair index and the edge list in step. Matrix entries are written
before the edge is recorded, so a failed write records no edge.

* `Graph.createNode`: grows the matrices by whole blocks when the node does not fit.
* `Graph.createEdge`, `Graph.deleteEdge`: a matrix entry stands for all edges of its pair and goes
  with the last of them.
* `Graph.sync`: commits every matrix.
-/

namespace Adjacency

open Metered

/-- The matrix of a relation, or its transpose. -/
def Relation.adjacency (r : Relation) (transposed : Bool) : Matrix :=
  if transposed then r.transposed else r.matrix

def Relation.withAdjacency (r : Relation) (transposed : Bool) (m : Matrix) : Relation :=
  if transposed then { r with transposed := m } else { r with matrix := m }

namespace Graph

variable {α : Type}

/-- Acts on the matrix, or the transpose, of the `k`-th relation. -/
def onRelation (k : Nat) (transposed : Bool) (act : Metered Matrix α) : Metered Graph α :=
  withinTaken (fun g => (g.relations.getD k default).adjacency transposed)
    (fun m g => { g with relations := g.relations.modify k (·.withAdjacency transposed m) }) act

/-- Acts on the matrix of the `k`-th label. -/
def onLabel (k : Nat) (act : Metered Matrix α) : Metered Graph α :=
  withinTaken (fun g => (g.labels.getD k default).matrix)
    (fun m g => { g with labels := g.labels.modify k fun l => { l with matrix := m } }) act

/-- An empty matrix of the graph's dimension. -/
def emptyMatrix : Metered Graph Matrix := do
  let g ← subject
  require (Matrix.withOptions .bool g.dim g.dim g.options.matrix)

/-- The label of a name, registered on first use. -/
def addLabel (name : String) : Metered Graph LabelId := do
  match (← subject).labelId? name with
  | some id => return id
  | none => do
    let matrix ← emptyMatrix
    let id := .ofNat (← subject).labels.size
    update fun g => { g with labels := g.labels.push { name, matrix } }
    return id

/-- The relation of a name, registered on first use. -/
def addRelation (name : String) : Metered Graph RelationId := do
  match (← subject).relationId? name with
  | some id => return id
  | none => do
    let matrix ← emptyMatrix
    let id := .ofNat (← subject).relations.size
    update fun g => { g with relations := g.relations.push { name, matrix, transposed := matrix } }
    return id

/-- Acts on every relation matrix, each followed by its transpose, and then on every label
matrix. -/
def onEveryMatrix (act : Metered Matrix Unit) : Metered Graph Unit := do
  (List.range (← subject).relations.size).forM fun k => do
    onRelation k false act
    onRelation k true act
  (List.range (← subject).labels.size).forM fun k => onLabel k act

/-- Grows every matrix to a dimension. -/
def grow (dim : Nat) : Metered Graph Unit := do
  onEveryMatrix (Matrix.resize dim dim)
  update fun g => { g with dim }

/-- Commits every matrix. -/
def sync : Metered Graph Unit := onEveryMatrix Matrix.wait

/-- Adds a node with labels and properties. -/
def createNode (labels : List LabelId) (properties : List (String × Value)) :
    Metered Graph NodeId := do
  let g ← subject
  if labels.any fun l => decide (g.labels.size ≤ l.toNat) then throw (.notFound .label)
  let id := g.nodes.size
  if g.dim ≤ id then grow ((id / g.options.nodeBlock + 1) * g.options.nodeBlock)
  labels.forM fun l => discard (onLabel l.toNat (Matrix.setElement (.bool true) id id))
  update fun g => { g with nodes := g.nodes.push { labels, properties := .ofList properties } }
  return .ofNat id

/-- Adds bare nodes, one after the other. -/
def createNodes : Nat → Metered Graph Unit
  | 0 => pure ()
  | n + 1 => do
    discard (createNode [] [])
    createNodes n

/-- Sets one property of a node. -/
def setProperty (id : NodeId) (key : String) (v : Value) : Metered Graph Unit := do
  if ((← subject).node? id).isNone then throw (.notFound .node)
  update fun g =>
    { g with
      nodes := g.nodes.modify id.toNat fun n => { n with properties := n.properties.upsert key v } }

/-- Records an edge, and its number under its pair. -/
def recordEdge (e : Edge) (g : Graph) : Graph :=
  let record (pairs : PairIndex) : PairIndex :=
    pairs.alter (e.src.toNat, e.dst.toNat) fun ids => some (ids.getD [] ++ [e.id])
  { g with
    edges := g.edges.push (some e)
    relations := g.relations.modify e.relation.toNat fun r => { r with pairs := record r.pairs } }

/-- Adds an edge. There may be others between the same nodes. -/
def createEdge (src dst : NodeId) (relation : RelationId) : Metered Graph EdgeId := do
  let g ← subject
  if g.nodes.size ≤ src.toNat ∨ g.nodes.size ≤ dst.toNat then throw (.notFound .node)
  if g.relations.size ≤ relation.toNat then throw (.notFound .relation)
  discard (onRelation relation.toNat false (Matrix.setElement (.bool true) src.toNat dst.toNat))
  discard (onRelation relation.toNat true (Matrix.setElement (.bool true) dst.toNat src.toNat))
  let id := EdgeId.ofNat g.edges.size
  update (recordEdge { id, src, dst, relation })
  return id

/-- Forgets an edge in the edge list. -/
def forgetEdge (id : EdgeId) (g : Graph) : Graph :=
  { g with edges := g.edges.setIfInBounds id.toNat none }

/-- The other edges of an edge's pair; none when the pair is not recorded. -/
def siblings (g : Graph) (e : Edge) : Option (List EdgeId) :=
  (g.relations.getD e.relation.toNat default).pairs[(e.src.toNat, e.dst.toNat)]?.map
    (·.filter (· ≠ e.id))

/-- Sets the recorded edges of an edge's pair; a pair without edges is not recorded. -/
def recordPair (e : Edge) (ids : List EdgeId) (g : Graph) : Graph :=
  let pair := (e.src.toNat, e.dst.toNat)
  let record (pairs : PairIndex) : PairIndex :=
    if ids.isEmpty then pairs.erase pair else pairs.insert pair ids
  { g with
    relations := g.relations.modify e.relation.toNat fun r => { r with pairs := record r.pairs } }

/-- Deletes an edge; false when there is none. The matrix entries go with the last edge of the
pair. -/
def deleteEdge (id : EdgeId) : Metered Graph Bool := do
  match (← subject).edge? id with
  | none => return false
  | some e => do
    update (forgetEdge id)
    let g ← subject
    if g.relations.size ≤ e.relation.toNat then throw (.contractViolation .unknownEdgeRelation)
    match g.siblings e with
    | none => pure ()
    | some ids => do
      update (recordPair e ids)
      if ids.isEmpty then
        discard (onRelation e.relation.toNat false (Matrix.remove e.src.toNat e.dst.toNat))
        discard (onRelation e.relation.toNat true (Matrix.remove e.dst.toNat e.src.toNat))
    return true

end Graph

end Adjacency
