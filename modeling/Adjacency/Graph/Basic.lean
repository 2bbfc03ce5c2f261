import Std.Data.TreeMap
import Adjacency.Matrix.Product
import Adjacency.Record

/-!
# Property graphs over matrices

A graph keeps its nodes and edges, one boolean adjacency matrix per relation together with its
transpose, and one diagonal matrix per label. All matrices are square of the same dimension, which
grows in blocks.

* `Graph.edgesBetween`: the edges from one node to another, through the pair index.
* `Graph.nodeIds`: the nodes, or those with a label, ascending.
* `Graph.relationMatrix`, `Graph.labelMatrix`: what a query multiplies.
-/

namespace Adjacency

/-- Tuning of a graph. -/
structure GraphOptions where
  /-- Matrices grow in multiples of this many nodes. -/
  nodeBlock : Nat := 1024
  /-- Options of every relation and label matrix. -/
  matrix : MatrixOptions := {}
  deriving Inhabited

/-- Sets the growth block, which is at least one. -/
def GraphOptions.withNodeBlock (o : GraphOptions) (block : Nat) : GraphOptions :=
  { o with nodeBlock := max block 1 }

/-- Properties by key, in the order of the keys. -/
abbrev Properties := List (String × Value)

namespace Properties

/-- Sets one property. -/
def upsert (key : String) (v : Value) : Properties → Properties
  | [] => [(key, v)]
  | (k, w) :: rest =>
    if key = k then (key, v) :: rest
    else if key < k then (key, v) :: (k, w) :: rest
    else (k, w) :: upsert key v rest

/-- Properties from a list; of several values for a key the last counts. -/
def ofList (ps : List (String × Value)) : Properties :=
  ps.foldl (fun acc p => upsert p.1 p.2 acc) []

end Properties

/-- A stored node. -/
structure Node where
  labels : List LabelId := []
  properties : Properties := []
  deriving Inhabited

/-- A property, null when missing. -/
def Node.property (n : Node) (key : String) : Value := (n.properties.lookup key).getD .null

/-- The edges from one node to another, oldest first, by source and destination. -/
abbrev PairIndex := Std.TreeMap (Nat × Nat) (List EdgeId) fun a b => lexOrd.compare a b

/-- A relation: its adjacency matrix, the transpose, and the edges of every pair. -/
structure Relation where
  name : String
  matrix : Matrix
  transposed : Matrix
  pairs : PairIndex := ∅
  deriving Inhabited

/-- A label and its diagonal matrix. -/
structure Label where
  name : String
  matrix : Matrix
  deriving Inhabited

/-- A property graph. The edge with number `k` is kept at place `k`; a deleted edge leaves its
place empty, so numbers are never used again. -/
structure Graph where
  options : GraphOptions
  /-- The dimension of every matrix. -/
  dim : Nat
  nodes : Array Node := #[]
  labels : Array Label := #[]
  relations : Array Relation := #[]
  edges : Array (Option Edge) := #[]
  deriving Inhabited

namespace Graph

/-- A graph without nodes, with room for one block. -/
def new (options : GraphOptions) : Graph :=
  let options := options.withNodeBlock options.nodeBlock
  { options, dim := options.nodeBlock }

variable (g : Graph)

def nodeCount : Nat := g.nodes.size

def edgeCount : Nat := g.edges.toList.countP Option.isSome

def node? (id : NodeId) : Option Node := g.nodes[id.toNat]?

def edge? (id : EdgeId) : Option Edge := (g.edges[id.toNat]?).join

/-- The label registered under a name. -/
def labelId? (name : String) : Option LabelId :=
  (g.labels.findIdx? fun l => l.name == name).map .ofNat

/-- The relation registered under a name. -/
def relationId? (name : String) : Option RelationId :=
  (g.relations.findIdx? fun r => r.name == name).map .ofNat

/-- The adjacency matrix of a relation, or its transpose. -/
def relationMatrix (id : RelationId) (transposed : Bool) : Except GraphError Matrix :=
  match g.relations[id.toNat]? with
  | some r => .ok (if transposed then r.transposed else r.matrix)
  | none => .error (.notFound .relation)

/-- The diagonal matrix of a label. -/
def labelMatrix (id : LabelId) : Except GraphError Matrix :=
  match g.labels[id.toNat]? with
  | some l => .ok l.matrix
  | none => .error (.notFound .label)

/-- All nodes, or those that carry a label, ascending. -/
def nodeIds (label : Option LabelId) : List NodeId :=
  g.nodes.toList.zipIdx.filterMap fun (n, k) =>
    match label with
    | none => some (.ofNat k)
    | some l => if n.labels.contains l then some (.ofNat k) else none

/-- The edges from `src` to `dst` in the given relations, or in any when none is given: by
relation, then in the order of their making. -/
def edgesBetween (src dst : NodeId) (relations : List RelationId) : List Edge :=
  g.relations.toList.zipIdx.flatMap fun (r, k) =>
    if relations.isEmpty || relations.contains (.ofNat k) then
      (r.pairs.getD (src.toNat, dst.toNat) []).filterMap g.edge?
    else []

end Graph

end Adjacency
