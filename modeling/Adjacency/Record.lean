import Adjacency.Identifier
import Adjacency.Value

/-!
# Records

A record is a row of slots, each unset or bound to a node, an edge or a value.

* `Record.get`: a slot beyond the row reads as unset.
* `Record.value`: what an ordering sees in a slot; a node or an edge counts as its number.
* `compareRecords`: the order by a list of sort keys.
-/

namespace Adjacency

/-- The content of a slot. -/
inductive Entry
  | unset
  | node (id : NodeId)
  | edge (e : Edge)
  | scalar (v : Value)
  deriving Inhabited

/-- Equal content; values are compared by their order. -/
def Entry.same : Entry → Entry → Bool
  | .unset, .unset => true
  | .node a, .node b => a == b
  | .edge a, .edge b => a == b
  | .scalar a, .scalar b => a.same b
  | _, _ => false

/-- A row of slots. -/
structure Record where
  entries : Array Entry := #[]
  deriving Inhabited

namespace Record

/-- No slots. -/
def empty : Record := {}

def size (r : Record) : Nat := r.entries.size

def isEmpty (r : Record) : Bool := r.entries.isEmpty

def get (r : Record) (slot : Nat) : Entry := r.entries.getD slot .unset

/-- Binds a slot; slots before it that were missing become unset ones. -/
def set (r : Record) (slot : Nat) (e : Entry) : Record :=
  let row := r.entries ++ Array.replicate (slot + 1 - r.entries.size) .unset
  ⟨row.setIfInBounds slot e⟩

/-- A record with one node. -/
def ofNode (slot : Nat) (id : NodeId) : Record := empty.set slot (.node id)

def node? (r : Record) (slot : Nat) : Option NodeId :=
  match r.get slot with
  | .node id => some id
  | _ => none

def edge? (r : Record) (slot : Nat) : Option Edge :=
  match r.get slot with
  | .edge e => some e
  | _ => none

/-- The value that a slot has in comparisons. The number of a node or an edge is read as a signed
word. -/
def value (r : Record) (slot : Nat) : Value :=
  match r.get slot with
  | .unset => .null
  | .node id => .int id.word.toInt64
  | .edge e => .int e.id.word.toInt64
  | .scalar v => v

/-- The same slots with the same contents. -/
def same (a b : Record) : Bool :=
  a.size == b.size && (a.entries.toList.zip b.entries.toList).all fun (x, y) => x.same y

end Record

inductive SortDirection
  | ascending
  | descending
  deriving DecidableEq, Inhabited

/-- A slot to order by. -/
structure SortKey where
  slot : Nat
  direction : SortDirection := .ascending
  deriving DecidableEq, Inhabited

/-- The order by one key. -/
def SortKey.order (k : SortKey) (a b : Record) : Ordering :=
  let o := (a.value k.slot).order (b.value k.slot)
  match k.direction with
  | .ascending => o
  | .descending => o.swap

/-- The order by a list of keys: the first that tells the records apart decides. -/
def compareRecords : List SortKey → Record → Record → Ordering
  | [], _, _ => .eq
  | k :: ks, a, b => (k.order a b).then (compareRecords ks a b)

end Adjacency
