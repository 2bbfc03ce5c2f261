/-!
# Identifiers

Nodes and edges are numbered by 64-bit words, relations and labels by 32-bit words. A node's number
is also its row and column in every matrix.
-/

namespace Adjacency

structure NodeId where
  word : UInt64
  deriving DecidableEq, Inhabited, Hashable

structure EdgeId where
  word : UInt64
  deriving DecidableEq, Inhabited, Hashable

structure RelationId where
  word : UInt32
  deriving DecidableEq, Inhabited

structure LabelId where
  word : UInt32
  deriving DecidableEq, Inhabited

namespace NodeId

def toNat (n : NodeId) : Nat := n.word.toNat

def ofNat (n : Nat) : NodeId := ⟨.ofNat n⟩

end NodeId

namespace EdgeId

def toNat (e : EdgeId) : Nat := e.word.toNat

def ofNat (n : Nat) : EdgeId := ⟨.ofNat n⟩

end EdgeId

namespace RelationId

def toNat (r : RelationId) : Nat := r.word.toNat

def ofNat (n : Nat) : RelationId := ⟨.ofNat n⟩

end RelationId

namespace LabelId

def toNat (l : LabelId) : Nat := l.word.toNat

def ofNat (n : Nat) : LabelId := ⟨.ofNat n⟩

end LabelId

/-- A stored edge. -/
structure Edge where
  id : EdgeId
  src : NodeId
  dst : NodeId
  relation : RelationId
  deriving DecidableEq, Inhabited

end Adjacency
