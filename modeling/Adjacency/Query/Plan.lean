import Adjacency.Query.Stream
import Adjacency.Query.Sort
import Adjacency.Query.Traverse

/-!
# Operator trees and plans

An `OperatorTree` is a query's shape; its states and its record source are given by recursion on it. A
plan is a tree with options and the state of its latest run.

* `OperatorTree.source`: the records of a tree.
* `Operator`: a tree with the states of its operators, put together from the leaves up.
* `Operator.clone`, `Operator.clone_eq`: an operator that is not initialised, copied out of one that may have
  run; nothing of the run is in it.
* `Plan.execute`: a run from the beginning to the end or to a drain.
* `Plan.replicate`: an independent plan over a copy of the root.
-/

namespace Adjacency

/-- A tree of operators. -/
inductive OperatorTree
  | values (records : List Record)
  | scan (slot : Nat) (label : Option LabelId)
  | project (child : OperatorTree) (node : Nat) (property : String) (out : Nat)
  | skipLimit (child : OperatorTree) (skip : Nat) (limit : Option Nat)
  | sort (child : OperatorTree) (keys : List SortKey) (bound : Option (Nat × Nat))
  | traverse (child : OperatorTree) (pattern : Pattern)
  | drainAfter (child : OperatorTree) (n : Nat)
  deriving Inhabited

namespace OperatorTree

/-- The name of the operator at the root. -/
def name : OperatorTree → String
  | .values _ => "Values"
  | .scan .. => "NodeScan"
  | .project .. => "Project"
  | .skipLimit .. => "SkipLimit"
  | .sort .. => "Sort"
  | .traverse .. => "CondTraverse"
  | .drainAfter .. => "DrainAfter"

/-- The states of a tree. -/
def State : OperatorTree → Type
  | .values _ => List Record
  | .scan .. => Option (List NodeId)
  | .project child .. => child.State
  | .skipLimit child .. => Source.SkipState child.State
  | .sort child .. => SortState child.State
  | .traverse child _ => child.State × Traversal
  | .drainAfter child _ => child.State × Nat

/-- The record source of a tree. -/
def source : (t : OperatorTree) → Source t.State
  | .values records => .values records
  | .scan slot label => .scan slot label
  | .project child node property out => child.source.project node property out
  | .skipLimit child skip limit => child.source.skipLimit skip limit
  | .sort child keys bound => child.source.sort keys bound
  | .traverse child pattern => child.source.traverse pattern
  | .drainAfter child n => child.source.drainAfter n

end OperatorTree

/-! ## Operators -/

/-- An operator: its tree, and the states of all operators in it. -/
structure Operator where
  tree : OperatorTree
  state : tree.State

namespace Operator

/-- An operator of which nothing has been asked. -/
def fresh (tree : OperatorTree) : Operator := ⟨tree, tree.source.start⟩

/-- Delivers the given records. -/
def values (records : List Record) : Operator := ⟨.values records, records⟩

/-- Binds every node, or every node with a label, at a slot. -/
def scan (slot : Nat) (label : Option LabelId) : Operator := ⟨.scan slot label, none⟩

/-- Adds a node property to the records of a child. -/
def project (child : Operator) (node : Nat) (property : String) (out : Nat) : Operator :=
  ⟨.project child.tree node property out, child.state⟩

/-- Passes over the first records of a child and stops after as many as are wanted. -/
def skipLimit (child : Operator) (skip : Nat) (limit : Option Nat) : Operator :=
  ⟨.skipLimit child.tree skip limit, { child := child.state }⟩

/-- Orders the records of a child, of which it keeps as many as the bound asks for. -/
def sort (child : Operator) (keys : List SortKey) (bound : Option (Nat × Nat)) : Operator :=
  ⟨.sort child.tree keys bound, { child := child.state }⟩

/-- Expands the records of a child along a pattern. -/
def traverse (child : Operator) (pattern : Pattern) : Operator :=
  ⟨.traverse child.tree pattern, (child.state, {})⟩

/-- Asks for a drain once a child has delivered `n` records. -/
def drainAfter (child : Operator) (n : Nat) : Operator := ⟨.drainAfter child.tree n, (child.state, 0)⟩

variable (t : OperatorTree)

theorem project_fresh (node : Nat) (property : String) (out : Nat) :
    (fresh t).project node property out = fresh (.project t node property out) := rfl

theorem skipLimit_fresh (skip : Nat) (limit : Option Nat) :
    (fresh t).skipLimit skip limit = fresh (.skipLimit t skip limit) := rfl

theorem sort_fresh (keys : List SortKey) (bound : Option (Nat × Nat)) :
    (fresh t).sort keys bound = fresh (.sort t keys bound) := rfl

theorem traverse_fresh (pattern : Pattern) : (fresh t).traverse pattern = fresh (.traverse t pattern) := rfl

theorem drainAfter_fresh (n : Nat) : (fresh t).drainAfter n = fresh (.drainAfter t n) := rfl

end Operator

/-- A copy of the operator at the root in the given states, over a copy of what is below it. Each operator
copies its own parameters; of its state it takes nothing over. -/
def OperatorTree.copy : (t : OperatorTree) → t.State → Operator
  | .values records, _ => .values records
  | .scan slot label, left =>
    let self : Operator := ⟨.scan slot label, left⟩
    { self with state := none }
  | .project child node property out, s => (child.copy s).project node property out
  | .skipLimit child skip limit, s => (child.copy s.child).skipLimit skip limit
  | .sort child keys bound, s =>
    (child.copy s.child).sort keys (bound.map fun (skip, limit) => (skip, limit))
  | .traverse child p, s =>
    (child.copy s.1).traverse
      { expr := p.expr, src := p.src, dst := p.dst, edge := p.edge, batchSize := p.batchSize }
  | .drainAfter child n, s => (child.copy s.1).drainAfter n

namespace Operator

variable {t : OperatorTree} {s : t.State}

theorem copy_project (h : t.copy s = fresh t) (node : Nat) (property : String) (out : Nat) :
    (OperatorTree.project t node property out).copy s = fresh (.project t node property out) := by
  rw [← project_fresh, ← h]
  rfl

theorem copy_skipLimit {s : Source.SkipState t.State} (h : t.copy s.child = fresh t) (skip : Nat)
    (limit : Option Nat) : (OperatorTree.skipLimit t skip limit).copy s = fresh (.skipLimit t skip limit) := by
  rw [← skipLimit_fresh, ← h]
  rfl

theorem copy_sort {s : SortState t.State} (h : t.copy s.child = fresh t) (keys : List SortKey)
    (bound : Option (Nat × Nat)) : (OperatorTree.sort t keys bound).copy s = fresh (.sort t keys bound) := by
  rw [← sort_fresh, ← h]
  cases bound <;> rfl

theorem copy_traverse {s : t.State × Traversal} (h : t.copy s.1 = fresh t) (p : Pattern) :
    (OperatorTree.traverse t p).copy s = fresh (.traverse t p) := by
  rw [← traverse_fresh, ← h]
  rfl

theorem copy_drainAfter {s : t.State × Nat} (h : t.copy s.1 = fresh t) (n : Nat) :
    (OperatorTree.drainAfter t n).copy s = fresh (.drainAfter t n) := by
  rw [← drainAfter_fresh, ← h]
  rfl

/-- **A copy is as if nothing had been asked of the original**, in whatever states it is. -/
theorem copy_eq_fresh (t : OperatorTree) (s : t.State) : t.copy s = fresh t := by
  induction t with
  | values records => rfl
  | scan slot label => rfl
  | project child node property out ih => exact copy_project (ih s) node property out
  | skipLimit child skip limit ih => exact copy_skipLimit (ih s.child) skip limit
  | sort child keys bound ih => exact copy_sort (ih s.child) keys bound
  | traverse child p ih => exact copy_traverse (ih s.1) p
  | drainAfter child n ih => exact copy_drainAfter (ih s.1) n

/-- A copy of an operator and of what is below it. -/
def clone (op : Operator) : Operator := op.tree.copy op.state

theorem clone_eq (op : Operator) : op.clone = fresh op.tree := copy_eq_fresh op.tree op.state

end Operator

/-! ## Plans -/

/-- What a run delivered. -/
structure QueryResult where
  records : List Record
  /-- The run was drained. -/
  timedOut : Bool

/-- A tree, its options, and what its latest run left behind. -/
structure Plan where
  tree : OperatorTree
  options : ExecOptions
  run : Run tree.State
  initialized : Bool := false

namespace Plan

/-- A plan that has not run. -/
def new (tree : OperatorTree) (options : ExecOptions) : Plan :=
  { tree, options, run := ⟨tree.source.start, false⟩ }

/-- A plan over an operator. -/
def ofOperator (root : Operator) (options : ExecOptions) : Plan :=
  { tree := root.tree, options, run := ⟨root.state, false⟩ }

/-- The root operator, as the latest run has left it. -/
def root (p : Plan) : Operator := ⟨p.tree, p.run.state⟩

/-- An independent plan over a copy of the root. -/
def replicate (p : Plan) : Plan := ofOperator p.root.clone p.options

/-- A replica is a plan that has not run, over the same tree. -/
theorem replicate_eq (p : Plan) : p.replicate = new p.tree p.options := by
  rw [replicate, Operator.clone_eq]
  rfl

/-- Asks the plan to stop. -/
def drain (p : Plan) : Plan := { p with run := { p.run with draining := true } }

/-- Makes ready: initialises at the first run, starts over at a later one. -/
def prepareRun (tree : OperatorTree) (options : ExecOptions) (initialized : Bool) :
    Metered tree.State Unit :=
  if initialized then tree.source.reset else tree.source.init options

/-- Reads all records until none is left or the drain flag is up. -/
def readAll (tree : OperatorTree) (g : Graph) : Step (tree.State × Array Record) Unit :=
  tree.source.pull g (fun _ draining => !draining) Array.push

/-- Runs the plan from the beginning. The plan counts as initialised once that has succeeded. -/
def execute (g : Graph) : Metered Plan QueryResult := fun s =>
  match prepareRun s.1.tree s.1.options s.1.initialized (s.1.run.state, s.2) with
  | .error e t => .error e ({ s.1 with run := ⟨t.1, false⟩ }, t.2)
  | .ok _ t =>
    match readAll s.1.tree g (⟨(t.1, #[]), false⟩, t.2) with
    | .error e u =>
      .error e ({ s.1 with run := ⟨u.1.state.1, u.1.draining⟩, initialized := true }, u.2)
    | .ok _ u =>
      .ok ⟨u.1.state.2.toList, u.1.draining⟩
        ({ s.1 with run := ⟨u.1.state.1, u.1.draining⟩, initialized := true }, u.2)

end Plan

end Adjacency
