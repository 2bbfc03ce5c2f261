import Adjacency.Graph.Update
import Adjacency.Query.Plan
import Adjacency.Random

/-!
# A random population and its oldest acquaintances

A population is a graph of persons, each with an age and a name, who each know a fixed number of
persons drawn at random, possibly the same one twice or themselves.

* `Population.draws`: all ages in the order of the persons, then all acquaintances likewise.
* `Population.register`, `Population.settle`: the graph, its names first and then the persons.
* `Population.oldestKnown`: who knows whom, by the age of the one known, oldest first.
-/

namespace Adjacency

/-- The size of a population and the seed that it is drawn from. -/
structure Population where
  nodes : Nat := 1000
  /-- The acquaintances of each person. -/
  degree : Nat := 4
  seed : Nat := 7
  deriving Inhabited, DecidableEq

namespace Population

/-- What is drawn: an age for every person, and the acquaintances, `degree` for every person in
turn. -/
structure Draws where
  ages : Array Nat
  known : Array Nat

/-- Ages lie between 18 and 89. -/
def youngest : Nat := 18

def draws (p : Population) : Draws :=
  let (ages, g) := (Generator.ofSeed (.ofNat p.seed)).manyBelow 72 p.nodes
  let (known, _) := g.manyBelow p.nodes (p.nodes * p.degree)
  ⟨ages.map (· + youngest), known⟩

/-- The label and the relation of a population's graph. -/
structure Terms where
  person : LabelId
  knows : RelationId

/-- Registers the label and the relation. -/
def register : Metered Graph Terms := do
  return { person := ← Graph.addLabel "Person", knows := ← Graph.addRelation "knows" }

/-- The properties of the `k`-th person. -/
def properties (k age : Nat) : List (String × Value) :=
  [("age", .int (.ofNat age)), ("name", .string ("person-" ++ toString k))]

/-- Adds the persons, then the acquaintances, and commits. -/
def settle (degree : Nat) (t : Terms) (d : Draws) : Metered Graph Unit := do
  d.ages.toList.zipIdx.forM fun (age, k) =>
    discard (Graph.createNode [t.person] (properties k age))
  d.known.toList.zipIdx.forM fun (other, k) =>
    discard (Graph.createEdge (.ofNat (k / degree)) (.ofNat other) t.knows)
  Graph.sync

/-- The query for the oldest acquaintances: a person in slot 0, one that the person knows in slot 1,
with age and name in slots 2 and 3. -/
def oldestKnown (t : Terms) (limit : Nat) : OperatorTree :=
  let known := .traverse (.scan 0 (some t.person)) { expr := .relation t.knows, src := 0, dst := 1 }
  let described := .project (.project known 1 "age" 2) 1 "name" 3
  .skipLimit (.sort described [⟨2, .descending⟩, ⟨3, .ascending⟩] (some (0, limit))) 0 (some limit)

end Population

end Adjacency
