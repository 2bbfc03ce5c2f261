import Adjacency.Error

/-!
# Metered actions

Matrices, graphs and operators change in place, may fail part-way, and count the costly calls they
complete. A `Metered σ α` is such an action on a `σ`: when it fails, what it had changed and counted
up to that point stays.

* `CallCounts`: how many calls of each kind were completed.
* `Metered.within`: an action on a part, seen as an action on the whole.
* `Metered.settle`: an action on a value of its own, dropped when the action fails.
* `Metered.reserve`: memory is asked for before it is filled.
-/

namespace Adjacency

/-- A kind of call that is counted. -/
inductive Call
  | commit
  | product
  | evaluation
  | filter
  | sort
  deriving DecidableEq

/-- Completed calls, by kind. -/
structure CallCounts where
  commit : Nat := 0
  product : Nat := 0
  evaluation : Nat := 0
  filter : Nat := 0
  sort : Nat := 0
  deriving DecidableEq, Inhabited

/-- One more call of a kind. -/
def CallCounts.bump (n : CallCounts) : Call → CallCounts
  | .commit => { n with commit := n.commit + 1 }
  | .product => { n with product := n.product + 1 }
  | .evaluation => { n with evaluation := n.evaluation + 1 }
  | .filter => { n with filter := n.filter + 1 }
  | .sort => { n with sort := n.sort + 1 }

/-- An action on a `σ` that may fail and that counts the calls it completes. -/
abbrev Metered (σ : Type) := EStateM GraphError (σ × CallCounts)

/-- A single reservation of this many elements or more is refused. -/
def reservationLimit : Nat := Nat.pow 2 59

namespace Metered

variable {σ τ α : Type}

/-- The value acted on. -/
def subject : Metered σ σ := fun s => .ok s.1 s

/-- Replaces the value acted on. -/
def put (v : σ) : Metered σ Unit := fun s => .ok () (v, s.2)

/-- Changes the value acted on. -/
def update (f : σ → σ) : Metered σ Unit := fun s => .ok () (f s.1, s.2)

/-- Counts one completed call. -/
def tally (c : Call) : Metered σ Unit := fun s => .ok () (s.1, s.2.bump c)

/-- The outcome of a check. -/
def require : Except GraphError α → Metered σ α
  | .ok v => pure v
  | .error e => throw e

/-- Asks for memory for `n` elements. -/
def reserve (n : Nat) (site : MemorySite) : Metered σ Unit :=
  if reservationLimit ≤ n then throw (.outOfMemory site) else pure ()

/-- Acts on a part of the value. -/
def within (get : σ → τ) (set : τ → σ → σ) (act : Metered τ α) : Metered σ α := fun s =>
  match act (get s.1, s.2) with
  | .ok a t => .ok a (set t.1 s.1, t.2)
  | .error e t => .error e (set t.1 s.1, t.2)

/-- Acts on a part that is taken out of the value meanwhile, so that it is changed where it
stands. -/
def withinTaken [Inhabited τ] (get : σ → τ) (set : τ → σ → σ) (act : Metered τ α) :
    Metered σ α := fun s =>
  let part := get s.1
  within (fun _ => part) set act (set default s.1, s.2)

/-- Acts on a value of its own; only what became of it matters. -/
def settle (start : τ) (act : Metered τ Unit) : Metered σ τ := fun s =>
  match act (start, s.2) with
  | .ok _ t => .ok t.1 (s.1, t.2)
  | .error e t => .error e (s.1, t.2)

end Metered

end Adjacency
