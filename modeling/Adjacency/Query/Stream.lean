import Adjacency.Query.Source

/-!
# Sources that pass records through

Fixed records, node scans, property projection, skip and limit, and a source that asks for a drain.
Only `values` and `scan` look at the drain flag; the others dry up with their child.
-/

namespace Adjacency.Source

variable {σ : Type}

/-- A fixed list of records. The state is what is left of it. -/
def values (records : List Record) : Source (List Record) where
  start := records
  init _ := Metered.put records
  reset := Metered.put records
  next _ s :=
    if s.1.draining then .ok none s
    else
      match s.1.state with
      | [] => .ok none s
      | r :: rest => .ok (some r) (Step.onto (fun _ => rest) s)
  Rank := Nat
  below := (· < ·)
  below_trans := Nat.lt_trans
  below_wellFounded := Nat.lt_wfRel.wf
  rank _ rest := rest.length
  next_some := by
    intro g s r t h
    split at h
    · cases h
    · split at h
      · cases h
      · next heq => cases h; simp [Step.onto, heq]
  next_none := by
    intro g s t h
    split at h
    · cases h; exact .inl rfl
    · split at h
      · cases h; exact .inl rfl
      · cases h

/-- Every node, or every node with a label, bound at a slot. The nodes are listed at the first call
of a run; the state is what is left of them. -/
def scan (slot : Nat) (label : Option LabelId) : Source (Option (List NodeId)) where
  start := none
  init _ := Metered.put none
  reset := Metered.put none
  next g s :=
    if s.1.draining then .ok none s
    else
      match s.1.state.getD (g.nodeIds label) with
      | [] => .ok none (Step.onto (fun _ => some []) s)
      | id :: rest => .ok (some (.ofNode slot id)) (Step.onto (fun _ => some rest) s)
  Rank := Nat
  below := (· < ·)
  below_trans := Nat.lt_trans
  below_wellFounded := Nat.lt_wfRel.wf
  rank g left := (left.getD (g.nodeIds label)).length
  next_some := by
    intro g s r t h
    split at h
    · cases h
    · split at h
      · cases h
      · next heq => cases h; simp [Step.onto, heq]
  next_none := by
    intro g s t h
    split at h
    · cases h; exact .inl rfl
    · split at h
      · next heq => cases h; left; simp [Step.onto, heq]
      · cases h

/-- Copies a property of the node at `node` into the slot `out`; null where there is no such node
or property. -/
def projected (g : Graph) (node : Nat) (property : String) (out : Nat) (r : Record) : Record :=
  let v := ((r.node? node).bind g.node?).map (·.property property)
  r.set out (.scalar (v.getD .null))

/-- Adds a node property to every record. -/
def project (S : Source σ) (node : Nat) (property : String) (out : Nat) : Source σ where
  start := S.start
  init := S.init
  reset := S.reset
  next g s :=
    match S.next g s with
    | .ok (some r) t => .ok (some (projected g node property out r)) t
    | .ok none t => .ok none t
    | .error e t => .error e t
  Rank := S.Rank
  below := S.below
  below_trans := S.below_trans
  below_wellFounded := S.below_wellFounded
  rank := S.rank
  next_some := by
    intro g s r t h
    split at h
    · next hn => cases h; exact S.next_some hn
    · cases h
    · cases h
  next_none := by
    intro g s t h
    split at h
    · cases h
    · next hn => cases h; exact S.next_none hn
    · cases h

/-- The state of a skip and limit: the child's, and how many records were passed over and
delivered. -/
structure SkipState (σ : Type) where
  child : σ
  skipped : Nat := 0
  emitted : Nat := 0

/-- The next record behind the first `skip`. The second part of the state counts those passed
over. -/
def nextBehind (S : Source σ) (g : Graph) (skip : Nat) : Step (σ × Nat) (Option Record) := fun s =>
  match S.pull g (fun k _ => decide (k < skip)) (fun k _ => k + 1) s with
  | .error e t => .error e t
  | .ok () t =>
    if t.1.state.2 < skip then .ok none t
    else
      match S.next g (Step.onto Prod.fst t) with
      | .error e u => .error e (Step.onto (·, t.1.state.2) u)
      | .ok r u => .ok r (Step.onto (·, t.1.state.2) u)

/-- A record found behind the first ones was delivered by the child. -/
theorem nextBehind_some (S : Source σ) {g : Graph} {skip : Nat} {s t : Run (σ × Nat) × CallCounts}
    {r : Record} (h : S.nextBehind g skip s = .ok (some r) t) :
    S.Below g t.1.state.1 s.1.state.1 := by
  unfold nextBehind at h
  split at h
  · cases h
  · next hp =>
    split at h
    · cases h
    · split at h
      · cases h
      · next hn =>
        cases h
        rcases S.pull_ok hp with ⟨_, h₁ | h₁⟩ | h₁
        · have h₂ := S.next_some hn
          simp only [Step.onto, Below] at h₁ h₂ ⊢
          rwa [h₁] at h₂
        · exact S.below_trans (S.next_some hn) h₁
        · exact S.below_trans (S.next_some hn) h₁

/-- Where none is found, the child may still have delivered some that were passed over. -/
theorem nextBehind_none (S : Source σ) {g : Graph} {skip : Nat} {s t : Run (σ × Nat) × CallCounts}
    (h : S.nextBehind g skip s = .ok none t) : S.AtMost g t.1.state.1 s.1.state.1 := by
  unfold nextBehind at h
  split at h
  · cases h
  · next u hp =>
    have h₁ : S.AtMost g u.1.state.1 s.1.state.1 := by
      rcases S.pull_ok hp with ⟨_, h₁⟩ | h₁
      · exact h₁
      · exact .inr h₁
    split at h
    · cases h; exact h₁
    · split at h
      · cases h
      · next hn =>
        cases h
        rcases h₁ with h₁ | h₁
        · have h₂ := S.next_none hn
          simp only [Step.onto, AtMost, Below] at h₁ h₂ ⊢
          rwa [h₁] at h₂
        · exact .inr (Below.trans_atMost (S.next_none hn) h₁)

/-- Passes over the first `skip` records and stops after `limit` more. -/
def skipLimit (S : Source σ) (skip : Nat) (limit : Option Nat) : Source (SkipState σ) where
  start := { child := S.start }
  init options := do
    Metered.update fun s => { s with skipped := 0, emitted := 0 }
    Metered.within SkipState.child (fun c s => { s with child := c }) (S.init options)
  reset := do
    Metered.update fun s => { s with skipped := 0, emitted := 0 }
    Metered.within SkipState.child (fun c s => { s with child := c }) S.reset
  next g s :=
    if limit.any fun n => decide (n ≤ s.1.state.emitted) then .ok none s
    else
      match S.nextBehind g skip (Step.onto (fun st => (st.child, st.skipped)) s) with
      | .error e t => .error e (Step.onto (fun p => ⟨p.1, p.2, s.1.state.emitted⟩) t)
      | .ok none t => .ok none (Step.onto (fun p => ⟨p.1, p.2, s.1.state.emitted⟩) t)
      | .ok (some r) t => .ok (some r) (Step.onto (fun p => ⟨p.1, p.2, s.1.state.emitted + 1⟩) t)
  Rank := S.Rank
  below := S.below
  below_trans := S.below_trans
  below_wellFounded := S.below_wellFounded
  rank g st := S.rank g st.child
  next_some := by
    intro g s r t h
    split at h
    · cases h
    · split at h
      · cases h
      · cases h
      · next hn => cases h; exact S.nextBehind_some hn
  next_none := by
    intro g s t h
    split at h
    · cases h; exact .inl rfl
    · split at h
      · cases h
      · next hn => cases h; exact S.nextBehind_none hn
      · cases h

/-- Raises the drain flag if told to. -/
def flagged (raise : Bool) (s : Run σ × CallCounts) : Run σ × CallCounts :=
  ({ s.1 with draining := s.1.draining || raise }, s.2)

/-- Asks the run to stop once it has delivered `n` records. The flag itself does not stop it. -/
def drainAfter (S : Source σ) (n : Nat) : Source (σ × Nat) where
  start := (S.start, 0)
  init options := do
    Metered.update fun s => (s.1, 0)
    Metered.within Prod.fst (fun c s => (c, s.2)) (S.init options)
  reset := do
    Metered.update fun s => (s.1, 0)
    Metered.within Prod.fst (fun c s => (c, s.2)) S.reset
  next g s :=
    match S.next g (Step.onto Prod.fst (flagged (n == 0) s)) with
    | .error e t => .error e (Step.onto (·, s.1.state.2) t)
    | .ok none t => .ok none (Step.onto (·, s.1.state.2) t)
    | .ok (some r) t =>
      .ok (some r) (flagged (s.1.state.2 + 1 == n) (Step.onto (·, s.1.state.2 + 1) t))
  Rank := S.Rank
  below := S.below
  below_trans := S.below_trans
  below_wellFounded := S.below_wellFounded
  rank g st := S.rank g st.1
  next_some := by
    intro g s r t h
    split at h
    · cases h
    · cases h
    · next hn => cases h; exact S.next_some hn
  next_none := by
    intro g s t h
    split at h
    · cases h
    · next hn => cases h; exact S.next_none hn
    · cases h

end Adjacency.Source
