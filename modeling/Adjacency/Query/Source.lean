import Adjacency.Expression.Evaluate

/-!
# Record sources

Operators pull records one at a time. A `Source σ` is an operator with states `σ`; it comes with a
well-founded rank that every delivered record lowers, so reading a source to its end stops.

* `Source.next`: the next record, none when exhausted or drained.
* `Source.next_some`, `Source.next_none`: a delivery lowers the rank, and running dry never raises it.
* `Source.pull`: adds records to an accumulator for as long as more are wanted.
* `Source.pull_ok`: a pull that added anything lowered the rank.
-/

namespace Adjacency

/-- A state and the drain flag of the run that it belongs to. -/
structure Run (σ : Type) where
  state : σ
  /-- The run has been asked to stop. -/
  draining : Bool := false

/-- A step of a run. -/
abbrev Step (σ : Type) := Metered (Run σ)

/-- How a plan is run. -/
structure ExecOptions where
  /-- Records per traversal batch. -/
  batchSize : Nat := 16
  /-- Milliseconds after which the plan is drained. -/
  timeout : Option Nat := none
  deriving Inhabited, DecidableEq

namespace Step

variable {σ τ α : Type}

/-- The state of a run replaced, its flag and the counts kept. -/
def onto (f : σ → τ) (s : Run σ × CallCounts) : Run τ × CallCounts :=
  (⟨f s.1.state, s.1.draining⟩, s.2)

/-- An action on the state alone. -/
def onState (act : Metered σ α) : Step σ α :=
  Metered.within Run.state (fun v r => { r with state := v }) act

end Step

/-- An operator with states `σ` over a graph. -/
structure Source (σ : Type) where
  /-- The state before initialisation. -/
  start : σ
  /-- Makes ready for a run. -/
  init : ExecOptions → Metered σ Unit
  /-- The next record; none when exhausted. -/
  next : Graph → Step σ (Option Record)
  /-- Starts over. -/
  reset : Metered σ Unit
  /-- What deliveries use up. -/
  Rank : Type
  below : Rank → Rank → Prop
  below_trans : ∀ {a b c}, below a b → below b c → below a c
  below_wellFounded : WellFounded below
  rank : Graph → σ → Rank
  next_some : ∀ {g s r t}, next g s = .ok (some r) t → below (rank g t.1.state) (rank g s.1.state)
  next_none : ∀ {g s t}, next g s = .ok none t →
    rank g t.1.state = rank g s.1.state ∨ below (rank g t.1.state) (rank g s.1.state)

namespace Source

variable {σ β : Type}

/-- Records were delivered on the way to the first state from the second. -/
def Below (S : Source σ) (g : Graph) (t s : σ) : Prop := S.below (S.rank g t) (S.rank g s)

/-- No more is left in the first state than in the second. -/
def AtMost (S : Source σ) (g : Graph) (t s : σ) : Prop :=
  S.rank g t = S.rank g s ∨ S.Below g t s

/-- What is below a state is also below what has no less left. -/
theorem Below.trans_atMost {S : Source σ} {g : Graph} {u t s : σ} (h : S.AtMost g u t)
    (h' : S.Below g t s) : S.Below g u s := by
  rcases h with h | h
  · unfold Below; rw [h]; exact h'
  · exact S.below_trans h h'

/-- No source delivers records without end. -/
theorem below_wf (S : Source σ) (g : Graph) : WellFounded (S.Below g) :=
  InvImage.wf (S.rank g) S.below_wellFounded

/-- Reads records and adds them to an accumulator while more are wanted, which the accumulator and
the drain flag decide before each record. On a failure, what was added stays. -/
def pull (S : Source σ) (g : Graph) (more : β → Bool → Bool) (add : β → Record → β) :
    Step (σ × β) Unit := fun s =>
  if more s.1.state.2 s.1.draining then
    match _h : S.next g (Step.onto Prod.fst s) with
    | .error e t => .error e (Step.onto (·, s.1.state.2) t)
    | .ok none t => .ok () (Step.onto (·, s.1.state.2) t)
    | .ok (some r) t => S.pull g more add (Step.onto (·, add s.1.state.2 r) t)
  else .ok () s
termination_by s => (S.below_wf g).wrap s.1.state.1
decreasing_by exact S.next_some _h

/-- A pull that succeeds leaves no more than there was, and less if it added anything. -/
theorem pull_ok (S : Source σ) {g : Graph} {more : β → Bool → Bool} {add : β → Record → β}
    {s t : Run (σ × β) × CallCounts} (h : S.pull g more add s = .ok () t) :
    t.1.state.2 = s.1.state.2 ∧ S.AtMost g t.1.state.1 s.1.state.1 ∨
      S.Below g t.1.state.1 s.1.state.1 := by
  fun_induction Source.pull S g more add s with
  | case1 => cases h
  | case2 s _ u hn => cases h; exact .inl ⟨rfl, S.next_none hn⟩
  | case3 s _ r u hn ih =>
    refine .inr ?_
    rcases ih h with ⟨_, ih⟩ | ih
    · exact Below.trans_atMost ih (S.next_some hn)
    · exact S.below_trans ih (S.next_some hn)
  | case4 => cases h; exact .inl ⟨rfl, .inl rfl⟩

/-- A lexicographic order of two transitive relations is transitive. -/
theorem lexTrans {α γ : Type} {r : α → α → Prop} {q : γ → γ → Prop}
    (hr : ∀ a b c, r a b → r b c → r a c) (hq : ∀ a b c, q a b → q b c → q a c)
    {a b c : α × γ} (h : Prod.Lex r q a b) (h' : Prod.Lex r q b c) : Prod.Lex r q a c := by
  cases h with
  | left _ _ h =>
    cases h' with
    | left _ _ h' => exact .left _ _ (hr _ _ _ h h')
    | right _ h' => exact .left _ _ h
  | right _ h =>
    cases h' with
    | left _ _ h' => exact .left _ _ h'
    | right _ h' => exact .right _ (hq _ _ _ h h')

end Source

end Adjacency
