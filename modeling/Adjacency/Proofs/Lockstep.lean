import Adjacency.Proofs.Emission
import Adjacency.Proofs.Frame

/-!
# Sources in step

A source is in step along a relation of its states when calls in related states, with the same drain flag
and counts, answer the same and leave related states. An operator is in step along what its child's relation
and its own state give.

* `Source.Alike`, `Source.InStep`: two outcomes that agree; a source whose calls keep a relation.
* `InStep.pull`: reading a source keeps the relation.
* `InStep.project`, `InStep.skipLimit`, `InStep.sort`, `InStep.drainAfter`: the operators that pass records
  on.
* `InStep.traverse`: **traversals whose matrices differ only while they are blank stay in step**.
-/

namespace Adjacency

open Metered

namespace Source

variable {σ τ α β : Type}

/-- The states are related, and flag and counts are the same. -/
structure Paired (R : σ → σ → Prop) (s t : Run σ × CallCounts) : Prop where
  state : R s.1.state t.1.state
  flag : s.1.draining = t.1.draining
  counts : s.2 = t.2

/-- Two outcomes agree: both give the same answer or fail in the same way, and leave related states. -/
inductive Alike (R : σ → σ → Prop) :
    EStateM.Result GraphError (Run σ × CallCounts) α → EStateM.Result GraphError (Run σ × CallCounts) α → Prop
  | ok (a : α) {s t : Run σ × CallCounts} (h : Paired R s t) : Alike R (.ok a s) (.ok a t)
  | error (e : GraphError) {s t : Run σ × CallCounts} (h : Paired R s t) : Alike R (.error e s) (.error e t)

/-- Steps from paired states agree. -/
def Together (R : σ → σ → Prop) (act : Step σ α) : Prop := ∀ s t, Paired R s t → Alike R (act s) (act t)

/-- Calls of the source in related states agree. -/
def InStep (S : Source σ) (R : σ → σ → Prop) : Prop := ∀ g, Together R (S.next g)

/-- The relation and equality beside it. -/
def WithSame (R : σ → σ → Prop) (a b : σ × β) : Prop := R a.1 b.1 ∧ a.2 = b.2

variable {R : σ → σ → Prop} {S : Source σ} {g : Graph}

theorem Paired.onto {Q : τ → τ → Prop} {s t : Run σ × CallCounts} (h : Paired R s t) {f k : σ → τ}
    (hQ : Q (f s.1.state) (k t.1.state)) : Paired Q (Step.onto f s) (Step.onto k t) :=
  ⟨hQ, h.flag, h.counts⟩

/-- From equal states everything is equal. -/
theorem inStep_eq (S : Source σ) : S.InStep Eq := by
  rintro g ⟨⟨s, d⟩, n⟩ ⟨⟨_, _⟩, _⟩ ⟨rfl, rfl, rfl⟩
  have hself : ∀ u : Run σ × CallCounts, Paired Eq u u := fun _ => ⟨rfl, rfl, rfl⟩
  cases S.next g (⟨s, d⟩, n) with
  | ok a u => exact .ok a (hself u)
  | error e u => exact .error e (hself u)

/-- **Reading a source** keeps the relation; the accumulators stay equal. -/
theorem InStep.pull (h : S.InStep R) (more : β → Bool → Bool) (add : β → Record → β) :
    Together (WithSame R) (S.pull g more add) := by
  have hcall : ∀ {s t : Run (σ × β) × CallCounts}, Paired (WithSame R) s t →
      Alike R (S.next g (Step.onto Prod.fst s)) (S.next g (Step.onto Prod.fst t)) :=
    fun hst => h g _ _ (hst.onto hst.state.1)
  have hsame : ∀ {s t : Run (σ × β) × CallCounts}, Paired (WithSame R) s t →
      more t.1.state.2 t.1.draining = more s.1.state.2 s.1.draining :=
    fun hst => by rw [hst.state.2, hst.flag]
  intro s t hst
  -- the first run sets the pace: in each of its cases the second has made the same call
  fun_induction S.pull g more add s generalizing t with
  | case1 s hmore e u hn =>
    -- the call fails, and so does the one beside it
    have hstep := hcall hst
    rw [hn] at hstep
    rw [pull_eq (s := t), hsame hst, if_pos hmore]
    revert hstep
    generalize S.next g (Step.onto Prod.fst t) = y
    rintro (_ | ⟨_, hu⟩)
    exact .error e (hu.onto ⟨hu.state, hst.state.2⟩)
  | case2 s hmore u hn =>
    -- neither has a record left
    have hstep := hcall hst
    rw [hn] at hstep
    rw [pull_eq (s := t), hsame hst, if_pos hmore]
    revert hstep
    generalize S.next g (Step.onto Prod.fst t) = y
    rintro (⟨_, hu⟩ | _)
    exact .ok () (hu.onto ⟨hu.state, hst.state.2⟩)
  | case3 s hmore r u hn ih =>
    -- both add the same record and go on
    have hstep := hcall hst
    rw [hn] at hstep
    rw [pull_eq (s := t), hsame hst, if_pos hmore]
    revert hstep
    generalize S.next g (Step.onto Prod.fst t) = y
    rintro (⟨_, hu⟩ | _)
    have hnext : Paired (WithSame R) _ _ := hu.onto (f := (·, add s.1.state.2 r))
      (k := (·, add t.1.state.2 r)) ⟨hu.state, by rw [hst.state.2]⟩
    exact ih _ hnext
  | case4 s hmore =>
    -- both have enough
    rw [pull_eq (s := t), hsame hst, if_neg hmore]
    exact .ok () hst

/-! ## Operators that pass records on -/

theorem InStep.project (h : S.InStep R) (node : Nat) (property : String) (out : Nat) :
    (S.project node property out).InStep R := by
  intro g s t hst
  simp only [Source.project]
  have hstep := h g s t hst
  revert hstep
  generalize S.next g s = x
  generalize S.next g t = y
  rintro (⟨r, hu⟩ | ⟨e, hu⟩)
  · cases r with
    | none => exact .ok none hu
    | some r => exact .ok _ hu
  · exact .error e hu

theorem InStep.nextBehind (h : S.InStep R) (skip : Nat) :
    Together (WithSame R) (S.nextBehind g skip) := by
  intro s t hst
  unfold Source.nextBehind
  have hpull := h.pull (g := g) (fun k _ => decide (k < skip)) (fun k _ => k + 1) s t hst
  revert hpull
  generalize S.pull g (fun k _ => decide (k < skip)) (fun k _ => k + 1) s = x
  generalize S.pull g (fun k _ => decide (k < skip)) (fun k _ => k + 1) t = y
  rintro (⟨_, hu⟩ | ⟨e, hu⟩)
  · rename_i u v
    dsimp only
    rw [← hu.state.2]
    split
    · exact .ok none hu
    · have hstep := h g _ _ (hu.onto (f := Prod.fst) (k := Prod.fst) hu.state.1)
      revert hstep
      generalize S.next g (Step.onto Prod.fst u) = x
      generalize S.next g (Step.onto Prod.fst v) = y
      rintro (⟨r, hw⟩ | ⟨e, hw⟩)
      · exact .ok r (hw.onto ⟨hw.state, rfl⟩)
      · exact .error e (hw.onto ⟨hw.state, rfl⟩)
  · exact .error e hu

/-- Related children, and the same counts of records. -/
def SameSkip (R : σ → σ → Prop) (a b : SkipState σ) : Prop :=
  R a.child b.child ∧ a.skipped = b.skipped ∧ a.emitted = b.emitted

theorem InStep.skipLimit (h : S.InStep R) (skip : Nat) (limit : Option Nat) :
    (S.skipLimit skip limit).InStep (SameSkip R) := by
  intro g s t hst
  obtain ⟨hchild, hskipped, hemitted⟩ := hst.state
  simp only [Source.skipLimit, ← hemitted]
  split
  · exact .ok none hst
  · have hstep := h.nextBehind (g := g) skip _ _
      (hst.onto (Q := WithSame R) (f := fun st => (st.child, st.skipped))
        (k := fun st => (st.child, st.skipped)) ⟨hchild, hskipped⟩)
    revert hstep
    generalize S.nextBehind g skip (Step.onto (fun st => (st.child, st.skipped)) s) = x
    generalize S.nextBehind g skip (Step.onto (fun st => (st.child, st.skipped)) t) = y
    rintro (⟨r, hu⟩ | ⟨e, hu⟩)
    · cases r with
      | none => exact .ok none (hu.onto ⟨hu.state.1, hu.state.2, rfl⟩)
      | some r => exact .ok (some r) (hu.onto ⟨hu.state.1, hu.state.2, rfl⟩)
    · exact .error e (hu.onto ⟨hu.state.1, hu.state.2, rfl⟩)

/-- Related children, and the same records read and sorted. -/
def SameSort (R : σ → σ → Prop) (a b : SortState σ) : Prop :=
  R a.child b.child ∧ a.intake = b.intake ∧ a.sorted = b.sorted

theorem together_deliverSorted : Together (SameSort R) (deliverSorted (σ := σ)) := by
  intro s t hst
  obtain ⟨hchild, hintake, hsorted⟩ := hst.state
  unfold deliverSorted
  rw [← hsorted]
  split
  · next r rest hs => exact .ok (some r) (hst.onto ⟨hchild, hintake, rfl⟩)
  · exact .ok none hst

theorem InStep.sort (h : S.InStep R) (keys : List SortKey) (bound : Option (Nat × Nat)) :
    (S.sort keys bound).InStep (SameSort R) := by
  intro g s t hst
  obtain ⟨hchild, hintake, hsorted⟩ := hst.state
  simp only [Source.sort, ← hsorted]
  split
  · exact together_deliverSorted s t hst
  · have hpull := h.pull (g := g) (fun _ _ => true) (Intake.absorb keys (sortCapacity bound)) _ _
      (hst.onto (Q := WithSame R) (f := fun st => (st.child, st.intake))
        (k := fun st => (st.child, st.intake)) ⟨hchild, hintake⟩)
    revert hpull
    generalize S.pull g (fun _ _ => true) (Intake.absorb keys (sortCapacity bound))
      (Step.onto (fun st => (st.child, st.intake)) s) = x
    generalize S.pull g (fun _ _ => true) (Intake.absorb keys (sortCapacity bound))
      (Step.onto (fun st => (st.child, st.intake)) t) = y
    rintro (⟨_, hu⟩ | ⟨e, hu⟩)
    · refine together_deliverSorted _ _ ⟨⟨hu.state.1, rfl, ?_⟩, hu.flag, ?_⟩
      · simp only [readThrough, Step.onto, hu.state.2]
      · simp only [readThrough, Step.onto, hu.counts]
    · exact .error e (hu.onto ⟨hu.state.1, hu.state.2, rfl⟩)

theorem Paired.flagged {s t : Run σ × CallCounts} (h : Paired R s t) (raise : Bool) :
    Paired R (flagged raise s) (flagged raise t) :=
  ⟨h.state, congrArg (· || raise) h.flag, h.counts⟩

theorem InStep.drainAfter (h : S.InStep R) (n : Nat) : (S.drainAfter n).InStep (WithSame R) := by
  intro g s t hst
  simp only [Source.drainAfter, ← hst.state.2]
  have hstep := h g _ _ ((hst.flagged (n == 0)).onto (f := Prod.fst) (k := Prod.fst) hst.state.1)
  revert hstep
  generalize S.next g (Step.onto Prod.fst (Source.flagged (n == 0) s)) = x
  generalize S.next g (Step.onto Prod.fst (Source.flagged (n == 0) t)) = y
  rintro (⟨r, hu⟩ | ⟨e, hu⟩)
  · cases r with
    | none => exact .ok none (hu.onto ⟨hu.state, rfl⟩)
    | some r => exact .ok (some r) ((hu.onto ⟨hu.state, rfl⟩).flagged _)
  · exact .error e (hu.onto ⟨hu.state, rfl⟩)

end Source

/-! ## Traversals -/

namespace Traversal

/-- There are no matrices yet, or blank ones. -/
def Fresh (capacity : Nat) (w : Option Workspace) : Prop :=
  ∀ v, w = some v → ∃ m cols, Matrix.withOptions .bool capacity cols .sparseFamily = .ok m ∧ v = ⟨m, m⟩

/-- Initialised traversals that are the same but for matrices that hold nothing. -/
structure Matches (capacity : Nat) (t u : Traversal) : Prop where
  same : u = { t with workspace := u.workspace }
  capacity_eq : t.capacity = capacity
  phase : t.phase ≠ .uninitialized
  blank : ∀ w, t.workspace = some w → w.Blank capacity
  blank' : ∀ w, u.workspace = some w → w.Blank capacity
  workspace : t.workspace = u.workspace ∨
    t.phase ≠ .emitting ∧ Fresh capacity t.workspace ∧ Fresh capacity u.workspace

variable {capacity : Nat} {t u : Traversal} {p : Pattern} {g : Graph} {n : CallCounts}

theorem Matches.eq_of_workspace (h : Matches capacity t u) (hw : t.workspace = u.workspace) : t = u := by
  rw [h.same, ← hw]

/-- A traversal that delivers a result has nothing left to differ in. -/
theorem Matches.eq_of_emitting (h : Matches capacity t u) (hphase : t.phase = .emitting) : t = u :=
  h.eq_of_workspace (h.workspace.resolve_right fun hfresh => hfresh.1 hphase)

theorem Matches.sameCapacity (h : Matches capacity t u) : u.capacity = t.capacity := by rw [h.same]

theorem Matches.samePhase (h : Matches capacity t u) : u.phase = t.phase := by rw [h.same]

theorem Matches.sameBatch (h : Matches capacity t u) : u.batch = t.batch := by rw [h.same]

theorem Matches.sameOwed (h : Matches capacity t u) : u.owed = t.owed := by rw [h.same]

theorem matches_self (hcapacity : t.capacity = capacity) (hphase : t.phase ≠ .uninitialized)
    (hblank : ∀ w, t.workspace = some w → w.Blank capacity) : Matches capacity t t :=
  ⟨rfl, hcapacity, hphase, hblank, hblank, .inl rfl⟩

theorem Matches.of_kept {t' : Traversal} (h : Matches capacity t u) (hkept : t.Kept t') :
    Matches capacity t' t' := by
  have hcapacity := hkept.capacity.trans h.capacity_eq
  refine matches_self hcapacity (hkept.phase h.phase) ?_
  rw [← hcapacity]
  exact hkept.workspace (h.capacity_eq ▸ h.blank)

/-- Another batch, and another phase in which nothing is delivered. -/
theorem Matches.with_batch (h : Matches capacity t u) (batch : Array Record) :
    Matches capacity { t with batch } { u with batch } :=
  ⟨by rw [h.same], h.capacity_eq, h.phase, h.blank, h.blank', h.workspace⟩

theorem Matches.with_owed (h : Matches capacity t u) (owed : Option Owed) :
    Matches capacity { t with owed } { u with owed } :=
  ⟨by rw [h.same], h.capacity_eq, h.phase, h.blank, h.blank', h.workspace⟩

theorem Matches.exhausted (h : Matches capacity t u) :
    Matches capacity { t with phase := .exhausted } { u with phase := .exhausted } :=
  ⟨by rw [h.same], h.capacity_eq, TraversalPhase.noConfusion, h.blank, h.blank',
    h.workspace.imp id fun hfresh => ⟨TraversalPhase.noConfusion, hfresh.2⟩⟩

/-- From blank matrices or none, a batch starts with blank matrices of the graph's dimension. -/
theorem ensureWorkspace_fresh (hcapacity : t.capacity = capacity) (hfresh : Fresh capacity t.workspace) :
    ensureWorkspace g (t, n) =
      match Matrix.withOptions .bool capacity g.dim .sparseFamily with
      | .ok m => .ok () ({ t with workspace := some ⟨m, m⟩ }, n)
      | .error e => .error e (t, n) := by
  have hcases : ensureWorkspace g (t, n) =
      if (t.workspace.all fun w => decide (w.filter.ncols ≠ g.dim)) = true then
        match Matrix.withOptions .bool capacity g.dim .sparseFamily with
        | .ok m => .ok () ({ t with workspace := some ⟨m, m⟩ }, n)
        | .error e => .error e (t, n)
      else .ok () (t, n) := by
    unfold ensureWorkspace
    simp only [subject, bind, EStateM.bind, hcapacity]
    split
    · cases Matrix.withOptions .bool capacity g.dim .sparseFamily <;> rfl
    · rfl
  rw [hcases]
  split
  · rfl
  · next hkeep =>
    -- there are matrices already, of the graph's dimension
    cases hw : t.workspace with
    | none =>
      rw [hw] at hkeep
      exact absurd rfl hkeep
    | some v =>
      obtain ⟨m, cols, hm, rfl⟩ := hfresh v hw
      have hncols : m.ncols = cols := by rw [(Matrix.withOptions_eq_ok_iff.1 hm).2.2]; rfl
      have hcols : cols = g.dim := by simpa [hw, hncols] using hkeep
      rw [← hcols, hm]
      dsimp only
      rw [← hw]

/-- **A batch is evaluated alike**: where matrices are wanting, neither traversal gets them, and otherwise
there is no difference any more. -/
theorem Matches.evaluateBatch_eq (h : Matches capacity t u) :
    (∃ e, evaluateBatch p g (t, n) = .error e (t, n) ∧ evaluateBatch p g (u, n) = .error e (u, n)) ∨
      evaluateBatch p g (t, n) = evaluateBatch p g (u, n) := by
  rcases h.workspace with hw | ⟨-, ht, hu⟩
  · exact .inr (by rw [h.eq_of_workspace hw])
  · have hteq := ensureWorkspace_fresh (g := g) (n := n) h.capacity_eq ht
    have hueq := ensureWorkspace_fresh (g := g) (n := n) (h.sameCapacity.trans h.capacity_eq) hu
    unfold evaluateBatch
    simp only [bind, EStateM.bind, hteq, hueq]
    cases Matrix.withOptions .bool capacity g.dim .sparseFamily with
    | error e => exact .inl ⟨e, rfl, rfl⟩
    | ok m =>
      have hsame : { t with workspace := some ⟨m, m⟩ } = { u with workspace := some ⟨m, m⟩ } := by
        rw [h.same]
      dsimp only
      rw [hsame]
      exact .inr rfl

/-- What a delivery leaves as it was. -/
structure Delivered (t u : Traversal) : Prop where
  capacity : u.capacity = t.capacity
  phase : t.phase ≠ .uninitialized → u.phase ≠ .uninitialized
  workspace : u.workspace = t.workspace

theorem leaves_emit (p : Pattern) (g : Graph) (t : Traversal) : Leaves (emit p g) t t.Delivered := by
  intro n
  unfold emit
  cases t.workspace with
  | none => exact ⟨rfl, id, rfl⟩
  | some w =>
    dsimp only
    rcases t.cursor.next w.result with ⟨entry, c⟩
    cases entry with
    | none => exact ⟨rfl, fun _ => TraversalPhase.noConfusion, rfl⟩
    | some entry =>
      dsimp only
      cases expand p g t.batch entry with
      | error e => exact ⟨rfl, id, rfl⟩
      | ok out => exact ⟨rfl, id, rfl⟩

end Traversal

namespace Source

variable {σ : Type} {R : σ → σ → Prop} {S : Source σ} {p : Pattern} {g : Graph} {capacity : Nat}

/-- Related children, and traversals that match. -/
def SameTraversal (R : σ → σ → Prop) (capacity : Nat) (a b : σ × Traversal) : Prop :=
  R a.1 b.1 ∧ Traversal.Matches capacity a.2 b.2

theorem InStep.fillBatch (h : S.InStep R) : Together (SameTraversal R capacity) (S.fillBatch p g) := by
  intro s t hst
  obtain ⟨hchild, hmatches⟩ := hst.state
  unfold Source.fillBatch
  rw [hmatches.sameCapacity]
  have hpull := h.pull (g := g) (fun b _ => decide (b.size < s.1.state.2.capacity))
    (fun b r => if (r.node? p.src).isSome then b.push r else b) _ _
    (hst.onto (Q := WithSame R) (f := fun st => (st.1, #[])) (k := fun st => (st.1, #[])) ⟨hchild, rfl⟩)
  revert hpull
  generalize S.pull g (fun b _ => decide (b.size < s.1.state.2.capacity))
    (fun b r => if (r.node? p.src).isSome then b.push r else b)
    (Step.onto (fun st => (st.1, #[])) s) = x
  generalize S.pull g (fun b _ => decide (b.size < s.1.state.2.capacity))
    (fun b r => if (r.node? p.src).isSome then b.push r else b)
    (Step.onto (fun st => (st.1, #[])) t) = y
  rintro (⟨_, hu⟩ | ⟨e, hu⟩)
  · refine .ok () (hu.onto ⟨hu.state.1, ?_⟩)
    rw [hu.state.2]
    exact hmatches.with_batch _
  · refine .error e (hu.onto ⟨hu.state.1, ?_⟩)
    rw [hu.state.2]
    exact hmatches.with_batch _

/-- Out of the same traversal beside related children, an action does the same. -/
theorem alike_onTraversal {α : Type} {act : Metered Traversal α} {a b : σ} {t : Traversal} {d : Bool}
    {n : CallCounts} (hchild : R a b) (h : Leaves act t fun u => Traversal.Matches capacity u u) :
    Alike (SameTraversal R capacity) (onTraversal act (⟨(a, t), d⟩, n))
      (onTraversal act (⟨(b, t), d⟩, n)) := by
  have hn := h n
  simp only [onTraversal]
  cases hr : act (t, n) with
  | ok x u =>
    rw [hr] at hn
    exact .ok x ⟨⟨hchild, hn⟩, rfl, rfl⟩
  | error e u =>
    rw [hr] at hn
    exact .error e ⟨⟨hchild, hn⟩, rfl, rfl⟩

theorem together_evaluateBatch :
    Together (SameTraversal R capacity) (onTraversal (σ := σ) (Traversal.evaluateBatch p g)) := by
  rintro ⟨⟨⟨c, t⟩, d⟩, n⟩ ⟨⟨⟨c', u⟩, _⟩, _⟩ ⟨⟨hchild, hmatches⟩, rfl, rfl⟩
  rcases hmatches.evaluateBatch_eq (p := p) (g := g) (n := n) with ⟨e, ht, hu⟩ | heq
  · simp only [onTraversal, ht, hu]
    exact .error e ⟨⟨hchild, hmatches⟩, rfl, rfl⟩
  · have hsame := alike_onTraversal (d := d) (n := n) hchild
      ((Traversal.leaves_evaluateBatch p g t).mono fun v hv => hmatches.of_kept hv)
    simp only [onTraversal] at hsame ⊢
    rw [← heq]
    exact hsame

/-- Traversals that deliver do the same. -/
theorem alike_emit {s t : Run (σ × Traversal) × CallCounts} (hst : Paired (SameTraversal R capacity) s t)
    (hphase : s.1.state.2.phase = .emitting) :
    Alike (SameTraversal R capacity) (onTraversal (Traversal.emit p g) s)
      (onTraversal (Traversal.emit p g) t) := by
  obtain ⟨⟨⟨c, t₁⟩, d⟩, n⟩ := s
  obtain ⟨⟨⟨c', t₂⟩, d'⟩, n'⟩ := t
  obtain ⟨⟨hchild, hmatches⟩, hflag, hcounts⟩ := hst
  obtain rfl : d = d' := hflag
  obtain rfl : n = n' := hcounts
  obtain rfl : t₁ = t₂ := hmatches.eq_of_emitting hphase
  refine alike_onTraversal hchild ((Traversal.leaves_emit p g t₁).mono fun u hu => ?_)
  exact Traversal.matches_self (hu.capacity.trans hmatches.capacity_eq) (hu.phase hmatches.phase)
    (by rw [hu.workspace]; exact hmatches.blank)

/-- Batches are read and evaluated alike, by recursion on what the child has left. -/
theorem InStep.nextBatch (h : S.InStep R) : Together (SameTraversal R capacity) (S.nextBatch p g) := by
  intro s t hst
  -- the induction is on what the child has left; a round without a record has read some of it
  induction hc : s.1.state.1 using (S.below_wf g).induction generalizing s t with
  | h c ih =>
    subst hc
    rw [nextBatch_eq p s, nextBatch_eq p t]
    have hfill := h.fillBatch (p := p) (g := g) s t hst
    revert hfill
    generalize hf : S.fillBatch p g s = x
    generalize S.fillBatch p g t = y
    rintro (@⟨_, s₁, t₁, h₁⟩ | ⟨e, h₁⟩)
    swap
    · exact .error e h₁
    dsimp only
    rw [h₁.state.2.sameBatch]
    split
    · exact .ok none (h₁.onto ⟨h₁.state.1, h₁.state.2.exhausted⟩)
    next hb =>
    have heval := together_evaluateBatch (p := p) (g := g) s₁ t₁ h₁
    revert heval
    generalize hv : onTraversal (Traversal.evaluateBatch p g) s₁ = x
    generalize onTraversal (Traversal.evaluateBatch p g) t₁ = y
    rintro (@⟨_, s₂, t₂, h₂⟩ | ⟨e, h₂⟩)
    swap
    · exact .error e h₂
    dsimp only
    rw [← h₂.flag]
    split
    · exact .ok none h₂
    have hphase : s₂.1.state.2.phase = .emitting :=
      ((ensures_onTraversal (Traversal.ensures_evaluateBatch_phase p g s₁.1.state.2)).of_ok hv).2.2
    have hemit := alike_emit (p := p) (g := g) h₂ hphase
    revert hemit
    generalize he : onTraversal (Traversal.emit p g) s₂ = x
    generalize onTraversal (Traversal.emit p g) t₂ = y
    rintro (@⟨r, s₃, t₃, h₃⟩ | ⟨e, h₃⟩)
    swap
    · exact .error e h₃
    cases r with
    | some r => exact .ok (some r) h₃
    | none =>
      -- the result is used up, and the child has less left than before the batch
      have hbelow : S.Below g s₃.1.state.1 s.1.state.1 := by
        rw [onTraversal_child he, onTraversal_child hv]
        exact (S.fillBatch_ok hf).1.resolve_left fun hnil => hb hnil.1
      exact ih _ hbelow s₃ t₃ h₃ rfl

/-- **Traversals over children in step are in step**, as long as their matrices differ only while they are
blank. -/
theorem InStep.traverse (h : S.InStep R) (p : Pattern) (capacity : Nat) :
    (S.traverse p).InStep (SameTraversal R capacity) := by
  intro g s t hst
  have hmatches := hst.state.2
  -- what is owed for an edge variable is owed by both, whatever their matrices are
  have hpop : Traversal.popOwed p t.1.state.2 =
      (Traversal.popOwed p s.1.state.2).map fun x => (x.1, { t.1.state.2 with owed := x.2.owed }) := by
    unfold Traversal.popOwed
    rw [hmatches.sameOwed]
    split <;> rfl
  simp only [Source.traverse, ← hst.flag, hpop]
  split
  · exact .ok none hst
  cases hx : Traversal.popOwed p s.1.state.2 with
  | some x =>
    obtain ⟨r, u⟩ := x
    have hu : u = { s.1.state.2 with owed := u.owed } := by
      unfold Traversal.popOwed at hx
      split at hx
      · cases hx
        rfl
      · cases hx
    simp only [Option.map_some]
    refine .ok (some r) (hst.onto ⟨hst.state.1, ?_⟩)
    have howed := hmatches.with_owed u.owed
    rwa [← hu] at howed
  | none =>
    simp only [Option.map_none, hmatches.samePhase]
    cases hphase : s.1.state.2.phase with
    | uninitialized => exact absurd hphase hmatches.phase
    | exhausted => exact .ok none hst
    | filling => exact h.nextBatch s t hst
    | emitting =>
      have hemit := alike_emit (p := p) (g := g) hst hphase
      revert hemit
      generalize onTraversal (Traversal.emit p g) s = x
      generalize onTraversal (Traversal.emit p g) t = y
      rintro (⟨r, h₁⟩ | ⟨e, h₁⟩)
      · cases r with
        | some r => exact .ok (some r) h₁
        | none => exact h.nextBatch _ _ h₁
      · exact .error e h₁

end Source

end Adjacency
