import Adjacency.Query.Traversal

/-!
# The traversal operator

Reads a batch of records from its child, expands it, and reads the next when that is used up. Records
without a source node are dropped. A drain is noticed before each delivery.

* `Source.fillBatch`: reads the next batch.
* `Source.nextBatch`: reads and evaluates batches until one yields a record.
* `Source.traverse`: the operator.
-/

namespace Adjacency.Source

variable {σ : Type}

/-- Acts on the traversal alone. -/
def onTraversal {α : Type} (act : Metered Traversal α) : Step (σ × Traversal) α := fun s =>
  match act (s.1.state.2, s.2) with
  | .ok a t => .ok a (⟨(s.1.state.1, t.1), s.1.draining⟩, t.2)
  | .error e t => .error e (⟨(s.1.state.1, t.1), s.1.draining⟩, t.2)

/-- Reads the next batch; records without a source node are dropped. -/
def fillBatch (S : Source σ) (p : Pattern) (g : Graph) : Step (σ × Traversal) Unit := fun s =>
  match S.pull g (fun b _ => decide (b.size < s.1.state.2.capacity))
      (fun b r => if (r.node? p.src).isSome then b.push r else b)
      (Step.onto (fun st => (st.1, #[])) s) with
  | .ok () t => .ok () (Step.onto (fun b => (b.1, { s.1.state.2 with batch := b.2 })) t)
  | .error e t => .error e (Step.onto (fun b => (b.1, { s.1.state.2 with batch := b.2 })) t)

/-- A batch that was read is empty, or the child delivered records for it. The edges owed are the same. -/
theorem fillBatch_ok (S : Source σ) {p : Pattern} {g : Graph}
    {s t : Run (σ × Traversal) × CallCounts} (h : S.fillBatch p g s = .ok () t) :
    (t.1.state.2.batch = #[] ∧ S.AtMost g t.1.state.1 s.1.state.1 ∨
      S.Below g t.1.state.1 s.1.state.1) ∧ t.1.state.2.debt = s.1.state.2.debt := by
  unfold fillBatch at h
  split at h
  · next hp =>
    cases h
    exact ⟨S.pull_ok hp, rfl⟩
  · cases h

/-- What acts on the traversal leaves the child alone. -/
theorem onTraversal_child {α : Type} {act : Metered Traversal α} {a : α}
    {s t : Run (σ × Traversal) × CallCounts} (h : onTraversal act s = .ok a t) :
    t.1.state.1 = s.1.state.1 := by
  unfold onTraversal at h
  split at h <;> cases h; rfl

/-- Reads and evaluates batches until one yields a record. -/
def nextBatch (S : Source σ) (p : Pattern) (g : Graph) (s : Run (σ × Traversal) × CallCounts) :
    EStateM.Result GraphError (Run (σ × Traversal) × CallCounts) (Option Record) :=
  match _hf : S.fillBatch p g s with
  | .error e t => .error e t
  | .ok () t =>
    if _hb : t.1.state.2.batch = #[] then
      .ok none (Step.onto (fun st => (st.1, { st.2 with phase := .exhausted })) t)
    else
      match _hv : onTraversal (Traversal.evaluateBatch p g) t with
      | .error e u => .error e u
      | .ok () u =>
        if u.1.draining then .ok none u
        else
          match _he : onTraversal (Traversal.emit p g) u with
          | .error e v => .error e v
          | .ok (some r) v => .ok (some r) v
          | .ok none v => S.nextBatch p g v
termination_by (S.below_wf g).wrap s.1.state.1
decreasing_by
  show S.Below g _ _
  rw [onTraversal_child _he, onTraversal_child _hv]
  exact (S.fillBatch_ok _hf).1.resolve_left fun h => _hb h.1

/-- A record out of a new batch costs the child at least one. -/
theorem nextBatch_some (S : Source σ) {p : Pattern} {g : Graph}
    {s t : Run (σ × Traversal) × CallCounts} {r : Record}
    (h : S.nextBatch p g s = .ok (some r) t) : S.Below g t.1.state.1 s.1.state.1 := by
  fun_induction S.nextBatch p g s with
  | case1 => cases h
  | case2 => cases h
  | case3 => cases h
  | case4 => cases h
  | case5 => cases h
  | case6 s t hf hb u hv _ r v he =>
    cases h
    have := (S.fillBatch_ok hf).1.resolve_left fun h => hb h.1
    rwa [onTraversal_child he, onTraversal_child hv]
  | case7 s t hf hb u hv _ v he ih =>
    have below := (S.fillBatch_ok hf).1.resolve_left fun h => hb h.1
    have := ih h
    rw [Below, onTraversal_child he, onTraversal_child hv] at this
    exact S.below_trans this below

/-- Without a record the child has delivered some all the same, or it has as much left as before; then the
result is used up and the debt is as it was. -/
theorem nextBatch_none (S : Source σ) {p : Pattern} {g : Graph}
    {s t : Run (σ × Traversal) × CallCounts} (h : S.nextBatch p g s = .ok none t) :
    S.Below g t.1.state.1 s.1.state.1 ∨
      S.rank g t.1.state.1 = S.rank g s.1.state.1 ∧ t.1.state.2.left = 0 ∧
        t.1.state.2.debt = s.1.state.2.debt := by
  fun_induction S.nextBatch p g s with
  | case1 => cases h
  | case2 s t hf hb =>
    cases h
    have ⟨h₁, h₂⟩ := S.fillBatch_ok hf
    rcases h₁ with ⟨_, h₁ | h₁⟩ | h₁
    · exact .inr ⟨h₁, rfl, h₂⟩
    · exact .inl h₁
    · exact .inl h₁
  | case3 => cases h
  | case4 s t hf hb u hv =>
    cases h
    have := (S.fillBatch_ok hf).1.resolve_left fun h => hb h.1
    left
    rwa [onTraversal_child hv]
  | case5 => cases h
  | case6 => cases h
  | case7 s t hf hb u hv _ v he ih =>
    have below := (S.fillBatch_ok hf).1.resolve_left fun h => hb h.1
    left
    rcases ih h with this | ⟨this, _⟩
    · rw [Below, onTraversal_child he, onTraversal_child hv] at this
      exact S.below_trans this below
    · rw [onTraversal_child he, onTraversal_child hv] at this
      rwa [Below, this]

/-- The child is left as it is, and a delivered record uses up the traversal's own stock. -/
theorem emit_descends {p : Pattern} {g : Graph} {s t : Run (σ × Traversal) × CallCounts}
    {r : Record} (hs : s.1.state.2.phase = .emitting)
    (h : onTraversal (Traversal.emit p g) s = .ok (some r) t) :
    t.1.state.1 = s.1.state.1 ∧ t.1.state.2.left < s.1.state.2.left := by
  refine ⟨onTraversal_child h, ?_⟩
  unfold onTraversal at h
  split at h
  · next he => cases h; exact Traversal.emit_some hs he
  · cases h

/-- When the result is used up, the child and the debt are as before. -/
theorem emit_dry {p : Pattern} {g : Graph} {s t : Run (σ × Traversal) × CallCounts}
    (h : onTraversal (Traversal.emit p g) s = .ok none t) :
    t.1.state.1 = s.1.state.1 ∧ t.1.state.2.left = 0 ∧
      t.1.state.2.debt = s.1.state.2.debt := by
  refine ⟨onTraversal_child h, ?_⟩
  unfold onTraversal at h
  split at h
  · next he => cases h; exact Traversal.emit_none he
  · cases h

/-- What a traversal can still deliver: first of its child, then of its result, then of the edges
owed. -/
abbrev TraverseRank (ρ : Type) := ρ × Nat × Nat

/-- Expands every record of the child along a pattern, batch by batch. -/
def traverse (S : Source σ) (p : Pattern) : Source (σ × Traversal) where
  start := (S.start, {})
  init options := do
    Metered.within Prod.fst (fun c s => (c, s.2)) (S.init options)
    let capacity := p.batchSize.getD options.batchSize
    if capacity = 0 then throw (.invalid .zeroBatch)
    Metered.update fun s => (s.1, { s.2 with capacity, batch := #[], phase := .filling })
  reset := do
    Metered.within Prod.fst (fun c s => (c, s.2)) S.reset
    Metered.update fun s => (s.1, { s.2 with
      batch := #[], prepared := none, cursor := {}, owed := none
      workspace := s.2.workspace.map fun w => ⟨w.filter.cleared, w.result.cleared⟩
      phase := if s.2.phase = .uninitialized then .uninitialized else .filling })
  next g s :=
    if s.1.draining then .ok none s
    else
      match s.1.state.2.popOwed p with
      | some (r, t) => .ok (some r) (Step.onto (fun st => (st.1, t)) s)
      | none =>
        match s.1.state.2.phase with
        | .uninitialized => .error (.invalid .traverseBeforeInit) s
        | .exhausted => .ok none s
        | .filling => S.nextBatch p g s
        | .emitting =>
          match onTraversal (Traversal.emit p g) s with
          | .error e t => .error e t
          | .ok (some r) t => .ok (some r) t
          | .ok none t => S.nextBatch p g t
  Rank := TraverseRank S.Rank
  below := Prod.Lex S.below (Prod.Lex (· < ·) (· < ·))
  below_trans h h' := lexTrans (r := S.below) (q := Prod.Lex (· < ·) (· < ·))
    (fun _ _ _ => S.below_trans)
    (fun _ _ _ => lexTrans (r := (· < ·)) (q := (· < ·)) (fun _ _ _ => Nat.lt_trans)
      (fun _ _ _ => Nat.lt_trans)) h h'
  below_wellFounded :=
    (Prod.lex ⟨_, S.below_wellFounded⟩ (Prod.lex Nat.lt_wfRel Nat.lt_wfRel)).wf
  rank g st := (S.rank g st.1, st.2.left, st.2.debt)
  next_some := by
    intro g s r t h
    split at h
    · cases h
    · split at h
      · next hp =>
        cases h
        obtain ⟨h₁, h₂⟩ := Traversal.popOwed_some hp
        simp only [Step.onto, h₁]
        exact .right _ (.right _ h₂)
      · split at h
        · cases h
        · cases h
        · exact .left _ _ (S.nextBatch_some h)
        · next hph =>
          split at h
          · cases h
          · next he =>
            cases h
            obtain ⟨h₁, h₂⟩ := emit_descends hph he
            rw [h₁]
            exact .right _ (.left _ _ h₂)
          · next he =>
            have h₁ := S.nextBatch_some h
            rw [Below, (emit_dry he).1] at h₁
            exact .left _ _ h₁
  next_none := by
    intro g s t h
    split at h
    · cases h; exact .inl rfl
    · split at h
      · cases h
      · split at h
        · cases h
        · cases h; exact .inl rfl
        · rcases S.nextBatch_none h with h | ⟨h₁, h₂, h₃⟩
          · exact .inr (.left _ _ h)
          · rw [h₁, h₂, h₃]
            rcases Nat.eq_zero_or_pos s.1.state.2.left with h | h
            · exact .inl (by rw [h])
            · exact .inr (.right _ (.left _ _ h))
        · split at h
          · cases h
          · cases h
          · next he =>
            obtain ⟨g₁, g₂, g₃⟩ := emit_dry he
            rcases S.nextBatch_none h with h | ⟨h₁, h₂, h₃⟩
            · rw [Below, g₁] at h
              exact .inr (.left _ _ h)
            · rw [h₁, h₂, h₃, g₁, g₃]
              rcases Nat.eq_zero_or_pos s.1.state.2.left with h | h
              · exact .inl (by rw [h])
              · exact .inr (.right _ (.left _ _ h))

end Adjacency.Source
