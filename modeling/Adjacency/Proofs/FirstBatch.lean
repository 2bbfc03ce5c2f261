import Adjacency.Proofs.Sorting
import Adjacency.Proofs.Traversing

/-!
# Runs that take one batch

A traversal can run out of memory in the evaluation of a batch and nowhere else. If all records of its child
fit one batch and this is evaluated, the traversal fails no more, nor does what stands above it.

* `Source.Opens`: the first call succeeds, and none behind it fails.
* `Source.Closing`: a traversal whose child has no more records fails only as the child does.
* `Source.opens_traverse`: **once the batch is evaluated, nothing fails.**
* `Opens.project`, `Opens.sort`, `Opens.skipLimit`, `Opens.exists_execute`: neither do the operators above, nor
  the plan.
-/

namespace Adjacency

open Metered

namespace Source

variable {σ β : Type} {S : Source σ} {g : Graph} {F : GraphError → Prop} {p : Pattern} {capacity : Nat}
  {n : CallCounts} {s : σ} {out : List Record}

/-- The first call, made at these counts, succeeds, and no call behind it fails. -/
def Opens (S : Source σ) (g : Graph) (n : CallCounts) (s : σ) : Prop :=
  ∃ r t rs, S.next g (⟨s, false⟩, n) = .ok r t ∧ t.1.draining = false ∧
    S.Emits g (fun _ => False) rs t.1.state

/-! ## The end of a traversal -/

/-- The child has no more records, and what is left of a result is to come. -/
def Closing (S : Source σ) (g : Graph) (F : GraphError → Prop) (p : Pattern) (capacity : Nat)
    (out : List Record) (st : σ × Traversal) : Prop :=
  st.2.phase = .exhausted ∧ out = [] ∨ st.2.Holds p g capacity out ∧ S.Emits g F [] st.1

/-- No batch is evaluated when the child has no more records. -/
theorem ensures_nextBatch_dry {s : Run (σ × Traversal)} (hflag : s.draining = false)
    (hfit : s.state.2.Fit p g capacity) (hchild : S.Emits g F [] s.state.1) :
    Ensures (S.nextBatch p g) s
      (fun r u => r = none ∧ u.draining = false ∧ S.Closing g F p capacity [] u.state) (fun e _ => F e) := by
  intro n
  rw [nextBatch_eq]
  have hf := ensures_fillBatch hflag hfit hchild n
  cases hr : S.fillBatch p g (s, n) with
  | error e t => rw [hr] at hf; exact hf
  | ok _ t =>
    rw [hr] at hf
    obtain ⟨hd, -, left, hgathered, -⟩ := hf
    have hbatch : t.1.state.2.batch = #[] := by
      refine Array.eq_empty_iff_forall_not_mem.2 fun r hr => ?_
      rcases hgathered.mem r hr with h | ⟨h, -⟩
      · exact Array.not_mem_empty r h
      · cases h
    simp only [if_pos hbatch]
    exact ⟨trivial, hd, .inl ⟨rfl, rfl⟩⟩

theorem ensures_emitOrRead {s : Run (σ × Traversal)} (hedge : p.edge = none)
    (hflag : s.draining = false) (hholds : s.state.2.Holds p g capacity out)
    (hchild : S.Emits g F [] s.state.1) :
    Ensures (S.emitOrRead p g) s
      (fun r u => r = out.head? ∧ u.draining = false ∧ S.Closing g F p capacity out.tail u.state)
      (fun e _ => F e) := by
  intro n
  have hemit := ensures_onTraversal (hholds.ensures_emit hedge) n
  unfold emitOrRead
  cases hr : onTraversal (Traversal.emit p g) (s, n) with
  | error e t =>
    rw [hr] at hemit
    exact hemit.elim
  | ok r t =>
    rw [hr] at hemit
    obtain ⟨hd, hc, rfl, hdue, hnext⟩ := hemit
    rw [← hc] at hchild
    rw [hflag] at hd
    cases out with
    | nil => exact ensures_nextBatch_dry hd (hdue rfl).1 hchild t.2
    | cons r rest => exact ⟨rfl, hd, .inr ⟨hnext (List.cons_ne_nil r rest), hchild⟩⟩

/-- **A traversal whose child has no more records fails only as the child does.** -/
theorem Closing.answers (hedge : p.edge = none) {st : σ × Traversal}
    (h : S.Closing g F p capacity out st) :
    (S.traverse p).Answers g F out.head? (S.Closing g F p capacity out.tail) st := by
  intro n
  simp only [traverse, Bool.false_eq_true, reduceIte, Traversal.popOwed_eq_none hedge]
  rcases h with ⟨hphase, rfl⟩ | ⟨hholds, hchild⟩
  · simp only [hphase]
    exact ⟨rfl, trivial, .inl ⟨hphase, rfl⟩⟩
  · simp only [hholds.phase]
    exact ensures_emitOrRead hedge rfl hholds hchild n

/-! ## The batch that takes everything -/

/-- **Once a batch is evaluated that takes in everything the child has, the traversal fails no more.** -/
theorem opens_traverse (hp : p.Sound g) (hedge : p.edge = none) (hmax : capacity ≤ maxDim)
    {st : σ × Traversal} {rs : List Record} {t u : Run (σ × Traversal) × CallCounts}
    (hphase : st.2.phase = .filling) (hfit : st.2.Fit p g capacity)
    (hchild : S.Emits g (fun _ => False) rs st.1) (hbounds : p.Bounds g rs)
    (hfill : S.fillBatch p g (⟨st, false⟩, n) = .ok () t) (hsome : t.1.state.2.batch ≠ #[])
    (hroom : t.1.state.2.batch.size < capacity)
    (heval : onTraversal (Traversal.evaluateBatch p g) t = .ok () u) : (S.traverse p).Opens g n st := by
  obtain ⟨hd, hfit, left, hgathered, hleft⟩ := (ensures_fillBatch rfl hfit hchild).of_ok hfill
  obtain rfl : left = [] := hgathered.left_nil hroom
  obtain ⟨hd', hc, hholds⟩ := (ensures_evaluateRead hp hmax hfit hbounds hgathered).of_ok heval
  have hflag : u.1.draining = false := hd'.trans hd
  rw [← hc] at hleft
  have hends := ensures_emitOrRead hedge hflag hholds hleft u.2
  have hnext : (S.traverse p).next g (⟨st, false⟩, n) = S.emitOrRead p g u := by
    rw [next_of_filled hedge hphase hfill hsome, heval]
    exact if_neg (hflag ▸ Bool.false_ne_true)
  unfold Opens
  rw [hnext]
  cases hr : S.emitOrRead p g u with
  | error e v => rw [hr] at hends; exact hends.elim
  | ok r v =>
    rw [hr] at hends
    obtain ⟨-, hv, hclosing⟩ := hends
    exact ⟨r, v, _, rfl, hv, emits_of_step (S.Closing g _ p capacity) (fun _ _ h => h.answers hedge)
      hclosing⟩

/-- A pull of nodes makes no calls. -/
theorem exists_pull_scan {slot : Nat} {label : Option LabelId} (more : β → Bool → Bool)
    (add : β → Record → β) (b : β) (left : Option (List NodeId)) {rs : List Record}
    (hrs : (left.getD (g.nodeIds label)).map (Record.ofNode slot) = rs) :
    ∃ left', (scan slot label).pull g more add (⟨(left, b), false⟩, n) =
      .ok () (⟨(left', (taken more add b rs).1), false⟩, n) := by
  induction rs generalizing left b with
  | nil =>
    rw [pull_eq]
    dsimp only
    split
    · simp only [scan, Step.onto, List.map_eq_nil_iff.1 hrs]
      exact ⟨_, rfl⟩
    · exact ⟨_, rfl⟩
  | cons r rs ih =>
    obtain ⟨id, rest, hids, rfl, hrest⟩ := List.map_eq_cons_iff.1 hrs
    rw [pull_eq, taken]
    dsimp only
    split
    · simp only [scan, Step.onto, hids]
      exact ih _ (some rest) hrest
    · exact ⟨_, rfl⟩

/-- Records that fit the batch and have a source are all taken in. -/
theorem taken_gather {b : Array Record} {rs : List Record} (hroom : b.size + rs.length ≤ capacity)
    (hsome : ∀ r ∈ rs, (r.node? p.src).isSome) :
    taken (fun b _ => decide (b.size < capacity)) p.gather b rs = (b ++ rs.toArray, []) := by
  induction rs generalizing b with
  | nil => simp [taken]
  | cons r rs ih =>
    obtain ⟨hr, hrs⟩ := List.forall_mem_cons.1 hsome
    rw [List.length_cons] at hroom
    have hadd : p.gather b r = b.push r := if_pos hr
    rw [taken, if_pos (decide_eq_true (by omega)), hadd, ih (by rw [Array.size_push]; omega) hrs]
    simp

/-! ## The operators above -/

/-- A pull that wants a record goes through. -/
theorem Opens.exists_pull (h : S.Opens g n s) (more : β → Bool → Bool) (add : β → Record → β) {b : β}
    (hmore : more b false = true) :
    ∃ t, S.pull g more add (⟨(s, b), false⟩, n) = .ok () t ∧ t.1.draining = false := by
  obtain ⟨r, ⟨⟨c, d⟩, m⟩, rs, hr, hd, hrest⟩ := h
  obtain rfl : d = false := hd
  rw [pull_eq, if_pos hmore]
  simp only [Step.onto, hr]
  cases r with
  | none => exact ⟨_, rfl, rfl⟩
  | some r =>
    have hpull := hrest.ensures_pull more add (add b r) m
    dsimp only
    cases hq : S.pull g more add (⟨(c, add b r), false⟩, m) with
    | error e u => rw [hq] at hpull; exact hpull.elim
    | ok _ u => rw [hq] at hpull; exact ⟨u, rfl, hpull.1⟩

theorem Opens.project (h : S.Opens g n s) (node : Nat) (property : String) (out : Nat) :
    (S.project node property out).Opens g n s := by
  obtain ⟨r, t, rs, hr, hd, hrest⟩ := h
  refine ⟨r.map (projected g node property out), t, _, ?_, hd, hrest.project node property out⟩
  simp only [Source.project, hr]
  cases r <;> rfl

theorem Opens.sort (h : S.Opens g n s) (keys : List SortKey) (bound : Option (Nat × Nat)) :
    (S.sort keys bound).Opens g n { child := s } := by
  obtain ⟨⟨⟨⟨c, i⟩, d⟩, m⟩, ht, hd⟩ := h.exists_pull (fun _ _ => true) (Intake.absorb keys (sortCapacity bound))
    (b := {}) rfl
  obtain rfl : d = false := hd
  have hready : ({ child := c, sorted := some (i.finish keys (sortCapacity bound)) } : SortState σ).sorted =
      some (i.finish keys (sortCapacity bound)) := rfl
  obtain ⟨u, hu, hdrain, hsorted⟩ := deliverSorted_answers hready (m.bump .sort)
  refine ⟨(i.finish keys (sortCapacity bound)).head?, u, _, ?_, hdrain, sort_emits (.inl hsorted)⟩
  simp only [Source.sort, Step.onto, ht]
  exact hu

/-- Nothing is passed over, and something is wanted. -/
theorem Opens.skipLimit (h : S.Opens g n s) {limit : Nat} (hlimit : 0 < limit) :
    (S.skipLimit 0 (some limit)).Opens g n ⟨s, 0, 0⟩ := by
  obtain ⟨r, t, rs, hr, hd, hrest⟩ := h
  have hbehind : S.nextBehind g 0 (⟨(s, 0), false⟩, n) = .ok r (Step.onto (·, 0) t) := by
    unfold nextBehind
    rw [pull_eq]
    simp [Step.onto, hr]
  have hstate : ∀ e, (S.skipLimit 0 (some limit)).Emits g (fun _ => False) _ ⟨t.1.state, 0, e⟩ :=
    Behind.emits ⟨Nat.le_refl 0, rs, hrest, rfl⟩ limit
  refine ⟨r, Step.onto (fun c => ⟨c, 0, if r = none then 0 else 1⟩) t, _, ?_, hd, hstate _⟩
  simp only [Source.skipLimit, Option.any_some, decide_eq_true_eq, Nat.not_le.2 hlimit, if_false, Step.onto,
    hbehind]
  cases r <;> rfl

/-- **A plan goes through** if its tree does, once it has been made ready. -/
theorem Opens.exists_execute {tree : OperatorTree} {options : ExecOptions} {m : CallCounts}
    {st : tree.State × CallCounts} (hinit : tree.source.init options (tree.source.start, m) = .ok () st)
    (h : tree.source.Opens g st.2 st.1) : ∃ r u, Plan.execute g (.new tree options, m) = .ok r u := by
  obtain ⟨t, ht, -⟩ := h.exists_pull (fun _ draining => !draining) Array.push (b := #[]) rfl
  unfold Plan.execute Plan.prepareRun Plan.readAll
  simp only [Plan.new, Bool.false_eq_true, reduceIte, hinit, ht]
  exact ⟨_, _, rfl⟩

end Source

end Adjacency
