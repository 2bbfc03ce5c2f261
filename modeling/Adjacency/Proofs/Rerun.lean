import Adjacency.Proofs.Lockstep

/-!
# Running a plan again

* `OperatorTree.Indistinct`: states of a tree that no call tells apart; `OperatorTree.inStep`.
* `OperatorTree.Accepts`: no traversal of the tree has batches without room. A tree that is not accepted
  refuses every run.
* `OperatorTree.init_and_reset`: **started over, a tree that has run is as good as one that never ran**.
* `Plan.Usable`, `Plan.Usable.used`: what any use of a plan leaves.
* `Plan.execute_again`: **whatever has been done with a plan, it answers as a new one, and so does its
  replica**.
-/

namespace Adjacency

open Metered

/-- Cleared, a matrix is the empty one of its shape. -/
theorem Matrix.SameShape.cleared_eq {type : ScalarType} {nrows ncols : Nat} {options : MatrixOptions}
    {m m' : Matrix} (hm : Matrix.withOptions type nrows ncols options = .ok m) (h : m.SameShape m') :
    m'.cleared = m := by
  obtain ⟨-, -, rfl⟩ := Matrix.withOptions_eq_ok_iff.1 hm
  obtain ⟨htype, hrows, hcols, hbyRow, hoptions⟩ := h
  unfold Matrix.cleared
  rw [htype, hrows, hcols, hbyRow, hoptions]
  rfl

/-! ## Making ready and starting over -/

namespace Source

variable {σ : Type} {S : Source σ} {options : ExecOptions} {c : σ} {n m : CallCounts} {e : GraphError}

section skipLimit

variable {skip : Nat} {limit : Option Nat} {s : SkipState σ}

theorem init_skipLimit (h : S.init options (s.child, n) = .ok () (c, m)) :
    (S.skipLimit skip limit).init options (s, n) = .ok () (⟨c, 0, 0⟩, m) := by
  simp [skipLimit, update, within, bind, EStateM.bind, h]

theorem init_skipLimit_error (h : S.init options (s.child, n) = .error e (c, m)) :
    (S.skipLimit skip limit).init options (s, n) = .error e (⟨c, 0, 0⟩, m) := by
  simp [skipLimit, update, within, bind, EStateM.bind, h]

theorem reset_skipLimit (h : S.reset (s.child, n) = .ok () (c, m)) :
    (S.skipLimit skip limit).reset (s, n) = .ok () (⟨c, 0, 0⟩, m) := by
  simp [skipLimit, update, within, bind, EStateM.bind, h]

end skipLimit

section sort

variable {keys : List SortKey} {bound : Option (Nat × Nat)} {s : SortState σ}

/-- What making a sort ready does to its own state. -/
def clearHeap (bound : Option (Nat × Nat)) (s : SortState σ) : SortState σ :=
  if bound.isSome then { s with intake := { s.intake with heap := [] } } else s

theorem clearHeap_child (bound : Option (Nat × Nat)) (s : SortState σ) :
    (clearHeap bound s).child = s.child := by
  unfold clearHeap
  split <;> rfl

theorem init_sort (h : S.init options (s.child, n) = .ok () (c, m)) :
    (S.sort keys bound).init options (s, n) = .ok () ({ clearHeap bound s with child := c }, m) := by
  rw [← clearHeap_child bound] at h
  unfold clearHeap at h ⊢
  simp only [sort, update, within, bind, EStateM.bind, h]

theorem init_sort_error (h : S.init options (s.child, n) = .error e (c, m)) :
    (S.sort keys bound).init options (s, n) = .error e ({ clearHeap bound s with child := c }, m) := by
  rw [← clearHeap_child bound] at h
  unfold clearHeap at h ⊢
  simp only [sort, update, within, bind, EStateM.bind, h]

theorem reset_sort (h : S.reset (s.child, n) = .ok () (c, m)) :
    (S.sort keys bound).reset (s, n) = .ok () (⟨c, {}, none⟩, m) := by
  simp [sort, update, within, bind, EStateM.bind, h]

end sort

section traverse

variable {p : Pattern} {s : σ × Traversal}

theorem init_traverse (h : S.init options (s.1, n) = .ok () (c, m))
    (hroom : p.batchSize.getD options.batchSize ≠ 0) :
    (S.traverse p).init options (s, n) = .ok () ((c, { s.2 with
      capacity := p.batchSize.getD options.batchSize, batch := #[], phase := .filling }), m) := by
  simp [traverse, update, within, bind, EStateM.bind, h, hroom]

theorem init_traverse_zero (h : S.init options (s.1, n) = .ok () (c, m))
    (hzero : p.batchSize.getD options.batchSize = 0) :
    (S.traverse p).init options (s, n) = .error (.invalid .zeroBatch) ((c, s.2), m) := by
  simp [traverse, within, bind, EStateM.bind, h, hzero, throw, throwThe, MonadExceptOf.throw,
    EStateM.throw]

theorem init_traverse_error (h : S.init options (s.1, n) = .error e (c, m)) :
    (S.traverse p).init options (s, n) = .error e ((c, s.2), m) := by
  simp [traverse, within, bind, EStateM.bind, h]

theorem reset_traverse (h : S.reset (s.1, n) = .ok () (c, m)) :
    (S.traverse p).reset (s, n) = .ok () ((c, { s.2 with
      batch := #[], prepared := none, cursor := {}, owed := none
      workspace := s.2.workspace.map fun w => ⟨w.filter.cleared, w.result.cleared⟩
      phase := if s.2.phase = .uninitialized then .uninitialized else .filling }), m) := by
  simp [traverse, update, within, bind, EStateM.bind, h]

end traverse

section drainAfter

variable {k : Nat} {s : σ × Nat}

theorem init_drainAfter (h : S.init options (s.1, n) = .ok () (c, m)) :
    (S.drainAfter k).init options (s, n) = .ok () ((c, 0), m) := by
  simp [drainAfter, update, within, bind, EStateM.bind, h]

theorem init_drainAfter_error (h : S.init options (s.1, n) = .error e (c, m)) :
    (S.drainAfter k).init options (s, n) = .error e ((c, 0), m) := by
  simp [drainAfter, update, within, bind, EStateM.bind, h]

theorem reset_drainAfter (h : S.reset (s.1, n) = .ok () (c, m)) :
    (S.drainAfter k).reset (s, n) = .ok () ((c, 0), m) := by
  simp [drainAfter, update, within, bind, EStateM.bind, h]

end drainAfter

end Source

namespace OperatorTree

/-- States of a tree that no call tells apart. -/
def Indistinct (options : ExecOptions) : (tree : OperatorTree) → tree.State → tree.State → Prop
  | .values _ => Eq
  | .scan .. => Eq
  | .project child .. => child.Indistinct options
  | .skipLimit child .. => Source.SameSkip (child.Indistinct options)
  | .sort child .. => Source.SameSort (child.Indistinct options)
  | .traverse child p =>
    Source.SameTraversal (child.Indistinct options) (p.batchSize.getD options.batchSize)
  | .drainAfter child _ => Source.WithSame (child.Indistinct options)

/-- No traversal of the tree has batches without room. -/
def Accepts (options : ExecOptions) : OperatorTree → Prop
  | .values _ | .scan .. => True
  | .project child .. | .skipLimit child .. | .sort child .. | .drainAfter child _ => child.Accepts options
  | .traverse child p => child.Accepts options ∧ p.batchSize.getD options.batchSize ≠ 0

variable {options : ExecOptions}

/-- **Calls do not tell indistinct states apart**, and leave indistinct ones. -/
theorem inStep (options : ExecOptions) (tree : OperatorTree) :
    tree.source.InStep (tree.Indistinct options) := by
  induction tree with
  | values records => exact Source.inStep_eq _
  | scan slot label => exact Source.inStep_eq _
  | project child node property out ih => exact ih.project node property out
  | skipLimit child skip limit ih => exact ih.skipLimit skip limit
  | sort child keys bound ih => exact ih.sort keys bound
  | traverse child p ih => exact ih.traverse p _
  | drainAfter child n ih => exact ih.drainAfter n

/-- An accepted tree can be made ready out of any state. -/
theorem init_ok (tree : OperatorTree) (h : tree.Accepts options) (s : tree.State) :
    ∃ t, ∀ n, tree.source.init options (s, n) = .ok () (t, n) := by
  induction tree with
  | values records => exact ⟨_, fun _ => rfl⟩
  | scan slot label => exact ⟨_, fun _ => rfl⟩
  | project child node property out ih => exact ih h s
  | skipLimit child skip limit ih =>
    obtain ⟨c, hc⟩ := ih h s.child
    exact ⟨_, fun n => Source.init_skipLimit (hc n)⟩
  | sort child keys bound ih =>
    obtain ⟨c, hc⟩ := ih h s.child
    exact ⟨_, fun n => Source.init_sort (hc n)⟩
  | traverse child p ih =>
    obtain ⟨c, hc⟩ := ih h.1 s.1
    exact ⟨_, fun n => Source.init_traverse (hc n) h.2⟩
  | drainAfter child n ih =>
    obtain ⟨c, hc⟩ := ih h s.1
    exact ⟨_, fun n => Source.init_drainAfter (hc n)⟩

/-- A tree that is not accepted is not made ready out of any state, always for the same reason. -/
theorem init_error (tree : OperatorTree) (h : ¬tree.Accepts options) (s : tree.State) :
    ∃ t, ∀ n, tree.source.init options (s, n) = .error (.invalid .zeroBatch) (t, n) := by
  induction tree with
  | values records => exact absurd trivial h
  | scan slot label => exact absurd trivial h
  | project child node property out ih => exact ih h s
  | skipLimit child skip limit ih =>
    obtain ⟨c, hc⟩ := ih h s.child
    exact ⟨_, fun n => Source.init_skipLimit_error (hc n)⟩
  | sort child keys bound ih =>
    obtain ⟨c, hc⟩ := ih h s.child
    exact ⟨_, fun n => Source.init_sort_error (hc n)⟩
  | traverse child p ih =>
    by_cases hchild : child.Accepts options
    · obtain ⟨c, hc⟩ := init_ok child hchild s.1
      have hzero : p.batchSize.getD options.batchSize = 0 := by
        by_contra hroom
        exact h ⟨hchild, hroom⟩
      exact ⟨_, fun n => Source.init_traverse_zero (hc n) hzero⟩
    · obtain ⟨c, hc⟩ := ih hchild s.1
      exact ⟨_, fun n => Source.init_traverse_error (hc n)⟩
  | drainAfter child n ih =>
    obtain ⟨c, hc⟩ := ih h s.1
    exact ⟨_, fun n => Source.init_drainAfter_error (hc n)⟩

/-- A state that some state cannot be told apart from cannot be told apart from itself. -/
theorem Indistinct.left {tree : OperatorTree} {s t : tree.State} (h : tree.Indistinct options s t) :
    tree.Indistinct options s s := by
  induction tree with
  | values records => rfl
  | scan slot label => rfl
  | project child node property out ih => exact ih h
  | skipLimit child skip limit ih => exact ⟨ih h.1, rfl, rfl⟩
  | sort child keys bound ih => exact ⟨ih h.1, rfl, rfl⟩
  | traverse child p ih =>
    exact ⟨ih h.1, Traversal.matches_self h.2.capacity_eq h.2.phase h.2.blank⟩
  | drainAfter child n ih => exact ⟨ih h.1, rfl⟩

/-- Started over, the matrices of a traversal are blank. -/
theorem fresh_cleared {capacity : Nat} {w : Option Workspace} (h : ∀ v, w = some v → v.Blank capacity) :
    Traversal.Fresh capacity (w.map fun v => ⟨v.filter.cleared, v.result.cleared⟩) := by
  intro v hv
  obtain ⟨v₀, hv₀, rfl⟩ := Option.map_eq_some_iff.1 hv
  obtain ⟨m, cols, hm, hfilter, hresult⟩ := h v₀ hv₀
  exact ⟨m, cols, hm, by rw [hfilter.cleared_eq hm, hresult.cleared_eq hm]⟩

theorem blank_of_fresh {capacity : Nat} {w : Option Workspace} (h : Traversal.Fresh capacity w) :
    ∀ v, w = some v → v.Blank capacity := by
  intro v hv
  obtain ⟨m, cols, hm, rfl⟩ := h v hv
  exact ⟨m, cols, hm, .refl m, .refl m⟩

/-- A traversal started over matches one that has just been made ready. -/
theorem matches_started {capacity : Nat} {t u : Traversal} (h : Traversal.Matches capacity t u) :
    Traversal.Matches capacity
      { t with
        batch := #[], prepared := none, cursor := {}, owed := none
        workspace := t.workspace.map fun w => ⟨w.filter.cleared, w.result.cleared⟩
        phase := if t.phase = .uninitialized then .uninitialized else .filling }
      { capacity, phase := .filling } := by
  have hfresh := fresh_cleared h.blank
  have hnone : Traversal.Fresh capacity none := fun _ hv => nomatch hv
  rw [if_neg h.phase]
  refine ⟨?_, h.capacity_eq, TraversalPhase.noConfusion, blank_of_fresh hfresh, blank_of_fresh hnone,
    .inr ⟨TraversalPhase.noConfusion, hfresh, hnone⟩⟩
  rw [← h.capacity_eq]

/-- **Started over, a tree that has run is as good as one that never ran.** -/
theorem init_and_reset (tree : OperatorTree) (h : tree.Accepts options) :
    ∃ t, (∀ n, tree.source.init options (tree.source.start, n) = .ok () (t, n)) ∧
      tree.Indistinct options t t ∧
      ∀ s, tree.Indistinct options s s →
        ∃ s', (∀ n, tree.source.reset (s, n) = .ok () (s', n)) ∧ tree.Indistinct options s' t := by
  induction tree with
  | values records => exact ⟨records, fun _ => rfl, rfl, fun _ _ => ⟨records, fun _ => rfl, rfl⟩⟩
  | scan slot label => exact ⟨none, fun _ => rfl, rfl, fun _ _ => ⟨none, fun _ => rfl, rfl⟩⟩
  | project child node property out ih => exact ih h
  | skipLimit child skip limit ih =>
    obtain ⟨c, hc, hself, hreset⟩ := ih h
    refine ⟨⟨c, 0, 0⟩, fun n => Source.init_skipLimit (hc n), ⟨hself, rfl, rfl⟩, fun s hs => ?_⟩
    obtain ⟨c', hc', hsame⟩ := hreset _ hs.1
    exact ⟨⟨c', 0, 0⟩, fun n => Source.reset_skipLimit (hc' n), hsame, rfl, rfl⟩
  | sort child keys bound ih =>
    obtain ⟨c, hc, hself, hreset⟩ := ih h
    -- a fresh heap is empty, so clearing it does nothing
    have hclear : ({ Source.clearHeap bound ⟨child.source.start, {}, none⟩ with child := c } : SortState _) =
        ⟨c, {}, none⟩ := by
      unfold Source.clearHeap
      split <;> rfl
    refine ⟨⟨c, {}, none⟩, fun n => hclear ▸ Source.init_sort (hc n), ⟨hself, rfl, rfl⟩, fun s hs => ?_⟩
    obtain ⟨c', hc', hsame⟩ := hreset _ hs.1
    exact ⟨⟨c', {}, none⟩, fun n => Source.reset_sort (hc' n), hsame, rfl, rfl⟩
  | traverse child p ih =>
    obtain ⟨c, hc, hself, hreset⟩ := ih h.1
    have hmatches : Traversal.Matches (p.batchSize.getD options.batchSize)
        { capacity := p.batchSize.getD options.batchSize, phase := .filling }
        { capacity := p.batchSize.getD options.batchSize, phase := .filling } :=
      Traversal.matches_self rfl TraversalPhase.noConfusion fun _ hw => nomatch hw
    refine ⟨(c, _), fun n => Source.init_traverse (hc n) h.2, ⟨hself, hmatches⟩, fun s hs => ?_⟩
    obtain ⟨c', hc', hsame⟩ := hreset _ hs.1
    exact ⟨(c', _), fun n => Source.reset_traverse (hc' n), hsame, matches_started hs.2⟩
  | drainAfter child n ih =>
    obtain ⟨c, hc, hself, hreset⟩ := ih h
    refine ⟨(c, 0), fun n => Source.init_drainAfter (hc n), ⟨hself, rfl⟩, fun s hs => ?_⟩
    obtain ⟨c', hc', hsame⟩ := hreset _ hs.1
    exact ⟨(c', 0), fun n => Source.reset_drainAfter (hc' n), hsame, rfl⟩

end OperatorTree

/-! ## Plans -/

namespace Plan

/-- What a run of a plan answers, and the calls counted by then. -/
def answer (g : Graph) (n : CallCounts) (p : Plan) : Except GraphError QueryResult × CallCounts :=
  match execute g (p, n) with
  | .ok r s => (.ok r, s.2)
  | .error e s => (.error e, s.2)

/-- Something that may be done with a plan. -/
inductive Use
  /-- A run over a graph, with the calls counted before. -/
  | execute (g : Graph) (n : CallCounts)
  | drain

/-- What a use leaves of a plan, whether a run ends well or fails. -/
def use (p : Plan) : Use → Plan
  | .execute g n =>
    match Plan.execute g (p, n) with
    | .ok _ s => s.1
    | .error _ s => s.1
  | .drain => p.drain

/-- A plan as uses of a new one leave it: not initialised, it has run in vain at most; initialised, it can be
started over. -/
structure Usable (tree : OperatorTree) (options : ExecOptions) (state : tree.State) (initialized : Bool) :
    Prop where
  unused : initialized = false → tree.Accepts options → state = tree.source.start
  accepted : initialized = true → tree.Accepts options
  indistinct : initialized = true → tree.Indistinct options state state

variable {tree : OperatorTree} {options : ExecOptions} {run : Run tree.State} {initialized : Bool}
  {g : Graph} {n : CallCounts}

theorem usable_new (tree : OperatorTree) (options : ExecOptions) :
    Usable tree options tree.source.start false :=
  ⟨fun _ _ => rfl, fun hno => Bool.noConfusion hno, fun hno => Bool.noConfusion hno⟩

/-- An accepted plan is made ready; from then on no call tells it apart from a new one made ready. -/
theorem Usable.prepared (h : Usable tree options run.state initialized) (haccepts : tree.Accepts options) :
    ∃ s t, (∀ n, prepareRun tree options initialized (run.state, n) = .ok () (s, n)) ∧
      (∀ n, prepareRun tree options false (tree.source.start, n) = .ok () (t, n)) ∧
      tree.Indistinct options s t := by
  obtain ⟨t, ht, hself, hreset⟩ := tree.init_and_reset haccepts
  cases initialized with
  | false =>
    rw [h.unused rfl haccepts]
    exact ⟨t, t, ht, ht, hself⟩
  | true =>
    obtain ⟨s, hs, hsame⟩ := hreset run.state (h.indistinct rfl)
    exact ⟨s, t, hs, ht, hsame⟩

/-- A plan that is not accepted has not been initialised, and a run of it fails in its preparation. -/
theorem Usable.refused {state : tree.State} (h : Usable tree options state initialized) (hnot : ¬tree.Accepts options)
    (s : tree.State) : initialized = false ∧
      ∃ t, ∀ n, prepareRun tree options initialized (s, n) = .error (.invalid .zeroBatch) (t, n) := by
  have hfresh : initialized = false := by
    cases initialized with
    | false => rfl
    | true => exact absurd (h.accepted rfl) hnot
  subst hfresh
  exact ⟨rfl, tree.init_error hnot s⟩

/-- Reading all records out of states that no call tells apart. -/
theorem readAll_alike {s t : tree.State} (h : tree.Indistinct options s t) (n : CallCounts) :
    Source.Alike (Source.WithSame (tree.Indistinct options)) (readAll tree g (⟨(s, #[]), false⟩, n))
      (readAll tree g (⟨(t, #[]), false⟩, n)) :=
  (tree.inStep options).pull _ _ _ _ ⟨⟨h, rfl⟩, rfl, rfl⟩

/-- **A usable plan answers as a new one.** -/
theorem Usable.answer_eq (h : Usable tree options run.state initialized) :
    answer g n ⟨tree, options, run, initialized⟩ = answer g n (new tree options) := by
  unfold answer execute new
  by_cases haccepts : tree.Accepts options
  · obtain ⟨s, t, hs, ht, hsame⟩ := h.prepared haccepts
    simp only [hs, ht]
    have hread := readAll_alike (g := g) hsame n
    revert hread
    generalize readAll tree g (⟨(s, #[]), false⟩, n) = x
    generalize readAll tree g (⟨(t, #[]), false⟩, n) = y
    rintro (⟨_, hu⟩ | ⟨e, hu⟩)
    · simp only [hu.state.2, hu.flag, hu.counts]
    · simp only [hu.counts]
  · obtain ⟨-, s, hs⟩ := h.refused haccepts run.state
    obtain ⟨-, t, ht⟩ := (usable_new tree options).refused haccepts tree.source.start
    simp only [hs, ht]

/-- **Whatever is done with a usable plan, it stays usable.** -/
theorem Usable.used (h : Usable tree options run.state initialized) (u : Use) :
    ∃ run' initialized', use ⟨tree, options, run, initialized⟩ u = ⟨tree, options, run', initialized'⟩ ∧
      Usable tree options run'.state initialized' := by
  cases u with
  | drain => exact ⟨{ run with draining := true }, initialized, rfl, h⟩
  | execute g n =>
    unfold use execute
    by_cases haccepts : tree.Accepts options
    · obtain ⟨s, t, hs, -, hsame⟩ := h.prepared haccepts
      have hread := readAll_alike (g := g) hsame.left n
      simp only [hs]
      have hready : ∀ {v : tree.State}, tree.Indistinct options v v → Usable tree options v true :=
        fun hv => ⟨fun hno => Bool.noConfusion hno, fun _ => haccepts, fun _ => hv⟩
      cases hr : readAll tree g (⟨(s, #[]), false⟩, n) with
      | ok a v =>
        rw [hr] at hread
        cases hread with
        | ok _ hv => exact ⟨_, true, rfl, hready hv.state.1.left⟩
      | error e v =>
        rw [hr] at hread
        cases hread with
        | error _ hv => exact ⟨_, true, rfl, hready hv.state.1.left⟩
    · obtain ⟨rfl, s, hs⟩ := h.refused haccepts run.state
      simp only [hs]
      exact ⟨⟨s, false⟩, false, rfl, fun _ hno => absurd hno haccepts, fun hno => Bool.noConfusion hno,
        fun hno => Bool.noConfusion hno⟩

/-- What any history of uses leaves of a new plan. -/
theorem usable_history (tree : OperatorTree) (options : ExecOptions) (history : List Use) :
    ∃ run initialized, history.foldl use (new tree options) = ⟨tree, options, run, initialized⟩ ∧
      Usable tree options run.state initialized := by
  have hfrom : ∀ (run : Run tree.State) (initialized : Bool), Usable tree options run.state initialized →
      ∃ run' initialized', history.foldl use ⟨tree, options, run, initialized⟩ =
        ⟨tree, options, run', initialized'⟩ ∧ Usable tree options run'.state initialized' := by
    induction history with
    | nil => exact fun run initialized h => ⟨run, initialized, rfl, h⟩
    | cons u history ih =>
      intro run initialized h
      obtain ⟨run₁, initialized₁, heq, h₁⟩ := h.used u
      rw [List.foldl_cons, heq]
      exact ih run₁ initialized₁ h₁
  exact hfrom _ _ (usable_new tree options)

/-- **Run again, a plan answers as a new one over the same tree**: the same records and flag, or the same
failure, and as many calls. It does not matter what has been done with it: on which graphs it has run, whether
a run was drained or failed, and where. Its replica answers the same. -/
theorem execute_again (tree : OperatorTree) (options : ExecOptions) (history : List Use) (g : Graph)
    (n : CallCounts) :
    let p := history.foldl use (new tree options)
    p.answer g n = (new tree options).answer g n ∧
      p.replicate.answer g n = (new tree options).answer g n := by
  intro p
  obtain ⟨run, initialized, hp, h⟩ := usable_history tree options history
  change p = _ at hp
  rw [hp, replicate_eq]
  exact ⟨h.answer_eq, rfl⟩

end Plan

end Adjacency
