import Adjacency.Query.Traversal
import Adjacency.Proofs.Evaluation

/-!
# What an action leaves alone

Nothing is asked of the matrices here, of the expression or of the graph: whether an action ends well or
fails part-way, what it leaves behind has some things in common with what it found.

* `Metered.Leaves`: what an action leaves behind, however it ends.
* `Matrix.Durable`, `Durable.leaves_wait`: what any new index leaves true, commits keep.
* `Matrix.leaves_setElement`, `Matrix.leaves_assignFrom`: a change to the content keeps the shape.
* `Expression.leaves_evaluate`, `Expression.leaves_prepared`: values are computed without a trace.
* `Traversal.leaves_evaluateBatch`: **a batch keeps its records, the edges owed and blank matrices**.
-/

namespace Adjacency

namespace Metered

variable {σ τ α β : Type} {s : σ} {P : σ → Prop}

/-- However the action ends, what it leaves behind is in `P`. -/
def Leaves (act : Metered σ α) (s : σ) (P : σ → Prop) : Prop :=
  Ensures act s (fun _ t => P t) fun _ t => P t

theorem Leaves.bind {x : Metered σ α} {k : α → Metered σ β} (hx : Leaves x s P)
    (hk : ∀ a t, P t → Leaves (k a) t P) : Leaves (x >>= k) s P := Ensures.bind hx hk

theorem Leaves.mono {act : Metered σ α} {Q : σ → Prop} (h : Leaves act s P) (hPQ : ∀ t, P t → Q t) :
    Leaves act s Q := Ensures.mono h (fun _ t => hPQ t) fun _ t => hPQ t

theorem leaves_pure {a : α} (h : P s) : Leaves (pure a : Metered σ α) s P := ensures_pure h

theorem leaves_throw {e : GraphError} (h : P s) : Leaves (throw e : Metered σ α) s P := ensures_throw h

theorem leaves_require {x : Except GraphError α} (h : P s) : Leaves (require x) s P :=
  ensures_require (fun _ _ => h) fun _ _ => h

theorem leaves_reserve {n : Nat} {site : MemorySite} (h : P s) : Leaves (reserve n site) s P :=
  ensures_ite (fun _ => ensures_throw h) fun _ => ensures_pure h

theorem leaves_tally {c : Call} (h : P s) : Leaves (tally c) s P := ensures_tally h

theorem leaves_guard {c : Prop} [Decidable c] {e : GraphError} {k : Unit → Metered σ α} (h : P s)
    (hk : Leaves (k ()) s P) : Leaves (if c then (throw e : Metered σ Unit) >>= k else k ()) s P :=
  ensures_guard (fun _ => h) fun _ => hk

theorem leaves_anything (act : Metered σ α) (s : σ) : Leaves act s fun _ => True := by
  intro n
  split <;> trivial

/-- What an action on a value of its own does to that value is of no consequence. -/
theorem leaves_settle {start : τ} {act : Metered τ Unit} (h : P s) : Leaves (settle start act) s P :=
  ensures_settle (leaves_anything act start) (fun _ _ => h) fun _ _ _ => h

end Metered

open Metered

/-! ## Matrices -/

namespace Storage

theorem slots_ofEntries (entries : Array IndexEntry) : (ofEntries entries).slots.size = entries.size := by
  have hfold : ∀ (l : List IndexEntry) (b : Builder), (l.foldl Builder.push b).i.size = b.i.size + l.length := by
    intro l
    induction l with
    | nil => exact fun _ => rfl
    | cons e l ih =>
      intro b
      have hpush : (b.push e).i.size = b.i.size + 1 := by
        unfold Builder.push
        dsimp only
        split <;> exact Array.size_push _
      rw [List.foldl_cons, ih, hpush, List.length_cons]
      omega
  change (entries.foldl Builder.push {}).i.size = _
  rw [← Array.foldl_toList, hfold]
  exact Nat.zero_add _

end Storage

namespace Matrix

variable {σ : Type} {s : σ} {P : σ → Prop} {m m₀ : Matrix}

theorem leaves_buildStorage {vectors : Nat} {entries : Array IndexEntry} (h : P s) :
    Leaves (buildStorage vectors entries) s P :=
  (leaves_reserve h).bind fun _ _ h => (leaves_reserve h).bind fun _ _ h =>
    (leaves_reserve h).bind fun _ _ h => (leaves_reserve h).bind fun _ _ h => leaves_pure h

theorem leaves_ofTuples {type : ScalarType} {nrows ncols : Nat} {byRow : Bool} {ts : List Tuple}
    {op : DupOp} {options : MatrixOptions} (h : P s) :
    Leaves (ofTuples type nrows ncols byRow ts op options) s P :=
  (leaves_require h).bind fun _ _ h => leaves_settle h

theorem leaves_reoriented (m : Matrix) (byRow : Bool) (h : P s) : Leaves (m.reoriented byRow) s P :=
  ensures_ite (fun _ => leaves_pure h) fun _ =>
    (leaves_settle h).bind fun _ _ h => leaves_ofTuples h

theorem leaves_committedRows (m : Matrix) (h : P s) : Leaves m.committedRows s P :=
  ensures_ite (fun _ => leaves_reoriented m true h) fun _ =>
    ensures_ite (fun _ => leaves_settle h) fun _ => leaves_pure h

theorem leaves_product (a b : Matrix) (r : Semiring) (options : MatrixOptions) (h : P s) :
    Leaves (a.product b r options) s P := by
  unfold product
  refine leaves_guard h ?_
  exact (leaves_committedRows a h).bind fun _ _ h => (leaves_committedRows b h).bind fun _ _ h =>
    (leaves_require h).bind fun _ _ h => (leaves_buildStorage h).bind fun _ _ h =>
      (leaves_tally h).bind fun _ _ h => leaves_pure h

theorem leaves_union (a b : Matrix) (op : DupOp) (options : MatrixOptions) (h : P s) :
    Leaves (a.union b op options) s P := by
  unfold union
  refine leaves_guard h ?_
  exact (leaves_committedRows a h).bind fun _ _ h => (leaves_committedRows b h).bind fun _ _ h =>
    leaves_ofTuples h

/-! ### Changes to the content -/

/-- A new content in an old shape. -/
theorem SameShape.store (h : m₀.SameShape m) (store : Storage) (iso : Bool) (pending : Option Pending)
    (zombies : Nat) (jumbled : Bool) :
    m₀.SameShape { m with store, iso, pending, zombies, jumbled } :=
  ⟨h.type, h.nrows, h.ncols, h.byRow, h.options⟩

/-- Memory for as many slots as are built has been had. -/
theorem ensures_buildStorage_slots {vectors : Nat} {entries : Array IndexEntry} (h : P s) :
    Ensures (buildStorage vectors entries) s
      (fun store t => store.slots.size < reservationLimit ∧ P t) (fun _ t => P t) := by
  unfold buildStorage
  refine ensures_reserve (fun _ _ => h) (ensures_reserve (fun _ _ => h) ?_)
  refine ensures_reserve_cases (fun _ => h) fun hn => ensures_reserve (fun _ _ => h) (ensures_pure ⟨?_, h⟩)
  rwa [Storage.slots_ofEntries]

@[simp] theorem slots_keepShared (m : Matrix) (store : Storage) :
    (m.keepShared store).slots = store.slots := by
  unfold keepShared
  split
  · rw [Storage.slots_mapValues]
  · rfl

/-- However a change of format ends, there is the old store or one for whose slots there was memory. -/
theorem leaves_convertTo_of {P : Matrix → Prop} (target : Format) (h : P m)
    (hstore : ∀ store : Storage, store.slots.size < reservationLimit → P { m with store }) :
    Leaves (convertTo target) m P := by
  have hput : ∀ (store : Storage) (t : Matrix), store.slots.size < reservationLimit →
      Leaves (put { m with store := m.keepShared store }) t P :=
    fun store t hslots => ensures_put (hstore _ (by rwa [slots_keepShared]))
  have hnone : (#[] : Array Slot).size < reservationLimit := by decide
  unfold convertTo
  refine ensures_subject (leaves_guard h ((leaves_reserve h).bind fun _ t ht => ?_))
  cases target with
  | full => exact leaves_guard ht ((leaves_reserve ht).bind fun _ t _ => hput _ t hnone)
  | bitmap =>
    exact (leaves_reserve ht).bind fun _ _ ht => (leaves_reserve ht).bind fun _ t _ => hput _ t hnone
  | sparse =>
    refine (ensures_buildStorage_slots ht).bind fun store t ⟨hslots, ht⟩ => ?_
    cases store with
    | hypersparse l p i x => exact (leaves_reserve ht).bind fun _ t _ => hput _ t hslots
    | full x => exact hput _ t hslots
    | bitmap b x n => exact hput _ t hslots
    | sparse p i x => exact hput _ t hslots
  | hypersparse => exact (ensures_buildStorage_slots ht).bind fun _ t ht => hput _ t ht.1

/-- What a commit keeps: it stays true under a new index for whose slots there was memory, and once nothing
is deferred. -/
structure Durable (P : Matrix → Prop) : Prop where
  store : ∀ (m : Matrix) (store : Storage) (iso : Bool), P m → store.slots.size < reservationLimit →
    P { m with store, iso }
  settled : ∀ m : Matrix, P m → P { m with pending := none, zombies := 0, jumbled := false }

namespace Durable

variable {P : Matrix → Prop}

theorem leaves_installSorted (hP : Durable P) {entries : Array IndexEntry} (h : P m) :
    Leaves (installSorted entries) m P := by
  refine (ensures_buildStorage_slots h).bind fun store t ht => ensures_update (hP.store _ _ _ ht.2 ?_)
  split
  · rw [Storage.slots_mapValues]
    exact ht.1
  · exact ht.1

theorem leaves_assemble (hP : Durable P) (h : P m) : Leaves assemble m P := by
  have hmerge : ∀ (op : DupOp) (incoming : List IndexEntry) (t : Matrix), P t →
      Leaves (do
        reserve (m.existing.length + incoming.length) .commitMerge
        installSorted
          (mergePlaces op m.type (m.existing.length + incoming.length + 1) #[] m.existing incoming)
        update fun m => { m with pending := none, zombies := 0, jumbled := false }) t P :=
    fun op incoming t ht => (leaves_reserve ht).bind fun _ _ ht =>
      (hP.leaves_installSorted ht).bind fun _ _ ht => ensures_update (hP.settled _ ht)
  unfold assemble
  refine ensures_subject ((leaves_reserve h).bind fun _ t ht => ?_)
  cases m.pending with
  | none => exact hmerge .second [] t ht
  | some q =>
    exact (leaves_reserve ht).bind fun _ _ ht => (leaves_require ht).bind fun queued t ht =>
      hmerge q.op (m.combined q.op queued) t ht

theorem leaves_convertTo (hP : Durable P) (h : P m) (target : Format) : Leaves (convertTo target) m P :=
  leaves_convertTo_of target h fun store => hP.store m store m.iso h

theorem leaves_conform (hP : Durable P) (h : P m) : Leaves conform m P :=
  ensures_subject (ensures_ite (fun _ => hP.leaves_convertTo h _) fun _ => leaves_pure h)

/-- **However a commit ends, it keeps what is durable.** -/
theorem leaves_wait (hP : Durable P) (h : P m) : Leaves wait m P := by
  have hrest : ∀ t, P t → Leaves (do conform; tally .commit) t P :=
    fun t ht => (hP.leaves_conform ht).bind fun _ _ ht => leaves_tally ht
  unfold wait
  refine ensures_subject (ensures_ite (fun _ => ?_) fun _ => hrest m h)
  exact (hP.leaves_assemble h).bind fun _ t ht => hrest t ht

end Durable

theorem durable_sameShape (m₀ : Matrix) : Durable m₀.SameShape where
  store _ _ _ h _ := h.store _ _ _ _ _
  settled _ h := h.store _ _ _ _ _

theorem leaves_wait (h : m₀.SameShape m) : Leaves wait m m₀.SameShape := (durable_sameShape m₀).leaves_wait h

theorem leaves_expandIso (h : m₀.SameShape m) : Leaves expandIso m m₀.SameShape :=
  ensures_subject (ensures_ite
    (fun _ => (leaves_reserve h).bind fun _ _ _ => ensures_put (h.store _ _ _ _ _))
    fun _ => leaves_pure h)

theorem SameShape.unjumbled (h : m₀.SameShape m) :
    m₀.SameShape (if m.jumbled then m.unjumbled else m) := by
  split
  · exact h.store _ _ _ _ _
  · exact h

theorem leaves_prepareWrite (v : Scalar) (op : DupOp) (h : m₀.SameShape m) :
    Leaves (prepareWrite v op) m m₀.SameShape := by
  unfold prepareWrite
  refine ensures_update_then (ensures_subject ?_)
  generalize hm : (if m.jumbled then m.unjumbled else m) = m₁
  replace h : m₀.SameShape m₁ := hm ▸ h.unjumbled
  refine ensures_ite (fun _ => ?_) fun _ => ?_
  · refine ensures_ite (fun _ => ?_) fun _ => leaves_pure h
    refine ensures_ite (fun _ => ?_) fun _ => leaves_expandIso h
    exact (leaves_wait h).bind fun _ _ ht => leaves_expandIso ht
  · exact ensures_ite (fun _ => ensures_put (h.store _ _ _ _ _)) fun _ => leaves_pure h

theorem leaves_tryWrite (raw v : Scalar) (i j : Nat) (op : DupOp) (h : m₀.SameShape m) :
    Leaves (tryWrite raw v i j op) m m₀.SameShape := by
  have hwritten : ∀ {t : Matrix} (f : Matrix → Matrix) (done : SetOutcome), m₀.SameShape (f t) →
      Leaves (do update f; return some done) t m₀.SameShape :=
    fun f done hf => ensures_update_then (leaves_pure hf)
  unfold tryWrite
  refine (leaves_prepareWrite v op h).bind fun _ t ht => ensures_subject ?_
  split
  · exact hwritten _ _ (ht.store _ _ _ _ _)
  · refine hwritten _ _ ?_
    unfold writeLive
    split
    · exact ht
    · exact ht.store _ _ _ _ _
  · exact hwritten _ _ (ht.store _ _ _ _ _)
  · refine ensures_ite (fun _ => ?_) fun _ => leaves_pure ht
    exact ensures_update_then (ensures_subject (leaves_pure (ht.store _ _ _ _ _)))

theorem leaves_accumulate (raw : Scalar) (row col : Nat) (op : DupOp) (h : m₀.SameShape m) :
    Leaves (accumulate raw row col op) m m₀.SameShape := by
  unfold accumulate
  refine ensures_subject ((leaves_require h).bind fun _ _ h => (leaves_require h).bind fun v t ht => ?_)
  refine (leaves_tryWrite raw v _ _ op ht).bind fun done t ht => ?_
  cases done with
  | some done => exact leaves_pure ht
  | none =>
    refine (leaves_wait ht).bind fun _ _ ht => (leaves_tryWrite raw v _ _ op ht).bind fun done t ht => ?_
    cases done with
    | some done => exact leaves_pure ht
    | none => exact leaves_throw ht

theorem leaves_setElement (raw : Scalar) (row col : Nat) (h : m₀.SameShape m) :
    Leaves (setElement raw row col) m m₀.SameShape := leaves_accumulate raw row col .second h

theorem leaves_clear (h : m₀.SameShape m) : Leaves clear m m₀.SameShape :=
  ensures_update (h.store _ _ _ _ _)

theorem leaves_assignFrom (src : Matrix) (h : m₀.SameShape m) :
    Leaves (assignFrom src) m m₀.SameShape := by
  unfold assignFrom
  refine ensures_subject (leaves_guard h (ensures_ite (fun _ => ?_) fun _ => ?_))
  · exact (leaves_settle h).bind fun _ _ ht => (leaves_ofTuples ht).bind fun _ _ _ =>
      ensures_put (h.store _ _ _ _ _)
  · exact ensures_put (h.store _ _ _ _ _)

end Matrix

/-! ## Expressions -/

namespace Expression

variable {σ : Type} {s : σ} {P : σ → Prop} {ctx : EvalContext} {g : Graph}

/-- The kernels leave alone what they are run on. -/
theorem respected_anything (options : MatrixOptions) (s : σ) :
    Respected (fun _ _ => True) (fun _ _ => True) options s where
  product _ _ := Ensures.mono (Matrix.leaves_product (P := (· = s)) _ _ _ options rfl)
    (fun _ _ ht => ⟨ht, trivial⟩) fun _ _ ht => ⟨ht, trivial⟩
  union _ _ := Ensures.mono (Matrix.leaves_union (P := (· = s)) _ _ _ options rfl)
    (fun _ _ ht => ⟨ht, trivial⟩) fun _ _ ht => ⟨ht, trivial⟩
  transposed _ := trivial
  fails_times _ := trivial
  fails_plus _ := trivial
  fails_swap _ := trivial

/-- **An evaluation changes nothing.** -/
theorem leaves_evaluate (e : Expression) (s : σ) (h : P s) : Leaves (evaluate ctx e) s P := by
  have hgives : Gives (fun _ _ => True) (fun _ _ => True) ctx s e .nothing := by
    induction e using byOperands with
    | operand source transposed =>
      rw [Gives, evaluate]
      exact ensures_require (fun _ _ => ⟨rfl, trivial⟩) fun _ _ => ⟨rfl, trivial⟩
    | operation op es ih =>
      have hes : List.Forall₂ (Gives (fun _ _ => True) (fun _ _ => True) ctx s) es
          (es.map fun _ => Meaning.nothing) := List.forall₂_map_right_iff.2 (List.forall₂_same.2 ih)
      exact (respected_anything ctx.options s).ensures_operation hes fun _ => ⟨trivial, trivial⟩
  exact hgives.mono (fun _ _ ht => ht.1 ▸ h) fun _ _ ht => ht.1 ▸ h

/-- What an evaluation is assigned to keeps its shape. -/
theorem leaves_evalInto (e : Expression) (ctx : EvalContext) {m m₀ : Matrix} (h : m₀.SameShape m) :
    Leaves (e.evalInto ctx) m m₀.SameShape := by
  unfold evalInto
  refine (leaves_evaluate e m h).bind fun value t ht => ensures_subject (leaves_guard ht ?_)
  exact (Matrix.leaves_assignFrom value ht).bind fun _ _ ht => (Matrix.leaves_wait ht).bind fun _ _ ht =>
    leaves_tally ht

theorem leaves_preparedLeaf (source : Operand) (transposed : Bool) (h : P s) :
    Leaves (preparedLeaf g source transposed) s P := by
  unfold preparedLeaf
  refine ensures_ite (fun _ => leaves_pure h) fun _ => (leaves_require h).bind fun m t ht => ?_
  exact ensures_ite (fun _ => leaves_pure ht) fun _ =>
    (Matrix.leaves_committedRows m ht).bind fun _ _ ht => leaves_pure ht

theorem leaves_preparedAll {es : List Expression}
    (hes : ∀ e ∈ es, ∀ s, P s → Leaves (prepared g e) s P) (h : P s) :
    Leaves (preparedAll g es) s P := by
  induction es generalizing s with
  | nil =>
    rw [preparedAll]
    exact leaves_pure h
  | cons e es ih =>
    rw [preparedAll]
    refine (hes e List.mem_cons_self s h).bind fun m t ht => ?_
    exact (ih (fun d hd => hes d (List.mem_cons_of_mem e hd)) ht).bind fun _ _ ht => leaves_pure ht

/-- **Preparing an expression changes nothing.** -/
theorem leaves_prepared (e : Expression) : ∀ s : σ, P s → Leaves (prepared g e) s P := by
  induction e using byOperands with
  | operand source transposed =>
    intro s h
    rw [prepared]
    exact leaves_preparedLeaf source transposed h
  | operation op es ih =>
    intro s h
    rw [prepared]
    exact (leaves_preparedAll ih h).bind fun _ _ ht => leaves_pure ht

end Expression

/-! ## Batches -/

/-- Cleared, both matrices are the empty one that a batch starts with. -/
def Workspace.Blank (capacity : Nat) (w : Workspace) : Prop :=
  ∃ m cols, Matrix.withOptions .bool capacity cols .sparseFamily = .ok m ∧
    m.SameShape w.filter ∧ m.SameShape w.result

namespace Traversal

/-- What a traversal has in common with what it was: its capacity, its batch, the edges owed, and blank
matrices if it has any. It stays initialised. -/
structure Kept (t u : Traversal) : Prop where
  capacity : u.capacity = t.capacity
  batch : u.batch = t.batch
  owed : u.owed = t.owed
  phase : t.phase ≠ .uninitialized → u.phase ≠ .uninitialized
  workspace : (∀ w, t.workspace = some w → w.Blank t.capacity) → ∀ w, u.workspace = some w →
    w.Blank u.capacity

variable {t u v : Traversal} {p : Pattern} {g : Graph} {α : Type}

theorem Kept.refl (t : Traversal) : t.Kept t := ⟨rfl, rfl, rfl, id, id⟩

theorem Kept.trans (h : t.Kept u) (h' : u.Kept v) : t.Kept v :=
  ⟨h'.capacity.trans h.capacity, h'.batch.trans h.batch, h'.owed.trans h.owed,
    fun ht => h'.phase (h.phase ht), fun ht => h'.workspace (h.workspace ht)⟩

theorem leaves_ensureWorkspace (t : Traversal) : Leaves (ensureWorkspace g) t t.Kept := by
  unfold ensureWorkspace
  refine ensures_subject (ensures_ite (fun _ => ?_) fun _ => leaves_pure (Kept.refl t))
  refine ensures_require_then (fun _ _ => Kept.refl t) fun m hm => ensures_put ⟨rfl, rfl, rfl, id, ?_⟩
  rintro - w ⟨⟩
  exact ⟨m, g.dim, hm, .refl m, .refl m⟩

theorem leaves_ensurePrepared (p : Pattern) (t : Traversal) : Leaves (ensurePrepared p g) t t.Kept := by
  unfold ensurePrepared
  refine ensures_subject ?_
  split
  · exact leaves_pure (Kept.refl t)
  · refine (Expression.leaves_prepared (P := t.Kept) _ t (Kept.refl t)).bind fun e u hu => ?_
    exact ensures_update_then (leaves_pure (hu.trans ⟨rfl, rfl, rfl, id, id⟩))

theorem leaves_fillFilter (src : Nat) (batch : List (Record × Nat)) {f f₀ : Matrix}
    (h : f₀.SameShape f) : Leaves (fillFilter src batch) f f₀.SameShape := by
  induction batch generalizing f with
  | nil => exact Matrix.leaves_wait h
  | cons x batch ih =>
    obtain ⟨r, row⟩ := x
    unfold fillFilter
    split
    · exact leaves_throw h
    · refine Leaves.bind ?_ fun _ _ hf => ih hf
      exact ensures_discard ((Matrix.leaves_setElement _ _ _ h).mono fun _ ht => ht)

/-- Changing the matrices keeps the rest, if matrices that were blank stay so. -/
theorem kept_map_workspace {f : Workspace → Workspace}
    (hf : ∀ w capacity, t.workspace = some w → w.Blank capacity → (f w).Blank capacity) :
    t.Kept { t with workspace := t.workspace.map f } := by
  refine ⟨rfl, rfl, rfl, id, fun ht w hw => ?_⟩
  obtain ⟨w₀, hw₀, rfl⟩ := Option.map_eq_some_iff.1 hw
  exact hf w₀ _ hw₀ (ht w₀ hw₀)

/-- An action that keeps the shape of the filter keeps what a batch keeps. -/
theorem leaves_onFilter {act : Metered Matrix α}
    (h : ∀ f : Matrix, Leaves act f f.SameShape) (t : Traversal) : Leaves (onFilter act) t t.Kept := by
  have hkept : ∀ f, (t.workspace.map Workspace.filter).getD default |>.SameShape f →
      t.Kept { t with workspace := t.workspace.map fun w => { w with filter := f } } := by
    refine fun f hf => kept_map_workspace fun w capacity hw ⟨m, cols, hm, hfilter, hresult⟩ => ?_
    rw [hw] at hf
    exact ⟨m, cols, hm, hfilter.trans hf, hresult⟩
  unfold onFilter
  refine ensures_withinTaken (h _) (fun _ f hf => ?_) fun _ f hf => ?_
  all_goals
    rw [Option.map_map]
    exact hkept f hf

/-- An action that keeps the shape of the result keeps what a batch keeps. -/
theorem leaves_onResult {act : Metered Matrix α}
    (h : ∀ m : Matrix, Leaves act m m.SameShape) (t : Traversal) : Leaves (onResult act) t t.Kept := by
  have hkept : ∀ r, (t.workspace.map Workspace.result).getD default |>.SameShape r →
      t.Kept { t with workspace := t.workspace.map fun w => { w with result := r } } := by
    refine fun r hr => kept_map_workspace fun w capacity hw ⟨m, cols, hm, hfilter, hresult⟩ => ?_
    rw [hw] at hr
    exact ⟨m, cols, hm, hfilter, hresult.trans hr⟩
  unfold onResult
  refine ensures_withinTaken (h _) (fun _ r hr => ?_) fun _ r hr => ?_
  all_goals
    rw [Option.map_map]
    exact hkept r hr

/-- **Evaluated or not, a batch stays as it was read, and so do the edges owed.** The matrices are blank
ones still, once cleared. -/
theorem leaves_evaluateBatch (p : Pattern) (g : Graph) (t : Traversal) :
    Leaves (evaluateBatch p g) t t.Kept := by
  have hnext : ∀ {α β : Type} {x : Metered Traversal α} {k : α → Metered Traversal β} {u : Traversal},
      t.Kept u → Leaves x u u.Kept → (∀ a v, t.Kept v → Leaves (k a) v t.Kept) →
      Leaves (x >>= k) u t.Kept := fun hu hx hk => (hx.mono fun _ hv => hu.trans hv).bind hk
  unfold evaluateBatch
  refine hnext (Kept.refl t) (leaves_ensureWorkspace t) fun _ u hu => ?_
  refine hnext hu (leaves_ensurePrepared p u) fun e u hu => ensures_subject ?_
  refine hnext hu (leaves_onFilter (fun f => leaves_fillFilter _ _ (.refl f)) u) fun _ u hu => ?_
  refine ensures_tally_then (ensures_subject ?_)
  refine hnext hu (leaves_onResult (fun m => Expression.leaves_evalInto e _ (.refl m)) u) fun _ u hu => ?_
  refine hnext hu (leaves_onFilter (fun f => Matrix.leaves_clear (.refl f)) u) fun _ u hu => ?_
  exact ensures_update (hu.trans ⟨rfl, rfl, rfl, (fun _ => TraversalPhase.noConfusion), id⟩)

/-- An evaluated batch is delivered next. -/
theorem ensures_evaluateBatch_phase (p : Pattern) (g : Graph) (t : Traversal) :
    Ensures (evaluateBatch p g) t (fun _ u => u.phase = .emitting) (fun _ _ => True) := by
  have hnext : ∀ {α β : Type} {x : Metered Traversal α} {k : α → Metered Traversal β} {u : Traversal}
      {good : β → Traversal → Prop}, (∀ a v, Ensures (k a) v good (fun _ _ => True)) →
      Ensures (x >>= k) u good (fun _ _ => True) :=
    fun hk => Ensures.bind (leaves_anything _ _) fun a v _ => hk a v
  unfold evaluateBatch
  refine hnext fun _ _ => hnext fun _ _ => ensures_subject (hnext fun _ _ => ?_)
  refine ensures_tally_then (ensures_subject (hnext fun _ _ => hnext fun _ _ => ?_))
  exact ensures_update rfl

end Traversal

end Adjacency
