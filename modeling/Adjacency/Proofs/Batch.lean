import Adjacency.Query.Traverse
import Adjacency.Proofs.Listing
import Adjacency.Proofs.Preparation

/-!
# Expanding one batch

* `Pattern.expansion`: the records that a pattern makes of one record.
* `ensures_fillFilter`: the filter marks the source of each record of the batch in its row.
* `Workspace.Fit`, `Traversal.Fit`: what a traversal keeps from batch to batch.
* `Traversal.Fit.ensures_evaluateBatch`: the result of a batch links each row to the destinations of its
  record.
* `Traversal.Holds`: a traversal in the middle of a result, and the records to come from it.
* `Holds.emit`: the next of them.
-/

namespace Adjacency

open Metered

variable {p : Pattern} {g : Graph} {capacity : Nat}

/-- The pairs that the expression of a pattern links in the graph. -/
def Pattern.links (p : Pattern) (g : Graph) : Nat → Nat → Prop :=
  (p.expr.meaning (Operand.meaning g none .presence)).links

open Classical in
/-- The nodes that a node is linked to, in ascending order. -/
noncomputable def Pattern.destinations (p : Pattern) (g : Graph) (src : NodeId) : List Nat :=
  (List.range g.dim).filter fun d => p.links g src.toNat d

/-- The records that a pattern makes of one: a copy for each node that its source is linked to. -/
noncomputable def Pattern.expansion (p : Pattern) (g : Graph) (r : Record) : List Record :=
  match r.node? p.src with
  | none => []
  | some src => (p.destinations g src).map fun d => r.set p.dst (.node (.ofNat d))

/-- The record has a node of the graph's dimension at the source slot. -/
def Pattern.Binds (p : Pattern) (g : Graph) (r : Record) : Prop :=
  ∃ src, r.node? p.src = some src ∧ src.toNat < g.dim

/-- The pattern can be expanded in the graph: its leaves are square matrices there, and the graph's own
mark what is linked. -/
structure Pattern.Sound (p : Pattern) (g : Graph) : Prop where
  mirrored : g.Mirrored
  formed : p.expr.Formed (Operand.Square g) (· = 1)

theorem Pattern.Sound.shape (h : p.Sound g) :
    (p.expr.meaning (Operand.meaning g none .presence)).shape = some (g.dim, g.dim) :=
  (h.formed.mono fun _ hs => hs.2.2).shape_square

/-- A graph with a square matrix is not too large. -/
theorem Pattern.Sound.dim_le (h : p.Sound g) : g.dim ≤ maxDim := by
  obtain ⟨source, hregistered, htyped, hshape⟩ := h.formed.exists_leaf
  have hleaf : Expression.Sound { graph := g } (fun _ => False) .presence source :=
    h.mirrored.leafMeans htyped (.inl hregistered)
  obtain ⟨hok, herror⟩ := hleaf false
  cases hm : Expression.leafMatrix { graph := g } source false with
  | error e => exact (herror e hm).2.elim
  | ok m =>
    have hmeans := hok m hm
    have hdim := hmeans.shape.symm.trans hshape
    rw [Option.some.injEq, Prod.mk.injEq] at hdim
    rw [← hdim.1]
    exact hmeans.inv.nrows_le

namespace Traversal

/-! ## Filling the filter -/

/-- **The filter marks the source of each record in the record's row.** -/
theorem ensures_fillFilter {rows cols src : Nat} {batch : List (Record × Nat)} {f : Matrix}
    {q : Nat → Nat → Prop} (hf : f.Marked rows cols q)
    (hbatch : ∀ x ∈ batch, x.2 < rows ∧ ∃ id, x.1.node? src = some id ∧ id.toNat < cols) :
    Ensures (fillFilter src batch) f
      (fun _ t => t.Marked rows cols fun row col => q row col ∨
        ∃ x ∈ batch, x.2 = row ∧ (x.1.node? src).map NodeId.toNat = some col)
      (fun e _ => e.OfMemory) := by
  induction batch generalizing f q with
  | nil =>
    refine hf.ensures_wait.mono (fun _ t ht => ht.congr fun row col => ?_) fun _ _ he => he
    simp
  | cons x batch ih =>
    obtain ⟨r, row⟩ := x
    obtain ⟨⟨hrow, id, hid, hcol⟩, hrest⟩ := List.forall_mem_cons.1 hbatch
    unfold fillFilter
    simp only [hid]
    refine (ensures_discard ((hf.ensures_set hrow hcol).mono (fun _ _ h => h) fun _ _ h => h)).bind ?_
    intro _ t ht
    refine (ih ht hrest).mono (fun _ u hu => hu.congr fun i j => ?_) fun _ _ he => he
    simp only [List.mem_cons, exists_eq_or_imp, hid, Option.map_some, Option.some.injEq, or_assoc,
      eq_comm]

/-- Filled for a batch, an empty filter marks the sources of the batch, by row. -/
theorem ensures_fillFilter_batch {batch : Array Record} {f : Matrix} (hsize : batch.size ≤ capacity)
    (hbinds : ∀ r ∈ batch, p.Binds g r) (hf : f.Marked capacity g.dim fun _ _ => False) :
    Ensures (fillFilter p.src batch.toList.zipIdx) f
      (fun _ t => t.Marked capacity g.dim fun row k =>
        (batch[row]?.bind (·.node? p.src)).map NodeId.toNat = some k)
      (fun e _ => e.OfMemory) := by
  have hrows : ∀ x ∈ batch.toList.zipIdx, x.2 < capacity ∧ p.Binds g x.1 := by
    rintro ⟨r, row⟩ hx
    obtain ⟨hlt, hr⟩ := List.mem_zipIdx' hx
    rw [Array.length_toList] at hlt
    refine ⟨Nat.lt_of_lt_of_le hlt hsize, hbinds r ?_⟩
    simp only [hr, Array.getElem_toList, Array.getElem_mem]
  refine (ensures_fillFilter hf hrows).mono (fun _ t ht => ht.congr fun row k => ?_) fun _ _ he => he
  constructor
  · rintro (hno | ⟨⟨r, _⟩, hx, rfl, hk⟩)
    · exact hno.elim
    · rw [List.mem_zipIdx_iff_getElem?, Array.getElem?_toList] at hx
      rw [hx, Option.bind_some]
      exact hk
  · intro hk
    obtain ⟨src, hsrc, -⟩ := Option.map_eq_some_iff.1 hk
    obtain ⟨r, hr, -⟩ := Option.bind_eq_some_iff.1 hsrc
    refine .inr ⟨(r, row), ?_, rfl, ?_⟩
    · rw [List.mem_zipIdx_iff_getElem?, Array.getElem?_toList]
      exact hr
    · rw [hr, Option.bind_some] at hk
      exact hk

/-! ## Acting on the matrices of a batch -/

variable {t : Traversal} {w : Workspace} {α : Type} {act : Metered Matrix α}
  {okPart : α → Matrix → Prop} {badPart : GraphError → Matrix → Prop} {good : α → Traversal → Prop}
  {bad : GraphError → Traversal → Prop}

theorem ensures_onFilter (hw : t.workspace = some w) (h : Ensures act w.filter okPart badPart)
    (hok : ∀ a m, okPart a m → good a { t with workspace := some { w with filter := m } })
    (hbad : ∀ e m, badPart e m → bad e { t with workspace := some { w with filter := m } }) :
    Ensures (onFilter act) t good bad := by
  unfold onFilter
  refine ensures_withinTaken (show Ensures act _ okPart badPart by rwa [hw]) ?_ ?_
  · intro a m ha
    simpa only [hw, Option.map_some] using hok a m ha
  · intro e m he
    simpa only [hw, Option.map_some] using hbad e m he

theorem ensures_onResult (hw : t.workspace = some w) (h : Ensures act w.result okPart badPart)
    (hok : ∀ a m, okPart a m → good a { t with workspace := some { w with result := m } })
    (hbad : ∀ e m, badPart e m → bad e { t with workspace := some { w with result := m } }) :
    Ensures (onResult act) t good bad := by
  unfold onResult
  refine ensures_withinTaken (show Ensures act _ okPart badPart by rwa [hw]) ?_ ?_
  · intro a m ha
    simpa only [hw, Option.map_some] using hok a m ha
  · intro e m he
    simpa only [hw, Option.map_some] using hbad e m he

end Traversal

/-! ## From batch to batch -/

/-- The matrices are as large as a batch and the graph ask for, and the filter is empty. -/
structure Workspace.Fit (g : Graph) (capacity : Nat) (w : Workspace) : Prop where
  filter : w.filter.Marked capacity g.dim fun _ _ => False
  inv : w.result.Inv
  shape : (Matrix.blank .bool capacity g.dim true .sparseFamily).SameShape w.result

namespace Traversal

variable {t : Traversal}

/-- What a traversal has made so far can be used for the next batch. -/
structure Fit (p : Pattern) (g : Graph) (capacity : Nat) (t : Traversal) : Prop where
  capacity_eq : t.capacity = capacity
  workspace : ∀ w, t.workspace = some w → w.Fit g capacity
  prepared : ∀ e, t.prepared = some e → Expression.Filtered g p.expr e

/-- The source node of the record that a row belongs to is linked to the column. -/
def Linked (p : Pattern) (g : Graph) (batch : Array Record) (row col : Nat) : Prop :=
  ∃ src, (batch[row]?.bind (·.node? p.src)) = some src ∧ p.links g src.toNat col

theorem Fit.ensures_ensureWorkspace (hp : p.Sound g) (hcapacity : capacity ≤ maxDim)
    (h : t.Fit p g capacity) : Ensures (ensureWorkspace g) t
      (fun _ u => u.Fit p g capacity ∧ u.batch = t.batch ∧ ∃ w, u.workspace = some w)
      (fun e _ => e.OfMemory) := by
  unfold ensureWorkspace
  refine ensures_subject (ensures_ite (fun _ => ?_) fun hkeep => ensures_pure ⟨h, rfl, ?_⟩)
  · have hnew : Matrix.withOptions .bool t.capacity g.dim .sparseFamily =
        .ok (Matrix.blank .bool capacity g.dim true .sparseFamily) :=
      Matrix.withOptions_eq_ok_iff.2 ⟨h.capacity_eq ▸ hcapacity, hp.dim_le, by rw [h.capacity_eq]⟩
    have hblank : (Matrix.blank .bool capacity g.dim true .sparseFamily).Marked capacity g.dim
        fun _ _ => False := Matrix.marked_blank hcapacity hp.dim_le (by decide)
    refine ensures_require_then (fun e he => ?_) fun m hm => ensures_put ⟨⟨h.capacity_eq, ?_, h.prepared⟩,
      rfl, _, rfl⟩
    · rw [hnew] at he
      cases he
    · rw [hnew] at hm
      rintro w ⟨⟩
      rw [← Except.ok.inj hm]
      exact ⟨hblank, hblank.inv, Matrix.SameShape.refl _⟩
  · cases hw : t.workspace with
    | none =>
      rw [hw] at hkeep
      exact absurd rfl hkeep
    | some w => exact ⟨w, rfl⟩

theorem Fit.ensures_ensurePrepared (hp : p.Sound g) (h : t.Fit p g capacity) :
    Ensures (ensurePrepared p g) t
      (fun e u => (u.Fit p g capacity ∧ u.batch = t.batch ∧ u.workspace = t.workspace) ∧
        Expression.Filtered g p.expr e)
      (fun e _ => e.OfMemory) := by
  unfold ensurePrepared
  refine ensures_subject ?_
  split
  · next e he => exact ensures_pure ⟨⟨h, rfl, rfl⟩, h.prepared e he⟩
  · refine (hp.formed.ensures_filtered hp.mirrored).andThen (fun _ _ he => he.2) ?_
    rintro e u ⟨rfl, he⟩
    refine ensures_update_then (ensures_pure ⟨⟨⟨h.capacity_eq, h.workspace, ?_⟩, rfl, rfl⟩, he⟩)
    rintro _ ⟨⟩
    exact he

/-- The filter is filled for the batch. -/
theorem ensures_fillBatchFilter {w : Workspace} (hw : t.workspace = some w) (hfit : w.Fit g capacity)
    (hsize : t.batch.size ≤ capacity) (hbinds : ∀ r ∈ t.batch, p.Binds g r) :
    Ensures (onFilter (fillFilter p.src t.batch.toList.zipIdx)) t
      (fun _ u => ∃ f : Matrix, u = { t with workspace := some { w with filter := f } } ∧
        f.Marked capacity g.dim fun row k =>
          (t.batch[row]?.bind (·.node? p.src)).map NodeId.toNat = some k)
      (fun e _ => e.OfMemory) :=
  ensures_onFilter hw (ensures_fillFilter_batch hsize hbinds hfit.filter)
    (fun _ f hf => ⟨f, rfl, hf⟩) fun _ _ he => he

/-- Evaluated under the sources of a batch, the filtered expression leaves the links of the batch. -/
theorem ensures_evaluateFiltered (hp : p.Sound g) {e : Expression} (he : Expression.Filtered g p.expr e)
    {batch : Array Record} {w : Workspace} {f : Matrix} (hw : t.workspace = some { w with filter := f })
    (hfit : w.Fit g capacity)
    (hf : f.Marked capacity g.dim fun row k =>
      (batch[row]?.bind (·.node? p.src)).map NodeId.toNat = some k) :
    Ensures (onResult (e.evalInto (Expression.filterContext g f))) t
      (fun _ u => ∃ m : Matrix, u = { t with workspace := some ⟨f, m⟩ } ∧ m.Inv ∧
        (Matrix.blank .bool capacity g.dim true .sparseFamily).SameShape m ∧ m.deferred = false ∧
        ∀ row col, (∃ v, m.cell row col = some v) ↔ Linked p g batch row col)
      (fun e _ => e.OfMemory) := by
  refine ensures_onResult hw (he.ensures_evalInto hp.shape hf hfit.inv hfit.shape.type
    hfit.shape.nrows hfit.shape.ncols) (fun _ m hm => ?_) fun _ _ he => he
  obtain ⟨hinv, hs, hdef, hcell⟩ := hm
  refine ⟨m, rfl, hinv, hfit.shape.trans hs, hdef, fun row col => (hcell row col).trans ?_⟩
  simp only [Option.map_eq_some_iff]
  constructor
  · rintro ⟨_, ⟨src, hsrc, rfl⟩, hlinks⟩
    exact ⟨src, hsrc, hlinks⟩
  · rintro ⟨src, hsrc, hlinks⟩
    exact ⟨_, ⟨src, hsrc, rfl⟩, hlinks⟩

theorem ensures_clearFilter {w : Workspace} (hw : t.workspace = some w) : Ensures (onFilter Matrix.clear) t
    (fun _ u => u = { t with workspace := some { w with filter := w.filter.cleared } })
    (fun _ _ => False) := by
  have hclear : Ensures Matrix.clear w.filter (fun _ f => f = w.filter.cleared) (fun _ _ => False) :=
    ensures_update rfl
  refine ensures_onFilter hw hclear (fun _ f hf => ?_) fun _ _ he => he
  rw [hf]

/-- **A batch is evaluated**: the result links the row of each record to the destinations of its
source. -/
theorem Fit.ensures_evaluateBatch (hp : p.Sound g) (hcapacity : capacity ≤ maxDim)
    (h : t.Fit p g capacity) (hsize : t.batch.size ≤ capacity) (hbinds : ∀ r ∈ t.batch, p.Binds g r) :
    Ensures (evaluateBatch p g) t
      (fun _ u => u.Fit p g capacity ∧ u.batch = t.batch ∧ u.phase = .emitting ∧ u.cursor = {} ∧
        ∃ w, u.workspace = some w ∧ w.result.deferred = false ∧
          ∀ row col, (∃ v, w.result.cell row col = some v) ↔ Linked p g t.batch row col)
      (fun e _ => e.OfMemory) := by
  unfold evaluateBatch
  refine (h.ensures_ensureWorkspace hp hcapacity).bind ?_
  rintro _ t₁ ⟨h₁, hb₁, w, hw₁⟩
  refine (h₁.ensures_ensurePrepared hp).bind ?_
  rintro e t₂ ⟨⟨h₂, hb₂, hw₂⟩, he⟩
  have hbatch : t₂.batch = t.batch := hb₂.trans hb₁
  have hw : t₂.workspace = some w := hw₂.trans hw₁
  have hfit := h₂.workspace w hw
  rw [← hbatch] at hsize hbinds ⊢
  refine ensures_subject ((ensures_fillBatchFilter hw hfit hsize hbinds).bind ?_)
  rintro _ _ ⟨f, rfl, hf⟩
  refine ensures_tally_then (ensures_subject ?_)
  refine (ensures_evaluateFiltered hp he rfl hfit hf).bind ?_
  rintro _ _ ⟨m, rfl, hinv, hs, hdef, hcell⟩
  refine (ensures_clearFilter rfl).andThen (fun _ _ he => he.elim) ?_
  rintro _ _ rfl
  refine ensures_update ⟨⟨h₂.capacity_eq, ?_, h₂.prepared⟩, rfl, rfl, rfl, _, rfl, hdef, hcell⟩
  rintro w' ⟨⟩
  exact ⟨hf.cleared, hinv, hs⟩

/-! ## Delivering the result -/

/-- The traversal is in the middle of a result, and `out` is to come from it. -/
structure Holds (p : Pattern) (g : Graph) (capacity : Nat) (out : List Record) (t : Traversal) : Prop where
  fit : t.Fit p g capacity
  phase : t.phase = .emitting
  result : ∃ w, t.workspace = some w ∧ t.cursor.Fits w.result ∧
    (∀ u ∈ w.result.rest t.cursor, ∃ r ∈ t.batch[u.row]?, (r.node? p.src).isSome) ∧
    (w.result.rest t.cursor).map (fun u =>
      (t.batch.getD u.row default).set p.dst (.node (.ofNat u.col))) = out

open Classical in
/-- The links of a record's row give what the pattern makes of the record. -/
theorem expansion_of_linked {batch : Array Record} (hbinds : ∀ r ∈ batch, p.Binds g r) {row : Nat}
    (hrow : row < batch.size) :
    (((List.range g.dim).filter fun col => Linked p g batch row col).map (row, ·)).map
        (fun c => (batch.getD c.1 default).set p.dst (.node (.ofNat c.2))) =
      p.expansion g (batch.getD row default) := by
  have hget : batch[row]? = some (batch.getD row default) := by simp [hrow]
  obtain ⟨src, hsrc, -⟩ := hbinds _ (Array.mem_of_getElem? hget)
  have hlinked : ∀ col, Linked p g batch row col ↔ p.links g src.toNat col := by
    intro col
    unfold Linked
    rw [hget, Option.bind_some, hsrc]
    simp
  unfold Pattern.expansion
  simp only [hsrc, hlinked, Pattern.destinations, List.map_map]
  rfl

open Classical in
/-- An evaluated batch gives what the pattern makes of its records, in order. -/
theorem holds_of_evaluated (h : t.Fit p g capacity) (hphase : t.phase = .emitting)
    (hcursor : t.cursor = {}) (hbinds : ∀ r ∈ t.batch, p.Binds g r) {w : Workspace}
    (hw : t.workspace = some w) (hdef : w.result.deferred = false)
    (hcell : ∀ row col, (∃ v, w.result.cell row col = some v) ↔ Linked p g t.batch row col) :
    t.Holds p g capacity (t.batch.toList.flatMap (p.expansion g)) := by
  have hfit := h.workspace w hw
  have hlt : ∀ row col, Linked p g t.batch row col → row < t.batch.size ∧ col < g.dim := by
    intro row col hl
    obtain ⟨v, hv⟩ := (hcell row col).2 hl
    obtain ⟨src, hsrc, -⟩ := hl
    obtain ⟨r, hr, -⟩ := Option.bind_eq_some_iff.1 hsrc
    have hcol := (hfit.inv.lt_of_cell hv).2
    rw [hfit.shape.ncols] at hcol
    exact ⟨(Array.getElem?_eq_some_iff.1 hr).1, hcol⟩
  have hrows := hfit.inv.rest_rows hfit.shape.byRow hdef hcell hlt
  refine ⟨h, hphase, w, hw, hcursor ▸ hfit.inv.laid.fits_start, fun u hu => ?_, ?_⟩
  · rw [hcursor] at hu
    have hmem : (u.row, u.col) ∈ (w.result.rest {}).map fun t => (t.row, t.col) :=
      List.mem_map_of_mem hu
    rw [hrows] at hmem
    obtain ⟨row, -, hin⟩ := List.mem_flatMap.1 hmem
    obtain ⟨col, hcol, heq⟩ := List.mem_map.1 hin
    obtain ⟨rfl, rfl⟩ := Prod.mk.inj heq
    obtain ⟨src, hsrc, -⟩ := of_decide_eq_true (List.mem_filter.1 hcol).2
    obtain ⟨r, hr, hnode⟩ := Option.bind_eq_some_iff.1 hsrc
    exact ⟨r, hr, Option.isSome_iff_exists.2 ⟨src, hnode⟩⟩
  · calc (w.result.rest t.cursor).map (fun u =>
          (t.batch.getD u.row default).set p.dst (.node (.ofNat u.col)))
        = ((w.result.rest {}).map fun u => (u.row, u.col)).map
            fun c => (t.batch.getD c.1 default).set p.dst (.node (.ofNat c.2)) := by
          rw [hcursor, List.map_map]
          rfl
      _ = (List.range t.batch.size).flatMap fun row => p.expansion g (t.batch.getD row default) := by
          rw [hrows, List.map_flatMap]
          exact List.flatMap_congr fun row hrow => expansion_of_linked hbinds (List.mem_range.1 hrow)
      _ = t.batch.toList.flatMap (p.expansion g) := by
          rw [toList_eq_map_getD t.batch default, List.flatMap_map]

/-- **The next record of the result**, and when there is none, the next batch is due. -/
theorem Holds.ensures_emit (hedge : p.edge = none) {out : List Record} (h : t.Holds p g capacity out) :
    Ensures (emit p g) t
      (fun r u => r = out.head? ∧ (out = [] → u.Fit p g capacity ∧ u.phase = .filling) ∧
        (out ≠ [] → u.Holds p g capacity out.tail))
      (fun _ _ => False) := by
  obtain ⟨w, hw, hfits, horigin, rfl⟩ := h.result
  intro n
  obtain ⟨hnext, hrest⟩ := (h.fit.workspace w hw).inv.laid.next_rest hfits
  have hfit : ∀ v, some w = some v → v.Fit g capacity := fun v hv => h.fit.workspace v (hw.trans hv)
  unfold emit
  simp only [hw]
  cases hleft : w.result.rest t.cursor with
  | nil =>
    rw [hleft] at hnext
    obtain ⟨c, hc⟩ : ∃ c, t.cursor.next w.result = (none, c) := ⟨_, Prod.ext hnext rfl⟩
    simp only [hc]
    exact ⟨rfl, (fun _ => ⟨⟨h.fit.capacity_eq, hfit, h.fit.prepared⟩, trivial⟩),
      fun hne => absurd rfl hne⟩
  | cons u us =>
    rw [hleft] at hnext hrest horigin
    obtain ⟨hfits', htail⟩ := hrest
    obtain ⟨c, hc⟩ : ∃ c, t.cursor.next w.result = (some u, c) := ⟨_, Prod.ext hnext rfl⟩
    rw [hc] at hfits' htail
    obtain ⟨r, hr, hsome⟩ := horigin u List.mem_cons_self
    obtain ⟨src, hsrc⟩ := Option.isSome_iff_exists.1 hsome
    have hrow : t.batch.getD u.row default = r := by
      rw [Array.getD_eq_getD_getElem?, Option.mem_def.1 hr]
      rfl
    have hexpand : expand p g t.batch u = .ok (r.set p.dst (.node (.ofNat u.col)), none) := by
      unfold expand
      rw [Option.mem_def.1 hr]
      simp only [hsrc, hedge]
    simp only [hc, hexpand]
    refine ⟨by rw [List.map_cons, hrow]; rfl, (fun hnil => by cases hnil), fun _ => ?_⟩
    refine ⟨⟨h.fit.capacity_eq, hfit, h.fit.prepared⟩, h.phase, w, rfl, hfits', ?_, ?_⟩
    · rw [htail]
      exact fun v hv => horigin v (List.mem_cons_of_mem u hv)
    · rw [htail]
      rfl

theorem popOwed_eq_none (hedge : p.edge = none) (t : Traversal) : popOwed p t = none := by
  unfold popOwed
  rw [hedge]

end Traversal

end Adjacency
