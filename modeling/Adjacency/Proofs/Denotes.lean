import Adjacency.Proofs.Evaluation

/-!
# The denotation of an expression

* `Operand.Registered`, `Operand.Typed`: leaves that resolve, and the element types of leaves.
* `Graph.Inv.leafMeans`: a leaf reads what it means out of the graph, whatever is still deferred there.
* `Expression.denoted`: the value of an expression at a pair.
* `Formed.evalInto_denotes`: **an evaluation goes through exactly when shapes agree, and leaves the
  denotation.**
-/

namespace Adjacency

open Metered

/-- The leaf has a matrix to read. -/
def Operand.Registered (g : Graph) (filter : Option Matrix) : Operand → Prop
  | .relation id => id.toNat < g.relations.size
  | .label id => id.toNat < g.labels.size
  | .matrix _ => True
  | .filter => filter.isSome

/-- A matrix that the leaf brings along is one there can be, with an element type as required. -/
def Operand.Typed (filter : Option Matrix) (p : ScalarType → Prop) : Operand → Prop
  | .relation _ | .label _ => True
  | .matrix m => m.Reachable ∧ p m.type
  | .filter => ∀ m ∈ filter, m.Reachable ∧ p m.type

theorem Operand.Typed.mono {filter : Option Matrix} {p q : ScalarType → Prop} {source : Operand}
    (h : source.Typed filter p) (hpq : ∀ ty, p ty → q ty) : source.Typed filter q := by
  cases source with
  | relation id => trivial
  | label id => trivial
  | matrix m => exact ⟨h.1, hpq _ h.2⟩
  | filter => exact fun m hm => ⟨(h m hm).1, hpq _ (h m hm).2⟩

section Leaves

variable {ctx : EvalContext} {a : Aspect} {F : GraphError → Prop}

theorem Matrix.Marked.means {m : Matrix} {rows cols : Nat} {p : Nat → Nat → Prop} {x : Meaning}
    (h : m.Marked rows cols p) (hshape : x.shape = some (rows, cols))
    (hlinks : ∀ r c, p r c ↔ x.links r c) : m.Means a x := by
  refine ⟨h.inv, h.type ▸ a.reads_bool, by rw [hshape, h.nrows, h.ncols], fun row col => ?_⟩
  rw [h.inv.shows_iff, ← hlinks]
  constructor
  · rintro ⟨v, hv, -⟩
    exact ((h.cell row col v).1 hv).1
  · intro hp
    refine ⟨.bool true, (h.cell row col _).2 ⟨hp, rfl⟩, ?_⟩
    cases a with
    | presence => trivial
    | truth => rfl

theorem Matrix.Inv.means {m : Matrix} (h : m.Inv) (hreads : a.Reads m.type) :
    m.Means a ⟨some (m.nrows, m.ncols), m.Shows a⟩ := ⟨h, hreads, rfl, fun _ _ => Iff.rfl⟩

theorem Matrix.Means.turned {m : Matrix} {x : Meaning} (h : m.Means a x) (transposed : Bool) :
    (if transposed then m.transposed else m).Means a (if transposed then x.swap else x) := by
  cases transposed with
  | false => exact h
  | true => exact h.transposed

theorem Graph.relationMatrix_isOk {g : Graph} {id : RelationId} (transposed : Bool) :
    (∃ m, g.relationMatrix id transposed = .ok m) ↔ id.toNat < g.relations.size := by
  unfold Graph.relationMatrix
  by_cases h : id.toNat < g.relations.size
  · simp [h]
  · simp [h]

theorem Graph.labelMatrix_isOk {g : Graph} {id : LabelId} :
    (∃ m, g.labelMatrix id = .ok m) ↔ id.toNat < g.labels.size := by
  unfold Graph.labelMatrix
  by_cases h : id.toNat < g.labels.size
  · simp [h]
  · simp [h]

theorem Operand.meaning_filter {g : Graph} {m : Matrix} :
    Operand.meaning g (some m) a .filter = ⟨some (m.nrows, m.ncols), m.Shows a⟩ := by
  refine Meaning.ext rfl (funext fun r => funext fun c => propext ?_)
  constructor
  · rintro ⟨_, ⟨⟩, hs⟩
    exact hs
  · exact fun hs => ⟨m, rfl, hs⟩

/-- A matrix that a leaf brings along reads as itself. -/
theorem Matrix.Inv.leafMeans {m : Matrix} (h : m.Inv) (hreads : a.Reads m.type) :
    Expression.LeafMeans ctx a (Operand.meaning ctx.graph ctx.filter a) F (.matrix m) := by
  intro transposed
  constructor
  · intro r hr
    rw [← Except.ok.inj hr]
    exact (h.means hreads).turned transposed
  · intro e he
    cases he

/-- A filter that is supplied reads as itself. -/
theorem Matrix.Inv.leafMeans_filter {m : Matrix} (h : m.Inv) (hreads : a.Reads m.type)
    (hf : ctx.filter = some m) :
    Expression.LeafMeans ctx a (Operand.meaning ctx.graph ctx.filter a) F .filter := by
  intro transposed
  rw [hf, Operand.meaning_filter]
  unfold Expression.leafMatrix
  rw [hf]
  constructor
  · intro r hr
    rw [← Except.ok.inj hr]
    exact (h.means hreads).turned transposed
  · intro e he
    cases he

/-- A relation leaf reads what its edges link, in the matrix that is stored for its direction. -/
theorem Graph.Mirrored.leafMeans_relation (h : ctx.graph.Mirrored) {id : RelationId}
    (hF : id.toNat < ctx.graph.relations.size ∨ ∀ e, F e) :
    Expression.LeafMeans ctx a (Operand.meaning ctx.graph ctx.filter a) F (.relation id) := by
  intro transposed
  constructor
  · intro m hm
    have hshape : (Operand.meaning ctx.graph ctx.filter a (.relation id)).shape =
        some (ctx.graph.dim, ctx.graph.dim) := if_pos ((Graph.relationMatrix_isOk _).1 ⟨m, hm⟩)
    have hmarks := h _ m (Graph.matrix?_of_relationMatrix hm)
    -- the transpose is stored, not computed
    cases transposed with
    | false => exact hmarks.means hshape fun s d => between_id_ne_nil_iff
    | true =>
      exact hmarks.means (congrArg (Option.map Prod.swap) hshape) fun d s => between_id_ne_nil_iff
  · intro e he
    have hout : ¬id.toNat < ctx.graph.relations.size := by
      intro hlt
      obtain ⟨m, hm⟩ := (Graph.relationMatrix_isOk transposed).2 hlt
      rw [Expression.leafMatrix, hm] at he
      cases he
    exact ⟨if_neg hout, hF.resolve_left hout e⟩

/-- A label leaf reads the nodes that carry it, transposed or not. -/
theorem Graph.Mirrored.leafMeans_label (h : ctx.graph.Mirrored) {id : LabelId}
    (hF : id.toNat < ctx.graph.labels.size ∨ ∀ e, F e) :
    Expression.LeafMeans ctx a (Operand.meaning ctx.graph ctx.filter a) F (.label id) := by
  intro transposed
  constructor
  · intro m hm
    have hshape : (Operand.meaning ctx.graph ctx.filter a (.label id)).shape =
        some (ctx.graph.dim, ctx.graph.dim) := if_pos (Graph.labelMatrix_isOk.1 ⟨m, hm⟩)
    have hmarks := h _ m (Graph.matrix?_of_labelMatrix hm)
    cases transposed with
    | false => exact hmarks.means hshape fun r c => and_congr_right fun _ => tagged_iff
    | true =>
      refine hmarks.means (congrArg (Option.map Prod.swap) hshape) fun r c => ?_
      -- a label matrix is diagonal
      constructor
      · rintro ⟨rfl, htag⟩
        exact ⟨rfl, tagged_iff.1 htag⟩
      · rintro ⟨rfl, htag⟩
        exact ⟨rfl, tagged_iff.2 htag⟩
  · intro e he
    have hout : ¬id.toNat < ctx.graph.labels.size := by
      intro hlt
      obtain ⟨m, hm⟩ := Graph.labelMatrix_isOk.2 hlt
      rw [Expression.leafMatrix, hm] at he
      cases he
    exact ⟨if_neg hout, hF.resolve_left hout e⟩

/-- **A leaf reads what it means**, or it is not registered. -/
theorem Graph.Mirrored.leafMeans (h : ctx.graph.Mirrored) {source : Operand} (ht : source.Typed ctx.filter a.Reads)
    (hF : source.Registered ctx.graph ctx.filter ∨ ∀ e, F e) :
    Expression.LeafMeans ctx a (Operand.meaning ctx.graph ctx.filter a) F source := by
  cases source with
  | relation id => exact h.leafMeans_relation hF
  | label id => exact h.leafMeans_label hF
  | matrix m => exact ht.1.inv.leafMeans ht.2
  | filter =>
    intro transposed
    cases hf : ctx.filter with
    | none =>
      rw [hf] at hF
      unfold Expression.leafMatrix
      rw [hf]
      constructor
      · intro m hm
        cases hm
      · exact fun e _ => ⟨rfl, hF.resolve_left Bool.noConfusion e⟩
    | some m =>
      obtain ⟨hm, hreads⟩ := ht m hf
      have hleaf := hm.inv.leafMeans_filter (F := F) hreads hf transposed
      rwa [hf] at hleaf

theorem Graph.Inv.leafMeans (h : ctx.graph.Inv) {source : Operand} (ht : source.Typed ctx.filter a.Reads)
    (hF : source.Registered ctx.graph ctx.filter ∨ ∀ e, F e) :
    Expression.LeafMeans ctx a (Operand.meaning ctx.graph ctx.filter a) F source :=
  h.mirrored.leafMeans ht hF

end Leaves

open Classical in
/-- The value at a pair, out of the pairs with an entry and those with a true one. -/
noncomputable def Meaning.value (presence truth : Meaning) (row col : Nat) : Option Bool :=
  if presence.links row col then some (decide (truth.links row col)) else none

/-- A boolean matrix is known by its entries and its true entries. -/
theorem Matrix.Means.cell_eq {m : Matrix} {x y : Meaning} (hx : m.Means .presence x) (hy : m.Means .truth y)
    (row col : Nat) : m.cell row col = (Meaning.value x y row col).map .bool := by
  have hlinked := hx.shows_cell row col
  have htrue := hy.shows_cell row col
  unfold Meaning.value
  cases hv : m.cell row col with
  | none =>
    have hnot : ¬x.links row col := by
      rw [← hlinked, hv]
      rintro ⟨v, hv, -⟩
      cases hv
    rw [if_neg hnot]
    rfl
  | some v =>
    have htype : v.type = .bool := (hx.inv.value_type hv).trans hy.reads
    rw [hv] at hlinked htrue
    rw [if_pos (hlinked.1 ⟨v, rfl, trivial⟩)]
    cases v with
    | bool b =>
      have hb : y.links row col ↔ b = true := by
        rw [← htrue]
        constructor
        · rintro ⟨_, ⟨⟩, hon⟩
          exact hon
        · exact fun hb => ⟨_, rfl, hb⟩
      simp [hb]
    | _ => cases htype

namespace Expression

variable {ctx : EvalContext} {e : Expression} {out : Matrix}

/-- **The value goes to the output**, cast to its element type, when it has the output's shape. -/
theorem ensures_evalInto {p : Matrix → Prop} {q : GraphError → Prop}
    (he : Ensures (evaluate ctx e) out (fun m t => t = out ∧ p m) (fun err t => t = out ∧ q err))
    (hout : out.Inv) (hp : ∀ m, p m → m.Inv ∧ m.type.castable out.type = true) :
    Ensures (e.evalInto ctx) out
      (fun _ t => ∃ m, p m ∧ m.nrows = out.nrows ∧ m.ncols = out.ncols ∧ t.Inv ∧ out.SameShape t ∧
        t.deferred = false ∧ ∀ row col, t.cell row col = (m.cell row col).bind (·.cast out.type))
      (fun err t => err.OfMemory ∨ t = out ∧
        (q err ∨ ∃ m, p m ∧ (m.nrows ≠ out.nrows ∨ m.ncols ≠ out.ncols) ∧ err.OfShape)) := by
  unfold evalInto
  refine he.andThen (fun err t ht => .inr ⟨ht.1, .inl ht.2⟩) ?_
  rintro m t ⟨rfl, hm⟩
  obtain ⟨hinv, hcast⟩ := hp m hm
  refine ensures_subject (ensures_guard (fun hne => .inr ⟨rfl, .inr ⟨m, hm, hne, _, _, _, rfl⟩⟩) fun heq => ?_)
  have hr : m.nrows = t.nrows := by
    by_contra hne
    exact heq (.inl hne)
  have hc : m.ncols = t.ncols := by
    by_contra hne
    exact heq (.inr hne)
  refine (Matrix.ensures_assignFrom hout hinv).andThen (fun err u hu => ?_) ?_
  · rcases hu.2 with hmem | ⟨hne, -⟩ | ⟨⟨hno, -⟩, -⟩
    · exact .inl hmem
    · exact absurd hne heq
    · rw [hcast] at hno
      cases hno
  rintro _ u ⟨huinv, hs, -, -, hcell, -⟩
  refine (Matrix.ensures_wait huinv).andThen (fun err v hv => .inl hv.1) ?_
  rintro _ v ⟨hvinv, hk, hdef⟩
  refine ensures_tally ⟨m, hm, hr, hc, hvinv, hs.trans hk.toSameShape, hdef, fun row col => ?_⟩
  rw [hk.cell, hcell]

/-- The shape of an expression, if its parts agree in theirs. -/
def shape (g : Graph) (filter : Option Matrix) (e : Expression) : Option (Nat × Nat) :=
  (e.meaning (Operand.meaning g filter .presence)).shape

/-- The value of an expression at a pair, if the pair is linked: true when it is linked by true entries. -/
noncomputable def denoted (g : Graph) (filter : Option Matrix) (e : Expression) : Nat → Nat → Option Bool :=
  Meaning.value (e.meaning (Operand.meaning g filter .presence)) (e.meaning (Operand.meaning g filter .truth))

/-- The leaf reads what it means in the graph. -/
abbrev Sound (ctx : EvalContext) (F : GraphError → Prop) (a : Aspect) : Operand → Prop :=
  LeafMeans ctx a (Operand.meaning ctx.graph ctx.filter a) F

/-- **The output gets what the expression means**: its entries, and its values when the leaves are boolean.
The evaluation only fails where shapes disagree or memory runs out. -/
theorem Formed.ensures_evalInto {F : GraphError → Prop} {arity : Nat → Prop}
    (hctx : ctx.options.maxDenseCells < UInt64.size) (he : e.Formed (Sound ctx F .presence) arity)
    (hF : ∀ e : GraphError, e.OfShape → F e)
    (harity : ∀ n, arity n → n = 1 ∨ F (.invalid .emptyOperation) ∧ F (.invalid .transposeArity))
    (hout : out.Reachable) (htype : out.type.BuiltIn) :
    Ensures (e.evalInto ctx) out
      (fun _ t => e.shape ctx.graph ctx.filter = some (out.nrows, out.ncols) ∧ t.Inv ∧ out.SameShape t ∧
        t.deferred = false ∧
        (∀ row col, t.HasEntry row col ↔
          (e.meaning (Operand.meaning ctx.graph ctx.filter .presence)).links row col) ∧
        (e.Formed (Sound ctx F .truth) arity → ∀ row col, t.cell row col =
          ((e.denoted ctx.graph ctx.filter row col).map Scalar.bool).bind (·.cast out.type)))
      (fun err t => err.OfMemory ∨ t = out ∧
        e.shape ctx.graph ctx.filter ≠ some (out.nrows, out.ncols) ∧ F err) := by
  have hvalue : ∀ a : Aspect, e.Formed (Sound ctx F a) arity → Ensures (evaluate ctx e) out
      (fun m t => t = out ∧ m.Means a (e.meaning (Operand.meaning ctx.graph ctx.filter a)))
      (fun err t => t = out ∧ (e.meaning (Operand.meaning ctx.graph ctx.filter a)).Fails F err) :=
    fun a ha => ha.ensures_evaluate hF hctx harity
  -- one run, seen under both aspects where the leaves allow it
  have hboth : Ensures (evaluate ctx e) out
      (fun m t => t = out ∧ m.Means .presence (e.meaning (Operand.meaning ctx.graph ctx.filter .presence)) ∧
        (e.Formed (Sound ctx F .truth) arity →
          m.Means .truth (e.meaning (Operand.meaning ctx.graph ctx.filter .truth))))
      (fun err t => t = out ∧
        (e.meaning (Operand.meaning ctx.graph ctx.filter .presence)).Fails F err) := by
    by_cases hbool : e.Formed (Sound ctx F .truth) arity
    · exact ((hvalue .presence he).and (hvalue .truth hbool)).mono
        (fun m t h => ⟨h.1.1, h.1.2, fun _ => h.2.2⟩) fun err t h => h.1
    · exact (hvalue .presence he).mono (fun m t h => ⟨h.1, h.2, fun h => absurd h hbool⟩) fun _ _ h => h
  have hcast : ∀ m : Matrix, m.Means .presence
      (e.meaning (Operand.meaning ctx.graph ctx.filter .presence)) → m.type.castable out.type = true :=
    fun m hm => Aspect.castable_of_builtIn hm.reads htype
  refine (Expression.ensures_evalInto hboth hout.inv fun m hm => ⟨hm.1.inv, hcast m hm.1⟩).mono ?_ ?_
  · rintro _ t ⟨m, ⟨hpresence, htruth⟩, hr, hc, ht, hs, hdef, hcell⟩
    refine ⟨by rw [shape, hpresence.shape, hr, hc], ht, hs, hdef, fun row col => ?_, fun hbool row col => ?_⟩
    · rw [← hpresence.shows_cell]
      constructor
      · rintro ⟨v, hv⟩
        rw [ht.extract_eq_some_iff, hcell, Option.bind_eq_some_iff] at hv
        obtain ⟨w, hw, -⟩ := hv
        exact ⟨w, hw, trivial⟩
      · rintro ⟨v, hv, -⟩
        have hvtype := hpresence.inv.value_type hv
        obtain ⟨w, hw⟩ := Scalar.cast_isSome (hvtype ▸ hcast m hpresence)
        exact ⟨w, ht.extract_eq_some_iff.2 (by rw [hcell, hv]; exact hw)⟩
    · rw [hcell, hpresence.cell_eq (htruth hbool)]
      rfl
  · rintro err t (hmem | ⟨rfl, (hmem | ⟨hnone, herr⟩) | ⟨m, ⟨hpresence, -⟩, hne, herr⟩⟩)
    · exact .inl hmem
    · exact .inl hmem
    · refine .inr ⟨rfl, fun hsome => ?_, herr⟩
      rw [shape, hnone] at hsome
      cases hsome
    · refine .inr ⟨rfl, fun hsome => ?_, hF err herr⟩
      rw [shape, hpresence.shape, Option.some.injEq, Prod.mk.injEq] at hsome
      omega

/-- **Evaluation computes the denotation.** Into a boolean matrix, whatever that held before, an expression
over boolean leaves is evaluated exactly when its parts and the output agree in shape, unless memory runs
out; then the output is committed and holds the denotation. -/
theorem Formed.evalInto_denotes {options : GraphOptions}
    (hlimit : options.matrix.maxDenseCells < UInt64.size) (hg : (Graph.new options).Runs ctx.graph)
    (hctx : ctx.options.maxDenseCells < UInt64.size)
    (he : e.Formed (fun source => source.Registered ctx.graph ctx.filter ∧
      source.Typed ctx.filter (· = .bool)) (· = 1))
    (hout : out.Reachable) (htype : out.type = .bool) :
    Ensures (e.evalInto ctx) out
      (fun _ t => e.shape ctx.graph ctx.filter = some (out.nrows, out.ncols) ∧ out.SameShape t ∧
        t.deferred = false ∧ ∀ row col, row < out.nrows → col < out.ncols →
          t.extract row col = .ok ((e.denoted ctx.graph ctx.filter row col).map .bool))
      (fun err t => err.OfMemory ∨ t = out ∧
        e.shape ctx.graph ctx.filter ≠ some (out.nrows, out.ncols) ∧ err.OfShape) := by
  have hinv := (hg.inv (Graph.inv_new hlimit)).1
  have hsound : ∀ a : Aspect, e.Formed (Sound ctx GraphError.OfShape a) (· = 1) := fun a =>
    he.mono fun source hs => hinv.leafMeans (hs.2.mono fun ty hty => hty ▸ a.reads_bool) (.inl hs.1)
  refine ((hsound .presence).ensures_evalInto hctx (fun _ h => h) (fun n hn => .inl hn) hout
    (htype ▸ Aspect.reads_bool .presence)).mono ?_ fun _ _ h => h
  rintro _ t ⟨hshape, ht, hs, hdef, -, hcell⟩
  refine ⟨hshape, hs, hdef, fun row col hrow hcol => ?_⟩
  rw [ht.extract_eq (hs.nrows ▸ hrow) (hs.ncols ▸ hcol), hcell (hsound .truth), htype]
  cases e.denoted ctx.graph ctx.filter row col with
  | none => rfl
  | some b => rfl

/-- A matrix with a queued write times its own transpose, evaluated. -/
theorem evalInto_denotes_queued_factor : ∃ m : Matrix, m.deferred = true ∧
    (multiply [matrix m, transpose (matrix m)]).denoted (Graph.new {}) none 1 1 = some true := by
  have hlimit : ({} : MatrixOptions).maxDenseCells < UInt64.size := by decide
  have hnew : Matrix.withOptions .bool 3 3 {} = .ok (Matrix.blank .bool 3 3 true {}) := rfl
  have hblank := Matrix.Reachable.created hlimit hnew
  set m : Matrix := { Matrix.blank .bool 3 3 true {} with
    store := .hypersparse #[] #[0] #[] #[.bool true]
    iso := true
    pending := some { tuples := #[⟨2, 1, none⟩], type := .bool, op := .second } } with hdef
  have hm : m.Reachable := hblank.requested (r := .set (.bool true) 1 2) (n := {}) (s := (m, {})) trivial rfl
  have hformed : (multiply [matrix m, transpose (matrix m)]).Formed (fun source =>
      source.Registered (Graph.new {}) none ∧ source.Typed none (· = .bool)) (· = 1) := by
    have hmatrix : (matrix m).Formed (fun source =>
        source.Registered (Graph.new {}) none ∧ source.Typed none (· = .bool)) (· = 1) :=
      .operand ⟨trivial, hm, rfl⟩
    refine .operation (fun _ => List.cons_ne_nil _ _) Combination.noConfusion
      (List.forall_mem_cons.2 ⟨hmatrix, List.forall_mem_singleton.2 ?_⟩)
    exact .operation (fun h => absurd rfl h) (fun _ => rfl) (List.forall_mem_singleton.2 hmatrix)
  have hdenotes := @Formed.evalInto_denotes { graph := Graph.new {} } _ _ _ hlimit .start hlimit hformed
    hblank rfl
  have hread : (match (multiply [matrix m, transpose (matrix m)]).evalInto { graph := Graph.new {} }
      (Matrix.blank .bool 3 3 true {}, {}) with
    | .ok _ s => (s.1.extract 1 1).toOption
    | .error _ _ => none) = some (some (.bool true)) := by
    clear_value m
    subst hdef
    decide +kernel
  refine ⟨m, rfl, ?_⟩
  cases hrun : (multiply [matrix m, transpose (matrix m)]).evalInto { graph := Graph.new {} }
      (Matrix.blank .bool 3 3 true {}, {}) with
  | ok u s =>
    have hcell := (hdenotes.of_ok hrun).2.2.2 1 1 (by decide) (by decide)
    rw [hrun] at hread
    simp only [hcell, Except.toOption, Option.some.injEq, Option.map_eq_some_iff, Scalar.bool.injEq] at hread
    obtain ⟨b, hb, rfl⟩ := hread
    exact hb
  | error err s =>
    rw [hrun] at hread
    cases hread

end Expression

end Adjacency
