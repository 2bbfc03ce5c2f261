import Adjacency.Proofs.GraphEdges

/-!
# A graph along any run

* `Graph.Runs`: what becomes of a graph under a sequence of calls. A clone of a graph is the graph itself,
  so a run may go on from any earlier state.
* `Runs.inv`, `Runs.extends`: the invariant holds all along, and numbers are never used again.
* `Runs.consistent`: **matrices, edge list, pair index and labels agree after every run.**
-/

namespace Adjacency

open Metered

namespace Graph

/-- A call that changes a graph. -/
inductive Request
  | addLabel (name : String)
  | addRelation (name : String)
  | createNode (labels : List LabelId) (properties : List (String × Value))
  | setProperty (id : NodeId) (key : String) (v : Value)
  | createEdge (src dst : NodeId) (relation : RelationId)
  | deleteEdge (id : EdgeId)
  | sync

/-- The call, acted out. -/
def Request.perform : Request → Metered Graph Unit
  | addLabel name => discard (Graph.addLabel name)
  | addRelation name => discard (Graph.addRelation name)
  | createNode labels properties => discard (Graph.createNode labels properties)
  | setProperty id key v => Graph.setProperty id key v
  | createEdge src dst relation => discard (Graph.createEdge src dst relation)
  | deleteEdge id => discard (Graph.deleteEdge id)
  | sync => Graph.sync

/-- What becomes of a graph under calls of which none runs out of memory. The number of the next edge is a
word, as in every state that a graph can be in. -/
inductive Runs (g : Graph) : Graph → Prop
  | start : Runs g g
  | performed {t : Graph} {r : Request} {n : CallCounts} {s : Graph × CallCounts} (h : Runs g t)
      (hs : r.perform (t, n) = .ok () s) (hword : s.1.edges.size < UInt64.size) : Runs g s.1
  | refused {t : Graph} {r : Request} {e : GraphError} {n : CallCounts} {s : Graph × CallCounts}
      (h : Runs g t) (hs : r.perform (t, n) = .error e s) (he : ¬e.OfMemory) : Runs g s.1

/-- `t` comes after `g`: an edge of `t` whose number was given out in `g` was live in `g`. -/
structure Extends (g t : Graph) : Prop where
  options : t.options = g.options
  next : g.edges.size ≤ t.edges.size
  old : ∀ e ∈ t.live, e.id.toNat < g.edges.size → e ∈ g.live

variable {g t u : Graph}

theorem Extends.refl (g : Graph) : g.Extends g := ⟨rfl, Nat.le_refl _, fun _ he _ => he⟩

theorem Extends.trans (h : g.Extends t) (h' : t.Extends u) : g.Extends u where
  options := h'.options.trans h.options
  next := Nat.le_trans h.next h'.next
  old e he hlt := h.old e (h'.old e he (Nat.lt_of_lt_of_le hlt h.next)) hlt

theorem extends_of_edges (hedges : t.edges = g.edges) (hoptions : t.options = g.options) :
    g.Extends t where
  options := hoptions
  next := by rw [hedges]
  old e he _ := by
    unfold live at he
    rwa [hedges] at he

/-- **One call** keeps the invariant; unless it runs out of memory, a call that fails changes nothing. -/
theorem Inv.ensures_perform (h : g.Inv) (r : Request) : Ensures r.perform g
    (fun _ t => g.Extends t ∧ (t.edges.size < UInt64.size → t.Inv))
    (fun e t => e.OfMemory ∨ t = g) := by
  have hkept : ∀ {t : Graph}, t.Inv ∧ t.edges = g.edges ∧ t.options = g.options →
      g.Extends t ∧ (t.edges.size < UInt64.size → t.Inv) :=
    fun ht => ⟨extends_of_edges ht.2.1 ht.2.2, fun _ => ht.1⟩
  cases r with
  | addLabel name =>
    exact ensures_discard ((h.ensures_addLabel name).mono (fun _ _ ht => hkept ht) fun _ _ he => .inr he)
  | addRelation name =>
    exact ensures_discard ((h.ensures_addRelation name).mono (fun _ _ ht => hkept ht) fun _ _ he => .inr he)
  | createNode labels properties =>
    exact ensures_discard ((h.ensures_createNode labels properties).mono
      (fun _ _ ht => hkept ⟨ht.1, ht.2.edges, ht.2.options⟩) fun _ _ he => he)
  | setProperty id key v =>
    exact (h.ensures_setProperty id key v).mono (fun _ _ ht => hkept ht) fun _ _ he => .inr he
  | createEdge src dst relation =>
    refine ensures_discard ((h.ensures_createEdge src dst relation).mono ?_ fun _ _ he => he)
    rintro id t ⟨hid, hlive, hsize, hoptions, hinv⟩
    refine ⟨⟨hoptions, by omega, fun e he hlt => ?_⟩, hinv⟩
    rw [hlive, List.mem_append, List.mem_singleton] at he
    rcases he with he | rfl
    · exact he
    · exact absurd hlt (hid ▸ Nat.lt_irrefl _)
  | deleteEdge id =>
    refine ensures_discard ((h.ensures_deleteEdge id).mono ?_ fun _ _ he => .inl he)
    rintro was t ⟨-, hinv, hlive, hsize, hoptions⟩
    refine ⟨⟨hoptions, hsize.ge, fun e he _ => ?_⟩, fun _ => hinv⟩
    rw [hlive] at he
    exact (List.mem_filter.1 he).1
  | sync =>
    refine h.ensures_sync.mono ?_ fun _ _ he => .inl he
    rintro _ t ⟨hinv, hs⟩
    exact hkept ⟨hinv, hs.edges, hs.options⟩

/-- **The invariant holds along every run**, and the run only adds edges with new numbers. -/
theorem Runs.inv (hg : g.Inv) (h : g.Runs t) : t.Inv ∧ g.Extends t := by
  induction h with
  | start => exact ⟨hg, Extends.refl g⟩
  | performed h hs hword ih =>
    obtain ⟨hext, hinv⟩ := (ih.1.ensures_perform _).of_ok hs
    exact ⟨hinv hword, ih.2.trans hext⟩
  | refused h hs he ih =>
    have hsame := ((ih.1.ensures_perform _).of_error hs).resolve_left he
    rw [hsame]
    exact ih

/-- What a caller can rely on, in a graph that grows by blocks of `block` nodes. -/
structure Consistent (g : Graph) (block : Nat) : Prop where
  /-- The live edges are those that the edge list answers with. -/
  edges : ∀ e, e ∈ g.live ↔ g.edge? e.id = some e
  /-- Both matrices of a relation have their entries where its live edges run. -/
  relation : ∀ id m m', g.relationMatrix id false = .ok m → g.relationMatrix id true = .ok m' → ∀ s d,
    (m.HasEntry s d ↔ ∃ e ∈ g.live, e.relation = id ∧ e.src.toNat = s ∧ e.dst.toNat = d) ∧
    (m'.HasEntry d s ↔ ∃ e ∈ g.live, e.relation = id ∧ e.src.toNat = s ∧ e.dst.toNat = d)
  /-- The edges between two nodes come by relation, then by age. -/
  ordered : ∀ src dst ids, (g.edgesBetween src dst ids).Pairwise fun a b =>
    a.relation.toNat < b.relation.toNat ∨ a.relation = b.relation ∧ a.id.toNat < b.id.toNat
  /-- They are the live ones, in the given relations or in any. -/
  found : ∀ src dst ids e, e ∈ g.edgesBetween src dst ids ↔
    e ∈ g.live ∧ e.src = src ∧ e.dst = dst ∧ (ids = [] ∨ e.relation ∈ ids)
  /-- The matrix of a label has its entries on the diagonal, at the nodes that carry it. -/
  label : ∀ id m, g.labelMatrix id = .ok m → ∀ r c, m.HasEntry r c ↔
    r = c ∧ ∃ node : Node, g.nodes[r]? = some node ∧ id ∈ node.labels
  /-- The nodes of a label come in ascending order. -/
  ascending : ∀ id, (g.nodeIds (some id)).Pairwise fun a b => a.toNat < b.toNat
  /-- They are those that carry it. -/
  listed : ∀ id n, n ∈ g.nodeIds (some id) ↔ ∃ node, g.node? n = some node ∧ id ∈ node.labels
  /-- Every matrix is square of the graph's dimension. -/
  square : ∀ m, (∃ id transposed, g.relationMatrix id transposed = .ok m) ∨
    (∃ id, g.labelMatrix id = .ok m) → m.nrows = g.dim ∧ m.ncols = g.dim
  /-- The dimension is made of whole blocks. -/
  whole : block ∣ g.dim
  /-- Every node has its place. -/
  fits : g.nodeCount ≤ g.dim
  /-- No two live edges have the same number. -/
  unique : (g.live.map (·.id)).Nodup
  /-- Numbers are below the next one. -/
  below : ∀ e ∈ g.live, e.id.toNat < g.edges.size
  /-- A new edge gets the next number. -/
  fresh : ∀ src dst id e n s, createEdge src dst id (g, n) = .ok e s → e.toNat = g.edges.size
  /-- A number that was given out never names another edge. -/
  kept : ∀ t, g.Runs t → ∀ id e, id.toNat < g.edges.size → t.edge? id = some e → g.edge? id = some e
  /-- The live edges are counted. -/
  counted : g.edgeCount = g.live.length

theorem Inv.relationMatrix_holds (h : g.Inv) {id : RelationId} {transposed : Bool} {m : Matrix}
    (hm : g.relationMatrix id transposed = .ok m) :
    ∃ r : Relation, r.Holds g.dim g.live id.toNat ∧ m = if transposed then r.transposed else r.matrix := by
  unfold relationMatrix at hm
  cases hr : g.relations[id.toNat]? with
  | none => rw [hr] at hm; cases hm
  | some r =>
    rw [hr] at hm
    exact ⟨r, h.relation _ r hr, (Except.ok.inj hm).symm⟩

theorem Inv.labelMatrix_marks (h : g.Inv) {id : LabelId} {m : Matrix} (hm : g.labelMatrix id = .ok m) :
    m.Marks g.dim fun r c => r = c ∧ Tagged g.nodes id.toNat r := by
  unfold labelMatrix at hm
  cases hl : g.labels[id.toNat]? with
  | none => rw [hl] at hm; cases hm
  | some l =>
    rw [hl] at hm
    rw [← Except.ok.inj hm]
    exact h.label _ l hl

theorem tagged_iff {nodes : Array Node} {id : LabelId} {n : Nat} :
    Tagged nodes id.toNat n ↔ ∃ node : Node, nodes[n]? = some node ∧ id ∈ node.labels := by
  constructor
  · rintro ⟨node, hnode, l, hl, heq⟩
    exact ⟨node, hnode, LabelId.toNat_injective heq ▸ hl⟩
  · rintro ⟨node, hnode, hl⟩
    exact ⟨node, hnode, id, hl, rfl⟩

/-- The edges of a pair in a relation of a given number. -/
theorem between_id_ne_nil_iff {live : List Edge} {id : RelationId} {s d : Nat} :
    between live id.toNat s d ≠ [] ↔
      ∃ e ∈ live, e.relation = id ∧ e.src.toNat = s ∧ e.dst.toNat = d := by
  rw [between_ne_nil_iff]
  refine exists_congr fun e => and_congr_right fun _ => ?_
  rw [Edge.runs_iff]
  refine and_congr_left fun _ => ⟨fun heq => ?_, fun heq => by rw [heq]⟩
  rw [← e.relation.ofNat_toNat, heq, id.ofNat_toNat]

theorem Inv.consistency (h : g.Inv) : g.Consistent g.options.nodeBlock where
  edges e := (h.edge?_eq_some_iff.trans (and_iff_left rfl)).symm
  relation id m m' hm hm' s d := by
    obtain ⟨r, hr, rfl⟩ := h.relationMatrix_holds hm
    obtain ⟨r', hr', rfl⟩ := h.relationMatrix_holds hm'
    rw [← between_id_ne_nil_iff]
    exact ⟨hr.matrix.hasEntry_iff s d, hr'.transposed.hasEntry_iff d s⟩
  ordered src dst ids := (h.edgesBetween_spec src dst ids).1
  found src dst ids := (h.edgesBetween_spec src dst ids).2
  label id m hm r c := by
    rw [(h.labelMatrix_marks hm).hasEntry_iff, tagged_iff]
  ascending id := (h.nodeIds_spec id).1
  listed id n := by
    rw [(h.nodeIds_spec id).2, tagged_iff]
    rfl
  square m hm := by
    rcases hm with ⟨id, transposed, hm⟩ | ⟨id, hm⟩
    · obtain ⟨r, hr, rfl⟩ := h.relationMatrix_holds hm
      cases transposed
      · exact ⟨hr.matrix.nrows, hr.matrix.ncols⟩
      · exact ⟨hr.transposed.nrows, hr.transposed.ncols⟩
    · exact ⟨(h.labelMatrix_marks hm).nrows, (h.labelMatrix_marks hm).ncols⟩
  whole := h.whole
  fits := h.fits
  unique := by
    refine List.pairwise_map.2 (h.numbered.ascending.imp fun {a b} hab heq => ?_)
    rw [heq] at hab
    exact Nat.lt_irrefl _ hab
  below e he := by
    obtain ⟨k, hk⟩ := mem_liveEdges.1 he
    rw [h.numbered k e hk]
    exact (Array.getElem?_eq_some_iff.1 hk).1
  fresh src dst id e n s hs := ((h.ensures_createEdge src dst id).of_ok hs).1
  kept t ht id e hlt he := by
    obtain ⟨hinv, hext⟩ := ht.inv h
    obtain ⟨hlive, rfl⟩ := hinv.edge?_eq_some_iff.1 he
    exact h.edge?_eq_some_iff.2 ⟨hext.old e hlive hlt, rfl⟩
  counted := by
    unfold edgeCount live liveEdges
    rw [List.length_filterMap_eq_countP]
    rfl

/-- **Everything that a graph keeps agrees**, after any run of calls from a new graph. -/
theorem Runs.consistent {options : GraphOptions} (hlimit : options.matrix.maxDenseCells < UInt64.size)
    (h : (new options).Runs g) : g.Consistent (max options.nodeBlock 1) := by
  obtain ⟨hinv, hext⟩ := h.inv (inv_new hlimit)
  have hblock : g.options.nodeBlock = max options.nodeBlock 1 := by
    rw [hext.options]
    rfl
  rw [← hblock]
  exact hinv.consistency

/-- The first relation of a new graph. -/
theorem perform_addRelation_new (options : GraphOptions) (hdim : max options.nodeBlock 1 ≤ maxDim)
    (name : String) (n : CallCounts) :
    let empty := Matrix.blank .bool (max options.nodeBlock 1) (max options.nodeBlock 1) true options.matrix
    (Request.addRelation name).perform (new options, n) = .ok ()
      ({ new options with relations := #[{ name, matrix := empty, transposed := empty }] }, n) := by
  intro empty
  have hid : (new options).relationId? name = none := by simp [relationId?, new]
  have hmatrix : Matrix.withOptions .bool (new options).dim (new options).dim (new options).options.matrix =
      .ok empty := Matrix.withOptions_eq_ok_iff.2 ⟨hdim, hdim, rfl⟩
  have hadd : addRelation name (new options, n) = .ok (.ofNat 0)
      ({ new options with relations := #[{ name, matrix := empty, transposed := empty }] }, n) := by
    simp only [addRelation, emptyMatrix, subject, bind, EStateM.bind, hid, hmatrix]
    rfl
  simp only [Request.perform, discard, Functor.discard, Functor.mapConst, EStateM.map, Function.comp, hadd]

/-- A graph with a node that has an edge to itself. -/
theorem consistent_loop : ∃ g : Graph, g.edgeCount = 1 ∧ g.Consistent 1024 := by
  set empty := Matrix.blank .bool 1024 1024 true {} with hempty
  set g₁ : Graph := { new {} with relations := #[{ name := "knows", matrix := empty, transposed := empty }] }
  have hid : (new {}).relationId? "knows" = none := by simp [relationId?, new]
  have hmatrix : Matrix.withOptions .bool (new {}).dim (new {}).dim (new {}).options.matrix = .ok empty := rfl
  have hadd : addRelation "knows" (new {}, {}) = .ok (.ofNat 0) (g₁, {}) := by
    simp only [addRelation, emptyMatrix, subject, bind, EStateM.bind, hid, hmatrix]
    rfl
  have hperform : (Request.addRelation "knows").perform (new {}, {}) = .ok () (g₁, {}) := by
    simp only [Request.perform, discard, Functor.discard, Functor.mapConst, EStateM.map, Function.comp, hadd]
  have hrelation := (Runs.start (g := new {})).performed hperform (by decide)
  have hnode := hrelation.performed (r := .createNode [] []) (n := {}) rfl (Nat.lt_of_sub_eq_succ rfl)
  have hedge := hnode.performed (r := .createEdge (.ofNat 0) (.ofNat 0) (.ofNat 0)) (n := {}) rfl
    (Nat.lt_of_sub_eq_succ rfl)
  exact ⟨_, rfl, Runs.consistent (by decide) hedge⟩

end Graph

end Adjacency
