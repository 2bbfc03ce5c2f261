import Adjacency.Proofs.GraphEdges
import Adjacency.Proofs.Ready

/-!
# What a caller sees of a graph

Nodes with their labels and properties, live edges, what is found for a label or a pair, and of each matrix
its dimensions and entries.

* `Graph.SameRecords`: the same records, but for the edges that are gone.
* `sameRecords_forget`: **the last edge of its pair, forgotten.**
* `Graph.Unchanged`: nothing that a caller sees has changed.
* `Graph.Stretched`, `Graph.Severed`: matrices that have grown ahead of the graph; an edge that is forgotten
  before its entries are.
-/

namespace Adjacency

namespace Graph

variable {g t u : Graph} {gone : List EdgeId} {e : Edge}

/-! ## What a caller sees -/

/-- The same nodes and edges, but for the edges `gone`, which are there no more. -/
structure SameRecords (g t : Graph) (gone : List EdgeId) : Prop where
  nodeCount : t.nodeCount = g.nodeCount
  node : ∀ id, t.node? id = g.node? id
  nodeIds : ∀ label, t.nodeIds label = g.nodeIds label
  dim : t.dim = g.dim
  edge : ∀ id, t.edge? id = if id ∈ gone then none else g.edge? id
  edgeCount : t.edgeCount + gone.length = g.edgeCount
  edgesBetween : ∀ src dst relations,
    t.edgesBetween src dst relations = (g.edgesBetween src dst relations).filter (·.id ∉ gone)

/-- The pairs of a graph without matrices are those of the graph. -/
theorem edgesBetween_bare (g : Graph) (src dst : NodeId) (relations : List RelationId) :
    g.bare.edgesBetween src dst relations = g.edgesBetween src dst relations := by
  unfold edgesBetween
  change (g.relations.map _).toList.zipIdx.flatMap _ = _
  rw [Array.toList_map, List.zipIdx_map, List.flatMap_map]
  rfl

theorem sameRecords_of_bare (h : t.bare = g.bare) : g.SameRecords t [] where
  nodeCount := show t.bare.nodeCount = g.bare.nodeCount by rw [h]
  node id := show t.bare.node? id = g.bare.node? id by rw [h]
  nodeIds label := show t.bare.nodeIds label = g.bare.nodeIds label by rw [h]
  dim := show t.bare.dim = g.bare.dim by rw [h]
  edge id := by
    rw [if_neg List.not_mem_nil]
    exact show t.bare.edge? id = g.bare.edge? id by rw [h]
  edgeCount := show t.bare.edgeCount = g.bare.edgeCount by rw [h]
  edgesBetween src dst relations := by
    rw [← edgesBetween_bare t, h, edgesBetween_bare]
    exact (List.filter_eq_self.2 fun _ _ => decide_eq_true List.not_mem_nil).symm

/-- The matrices play no part. -/
theorem SameRecords.of_bare (h : g.SameRecords u gone) (hb : t.bare = u.bare) :
    g.SameRecords t gone := by
  have hs := sameRecords_of_bare hb
  refine ⟨hs.nodeCount.trans h.nodeCount, fun id => (hs.node id).trans (h.node id),
    fun label => (hs.nodeIds label).trans (h.nodeIds label), hs.dim.trans h.dim, fun id => ?_, ?_,
    fun src dst relations => ?_⟩
  · rw [hs.edge, if_neg List.not_mem_nil, h.edge]
  · have hcount := hs.edgeCount
    rw [List.length_nil, Nat.add_zero] at hcount
    rw [hcount, h.edgeCount]
  · rw [hs.edgesBetween, h.edgesBetween]
    exact List.filter_eq_self.2 fun _ _ => decide_eq_true List.not_mem_nil

/-! ## A forgotten edge -/

theorem edge?_forgetEdge (g : Graph) (id other : EdgeId) :
    (forgetEdge id g).edge? other = if other = id then none else g.edge? other := by
  unfold edge? forgetEdge
  dsimp only
  rw [Array.getElem?_setIfInBounds]
  by_cases ho : other = id
  · subst ho
    rw [if_pos rfl, if_pos rfl]
    split <;> rfl
  · rw [if_neg fun hc => ho (EdgeId.toNat_injective hc.symm), if_neg ho]

/-- The edge list answers with the edge of the number that it is asked for. -/
theorem id_of_edge? (hn : Numbered g.edges) {id : EdgeId} (h : g.edge? id = some e) : e.id = id :=
  EdgeId.toNat_injective (hn _ _ (Option.join_eq_some_iff.1 h))

theorem filterMap_forgetEdge (hn : Numbered g.edges) (id : EdgeId) (ids : List EdgeId) :
    ids.filterMap (forgetEdge id g).edge? = (ids.filterMap g.edge?).filter (·.id ∉ [id]) := by
  rw [List.filter_filterMap]
  refine List.filterMap_congr fun other _ => ?_
  rw [edge?_forgetEdge]
  cases hedge : g.edge? other with
  | none => split <;> rfl
  | some a =>
    have hid := id_of_edge? hn hedge
    by_cases ho : other = id
    · rw [if_pos ho]
      simp [Option.filter, hid, ho]
    · rw [if_neg ho]
      simp [Option.filter, hid, ho]

/-- The recorded edges of a pair once one pair has no edges any more. -/
theorem pairs_recordPair (g : Graph) (e : Edge) (k s d : Nat) (hk : k < g.relations.size) :
    ((recordPair e [] g).relations.getD k default).pairs.getD (s, d) [] =
      if e.relation.toNat = k ∧ e.src.toNat = s ∧ e.dst.toNat = d then []
      else (g.relations.getD k default).pairs.getD (s, d) [] := by
  obtain ⟨r, hr⟩ : ∃ r, g.relations[k]? = some r := ⟨_, Array.getElem?_eq_getElem hk⟩
  rw [Array.getD_eq_getD_getElem?, Array.getD_eq_getD_getElem?, hr]
  by_cases hrel : e.relation.toNat = k
  · subst hrel
    rw [getElem?_recordPair hr]
    simp only [eq_self, true_and]
    exact getD_recordPair r.pairs e [] s d
  · have hother : (recordPair e [] g).relations[k]? = some r := by
      rw [recordPair, Array.getElem?_modify, if_neg hrel, hr]
    rw [hother, if_neg fun hc => hrel hc.1]

/-- The last edge of its pair, forgotten in the edge list and in the pair index. -/
theorem sameRecords_forget (hn : Numbered g.edges) (he : g.edge? e.id = some e)
    (hlast : (forgetEdge e.id g).siblings e = some []) :
    g.SameRecords (recordPair e [] (forgetEdge e.id g)) [e.id] where
  nodeCount := rfl
  node _ := rfl
  nodeIds _ := rfl
  dim := rfl
  edge id := by
    simp only [List.mem_singleton]
    exact edge?_forgetEdge g e.id id
  edgeCount := by
    have hplace := Option.join_eq_some_iff.1 he
    obtain ⟨hlt, hget⟩ := Array.getElem?_eq_some_iff.1 hplace
    have hpos : 0 < g.edges.toList.countP Option.isSome :=
      List.countP_pos_iff.2 ⟨some e, List.mem_of_getElem? (by rwa [Array.getElem?_toList]), rfl⟩
    change (g.edges.setIfInBounds e.id.toNat none).toList.countP Option.isSome + 1 =
      g.edges.toList.countP Option.isSome
    rw [Array.toList_setIfInBounds, List.countP_set (by simpa using hlt), Array.getElem_toList, hget]
    simp only [Option.isSome_some, Option.isSome_none, if_true, Bool.false_eq_true, if_false]
    omega
  edgesBetween src dst relations := by
    rw [edgesBetween_eq_pairs, edgesBetween_eq_pairs, List.filter_flatMap, relations_size_recordPair]
    refine List.flatMap_congr fun k hk => ?_
    split
    · rw [pairs_recordPair (forgetEdge e.id g) e k _ _ (List.mem_range.1 hk)]
      change List.filterMap (forgetEdge e.id g).edge? _ = _
      rw [filterMap_forgetEdge hn]
      split
      · next hpair =>
        -- all that was recorded under the pair is the edge itself
        obtain ⟨rfl, hs, hd⟩ := hpair
        obtain ⟨ids, hids, hothers⟩ := Option.map_eq_some_iff.1 hlast
        change (g.relations.getD e.relation.toNat default).pairs[_]? = some ids at hids
        rw [← hs, ← hd, Std.TreeMap.getD_eq_getD_getElem?, hids]
        refine (List.filter_eq_nil_iff.2 fun a ha => ?_).symm
        obtain ⟨id, hid, hedge⟩ := List.mem_filterMap.1 ha
        have hsame := List.filter_eq_nil_iff.1 hothers id hid
        rw [id_of_edge? hn hedge]
        simpa using hsame
      · rfl
    · rfl

/-! ## What a failed call may leave behind -/

/-- Nothing that a caller sees has changed. -/
structure Unchanged (g t : Graph) : Prop where
  records : g.SameRecords t []
  matrix : ∀ part, Option.Rel Matrix.SameView (g.matrix? part) (t.matrix? part)

/-- Nothing has changed but that some of the matrices, all of which are full, have grown by a block. -/
structure Stretched (g t : Graph) : Prop where
  full : g.nodeCount = g.dim
  records : g.SameRecords t []
  matrix : ∀ part, Option.Rel (fun m m' => m.Widens m' (g.dim + g.options.nodeBlock))
    (g.matrix? part) (t.matrix? part)

/-- An edge is forgotten, but its entry has stayed in the transpose of its relation, and perhaps in the
matrix as well. -/
structure Severed (g : Graph) (e : Edge) (t : Graph) : Prop where
  edge : g.edge? e.id = some e
  records : g.SameRecords t [e.id]
  matrix : ∀ part, Option.Rel (fun m m' => m.SameView m' ∨
    part = .relation e.relation.toNat false ∧ m.Empties m' e.src.toNat e.dst.toNat)
    (g.matrix? part) (t.matrix? part)

theorem Remade.unchanged (h : Remade (fun _ => Matrix.SameView) g t) : g.Unchanged t :=
  ⟨sameRecords_of_bare h.bare, h.matrix⟩

theorem Unchanged.refl (g : Graph) : g.Unchanged g :=
  (remade_self fun _ m _ => Matrix.SameView.refl m).unchanged

end Graph

end Adjacency
