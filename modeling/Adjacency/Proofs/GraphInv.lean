import Adjacency.Proofs.Pairs
import Adjacency.Proofs.Parts

/-!
# Everything a graph keeps is in step

A graph keeps its edges five times over: in the edge list, under their pairs, in the matrix of their
relation and in its transpose, and its labels twice. `Graph.Inv` says that these agree.

* `Graph.Tidy`: what it records is in order, whatever its matrices hold.
* `Graph.Inv`: the invariant.
* `Inv.ensures_createNode`, `Inv.ensures_createEdge`, `Inv.ensures_deleteEdge` and their like: each call
  keeps it. A call that fails for anything but memory leaves the graph as it was.
-/

namespace Adjacency

open Metered

namespace Graph

/-- The live edges, oldest first. -/
def live (g : Graph) : List Edge := liveEdges g.edges

/-- Node `n` carries the `k`-th label. -/
def Tagged (nodes : Array Node) (k n : Nat) : Prop :=
  ∃ node : Node, nodes[n]? = some node ∧ ∃ l ∈ node.labels, l.toNat = k

/-- The records of a graph are in order. Nothing is said of its matrices. -/
structure Tidy (g : Graph) : Prop where
  block : 0 < g.options.nodeBlock
  whole : g.options.nodeBlock ∣ g.dim
  limit : g.options.matrix.maxDenseCells < UInt64.size
  fits : g.nodes.size ≤ g.dim
  word : g.edges.size < UInt64.size
  numbered : Numbered g.edges
  ends : ∀ e ∈ g.live, e.src.toNat < g.nodes.size ∧ e.dst.toNat < g.nodes.size ∧
    e.relation.toNat < g.relations.size

/-- Edge list, pair index, relation and label matrices agree, and the matrices have room for all nodes. -/
structure Inv (g : Graph) : Prop extends Tidy g where
  relation : ∀ (k : Nat) (r : Relation), g.relations[k]? = some r → r.Holds g.dim g.live k
  label : ∀ (k : Nat) (l : Label), g.labels[k]? = some l →
    l.matrix.Marks g.dim fun r c => r = c ∧ Tagged g.nodes k r
  tags : ∀ k n, Tagged g.nodes k n → k < g.labels.size

variable {g t : Graph} {k i : Nat} {α : Type}

/-! ## Records in order -/

namespace Tidy

theorem of_bare (h : g.Tidy) (hb : t.bare = g.bare) : t.Tidy := by
  obtain ⟨hoptions, hdim, hnodes, hedges, hrelations, -⟩ := sameFrame_of_bare hb
  refine ⟨?_, ?_, ?_, ?_, ?_, ?_, ?_⟩
  · rw [hoptions]
    exact h.block
  · rw [hoptions, hdim]
    exact h.whole
  · rw [hoptions]
    exact h.limit
  · rw [hnodes, hdim]
    exact h.fits
  · rw [hedges]
    exact h.word
  · rw [hedges]
    exact h.numbered
  · rw [live, hedges, hnodes, hrelations]
    exact h.ends

theorem at_dim (h : g.Tidy) {dim : Nat} (hwhole : g.options.nodeBlock ∣ dim) (hfits : g.nodes.size ≤ dim) :
    ({ g with dim } : Graph).Tidy := ⟨h.block, hwhole, h.limit, hfits, h.word, h.numbered, h.ends⟩

theorem pushLabel (h : g.Tidy) (l : Label) : ({ g with labels := g.labels.push l } : Graph).Tidy :=
  ⟨h.block, h.whole, h.limit, h.fits, h.word, h.numbered, h.ends⟩

theorem pushRelation (h : g.Tidy) (r : Relation) :
    ({ g with relations := g.relations.push r } : Graph).Tidy := by
  refine ⟨h.block, h.whole, h.limit, h.fits, h.word, h.numbered, fun e he => ?_⟩
  obtain ⟨hs, hd, hrel⟩ := h.ends e he
  rw [Array.size_push]
  exact ⟨hs, hd, Nat.lt_succ_of_lt hrel⟩

/-- Nodes may be rewritten, and one more may be put up where there is room. -/
theorem with_nodes (h : g.Tidy) {nodes : Array Node} (hle : g.nodes.size ≤ nodes.size)
    (hfits : nodes.size ≤ g.dim) : ({ g with nodes } : Graph).Tidy := by
  refine ⟨h.block, h.whole, h.limit, hfits, h.word, h.numbered, fun e he => ?_⟩
  obtain ⟨hs, hd, hrel⟩ := h.ends e he
  exact ⟨Nat.lt_of_lt_of_le hs hle, Nat.lt_of_lt_of_le hd hle, hrel⟩

theorem push_node (h : g.Tidy) (hroom : g.nodes.size < g.dim) (node : Node) :
    ({ g with nodes := g.nodes.push node } : Graph).Tidy := by
  have hsize : (g.nodes.push node).size = g.nodes.size + 1 := Array.size_push node
  exact h.with_nodes (by omega) (by omega)

end Tidy

theorem inv_new {options : GraphOptions} (hlimit : options.matrix.maxDenseCells < UInt64.size) :
    (new options).Inv where
  block := Nat.le_max_right _ _
  whole := Nat.dvd_refl _
  limit := hlimit
  fits := Nat.zero_le _
  word := by change 0 < _; decide
  numbered k e hk := by cases hk
  ends e he := by cases he
  relation k r hk := by cases hk
  label k l hk := by cases hk
  tags k n hn := by
    obtain ⟨node, hnode, -⟩ := hn
    cases hnode

/-! ## Growing and committing -/

/-- The same but for the matrices and their dimension. -/
structure Similar (g t : Graph) : Prop where
  options : t.options = g.options
  nodes : t.nodes = g.nodes
  edges : t.edges = g.edges
  labels_size : t.labels.size = g.labels.size
  relations_size : t.relations.size = g.relations.size

theorem SameFrame.similar (h : g.SameFrame t) : g.Similar t :=
  ⟨h.options, h.nodes, h.edges, h.labels_size, h.relations_size⟩

/-- The pairs that are marked in the matrix in a place. -/
def linked (g : Graph) : Part → Nat → Nat → Prop
  | .relation k false => fun s d => between g.live k s d ≠ []
  | .relation k true => fun d s => between g.live k s d ≠ []
  | .label k => fun r c => r = c ∧ Tagged g.nodes k r

theorem Inv.marks (h : g.Inv) {part : Part} {m : Matrix} (hm : g.matrix? part = some m) :
    m.Marks g.dim (g.linked part) := by
  cases part with
  | relation k transposed =>
    obtain ⟨r, hr, rfl⟩ := Option.map_eq_some_iff.1 hm
    cases transposed with
    | false => exact (h.relation k r hr).matrix
    | true => exact (h.relation k r hr).transposed
  | label k =>
    obtain ⟨l, hl, rfl⟩ := Option.map_eq_some_iff.1 hm
    exact h.label k l hl

/-- Every matrix marks the pairs that are linked in its place. -/
def Mirrored (g : Graph) : Prop :=
  ∀ part m, g.matrix? part = some m → m.Marks g.dim (g.linked part)

theorem Inv.mirrored (h : g.Inv) : g.Mirrored := fun _ _ hm => h.marks hm

/-- With every matrix at a dimension, and with the pairs that belong there, the graph is at it. -/
theorem Inv.of_remade (h : g.Inv) {dim : Nat}
    (hr : Remade (fun part _ m => m.Marks dim (g.linked part)) g t) (hwhole : g.options.nodeBlock ∣ dim)
    (hfits : g.nodes.size ≤ dim) : ({ t with dim } : Graph).Inv := by
  have hmarks : ∀ part m, t.matrix? part = some m → m.Marks dim (g.linked part) := by
    intro part m hm
    obtain ⟨_, -, hmarks⟩ := hr.exists_old hm
    exact hmarks
  have hpairs := fun k r hk => exists_relation_of_bare hr.bare (k := k) (r := r) hk
  have htidy : ({ t with dim } : Graph).Tidy :=
    (h.at_dim hwhole hfits).of_bare (congrArg (fun s : Graph => { s with dim }) hr.bare)
  obtain ⟨-, -, hnodes, hedges, -, hls⟩ := sameFrame_of_bare hr.bare
  obtain ⟨options, _, nodes, labels, relations, edges⟩ := t
  dsimp only at hnodes hedges hls hpairs
  subst hnodes hedges
  refine ⟨htidy, fun k r hk => ?_, fun k x hk => ?_, ?_⟩
  · obtain ⟨r₀, hr₀, -, hsame⟩ := hpairs k r hk
    refine ⟨hmarks (.relation k false) _ ?_, hmarks (.relation k true) _ ?_, ?_⟩
    · exact Option.map_eq_some_iff.2 ⟨r, hk, rfl⟩
    · exact Option.map_eq_some_iff.2 ⟨r, hk, rfl⟩
    · rw [hsame]
      exact (h.relation k r₀ hr₀).pairs
  · exact hmarks (.label k) _ (Option.map_eq_some_iff.2 ⟨x, hk, rfl⟩)
  · change ∀ k n, Tagged g.nodes k n → k < labels.size
    rw [hls]
    exact h.tags

/-- **Growing** by whole blocks, or not at all. -/
theorem Inv.ensures_grow (h : g.Inv) {dim : Nat} (hle : g.dim ≤ dim) (hwhole : g.options.nodeBlock ∣ dim) :
    Ensures (grow dim) g (fun _ t => t.Inv ∧ t.dim = dim ∧ g.Similar t)
      (fun e t => e.OfMemory ∨ t = g) := by
  have hgrown : ∀ {t : Graph}, Remade (fun part _ m => m.Marks dim (g.linked part)) g t →
      ({ t with dim } : Graph).Inv ∧ dim = dim ∧ g.Similar { t with dim } := by
    intro t ht
    have hs := (sameFrame_of_bare ht.bare).similar
    exact ⟨h.of_remade ht hwhole (Nat.le_trans h.fits hle), rfl, hs.options, hs.nodes, hs.edges, hs.labels_size,
      hs.relations_size⟩
  unfold grow
  by_cases hlarge : maxDim < dim
  · -- the first matrix refuses; without any there is nothing to refuse
    refine (ensures_onEveryMatrix fun _ m _ => Matrix.ensures_resize_refused m hlarge).andThen ?_ ?_
    · rintro e t ⟨-, -, -, ht⟩
      have hsame : Remade (fun _ m m' => m' = m) g t := ht.mono fun _ _ _ hm => by simpa using hm
      exact .inr hsame.eq_self
    · exact fun _ t ht => ensures_update (hgrown (ht.mono fun _ _ _ hf => hf.elim))
  · have hact : ∀ part m, g.matrix? part = some m → Ensures (Matrix.resize dim dim) m
        (fun _ m' => m'.Marks dim (g.linked part)) (fun e _ => e.OfMemory) := by
      intro part m hm
      refine ((h.marks hm).ensures_resize hle).mono (fun _ _ ht => ht) fun e t ht => ?_
      exact ht.resolve_right fun hc => hlarge hc.1
    refine (ensures_onEveryMatrix hact).andThen ?_ fun _ t ht => ensures_update (hgrown ht)
    rintro e t ⟨-, -, he, -⟩
    exact .inl he

theorem Inv.ensures_sync (h : g.Inv) :
    Ensures sync g (fun _ t => t.Inv ∧ g.Similar t) (fun e _ => e.OfMemory) := by
  unfold sync
  refine (ensures_onEveryMatrix fun part m hm => (h.marks hm).ensures_wait).mono ?_ ?_
  · intro _ t ht
    have hframe := sameFrame_of_bare ht.bare
    have hinv := h.of_remade ht h.whole h.fits
    rw [← hframe.dim] at hinv
    exact ⟨hinv, hframe.similar⟩
  · rintro e t ⟨-, -, he, -⟩
    exact he

/-! ## Registering names -/

/-- A label or relation that is not in use yet starts without entries. -/
theorem Inv.ensures_emptyMatrix (h : g.Inv) : Ensures emptyMatrix g
    (fun m t => t = g ∧ m.Marks g.dim fun _ _ => False) (fun _ t => t = g) := by
  unfold emptyMatrix
  refine ensures_subject (ensures_require (fun m hm => ?_) fun _ _ => rfl)
  obtain ⟨hdim, -, rfl⟩ := Matrix.withOptions_eq_ok_iff.1 hm
  exact ⟨rfl, Matrix.marked_blank hdim hdim h.limit⟩

theorem Inv.ensures_addLabel (h : g.Inv) (name : String) : Ensures (addLabel name) g
    (fun _ t => t.Inv ∧ t.edges = g.edges ∧ t.options = g.options) (fun _ t => t = g) := by
  unfold addLabel
  refine ensures_subject ?_
  split
  · exact ensures_pure ⟨h, rfl, rfl⟩
  refine h.ensures_emptyMatrix.bind ?_
  rintro m t ⟨ht, hm⟩
  rw [ht]
  refine ensures_subject (ensures_update_then (ensures_pure ⟨?_, rfl, rfl⟩))
  refine ⟨h.pushLabel _, h.relation, fun k x hx => ?_, ?_⟩
  · rw [Array.getElem?_push] at hx
    split at hx
    · next hk =>
      obtain rfl := Option.some.inj hx
      refine hm.congr fun r c => ?_
      simp only [false_iff, not_and]
      intro _ htag
      have := h.tags k r htag
      omega
    · exact h.label k x hx
  · intro k n hn
    have := h.tags k n hn
    rw [Array.size_push]
    omega

theorem Inv.ensures_addRelation (h : g.Inv) (name : String) : Ensures (addRelation name) g
    (fun _ t => t.Inv ∧ t.edges = g.edges ∧ t.options = g.options) (fun _ t => t = g) := by
  unfold addRelation
  refine ensures_subject ?_
  split
  · exact ensures_pure ⟨h, rfl, rfl⟩
  refine h.ensures_emptyMatrix.bind ?_
  rintro m t ⟨ht, hm⟩
  rw [ht]
  refine ensures_subject (ensures_update_then (ensures_pure ⟨?_, rfl, rfl⟩))
  refine ⟨h.pushRelation _, fun k r hr => ?_, h.label, h.tags⟩
  · rw [Array.getElem?_push] at hr
    split at hr
    · next hk =>
      obtain rfl := Option.some.inj hr
      -- no edge can be in the new relation
      have hnone : ∀ s d, between g.live k s d = [] := by
        intro s d
        by_contra hne
        obtain ⟨e, he, hruns⟩ := between_ne_nil_iff.1 hne
        have hlt := (h.ends e he).2.2
        have hrel := (Edge.runs_iff.1 hruns).1
        omega
      have hmarks : ∀ s d, False ↔ between g.live k s d ≠ [] := fun s d => by simp [hnone s d]
      refine ⟨hm.congr hmarks, hm.congr fun d s => hmarks s d, fun s d => ?_⟩
      change (∅ : PairIndex).getD (s, d) [] = (between g.live k s d).map (·.id)
      rw [hnone, Std.TreeMap.getD_emptyc]
      rfl
    · exact h.relation k r hr

/-! ## Nodes -/

theorem Inv.ensures_setProperty (h : g.Inv) (id : NodeId) (key : String) (v : Value) :
    Ensures (setProperty id key v) g
      (fun _ t => t.Inv ∧ t.edges = g.edges ∧ t.options = g.options) (fun _ t => t = g) := by
  unfold setProperty
  refine ensures_subject (ensures_guard (fun _ => rfl) fun _ => ensures_update ⟨?_, rfl, rfl⟩)
  have htags : ∀ k n, Tagged (g.nodes.modify id.toNat fun n =>
      { n with properties := n.properties.upsert key v }) k n ↔ Tagged g.nodes k n := by
    intro k n
    unfold Tagged
    rw [Array.getElem?_modify]
    split
    · cases g.nodes[n]? <;> simp
    · rfl
  have hsize : (g.nodes.modify id.toNat fun n =>
      { n with properties := n.properties.upsert key v }).size = g.nodes.size := Array.size_modify
  refine ⟨h.with_nodes (Nat.le_of_eq hsize.symm) (hsize ▸ h.fits), h.relation, fun k x hx => ?_,
    fun k n hn => h.tags k n ((htags k n).1 hn)⟩
  exact (h.label k x hx).congr fun r c => by rw [htags]

/-- `t` is `g` with the labels `done` written at the place of the next node. -/
structure Labelled (g t : Graph) (done : List LabelId) : Prop where
  options : t.options = g.options
  dim_eq : t.dim = g.dim
  nodes : t.nodes = g.nodes
  edges : t.edges = g.edges
  relations : t.relations = g.relations
  labels_size : t.labels.size = g.labels.size
  label : ∀ (k : Nat) (x : Label), t.labels[k]? = some x → x.matrix.Marks g.dim fun r c =>
    r = c ∧ (Tagged g.nodes k r ∨ r = g.nodes.size ∧ ∃ l ∈ done, l.toNat = k)

theorem Inv.labelled (h : g.Inv) : Labelled g g [] where
  options := rfl
  dim_eq := rfl
  nodes := rfl
  edges := rfl
  relations := rfl
  labels_size := rfl
  label k x hx := (h.label k x hx).congr fun r c => by simp

theorem Labelled.ensures_step {done : List LabelId} (h : Labelled g t done) {l : LabelId}
    (hl : l.toNat < g.labels.size) (hfits : g.nodes.size < g.dim) :
    Ensures (discard (onLabel l.toNat (Matrix.setElement (.bool true) g.nodes.size g.nodes.size))) t
      (fun _ u => Labelled g u (done ++ [l])) (fun e _ => e.OfMemory) := by
  obtain ⟨x, hx⟩ : ∃ x, t.labels[l.toNat]? = some x :=
    ⟨_, Array.getElem?_eq_getElem (h.labels_size ▸ hl)⟩
  refine ensures_discard (ensures_onLabel hx ((h.label _ x hx).ensures_set hfits hfits)
    (fun _ m hm => ?_) fun e _ he => he)
  refine ⟨h.options, h.dim_eq, h.nodes, h.edges, h.relations, ?_, fun k y hy => ?_⟩
  · unfold withLabel
    rw [Array.size_modify]
    exact h.labels_size
  · rw [getElem?_withLabel] at hy
    split at hy
    · next hk =>
      subst hk
      rw [hx] at hy
      obtain rfl := Option.some.inj hy
      refine hm.congr fun r c => ?_
      constructor
      · rintro (⟨hrc, htag | ⟨hr, l', hl', hlk⟩⟩ | ⟨hr, hc⟩)
        · exact ⟨hrc, .inl htag⟩
        · exact ⟨hrc, .inr ⟨hr, l', List.mem_append_left _ hl', hlk⟩⟩
        · exact ⟨hr.trans hc.symm, .inr ⟨hr, l, List.mem_append_right _ (List.mem_singleton_self l), rfl⟩⟩
      · rintro ⟨hrc, htag | ⟨hr, l', hl', hlk⟩⟩
        · exact .inl ⟨hrc, .inl htag⟩
        · rcases List.mem_append.1 hl' with hl' | hl'
          · exact .inl ⟨hrc, .inr ⟨hr, l', hl', hlk⟩⟩
          · exact .inr ⟨hr, hrc ▸ hr⟩
    · next hk =>
      refine (h.label k y hy).congr fun r c => ?_
      have hsame : (∃ l' ∈ done ++ [l], l'.toNat = k) ↔ ∃ l' ∈ done, l'.toNat = k := by
        constructor
        · rintro ⟨l', hl', hlk⟩
          rcases List.mem_append.1 hl' with hl' | hl'
          · exact ⟨l', hl', hlk⟩
          · rw [List.mem_singleton] at hl'
            exact absurd (hl' ▸ hlk) hk
        · rintro ⟨l', hl', hlk⟩
          exact ⟨l', List.mem_append_left _ hl', hlk⟩
      rw [hsame]

/-- A node whose labels are written. -/
theorem Inv.of_labelled (h : g.Inv) {labels : List LabelId} (hl : Labelled g t labels)
    (hall : ∀ l ∈ labels, l.toNat < g.labels.size) (hfits : g.nodes.size < g.dim)
    (properties : Properties) : ({ t with nodes := t.nodes.push { labels, properties } } : Graph).Inv := by
  obtain ⟨options, dim, nodes, xs, relations, edges⟩ := t
  obtain ⟨hoptions, hdim, hnodes, hedges, hrelations, hsize, hlabel⟩ := hl
  dsimp only at hoptions hdim hnodes hedges hrelations hsize hlabel
  subst hoptions hdim hnodes hedges hrelations
  have htags : ∀ k n, Tagged (g.nodes.push { labels, properties }) k n ↔
      Tagged g.nodes k n ∨ n = g.nodes.size ∧ ∃ l ∈ labels, l.toNat = k := by
    intro k n
    unfold Tagged
    rw [Array.getElem?_push]
    split
    · next hn =>
      subst hn
      simp
    · next hn => simp [hn]
  have htidy := h.push_node hfits { labels, properties }
  refine ⟨⟨htidy.block, htidy.whole, htidy.limit, htidy.fits, htidy.word, htidy.numbered, htidy.ends⟩,
    h.relation, fun k x hx => ?_, fun k n hn => ?_⟩
  · exact (hlabel k x hx).congr fun r c => by rw [htags]
  · change k < xs.size
    rw [hsize]
    rcases (htags k n).1 hn with htag | ⟨-, l, hl, rfl⟩
    · exact h.tags k n htag
    · exact hall l hl

/-- The same but for one node more, and for the matrices and their dimension. -/
structure Gains (g t : Graph) (node : Node) : Prop where
  options : t.options = g.options
  nodes : t.nodes = g.nodes.push node
  edges : t.edges = g.edges
  labels_size : t.labels.size = g.labels.size
  relations_size : t.relations.size = g.relations.size

theorem Inv.ensures_createNode (h : g.Inv) (labels : List LabelId) (properties : List (String × Value)) :
    Ensures (createNode labels properties) g
      (fun _ t => t.Inv ∧ g.Gains t { labels, properties := .ofList properties })
      (fun e t => e.OfMemory ∨ t = g) := by
  unfold createNode
  refine ensures_subject (ensures_guard (fun _ => .inr rfl) fun hall => ?_)
  have hall : ∀ l ∈ labels, l.toNat < g.labels.size := by
    intro l hl
    by_contra hlt
    exact hall (List.any_eq_true.2 ⟨l, hl, decide_eq_true (Nat.not_lt.1 hlt)⟩)
  dsimp only
  -- with or without growth there is room for one node more
  refine ensures_when (fun t => t.Inv ∧ g.Similar t ∧ g.nodes.size < t.dim) (fun hfull => ?_) (fun hroom => ?_) ?_
  · have hdiv := Nat.div_add_mod g.nodes.size g.options.nodeBlock
    have hmod := Nat.mod_lt g.nodes.size h.block
    have hnext : g.nodes.size < (g.nodes.size / g.options.nodeBlock + 1) * g.options.nodeBlock := by
      rw [Nat.add_mul, Nat.one_mul, Nat.mul_comm]
      omega
    have hle := Nat.le_trans hfull (Nat.le_of_lt hnext)
    refine (h.ensures_grow hle (Nat.dvd_mul_left _ _)).mono ?_ fun _ _ he => he
    rintro _ t ⟨ht, hdim, hs⟩
    exact ⟨ht, hs, hdim ▸ hnext⟩
  · exact ⟨h, ⟨rfl, rfl, rfl, rfl, rfl⟩, Nat.not_le.1 hroom⟩
  · rintro t ⟨ht, hs, hroom⟩
    rw [← hs.nodes] at hroom ⊢
    have hloop := ensures_each (fun done u => Labelled t u done) ht.labelled
      (fun l hl done u hu => hu.ensures_step (hs.labels_size ▸ hall l hl) hroom)
    refine hloop.andThen (fun e _ he => .inl he) ?_
    rintro _ u hu
    refine ensures_update_then (ensures_pure ⟨?_, ?_⟩)
    · exact ht.of_labelled hu (fun l hl => hs.labels_size ▸ hall l hl) hroom _
    · refine ⟨hu.options.trans hs.options, ?_, hu.edges.trans hs.edges, hu.labels_size.trans hs.labels_size, ?_⟩
      · change u.nodes.push _ = _
        rw [hu.nodes, hs.nodes]
      · change u.relations.size = _
        rw [hu.relations, hs.relations_size]

end Graph

end Adjacency
