import Adjacency.Proofs.GraphInv

/-!
# Making and deleting edges

The first edge of a pair writes both matrix entries again and again; only the last one to go takes them
away.

* `Inv.of_relation`: a change of the edges of one relation.
* `Inv.ensures_createEdge`, `Inv.ensures_deleteEdge`: the calls keep the invariant.
* `Inv.edgesBetween_spec`: **the edges found for a pair are the live ones, in order.**
* `Inv.nodeIds_spec`: the nodes found for a label.
-/

namespace Adjacency

open Metered

namespace Graph

variable {g t : Graph} {k : Nat}

/-- The same but for the edges and the relations. -/
structure Agrees (g t : Graph) : Prop where
  options : t.options = g.options
  dim : t.dim = g.dim
  nodes : t.nodes = g.nodes
  labels : t.labels = g.labels

theorem Agrees.trans {u : Graph} (h : g.Agrees t) (h' : t.Agrees u) : g.Agrees u :=
  ⟨h'.options.trans h.options, h'.dim.trans h.dim, h'.nodes.trans h.nodes, h'.labels.trans h.labels⟩

theorem agrees_withAdjacency (g : Graph) (k : Nat) (transposed : Bool) (m : Matrix) :
    g.Agrees (g.withAdjacency k transposed m) := ⟨rfl, rfl, rfl, rfl⟩

theorem agrees_recordEdge (g : Graph) (e : Edge) : g.Agrees (recordEdge e g) := ⟨rfl, rfl, rfl, rfl⟩

theorem agrees_forgetEdge (g : Graph) (id : EdgeId) : g.Agrees (forgetEdge id g) := ⟨rfl, rfl, rfl, rfl⟩

theorem agrees_recordPair (g : Graph) (e : Edge) (ids : List EdgeId) : g.Agrees (recordPair e ids g) :=
  ⟨rfl, rfl, rfl, rfl⟩

theorem relations_size_withAdjacency (g : Graph) (k : Nat) (transposed : Bool) (m : Matrix) :
    (g.withAdjacency k transposed m).relations.size = g.relations.size := Array.size_modify

theorem relations_size_recordEdge (g : Graph) (e : Edge) :
    (recordEdge e g).relations.size = g.relations.size := Array.size_modify

theorem relations_size_recordPair (g : Graph) (e : Edge) (ids : List EdgeId) :
    (recordPair e ids g).relations.size = g.relations.size := Array.size_modify

/-- Both matrices of a relation in the place of others. -/
theorem getElem?_withAdjacency_both {r : Relation} (hr : g.relations[k]? = some r) (m m' : Matrix) (i : Nat) :
    ((g.withAdjacency k false m).withAdjacency k true m').relations[i]? =
      if k = i then some { r with matrix := m, transposed := m' } else g.relations[i]? := by
  rw [getElem?_withAdjacency, getElem?_withAdjacency]
  by_cases hi : k = i
  · subst hi
    rw [if_pos rfl, if_pos rfl, if_pos rfl, hr]
    rfl
  · rw [if_neg hi, if_neg hi, if_neg hi]

/-! ## Records in order -/

theorem Tidy.recordEdge (h : g.Tidy) {e : Edge} (hid : e.id.toNat = g.edges.size)
    (hword : g.edges.size + 1 < UInt64.size)
    (hends : e.src.toNat < g.nodes.size ∧ e.dst.toNat < g.nodes.size ∧
      e.relation.toNat < g.relations.size) : (recordEdge e g).Tidy := by
  have hlive : (Graph.recordEdge e g).live = g.live ++ [e] := liveEdges_push g.edges e
  refine ⟨h.block, h.whole, h.limit, h.fits, ?_, h.numbered.push hid, fun a ha => ?_⟩
  · change (g.edges.push (some e)).size < _
    rw [Array.size_push]
    exact hword
  · rw [relations_size_recordEdge]
    rw [hlive, List.mem_append, List.mem_singleton] at ha
    rcases ha with ha | rfl
    · exact h.ends a ha
    · exact hends

theorem Tidy.forgetEdge (h : g.Tidy) (id : EdgeId) : (forgetEdge id g).Tidy := by
  refine ⟨h.block, h.whole, h.limit, h.fits, ?_, h.numbered.forget id, fun e he => ?_⟩
  · change (g.edges.setIfInBounds id.toNat none).size < _
    rw [Array.size_setIfInBounds]
    exact h.word
  · change e ∈ liveEdges (g.edges.setIfInBounds id.toNat none) at he
    rw [h.numbered.liveEdges_forget] at he
    exact h.ends e (List.mem_filter.1 he).1

theorem Tidy.recordPair (h : g.Tidy) (e : Edge) (ids : List EdgeId) : (recordPair e ids g).Tidy := by
  refine ⟨h.block, h.whole, h.limit, h.fits, h.word, h.numbered, fun a ha => ?_⟩
  rw [relations_size_recordPair]
  exact h.ends a ha

/-- Other matrices of a relation leave the records alone. -/
theorem Tidy.withAdjacency (h : g.Tidy) (k : Nat) (transposed : Bool) (m : Matrix) :
    (g.withAdjacency k transposed m).Tidy := h.of_bare (bare_withMatrix g (.relation k transposed) m)

/-- A graph in which only the edges of the `k`-th relation have changed. -/
theorem Inv.of_relation (h : g.Inv) (htidy : t.Tidy) (hagrees : g.Agrees t)
    (hother : ∀ (i : Nat) (r : Relation), k ≠ i → t.relations[i]? = some r → g.relations[i]? = some r)
    (hbetween : ∀ i s d, k ≠ i → between t.live i s d = between g.live i s d)
    (hk : ∀ r : Relation, t.relations[k]? = some r → r.Holds g.dim t.live k) : t.Inv := by
  obtain ⟨-, hdim, hnodes, hlabels⟩ := hagrees
  refine ⟨htidy, fun i r hr => ?_, ?_, ?_⟩
  · rw [hdim]
    by_cases hi : k = i
    · subst hi
      exact hk r hr
    · exact (h.relation i r (hother i r hi hr)).congr fun s d => hbetween i s d hi
  · rw [hlabels, hdim, hnodes]
    exact h.label
  · rw [hnodes, hlabels]
    exact h.tags

/-- Acting on the matrix of a relation and then on its transpose. -/
theorem ensures_bothWays {α β : Type} {act act' : Metered Matrix α} {rest : Metered Graph β} {r : Relation}
    {okMatrix okTransposed : Matrix → Prop} {good : β → Graph → Prop} {bad : GraphError → Graph → Prop}
    (hr : g.relations[k]? = some r)
    (hact : Ensures act r.matrix (fun _ m => okMatrix m) fun e _ => e.OfMemory)
    (hact' : Ensures act' r.transposed (fun _ m => okTransposed m) fun e _ => e.OfMemory)
    (hbad : ∀ e t, e.OfMemory → bad e t)
    (hrest : ∀ m m', okMatrix m → okTransposed m' →
      Ensures rest ((g.withAdjacency k false m).withAdjacency k true m') good bad) :
    Ensures (do
      discard (onRelation k false act)
      discard (onRelation k true act')
      rest) g good bad := by
  have hfirst : Ensures (discard (onRelation k false act)) g
      (fun _ u => ∃ m, okMatrix m ∧ u = g.withAdjacency k false m) bad :=
    ensures_discard (ensures_onRelation hr hact (fun _ m hm => ⟨m, hm, rfl⟩) fun e _ he => hbad e _ he)
  refine hfirst.bind ?_
  rintro _ _ ⟨m, hm, rfl⟩
  have hr' : (g.withAdjacency k false m).relations[k]? = some { r with matrix := m } := by
    rw [getElem?_withAdjacency, if_pos rfl, hr]
    rfl
  have hsecond : Ensures (discard (onRelation k true act')) (g.withAdjacency k false m)
      (fun _ u => ∃ m', okTransposed m' ∧
        u = (g.withAdjacency k false m).withAdjacency k true m') bad :=
    ensures_discard (ensures_onRelation hr' hact' (fun _ m' hm' => ⟨m', hm', rfl⟩) fun e _ he => hbad e _ he)
  refine hsecond.bind ?_
  rintro _ _ ⟨m', hm', rfl⟩
  exact hrest m m' hm hm'

/-! ## A new edge -/

/-- An edge recorded after both matrix entries are written. -/
theorem Inv.recorded (h : g.Inv) {e : Edge} (hid : e.id.toNat = g.edges.size)
    (hword : g.edges.size + 1 < UInt64.size)
    (hends : e.src.toNat < g.nodes.size ∧ e.dst.toNat < g.nodes.size) {r : Relation}
    (hr : g.relations[e.relation.toNat]? = some r) {m m' : Matrix}
    (hm : m.Marks g.dim fun s d => between g.live e.relation.toNat s d ≠ [] ∨
      s = e.src.toNat ∧ d = e.dst.toNat)
    (hm' : m'.Marks g.dim fun d s => between g.live e.relation.toNat s d ≠ [] ∨
      d = e.dst.toNat ∧ s = e.src.toNat) :
    (recordEdge e ((g.withAdjacency e.relation.toNat false m).withAdjacency e.relation.toNat true m')).Inv := by
  set k := e.relation.toNat with hk
  set t := recordEdge e ((g.withAdjacency k false m).withAdjacency k true m') with ht
  have hagrees : g.Agrees t := ((agrees_withAdjacency g k false m).trans
    (agrees_withAdjacency _ k true m')).trans (agrees_recordEdge _ e)
  have hedges : t.edges = g.edges.push (some e) := rfl
  have hlive : t.live = g.live ++ [e] := by
    rw [live, hedges, liveEdges_push]
    rfl
  have hsize : ((g.withAdjacency k false m).withAdjacency k true m').relations.size = g.relations.size := by
    rw [relations_size_withAdjacency, relations_size_withAdjacency]
  have hlt := (Array.getElem?_eq_some_iff.1 hr).1
  have htidy : t.Tidy := ((h.withAdjacency k false m).withAdjacency k true m').recordEdge hid hword
    ⟨hends.1, hends.2, hsize ▸ hlt⟩
  have hrelation : ∀ i, t.relations[i]? = if k = i then some
      { r with
        matrix := m, transposed := m'
        pairs := r.pairs.alter (e.src.toNat, e.dst.toNat) fun ids => some (ids.getD [] ++ [e.id]) }
      else g.relations[i]? := by
    intro i
    rw [ht, recordEdge, Array.getElem?_modify, ← hk, getElem?_withAdjacency_both hr]
    split <;> rfl
  clear_value t
  refine h.of_relation (k := k) htidy hagrees ?_ ?_ ?_
  · intro i r' hi hr'
    rwa [hrelation, if_neg hi] at hr'
  · intro i s d hi
    rw [hlive, between_snoc, if_neg, List.append_nil]
    rw [Edge.runs_iff]
    exact fun hruns => hi hruns.1
  · intro r' hr'
    rw [hrelation, if_pos rfl] at hr'
    obtain rfl := Option.some.inj hr'
    rw [hlive]
    exact (h.relation k r hr).recorded rfl hm hm'

/-- **A new edge** has the next number. If the call fails for anything but memory, nothing has changed. -/
theorem Inv.ensures_createEdge (h : g.Inv) (src dst : NodeId) (relation : RelationId) :
    Ensures (createEdge src dst relation) g
      (fun id t => id.toNat = g.edges.size ∧ t.live = g.live ++ [.mk id src dst relation] ∧
        t.edges.size = g.edges.size + 1 ∧ t.options = g.options ∧ (t.edges.size < UInt64.size → t.Inv))
      (fun e t => e.OfMemory ∨ t = g) := by
  unfold createEdge
  refine ensures_subject (ensures_guard (fun _ => .inr rfl) fun hnodes => ?_)
  refine ensures_guard (fun _ => .inr rfl) fun hrel => ?_
  have hsrc : src.toNat < g.nodes.size := by omega
  have hdst : dst.toNat < g.nodes.size := by omega
  have hsrc' := Nat.lt_of_lt_of_le hsrc h.fits
  have hdst' := Nat.lt_of_lt_of_le hdst h.fits
  obtain ⟨r, hr⟩ : ∃ r, g.relations[relation.toNat]? = some r :=
    ⟨_, Array.getElem?_eq_getElem (Nat.not_le.1 hrel)⟩
  have hholds := h.relation _ r hr
  refine ensures_bothWays hr (hholds.matrix.ensures_set hsrc' hdst')
    (hholds.transposed.ensures_set hdst' hsrc') (fun e _ he => .inl he) fun m m' hm hm' => ?_
  have hid := EdgeId.toNat_ofNat h.word
  refine ensures_update_then (ensures_pure ⟨hid, liveEdges_push g.edges _, ?_, rfl, fun hword => ?_⟩)
  · exact Array.size_push _
  · refine h.recorded hid ?_ ⟨hsrc, hdst⟩ hr hm hm'
    rw [recordEdge, Array.size_push] at hword
    exact hword

/-! ## One edge less -/

/-- The edge list answers with the live edges. -/
theorem Inv.edge?_eq_some_iff (h : g.Inv) {id : EdgeId} {e : Edge} :
    g.edge? id = some e ↔ e ∈ g.live ∧ e.id = id := by
  unfold edge? live
  rw [Option.join_eq_some_iff, mem_liveEdges]
  constructor
  · intro he
    exact ⟨⟨_, he⟩, EdgeId.toNat_injective (h.numbered _ _ he)⟩
  · rintro ⟨⟨k, hk⟩, rfl⟩
    rwa [h.numbered k e hk]

/-- No two live edges have the same number. -/
theorem Inv.eq_of_id (h : g.Inv) {a e : Edge} (ha : a ∈ g.live) (he : e ∈ g.live) (hid : a.id = e.id) :
    a = e := by
  have h₁ := h.edge?_eq_some_iff.2 ⟨ha, hid⟩
  have h₂ := h.edge?_eq_some_iff.2 ⟨he, rfl⟩
  rw [h₁] at h₂
  exact Option.some.inj h₂

/-- A deleted edge is only missed by its own pair. -/
theorem Inv.between_forget (h : g.Inv) {e : Edge} (he : e ∈ g.live) {k s d : Nat}
    (hruns : ¬e.runs k s d = true) :
    between ((forgetEdge e.id g).live) k s d = between g.live k s d := by
  rw [show (forgetEdge e.id g).live = _ from h.numbered.liveEdges_forget e.id]
  rw [Adjacency.between_forget]
  refine List.filter_eq_self.2 fun a ha => ?_
  obtain ⟨ha, haruns⟩ := List.mem_filter.1 ha
  refine decide_eq_true fun hid => hruns ?_
  rw [← h.eq_of_id ha he hid]
  exact haruns

theorem getElem?_recordPair {e : Edge} {r : Relation} (hr : g.relations[e.relation.toNat]? = some r)
    (ids : List EdgeId) : (recordPair e ids g).relations[e.relation.toNat]? = some { r with
      pairs := if ids.isEmpty then r.pairs.erase (e.src.toNat, e.dst.toNat)
        else r.pairs.insert (e.src.toNat, e.dst.toNat) ids } := by
  rw [recordPair, Array.getElem?_modify, if_pos rfl, hr]
  rfl

/-- A deletion, whatever it left of the pair, after the matrices have followed. -/
theorem Inv.forgotten (h : g.Inv) {e : Edge} (he : e ∈ g.live) {r : Relation}
    (hr : g.relations[e.relation.toNat]? = some r) {ids : List EdgeId}
    (hids : ids = (between (forgetEdge e.id g).live e.relation.toNat e.src.toNat e.dst.toNat).map (·.id))
    {m m' : Matrix}
    (hm : m.Marks g.dim fun s d => between (forgetEdge e.id g).live e.relation.toNat s d ≠ [])
    (hm' : m'.Marks g.dim fun d s => between (forgetEdge e.id g).live e.relation.toNat s d ≠ []) :
    (((recordPair e ids (forgetEdge e.id g)).withAdjacency e.relation.toNat false m).withAdjacency
      e.relation.toNat true m').Inv := by
  set k := e.relation.toNat with hk
  set u := recordPair e ids (forgetEdge e.id g) with hu
  set t := (u.withAdjacency k false m).withAdjacency k true m' with ht
  have hagrees : g.Agrees t := ((agrees_forgetEdge g e.id).trans (agrees_recordPair _ e ids)).trans
    ((agrees_withAdjacency u k false m).trans (agrees_withAdjacency _ k true m'))
  have hlive : t.live = (forgetEdge e.id g).live := rfl
  have htidy : t.Tidy := (((h.forgetEdge e.id).recordPair e ids).withAdjacency k false m).withAdjacency k true m'
  have hrelation : ∀ i, t.relations[i]? = if k = i then some
      { r with
        matrix := m, transposed := m'
        pairs := if ids.isEmpty then r.pairs.erase (e.src.toNat, e.dst.toNat)
          else r.pairs.insert (e.src.toNat, e.dst.toNat) ids }
      else g.relations[i]? := by
    intro i
    rw [ht, getElem?_withAdjacency_both (getElem?_recordPair (g := forgetEdge e.id g) hr ids)]
    by_cases hi : k = i
    · rw [if_pos hi, if_pos hi]
    · rw [if_neg hi, if_neg hi, recordPair, Array.getElem?_modify, ← hk, if_neg hi]
      rfl
  clear_value t u
  refine h.of_relation (k := k) htidy hagrees ?_ ?_ ?_
  · intro i r' hi hr'
    rwa [hrelation, if_neg hi] at hr'
  · intro i s d hi
    rw [hlive]
    exact h.between_forget he fun hruns => hi (Edge.runs_iff.1 hruns).1
  · intro r' hr'
    rw [hrelation, if_pos rfl] at hr'
    obtain rfl := Option.some.inj hr'
    rw [hlive]
    exact (h.relation k r hr).forgotten (fun _ _ => h.between_forget he) hids hm hm'

theorem Inv.siblings_eq (h : g.Inv) {e : Edge} (he : e ∈ g.live) {r : Relation}
    (hr : g.relations[e.relation.toNat]? = some r) :
    (forgetEdge e.id g).siblings e =
      some ((between (forgetEdge e.id g).live e.relation.toNat e.src.toNat e.dst.toNat).map (·.id)) := by
  have hpairs := (h.relation _ r hr).pairs e.src.toNat e.dst.toNat
  rw [Std.TreeMap.getD_eq_getD_getElem?] at hpairs
  have hmem : e ∈ between g.live e.relation.toNat e.src.toNat e.dst.toNat :=
    List.mem_filter.2 ⟨he, Edge.runs_iff.2 ⟨rfl, rfl, rfl⟩⟩
  have hget : (forgetEdge e.id g).relations.getD e.relation.toNat default = r := by
    rw [Array.getD_eq_getD_getElem?, show (forgetEdge e.id g).relations[e.relation.toNat]? = _ from hr]
    rfl
  rw [siblings, hget]
  cases hp : r.pairs[(e.src.toNat, e.dst.toNat)]? with
  | none =>
    -- the pair is recorded, for the edge is listed under it
    rw [hp] at hpairs
    have hnil := List.map_eq_nil_iff.1 hpairs.symm
    rw [hnil] at hmem
    cases hmem
  | some ids =>
    rw [hp, Option.getD_some] at hpairs
    rw [Option.map_some, hpairs, show (forgetEdge e.id g).live = _ from h.numbered.liveEdges_forget e.id,
      Adjacency.between_forget, List.filter_map]
    rfl

/-- Forgetting an edge leaves the other pairs alone. -/
theorem Inv.between_forget_other (h : g.Inv) {e : Edge} (he : e ∈ g.live) {s d : Nat}
    (hne : ¬(s = e.src.toNat ∧ d = e.dst.toNat)) :
    between (forgetEdge e.id g).live e.relation.toNat s d = between g.live e.relation.toNat s d := by
  refine h.between_forget he fun hc => hne ?_
  obtain ⟨-, hcs, hcd⟩ := Edge.runs_iff.1 hc
  exact ⟨hcs.symm, hcd.symm⟩

/-- The last edge of its pair takes the pair with it. -/
theorem Inv.between_forget_last (h : g.Inv) {e : Edge} (he : e ∈ g.live)
    (hgone : between (forgetEdge e.id g).live e.relation.toNat e.src.toNat e.dst.toNat = []) (s d : Nat) :
    (between g.live e.relation.toNat s d ≠ [] ∧ ¬(s = e.src.toNat ∧ d = e.dst.toNat)) ↔
      between (forgetEdge e.id g).live e.relation.toNat s d ≠ [] := by
  by_cases hp : s = e.src.toNat ∧ d = e.dst.toNat
  · rw [hp.1, hp.2, hgone]
    simp
  · rw [h.between_forget_other he hp]
    simp [hp]

/-- Another edge of the pair keeps the pair. -/
theorem Inv.between_forget_shared (h : g.Inv) {e : Edge} (he : e ∈ g.live)
    (hleft : between (forgetEdge e.id g).live e.relation.toNat e.src.toNat e.dst.toNat ≠ []) (s d : Nat) :
    between g.live e.relation.toNat s d ≠ [] ↔
      between (forgetEdge e.id g).live e.relation.toNat s d ≠ [] := by
  by_cases hp : s = e.src.toNat ∧ d = e.dst.toNat
  · rw [hp.1, hp.2]
    have hruns := Edge.runs_iff.2 (show _ ∧ e.src.toNat = _ ∧ e.dst.toNat = _ from ⟨rfl, rfl, rfl⟩)
    exact iff_of_true (between_ne_nil_iff.2 ⟨e, he, hruns⟩) hleft
  · rw [h.between_forget_other he hp]

/-- The last edge of its pair takes the matrix entries with it. -/
theorem Inv.ensures_unmarkPair (h : g.Inv) {e : Edge} (he : e ∈ g.live)
    (hgone : between (forgetEdge e.id g).live e.relation.toNat e.src.toNat e.dst.toNat = []) :
    Ensures (do
        discard (onRelation e.relation.toNat false (Matrix.remove e.src.toNat e.dst.toNat))
        discard (onRelation e.relation.toNat true (Matrix.remove e.dst.toNat e.src.toNat))
        return true) (recordPair e [] (forgetEdge e.id g))
      (fun was t => was = true ∧ t.Inv ∧ t.live = (forgetEdge e.id g).live ∧
        t.edges.size = g.edges.size ∧ t.options = g.options)
      (fun e _ => e.OfMemory) := by
  obtain ⟨hs, hd, hk⟩ := h.ends e he
  have hs' := Nat.lt_of_lt_of_le hs h.fits
  have hd' := Nat.lt_of_lt_of_le hd h.fits
  obtain ⟨r, hr⟩ : ∃ r, g.relations[e.relation.toNat]? = some r := ⟨_, Array.getElem?_eq_getElem hk⟩
  have hholds := h.relation _ r hr
  have hpairs := h.between_forget_last he hgone
  have hids : [] = (between (forgetEdge e.id g).live e.relation.toNat e.src.toNat e.dst.toNat).map (·.id) := by
    rw [hgone]
    rfl
  refine ensures_bothWays (getElem?_recordPair (g := forgetEdge e.id g) hr [])
    (hholds.matrix.ensures_remove hs' hd') (hholds.transposed.ensures_remove hd' hs')
    (fun e _ he => he) fun m m' hm hm' => ?_
  refine ensures_pure ⟨rfl, ?_, rfl, Array.size_setIfInBounds, rfl⟩
  refine h.forgotten he hr hids (hm.congr hpairs) (hm'.congr fun d s => ?_)
  rw [← hpairs, and_comm (a := d = _)]

/-- Another edge of the pair keeps the matrix entries. -/
theorem Inv.recordPair_shared (h : g.Inv) {e : Edge} (he : e ∈ g.live) {ids : List EdgeId}
    (hids : ids = (between (forgetEdge e.id g).live e.relation.toNat e.src.toNat e.dst.toNat).map (·.id))
    (hleft : between (forgetEdge e.id g).live e.relation.toNat e.src.toNat e.dst.toNat ≠ []) :
    (recordPair e ids (forgetEdge e.id g)).Inv := by
  obtain ⟨r, hr⟩ : ∃ r, g.relations[e.relation.toNat]? = some r :=
    ⟨_, Array.getElem?_eq_getElem (h.ends e he).2.2⟩
  have hholds := h.relation _ r hr
  have hpairs := h.between_forget_shared he hleft
  have hinv := h.forgotten he hr hids (hholds.matrix.congr hpairs)
    (hholds.transposed.congr fun d s => hpairs s d)
  -- the matrices are where they were, so to put them there changes nothing
  obtain ⟨pairs, hru⟩ : ∃ pairs, (recordPair e ids (forgetEdge e.id g)).relations[e.relation.toNat]? =
      some { r with pairs } := ⟨_, getElem?_recordPair (g := forgetEdge e.id g) hr ids⟩
  generalize recordPair e ids (forgetEdge e.id g) = u at hinv hru ⊢
  have hmatrix : u.withAdjacency e.relation.toNat false r.matrix = u :=
    withAdjacency_eq_self (r := { r with pairs }) hru
  have htransposed : u.withAdjacency e.relation.toNat true r.transposed = u :=
    withAdjacency_eq_self (r := { r with pairs }) hru
  rwa [hmatrix, htransposed] at hinv

/-- **A deletion** can only fail for want of memory. -/
theorem Inv.ensures_deleteEdge (h : g.Inv) (id : EdgeId) :
    Ensures (deleteEdge id) g
      (fun was t => was = (g.edge? id).isSome ∧ t.Inv ∧ t.live = g.live.filter (·.id ≠ id) ∧
        t.edges.size = g.edges.size ∧ t.options = g.options)
      (fun e _ => e.OfMemory) := by
  unfold deleteEdge
  refine ensures_subject ?_
  cases hedge : g.edge? id with
  | none =>
    refine ensures_pure ⟨rfl, h, ?_, rfl, rfl⟩
    have hother : ∀ e ∈ g.live, e.id ≠ id := by
      intro e he hid
      rw [h.edge?_eq_some_iff.2 ⟨he, hid⟩] at hedge
      cases hedge
    exact (List.filter_eq_self.2 fun e he => decide_eq_true (hother e he)).symm
  | some e =>
    obtain ⟨he, rfl⟩ := h.edge?_eq_some_iff.1 hedge
    obtain ⟨-, -, hk⟩ := h.ends e he
    obtain ⟨r, hr⟩ : ∃ r, g.relations[e.relation.toNat]? = some r := ⟨_, Array.getElem?_eq_getElem hk⟩
    have hlive : (forgetEdge e.id g).live = g.live.filter (·.id ≠ e.id) :=
      h.numbered.liveEdges_forget e.id
    refine ensures_update_then (ensures_subject (ensures_guard (fun hc => ?_) fun _ => ?_))
    · exact absurd hk (Nat.not_lt.2 hc)
    rw [h.siblings_eq he hr]
    generalize hids : (between (forgetEdge e.id g).live e.relation.toNat e.src.toNat e.dst.toNat).map
      (·.id) = ids
    refine ensures_update_then (ensures_ite (fun hempty => ?_) fun hne => ?_)
    · obtain rfl := List.isEmpty_iff.1 hempty
      have hgone := List.map_eq_nil_iff.1 hids
      refine (h.ensures_unmarkPair he hgone).mono ?_ fun _ _ herr => herr
      rintro _ t ⟨rfl, hinv, ht, hsize, hoptions⟩
      exact ⟨rfl, hinv, ht.trans hlive, hsize, hoptions⟩
    · have hleft : between (forgetEdge e.id g).live e.relation.toNat e.src.toNat e.dst.toNat ≠ [] := by
        intro hc
        refine hne ?_
        rw [← hids, hc]
        rfl
      exact ensures_pure ⟨rfl, h.recordPair_shared he hids.symm hleft, hlive, Array.size_setIfInBounds, rfl⟩

/-! ## What queries read -/

/-- Relation after relation, the recorded edges of the pair. -/
theorem edgesBetween_eq_pairs (g : Graph) (src dst : NodeId) (relations : List RelationId) :
    g.edgesBetween src dst relations = (List.range g.relations.size).flatMap fun k =>
      if relations.isEmpty || relations.contains (.ofNat k) then
        ((g.relations.getD k default).pairs.getD (src.toNat, dst.toNat) []).filterMap g.edge?
      else [] := by
  have hindices : g.relations.toList.zipIdx.map (·.2) = List.range g.relations.size := by
    rw [List.zipIdx_map_snd, List.range_eq_range', Array.length_toList]
  rw [← hindices, List.flatMap_map]
  refine List.flatMap_congr fun p hp => ?_
  obtain ⟨r, k⟩ := p
  have hr : g.relations[k]? = some r := by
    rw [← Array.getElem?_toList]
    exact List.mk_mem_zipIdx_iff_getElem?.1 hp
  dsimp only
  rw [Array.getD_eq_getD_getElem?, hr]
  rfl

/-- Relation after relation, the live edges of the pair. -/
theorem Inv.edgesBetween_eq (h : g.Inv) (src dst : NodeId) (relations : List RelationId) :
    g.edgesBetween src dst relations = (List.range g.relations.size).flatMap fun k =>
      if relations.isEmpty || relations.contains (.ofNat k) then between g.live k src.toNat dst.toNat
      else [] := by
  rw [edgesBetween_eq_pairs]
  refine List.flatMap_congr fun k hk => ?_
  split
  · have hr := Array.getElem?_eq_getElem (List.mem_range.1 hk)
    rw [Array.getD_eq_getD_getElem?, hr, Option.getD_some, (h.relation k _ hr).pairs, List.filterMap_map]
    refine (List.filterMap_congr fun e he => ?_).trans List.filterMap_some
    exact h.edge?_eq_some_iff.2 ⟨(List.mem_filter.1 he).1, rfl⟩
  · rfl

/-- **The edges between two nodes**: the live ones in the given relations, each once, by relation and then
by age. -/
theorem Inv.edgesBetween_spec (h : g.Inv) (src dst : NodeId) (relations : List RelationId) :
    (g.edgesBetween src dst relations).Pairwise (fun a b => a.relation.toNat < b.relation.toNat ∨
      a.relation = b.relation ∧ a.id.toNat < b.id.toNat) ∧
    ∀ e, e ∈ g.edgesBetween src dst relations ↔
      e ∈ g.live ∧ e.src = src ∧ e.dst = dst ∧ (relations = [] ∨ e.relation ∈ relations) := by
  have hmem : ∀ {k : Nat} {e : Edge}, e ∈ (if relations.isEmpty || relations.contains (.ofNat k) then
      between g.live k src.toNat dst.toNat else []) ↔
      (relations = [] ∨ RelationId.ofNat k ∈ relations) ∧ e ∈ between g.live k src.toNat dst.toNat := by
    intro k e
    have hiff : (relations.isEmpty || relations.contains (.ofNat k)) = true ↔
        relations = [] ∨ RelationId.ofNat k ∈ relations := by simp
    split
    · next hc => exact ⟨fun he => ⟨hiff.1 hc, he⟩, And.right⟩
    · next hc => exact ⟨fun he => (List.not_mem_nil he).elim, fun he => absurd (hiff.2 he.1) hc⟩
  have hofNat : ∀ {k : Nat} {e : Edge}, e.relation.toNat = k → RelationId.ofNat k = e.relation := by
    rintro k e rfl
    exact e.relation.ofNat_toNat
  rw [h.edgesBetween_eq]
  constructor
  · refine List.pairwise_flatMap.2 ⟨fun k _ => ?_, List.pairwise_lt_range.imp fun {k l} hkl a ha b hb => ?_⟩
    · split
      · refine (h.numbered.ascending.filter _).imp_of_mem fun {a b} ha hb hab => ?_
        have hka := (Edge.runs_iff.1 (List.mem_filter.1 ha).2).1
        have hkb := (Edge.runs_iff.1 (List.mem_filter.1 hb).2).1
        exact .inr ⟨(hofNat hka).symm.trans (hofNat hkb), hab⟩
      · exact List.Pairwise.nil
    · have hka := (Edge.runs_iff.1 (List.mem_filter.1 (hmem.1 ha).2).2).1
      have hkb := (Edge.runs_iff.1 (List.mem_filter.1 (hmem.1 hb).2).2).1
      exact .inl (by omega)
  · intro e
    simp only [List.mem_flatMap, List.mem_range, hmem]
    constructor
    · rintro ⟨k, -, hrel, he⟩
      obtain ⟨he, hruns⟩ := List.mem_filter.1 he
      obtain ⟨hk, hs, hd⟩ := Edge.runs_iff.1 hruns
      rw [hofNat hk] at hrel
      exact ⟨he, NodeId.toNat_injective hs, NodeId.toNat_injective hd, hrel⟩
    · rintro ⟨he, rfl, rfl, hrel⟩
      refine ⟨e.relation.toNat, (h.ends e he).2.2, ?_, List.mem_filter.2 ⟨he, Edge.runs_iff.2 ⟨rfl, rfl, rfl⟩⟩⟩
      rwa [hofNat rfl]

/-- What is found for a label: the position of a node that carries it. -/
theorem tagged_of_found {l : LabelId} {n : NodeId} {x : Node × Nat} (hx : x ∈ g.nodes.toList.zipIdx)
    (hn : (if x.1.labels.contains l then some (NodeId.ofNat x.2) else none) = some n) :
    Tagged g.nodes l.toNat x.2 ∧ n = .ofNat x.2 := by
  split at hn
  · next hl =>
    refine ⟨⟨x.1, ?_, l, List.contains_iff_mem.1 hl, rfl⟩, (Option.some.inj hn).symm⟩
    rw [← Array.getElem?_toList]
    exact List.mem_zipIdx_iff_getElem?.1 hx
  · cases hn

/-- A label that is carried has a matrix, and so the nodes are few enough to be numbered by words. -/
theorem Inv.toNat_of_tagged (h : g.Inv) {l n : Nat} (ht : Tagged g.nodes l n) :
    (NodeId.ofNat n).toNat = n := by
  have hlabel := Array.getElem?_eq_getElem (h.tags _ _ ht)
  have hdim := (h.label _ _ hlabel).dim_le
  obtain ⟨node, hnode, -⟩ := ht
  have hlt := (Array.getElem?_eq_some_iff.1 hnode).1
  refine UInt64.toNat_ofNat_of_lt' (Nat.lt_of_lt_of_le hlt (Nat.le_trans h.fits (Nat.le_trans hdim ?_)))
  decide

/-- **The nodes of a label**: those that carry it, ascending. -/
theorem Inv.nodeIds_spec (h : g.Inv) (l : LabelId) :
    (g.nodeIds (some l)).Pairwise (fun a b => a.toNat < b.toNat) ∧
    ∀ n, n ∈ g.nodeIds (some l) ↔ Tagged g.nodes l.toNat n.toNat := by
  unfold nodeIds
  constructor
  · have hindices : g.nodes.toList.zipIdx.Pairwise fun a b => a.2 < b.2 := by
      refine List.pairwise_map.1 ?_
      rw [List.zipIdx_map_snd]
      exact List.pairwise_lt_range'
    refine List.pairwise_filterMap.2 (hindices.imp_of_mem fun {a b} ha hb hab n hn n' hn' => ?_)
    obtain ⟨hta, rfl⟩ := tagged_of_found ha hn
    obtain ⟨htb, rfl⟩ := tagged_of_found hb hn'
    rwa [h.toNat_of_tagged hta, h.toNat_of_tagged htb]
  · intro n
    rw [List.mem_filterMap]
    constructor
    · rintro ⟨x, hx, hn⟩
      obtain ⟨ht, rfl⟩ := tagged_of_found hx hn
      rwa [h.toNat_of_tagged ht]
    · rintro ⟨node, hnode, l', hl', heq⟩
      obtain rfl := LabelId.toNat_injective heq
      refine ⟨(node, n.toNat), List.mk_mem_zipIdx_iff_getElem?.2 (by rwa [Array.getElem?_toList]), ?_⟩
      dsimp only
      rw [if_pos (List.contains_iff_mem.2 hl')]
      exact congrArg some (congrArg NodeId.mk UInt64.ofNat_toNat)

end Graph

end Adjacency
