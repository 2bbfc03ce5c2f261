import Adjacency.Proofs.GraphRun
import Adjacency.Proofs.Records

/-!
# Calls that fail

A call may be refused before it has done anything, or run out of memory when it has done a part of its work.
Marks are always written, since no matrix of a graph ever has anything else to hold. So the calls that can
stop halfway are those that commit: growth, a deletion, and the commit of all matrices itself.

* `Graph.Sturdy`: what every call keeps, failed or not. It is less than `Inv`: the matrices need not agree
  with the edges any more.
* `Sturdy.ensures_grow`, `Sturdy.ensures_deleteEdge`: **the two calls that leave something behind**.
* `Graph.Reaches`: runs of calls that succeed or fail; the invariant holds along them.
* `Reaches.after_failure`: **a call that fails leaves the graph as it was**, but for these two.
-/

namespace Adjacency

open Metered

namespace Graph

variable {g t u : Graph} {part : Part} {m m' : Matrix} {e : Edge}

/-! ## What holds after a failure too -/

/-- A matrix of the graph: it has a place for every node, and if there is no place for another one, it may
have grown already. -/
def Seats (g : Graph) (m : Matrix) : Prop :=
  m.Markable g.dim ∨ g.nodes.size = g.dim ∧ m.Markable (g.dim + g.options.nodeBlock)

/-- What every call keeps, whether or not it succeeds: the records are in order, and the matrices can be
worked with. Whether they agree is another matter. -/
structure Sturdy (g : Graph) : Prop extends Tidy g where
  matrix : ∀ part m, g.matrix? part = some m → g.Seats m

theorem sturdy_new {options : GraphOptions} (hlimit : options.matrix.maxDenseCells < UInt64.size) :
    (new options).Sturdy :=
  ⟨(inv_new hlimit).toTidy, fun part m hm => by cases part <;> cases hm⟩

/-- The matrix has some dimension that has room for every node, and any other of that dimension would do. -/
theorem Seats.exists_dim (h : g.Seats m) :
    ∃ dim, m.Markable dim ∧ g.dim ≤ dim ∧ ∀ m' : Matrix, m'.Markable dim → g.Seats m' := by
  rcases h with h | ⟨hfull, h⟩
  · exact ⟨_, h, Nat.le_refl _, fun _ hm' => .inl hm'⟩
  · exact ⟨_, h, Nat.le_add_right _ _, fun _ hm' => .inr ⟨hfull, hm'⟩⟩

/-- The invariant speaks of the records and of each matrix. -/
theorem Sturdy.of_bare (h : g.Sturdy) (hb : t.bare = g.bare)
    (hm : ∀ part m, t.matrix? part = some m → g.Seats m) : t.Sturdy := by
  refine ⟨h.toTidy.of_bare hb, fun part m ht => ?_⟩
  have hseats := hm part m ht
  obtain ⟨hoptions, hdim, hnodes, -, -, -⟩ := sameFrame_of_bare hb
  unfold Seats at hseats ⊢
  rwa [hoptions, hdim, hnodes]

/-- A call that makes matrices anew keeps the invariant if it seats every node. -/
theorem Sturdy.of_remade {R : Part → Matrix → Matrix → Prop} (h : g.Sturdy) (hr : Remade R g t)
    (hR : ∀ part m m', R part m m' → g.Seats m → g.Seats m') : t.Sturdy := by
  refine h.of_bare hr.bare fun part m' hm' => ?_
  obtain ⟨m, hm, hrel⟩ := hr.exists_old hm'
  exact hR part m m' hrel (h.matrix part m hm)

/-! ## Commits -/

/-- A commit that fails has committed some of the matrices; none of them looks any different. -/
theorem Sturdy.ensures_sync (h : g.Sturdy) :
    Ensures sync g (fun _ t => t.Sturdy) (fun _ t => t.Sturdy ∧ g.Unchanged t) := by
  -- a commit keeps the dimension, whichever of the two it is
  have hact : ∀ part m, g.matrix? part = some m → Ensures Matrix.wait m
      (fun _ m' => m.SameView m' ∧ (g.Seats m → g.Seats m'))
      (fun _ m' => m.SameView m' ∧ (g.Seats m → g.Seats m')) := by
    intro part m hm
    obtain ⟨dim, hmark, -, hseats⟩ := (h.matrix part m hm).exists_dim
    exact hmark.ensures_wait.mono (fun _ _ hm' => ⟨hm'.2, fun _ => hseats _ hm'.1⟩)
      fun _ _ hm' => ⟨hm'.2.2, fun _ => hseats _ hm'.2.1⟩
  unfold sync
  refine (ensures_onEveryMatrix hact).mono ?_ ?_
  · exact fun _ t ht => h.of_remade ht fun _ _ _ hm => hm.2
  · rintro e t ⟨-, -, -, ht⟩
    have hsame : Remade (fun _ m m' => m.SameView m' ∧ (g.Seats m → g.Seats m')) g t := by
      refine ht.mono fun _ m m' hm => ?_
      rcases hm with hm | rfl | hm
      · exact hm
      · exact ⟨Matrix.SameView.refl _, id⟩
      · exact hm
    exact ⟨h.of_remade hsame fun _ _ _ hm => hm.2, (hsame.mono fun _ _ _ hm => hm.1).unchanged⟩

/-! ## Nodes -/

/-- With all matrices at the next dimension the graph is at it. -/
theorem Sturdy.of_grown (h : g.Sturdy) {R : Part → Matrix → Matrix → Prop} (hr : Remade R g t)
    (hR : ∀ part m m', R part m m' → m'.Markable (g.dim + g.options.nodeBlock)) :
    ({ t with dim := g.dim + g.options.nodeBlock } : Graph).Sturdy := by
  have htidy : ({ g with dim := g.dim + g.options.nodeBlock } : Graph).Tidy :=
    h.at_dim ((Nat.dvd_add_self_right).2 h.whole) (Nat.le_add_right_of_le h.fits)
  have hb := congrArg (fun s : Graph => { s with dim := g.dim + g.options.nodeBlock }) hr.bare
  refine ⟨htidy.of_bare hb, fun part m' hm' => ?_⟩
  obtain ⟨m, -, hrel⟩ := hr.exists_old (t := t) hm'
  exact .inl (hR part m m' hrel)

/-- **Growth that fails** leaves everything as it was, or it has run out of memory when some of the matrices
had grown. -/
theorem Sturdy.ensures_grow (h : g.Sturdy) (hfull : g.nodes.size = g.dim) :
    Ensures (grow (g.dim + g.options.nodeBlock)) g
      (fun _ t => t.Sturdy ∧ t.bare = ({ g with dim := g.dim + g.options.nodeBlock } : Graph).bare)
      (fun e t => t.Sturdy ∧ (g.Unchanged t ∨ e.OfMemory ∧ g.Stretched t)) := by
  set dim := g.dim + g.options.nodeBlock with hdim
  have hgrown : ∀ {t : Graph}, t.bare = g.bare →
      ({ t with dim } : Graph).bare = ({ g with dim } : Graph).bare :=
    fun hb => congrArg (fun s : Graph => { s with dim }) hb
  unfold grow
  by_cases hlarge : maxDim < dim
  · -- the first matrix refuses, and without one there is nothing to refuse
    have hact : ∀ part m, g.matrix? part = some m → Ensures (Matrix.resize dim dim) m
        (fun _ _ => False) (fun _ m' => m' = m) := fun _ m _ => Matrix.ensures_resize_refused m hlarge
    refine (ensures_onEveryMatrix hact).andThen ?_ ?_
    · rintro e t ⟨-, -, -, ht⟩
      have hsame : Remade (fun _ m m' => m' = m) g t := ht.mono fun _ _ _ hm => by simpa using hm
      refine ⟨h.of_remade hsame fun _ _ _ hm hseats => hm ▸ hseats, .inl ?_⟩
      exact (hsame.mono fun _ m m' hm => hm ▸ Matrix.SameView.refl m).unchanged
    · intro _ t ht
      exact ensures_update ⟨h.of_grown ht fun _ _ _ hf => hf.elim, hgrown ht.bare⟩
  · have hact : ∀ part m, g.matrix? part = some m → Ensures (Matrix.resize dim dim) m
        (fun _ m' => m'.Markable dim ∧ m.Widens m' dim)
        (fun e m' => e.OfMemory ∧ g.Seats m' ∧ m.Widens m' dim) := by
      intro part m hm
      have hseat : ∀ m' : Matrix, m'.Markable dim → g.Seats m' := fun m' hm' => .inr ⟨hfull, hm'⟩
      -- a matrix that an earlier call has made to grow is at the new dimension already
      rcases h.matrix part m hm with hm | ⟨-, hm⟩
      · refine (hm.ensures_resize (Nat.le_add_right _ _) (Nat.not_lt.1 hlarge)).mono (fun _ _ hm' => hm') ?_
        exact fun e m' hm' => ⟨hm'.1, hm'.2.1.elim .inl (hseat m'), hm'.2.2⟩
      · refine (hm.ensures_resize (Nat.le_refl _) (Nat.not_lt.1 hlarge)).mono (fun _ _ hm' => hm') ?_
        exact fun e m' hm' => ⟨hm'.1, hm'.2.1.elim (hseat m') (hseat m'), hm'.2.2⟩
    refine (ensures_onEveryMatrix hact).andThen ?_ ?_
    · rintro e t ⟨-, -, ⟨he, -⟩, ht⟩
      have hpart : Remade (fun _ m m' => (g.Seats m → g.Seats m') ∧ m.Widens m' dim) g t := by
        refine ht.mono fun _ m m' hm => ?_
        rcases hm with hm | rfl | hm
        · exact ⟨fun _ => .inr ⟨hfull, hm.1⟩, hm.2⟩
        · exact ⟨id, Matrix.Widens.refl _ _⟩
        · exact ⟨fun _ => hm.2.1, hm.2.2⟩
      refine ⟨h.of_remade hpart fun _ _ _ hm => hm.1, .inr ⟨he, hfull, sameRecords_of_bare ht.bare, ?_⟩⟩
      exact (hpart.mono fun _ _ _ hm => hm.2).matrix
    · intro _ t ht
      exact ensures_update ⟨h.of_grown ht fun _ _ _ hm => hm.1, hgrown ht.bare⟩

theorem Sturdy.withMatrix (h : g.Sturdy) (hm : g.Seats m) : (g.withMatrix part m).Sturdy := by
  refine h.of_bare (bare_withMatrix g part m) fun other n hn => ?_
  rw [matrix?_withMatrix] at hn
  split at hn
  · obtain ⟨_, -, rfl⟩ := Option.map_eq_some_iff.1 hn
    exact hm
  · exact h.matrix other n hn

/-- **A mark is written without fail** in any matrix of the graph. -/
theorem Sturdy.ensures_mark (h : g.Sturdy) (hm : g.matrix? part = some m) {row col : Nat}
    (hrow : row < g.dim) (hcol : col < g.dim) :
    Ensures (discard (onPart part (Matrix.setElement (.bool true) row col))) g
      (fun _ t => t.Sturdy ∧ t.bare = g.bare) (fun _ _ => False) := by
  obtain ⟨dim, hmark, hle, hseats⟩ := (h.matrix part m hm).exists_dim
  have hact := hmark.ensures_set (Nat.lt_of_lt_of_le hrow hle) (Nat.lt_of_lt_of_le hcol hle)
  exact ensures_discard (ensures_onPart hm hact
    (fun _ m' hm' => ⟨h.withMatrix (hseats m' hm'), bare_withMatrix g part m'⟩) fun _ _ hf => hf)

/-- One node more, its labels written. -/
theorem Sturdy.push_node (h : g.Sturdy) (hroom : g.nodes.size < g.dim) (node : Node) :
    ({ g with nodes := g.nodes.push node } : Graph).Sturdy :=
  ⟨h.toTidy.push_node hroom node, fun part m hm =>
    .inl ((h.matrix part m hm).resolve_right fun hc => Nat.ne_of_lt hroom hc.1)⟩

theorem Sturdy.ensures_createNode (h : g.Sturdy) (labels : List LabelId)
    (properties : List (String × Value)) : Ensures (createNode labels properties) g (fun _ t => t.Sturdy)
    (fun e t => t.Sturdy ∧ (g.Unchanged t ∨ e.OfMemory ∧ g.Stretched t)) := by
  unfold createNode
  refine ensures_subject (ensures_guard (fun _ => ⟨h, .inl (Unchanged.refl g)⟩) fun hall => ?_)
  have hall : ∀ l ∈ labels, l.toNat < g.labels.size := by
    intro l hl
    by_contra hlt
    exact hall (List.any_eq_true.2 ⟨l, hl, decide_eq_true (Nat.not_lt.1 hlt)⟩)
  dsimp only
  -- only a graph that is full has to grow; the labels are then written without fail
  refine ensures_when (fun t => t.Sturdy ∧ t.nodes = g.nodes ∧ t.labels.size = g.labels.size ∧
    g.nodes.size < t.dim) (fun hle => ?_) (fun hroom => ⟨h, rfl, rfl, Nat.not_le.1 hroom⟩) ?_
  · have hfull : g.nodes.size = g.dim := Nat.le_antisymm h.fits hle
    have hnext : (g.nodes.size / g.options.nodeBlock + 1) * g.options.nodeBlock =
        g.dim + g.options.nodeBlock := by
      rw [hfull, Nat.add_mul, Nat.one_mul, Nat.div_mul_cancel h.whole]
    rw [hnext]
    refine (h.ensures_grow hfull).mono ?_ fun _ _ ht => ht
    rintro _ t ⟨ht, hb⟩
    have hframe := sameFrame_of_bare hb
    have hdim : t.dim = g.dim + g.options.nodeBlock := hframe.dim
    have hblock := h.block
    exact ⟨ht, hframe.nodes, hframe.labels_size, by omega⟩
  · rintro t ⟨ht, hnodes, hlabels, hroom⟩
    rw [← hnodes] at hroom ⊢
    have hloop : Ensures (labels.forM fun l => discard (onLabel l.toNat
        (Matrix.setElement (.bool true) t.nodes.size t.nodes.size))) t
        (fun _ u => u.Sturdy ∧ u.bare = t.bare) (fun _ _ => False) := by
      refine ensures_forEach ⟨ht, rfl⟩ ?_
      rintro l hl u ⟨hu, hb⟩
      have hframe := sameFrame_of_bare hb
      have hlt : l.toNat < u.labels.size := by
        rw [hframe.labels_size, hlabels]
        exact hall l hl
      obtain ⟨m, hm⟩ := exists_labelMatrix hlt
      rw [← hframe.dim] at hroom
      refine (hu.ensures_mark hm hroom hroom).mono (fun _ w hw => ⟨hw.1, hw.2.trans hb⟩) fun _ _ hf => hf
    refine hloop.andThen (fun _ _ hf => hf.elim) ?_
    rintro _ u ⟨hu, hb⟩
    have hframe := sameFrame_of_bare hb
    rw [← hframe.dim, ← hframe.nodes] at hroom
    exact ensures_update_then (ensures_pure (hu.push_node hroom _))

/-! ## Edges -/

theorem Sturdy.recordEdge (h : g.Sturdy) (hid : e.id.toNat = g.edges.size)
    (hword : g.edges.size + 1 < UInt64.size)
    (hends : e.src.toNat < g.nodes.size ∧ e.dst.toNat < g.nodes.size ∧
      e.relation.toNat < g.relations.size) : (recordEdge e g).Sturdy := by
  refine ⟨h.toTidy.recordEdge hid hword hends, fun part m hm => h.matrix part m ?_⟩
  rwa [Graph.recordEdge, matrix?_modify] at hm
  exact fun _ _ => rfl

/-- **A new edge** is refused or made: once it is known to be in order, nothing can fail. -/
theorem Sturdy.ensures_createEdge (h : g.Sturdy) (src dst : NodeId) (relation : RelationId) :
    Ensures (createEdge src dst relation) g (fun _ t => t.edges.size < UInt64.size → t.Sturdy)
      (fun _ t => t = g) := by
  unfold createEdge
  refine ensures_subject (ensures_guard (fun _ => rfl) fun hnodes => ?_)
  refine ensures_guard (fun _ => rfl) fun hrel => ?_
  have hsrc : src.toNat < g.nodes.size := by omega
  have hdst : dst.toNat < g.nodes.size := by omega
  have hrel := Nat.not_le.1 hrel
  have hsrc' := Nat.lt_of_lt_of_le hsrc h.fits
  have hdst' := Nat.lt_of_lt_of_le hdst h.fits
  -- the marks are written before the edge is recorded, and neither can fail
  obtain ⟨m, hm⟩ := exists_relationMatrix hrel false
  refine (h.ensures_mark hm hsrc' hdst').andThen (fun _ _ hf => hf.elim) ?_
  rintro _ t ⟨ht, hbt⟩
  have hframe := sameFrame_of_bare hbt
  obtain ⟨m', hm'⟩ := exists_relationMatrix (hframe.relations_size ▸ hrel) true
  refine (ht.ensures_mark hm' (hframe.dim ▸ hdst') (hframe.dim ▸ hsrc')).andThen (fun _ _ hf => hf.elim) ?_
  rintro _ u ⟨hu, hbu⟩
  have hframe := sameFrame_of_bare (hbu.trans hbt)
  refine ensures_update_then (ensures_pure fun hword => hu.recordEdge ?_ ?_ ?_)
  · rw [hframe.edges]
    exact EdgeId.toNat_ofNat h.word
  · rwa [Graph.recordEdge, Array.size_push] at hword
  · rw [hframe.nodes, hframe.relations_size]
    exact ⟨hsrc, hdst, hrel⟩

theorem Sturdy.forgetEdge (h : g.Sturdy) (id : EdgeId) : (forgetEdge id g).Sturdy :=
  ⟨h.toTidy.forgetEdge id, h.matrix⟩

theorem matrix?_recordPair (g : Graph) (e : Edge) (ids : List EdgeId) (part : Part) :
    (recordPair e ids g).matrix? part = g.matrix? part := by
  rw [Graph.recordPair, matrix?_modify]
  exact fun _ _ => rfl

theorem Sturdy.recordPair (h : g.Sturdy) (e : Edge) (ids : List EdgeId) : (recordPair e ids g).Sturdy := by
  refine ⟨h.toTidy.recordPair e ids, fun part m hm => ?_⟩
  rw [matrix?_recordPair] at hm
  exact h.matrix part m hm

/-- A mark is taken away, or the matrix looks as it did. -/
theorem Sturdy.ensures_unmark (h : g.Sturdy) (hm : g.matrix? part = some m) {row col : Nat}
    (hrow : row < g.dim) (hcol : col < g.dim) :
    Ensures (discard (onPart part (Matrix.remove row col))) g
      (fun _ t => t.Sturdy ∧
        Remade (fun other m m' => m.SameView m' ∨ other = part ∧ m.Empties m' row col) g t)
      (fun e t => e.OfMemory ∧ t.Sturdy ∧ Remade (fun _ => Matrix.SameView) g t) := by
  obtain ⟨dim, hmark, hle, hseats⟩ := (h.matrix part m hm).exists_dim
  have hact := hmark.ensures_remove (Nat.lt_of_lt_of_le hrow hle) (Nat.lt_of_lt_of_le hcol hle)
  refine ensures_discard (ensures_onPart hm hact (fun _ m' hm' => ?_) fun e m' hm' => ?_)
  · refine ⟨h.withMatrix (hseats m' hm'.1), remade_withMatrix hm (.inr ⟨rfl, hm'.2⟩) ?_⟩
    exact fun _ n => .inl (.refl n)
  · exact ⟨hm'.1, h.withMatrix (hseats m' hm'.2.1), remade_withMatrix hm hm'.2.2 fun _ n => .refl n⟩

/-- The end of a deletion: both marks of a pair are taken away. If the first cannot be, nothing is to be seen;
if the second cannot, the first alone is gone. -/
theorem Sturdy.ensures_unmarkPair (h : g.Sturdy) (hs : e.src.toNat < g.dim) (hd : e.dst.toNat < g.dim)
    (hk : e.relation.toNat < g.relations.size) :
    Ensures (do
        discard (onRelation e.relation.toNat false (Matrix.remove e.src.toNat e.dst.toNat))
        discard (onRelation e.relation.toNat true (Matrix.remove e.dst.toNat e.src.toNat))
        return true) g
      (fun _ t => t.Sturdy)
      (fun err t => t.Sturdy ∧ err.OfMemory ∧ Remade (fun part m m' => m.SameView m' ∨
        part = .relation e.relation.toNat false ∧ m.Empties m' e.src.toNat e.dst.toNat) g t) := by
  obtain ⟨m, hm⟩ := exists_relationMatrix hk false
  refine (h.ensures_unmark hm hs hd).andThen ?_ ?_
  · rintro err t ⟨herr, ht, hr⟩
    exact ⟨ht, herr, hr.mono fun _ _ _ hm => .inl hm⟩
  rintro _ t ⟨ht, hr⟩
  have hframe := sameFrame_of_bare hr.bare
  rw [← hframe.dim] at hs hd
  obtain ⟨m', hm'⟩ := exists_relationMatrix (hframe.relations_size.symm ▸ hk) true
  refine (ht.ensures_unmark hm' hd hs).andThen ?_ fun _ v hv => ensures_pure hv.1
  rintro err v ⟨herr, hv, hr'⟩
  refine ⟨hv, herr, hr.trans hr' fun part n n' n'' hn hn' => ?_⟩
  exact hn.imp (fun hn => hn.trans hn') fun hn => ⟨hn.1, hn.2.trans hn'⟩

/-- **A deletion that fails** has forgotten the edge before it came to the matrices. -/
theorem Sturdy.ensures_deleteEdge (h : g.Sturdy) (id : EdgeId) :
    Ensures (deleteEdge id) g (fun _ t => t.Sturdy)
      (fun err t => t.Sturdy ∧ err.OfMemory ∧ ∃ e, e.id = id ∧ g.Severed e t) := by
  unfold deleteEdge
  refine ensures_subject ?_
  cases hedge : g.edge? id with
  | none => exact ensures_pure h
  | some e =>
    obtain rfl := id_of_edge? h.numbered hedge
    have hlive : e ∈ g.live := mem_liveEdges.2 ⟨_, Option.join_eq_some_iff.1 hedge⟩
    obtain ⟨hs, hd, hk⟩ := h.ends e hlive
    have hforget := h.forgetEdge e.id
    refine ensures_update_then (ensures_subject (ensures_guard (fun hc => absurd hk (Nat.not_lt.2 hc))
      fun _ => ?_))
    cases hsib : (Graph.forgetEdge e.id g).siblings e with
    | none => exact ensures_pure hforget
    | some ids =>
      refine ensures_update_then (ensures_ite (fun hempty => ?_)
        fun _ => ensures_pure (hforget.recordPair e ids))
      obtain rfl := List.isEmpty_iff.1 hempty
      have hunmark := (hforget.recordPair e []).ensures_unmarkPair (Nat.lt_of_lt_of_le hs h.fits)
        (Nat.lt_of_lt_of_le hd h.fits) ((relations_size_recordPair _ e []).symm ▸ hk)
      refine hunmark.mono (fun _ _ ht => ht) ?_
      -- whatever the matrices have become, the edge is gone from the records
      rintro err t ⟨ht, herr, hr⟩
      refine ⟨ht, herr, e, rfl, hedge, (sameRecords_forget h.numbered hedge hsib).of_bare hr.bare, ?_⟩
      intro part
      have hpart : (Graph.recordPair e [] (Graph.forgetEdge e.id g)).matrix? part = g.matrix? part :=
        matrix?_recordPair _ e [] part
      rw [← hpart]
      exact hr.matrix part

/-! ## Names and properties -/

theorem Sturdy.ensures_emptyMatrix (h : g.Sturdy) :
    Ensures emptyMatrix g (fun m t => t = g ∧ g.Seats m) (fun _ t => t = g) := by
  unfold emptyMatrix
  refine ensures_subject (ensures_require (fun m hm => ?_) fun _ _ => rfl)
  obtain ⟨hdim, -, rfl⟩ := Matrix.withOptions_eq_ok_iff.1 hm
  exact ⟨rfl, .inl (Matrix.markable_blank hdim h.limit)⟩

theorem Sturdy.ensures_addLabel (h : g.Sturdy) (name : String) :
    Ensures (addLabel name) g (fun _ t => t.Sturdy) (fun _ t => t = g) := by
  unfold addLabel
  refine ensures_subject ?_
  split
  · exact ensures_pure h
  refine h.ensures_emptyMatrix.bind ?_
  rintro m t ⟨ht, hm⟩
  rw [ht]
  refine ensures_subject (ensures_update_then (ensures_pure ?_))
  refine ⟨h.pushLabel _, fun part n hn => ?_⟩
  rcases matrix?_pushLabel hn with hn | rfl
  · exact h.matrix part n hn
  · exact hm

theorem Sturdy.ensures_addRelation (h : g.Sturdy) (name : String) :
    Ensures (addRelation name) g (fun _ t => t.Sturdy) (fun _ t => t = g) := by
  unfold addRelation
  refine ensures_subject ?_
  split
  · exact ensures_pure h
  refine h.ensures_emptyMatrix.bind ?_
  rintro m t ⟨ht, hm⟩
  rw [ht]
  refine ensures_subject (ensures_update_then (ensures_pure ?_))
  refine ⟨h.pushRelation _, fun part n hn => ?_⟩
  rcases matrix?_pushRelation hn with hn | ⟨transposed, rfl⟩
  · exact h.matrix part n hn
  · cases transposed <;> exact hm

theorem Sturdy.ensures_setProperty (h : g.Sturdy) (id : NodeId) (key : String) (v : Value) :
    Ensures (setProperty id key v) g (fun _ t => t.Sturdy) (fun _ t => t = g) := by
  unfold setProperty
  refine ensures_subject (ensures_guard (fun _ => rfl) fun _ => ensures_update ?_)
  have hsize : (g.nodes.modify id.toNat fun n =>
      { n with properties := n.properties.upsert key v }).size = g.nodes.size := Array.size_modify
  refine ⟨h.with_nodes (Nat.le_of_eq hsize.symm) (hsize ▸ h.fits), fun part m hm => ?_⟩
  have hseats := h.matrix part m hm
  unfold Seats at hseats ⊢
  rwa [hsize]

/-! ## Any call, and any run -/

/-- What a call that has run out of memory may have done. -/
def Request.Residue : Request → Graph → Graph → Prop
  | .createNode .., g, t => g.Stretched t
  | .deleteEdge id, g, t => ∃ e, e.id = id ∧ g.Severed e t
  | _, _, _ => False

/-- **One call**, and what it leaves behind if it fails. -/
theorem Sturdy.ensures_perform (h : g.Sturdy) (r : Request) : Ensures r.perform g
    (fun _ t => t.edges.size < UInt64.size → t.Sturdy)
    (fun e t => t.Sturdy ∧ (g.Unchanged t ∨ e.OfMemory ∧ r.Residue g t)) := by
  have hsame : ∀ {t : Graph}, t = g → t.Sturdy ∧ g.Unchanged t := by
    rintro _ rfl
    exact ⟨h, Unchanged.refl _⟩
  have hsame' : ∀ (e : GraphError) (t : Graph), t = g →
      t.Sturdy ∧ (g.Unchanged t ∨ e.OfMemory ∧ r.Residue g t) :=
    fun _ _ ht => (hsame ht).imp_right .inl
  cases r with
  | addLabel name =>
    exact ensures_discard ((h.ensures_addLabel name).mono (fun _ _ ht _ => ht) hsame')
  | addRelation name =>
    exact ensures_discard ((h.ensures_addRelation name).mono (fun _ _ ht _ => ht) hsame')
  | createNode labels properties =>
    exact ensures_discard ((h.ensures_createNode labels properties).mono (fun _ _ ht _ => ht)
      fun _ _ ht => ht)
  | setProperty id key v => exact (h.ensures_setProperty id key v).mono (fun _ _ ht _ => ht) hsame'
  | createEdge src dst relation =>
    exact ensures_discard ((h.ensures_createEdge src dst relation).mono (fun _ _ ht => ht) hsame')
  | deleteEdge id =>
    exact ensures_discard ((h.ensures_deleteEdge id).mono (fun _ _ ht _ => ht)
      fun _ _ ht => ⟨ht.1, .inr ht.2⟩)
  | sync => exact h.ensures_sync.mono (fun _ _ ht _ => ht) fun _ _ ht => ht.imp_right .inl

/-- What becomes of a graph under calls that succeed or fail, also for want of memory. The number of the next
edge is a word, as in every state that a graph can be in. -/
inductive Reaches (g : Graph) : Graph → Prop
  | start : Reaches g g
  | performed {t : Graph} {r : Request} {n : CallCounts} {s : Graph × CallCounts} (h : Reaches g t)
      (hs : r.perform (t, n) = .ok () s) (hword : s.1.edges.size < UInt64.size) : Reaches g s.1
  | failed {t : Graph} {r : Request} {e : GraphError} {n : CallCounts} {s : Graph × CallCounts}
      (h : Reaches g t) (hs : r.perform (t, n) = .error e s) : Reaches g s.1

/-- The invariant holds along every run. -/
theorem Reaches.sturdy (hg : g.Sturdy) (h : g.Reaches t) : t.Sturdy := by
  induction h with
  | start => exact hg
  | performed h hs hword ih => exact (ih.ensures_perform _).of_ok hs hword
  | failed h hs ih => exact ((ih.ensures_perform _).of_error hs).1

/-- **A call that fails leaves the graph as it was**, in any graph there can be. The two exceptions are for
want of memory: a new node may have made matrices grow, and a deletion forgets its edge before it takes the
entries of the pair away. -/
theorem Reaches.after_failure {options : GraphOptions}
    (hlimit : options.matrix.maxDenseCells < UInt64.size) (h : (new options).Reaches g) {r : Request}
    {e : GraphError} {n : CallCounts} {s : Graph × CallCounts} (hs : r.perform (g, n) = .error e s) :
    g.Unchanged s.1 ∨ e.OfMemory ∧ r.Residue g s.1 := by
  have hsturdy := h.sturdy (sturdy_new hlimit)
  exact ((hsturdy.ensures_perform r).of_error hs).2

/-- The run: an edge between two nodes, in matrices of the largest dimension, which are to have a place for
every row once they are committed. The deletion commits, and there is no memory for the rows. -/
theorem exists_failed_deletion :
    let options : GraphOptions := { nodeBlock := 1152921504606846976, matrix := { hyperSwitch := ⟨0⟩ } }
    ∃ (g : Graph) (n : CallCounts) (e : GraphError) (s : Graph × CallCounts), (new options).Reaches g ∧
      g.live = [⟨.ofNat 0, .ofNat 0, .ofNat 1, .ofNat 0⟩] ∧
      (Request.deleteEdge (.ofNat 0)).perform (g, n) = .error e s ∧ e.OfMemory ∧
      g.edgeCount = 1 ∧ s.1.edgeCount = 0 := by
  intro options
  obtain ⟨g, hg, hlive, hcount, hfailed, hforgotten⟩ : ∃ g : Graph, (new options).Reaches g ∧
      g.live = [⟨.ofNat 0, .ofNat 0, .ofNat 1, .ofNat 0⟩] ∧ g.edgeCount = 1 ∧
      (outcome ((Request.deleteEdge (.ofNat 0)).perform (g, {}))).1 =
        .error (.outOfMemory .vectorPointers) ∧
      (outcome ((Request.deleteEdge (.ofNat 0)).perform (g, {}))).2.1.edgeCount = 0 := by
    have hadd := perform_addRelation_new options (by decide) "knows" {}
    have h₀ := (Reaches.start (g := .new options)).performed hadd (by decide)
    have h₁ := h₀.performed (r := .createNode [] []) (n := {}) rfl (Nat.lt_of_sub_eq_succ rfl)
    have h₂ := h₁.performed (r := .createNode [] []) (n := {}) rfl (Nat.lt_of_sub_eq_succ rfl)
    have h₃ := h₂.performed (r := .createEdge (.ofNat 0) (.ofNat 1) (.ofNat 0)) (n := {}) rfl
      (Nat.lt_of_sub_eq_succ rfl)
    exact ⟨_, h₃, rfl, rfl, by decide +kernel⟩
  exact ⟨g, {}, _, _, hg, hlive, eq_error_of_outcome hfailed, ⟨_, rfl⟩, hcount, hforgotten⟩

/-- The edge is what such a deletion forgets. -/
theorem severed_of_failed_deletion :
    let options : GraphOptions := { nodeBlock := 1152921504606846976, matrix := { hyperSwitch := ⟨0⟩ } }
    ∃ (g : Graph) (n : CallCounts) (e : GraphError) (s : Graph × CallCounts), (new options).Reaches g ∧
      (Request.deleteEdge (.ofNat 0)).perform (g, n) = .error e s ∧
      g.Severed ⟨.ofNat 0, .ofNat 0, .ofNat 1, .ofNat 0⟩ s.1 := by
  intro options
  obtain ⟨g, n, e, s, hg, hlive, hs, -, hbefore, hafter⟩ := exists_failed_deletion
  refine ⟨g, n, e, s, hg, hs, ?_⟩
  rcases hg.after_failure (by decide) hs with hsame | ⟨-, a, -, hsevered⟩
  · have hcount := hsame.records.edgeCount
    rw [hbefore, hafter] at hcount
    cases hcount
  · have ha : a ∈ g.live := mem_liveEdges.2 ⟨_, Option.join_eq_some_iff.1 hsevered.edge⟩
    rw [hlive, List.mem_singleton] at ha
    exact ha ▸ hsevered

/-- **A deletion that fails may forget its edge all the same.** -/
theorem exists_forgetful_failure :
    let options : GraphOptions := { nodeBlock := 1152921504606846976, matrix := { hyperSwitch := ⟨0⟩ } }
    ∃ (g : Graph) (r : Request) (n : CallCounts) (e : GraphError) (s : Graph × CallCounts),
      (new options).Reaches g ∧ r.perform (g, n) = .error e s ∧ ¬g.Unchanged s.1 := by
  intro options
  obtain ⟨g, n, e, s, hg, -, hs, -, hbefore, hafter⟩ := exists_failed_deletion
  refine ⟨g, _, n, e, s, hg, hs, fun hsame => ?_⟩
  have hcount := hsame.records.edgeCount
  rw [hbefore, hafter] at hcount
  cases hcount

end Graph

end Adjacency
