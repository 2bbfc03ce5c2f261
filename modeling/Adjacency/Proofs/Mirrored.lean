import Adjacency.Proofs.GraphEdges

/-!
# Matrices that mirror the edges

The matrices of a graph mark what is linked, however many edges there are: the numbers of edges play no
part in it.

* `Mirrored.recorded`, `Mirrored.ensures_createEdge`: **an edge more** is marked in its relation, both ways.
* `Mirrored.ensures_sync`: a commit keeps the marks.
-/

namespace Adjacency

open Metered

/-- Where an edge leaves its mark. -/
def Edge.Marks (e : Edge) : Graph.Part → Nat → Nat → Prop
  | .relation k false => fun s d => e.runs k s d = true
  | .relation k true => fun d s => e.runs k s d = true
  | .label _ => fun _ _ => False

/-- It leaves none outside the two matrices of its relation. -/
theorem Edge.not_marks {e : Edge} {part : Graph.Part} (h : ∀ transposed, part ≠ .relation e.relation.toNat transposed)
    (row col : Nat) : ¬e.Marks part row col := by
  cases part with
  | label i => exact not_false
  | relation i transposed =>
    have hne : e.relation.toNat ≠ i := fun heq => h transposed (heq ▸ rfl)
    cases transposed <;> exact fun hruns => hne (Edge.runs_iff.1 hruns).1

namespace Graph

variable {g t : Graph} {e : Edge}

/-- With one edge more, what is linked is what was, and what the edge links. -/
theorem linked_snoc (hlive : t.live = g.live ++ [e]) (hnodes : t.nodes = g.nodes) (part : Part)
    (row col : Nat) : t.linked part row col ↔ g.linked part row col ∨ e.Marks part row col := by
  cases part with
  | relation k transposed =>
    cases transposed with
    | false => unfold linked Edge.Marks; rw [hlive]; exact between_snoc_ne_nil_iff
    | true => unfold linked Edge.Marks; rw [hlive]; exact between_snoc_ne_nil_iff
  | label k => simp [linked, Edge.Marks, hnodes]

/-- A graph with the same records mirrors the same links. -/
theorem Mirrored.of_remade (hr : Remade (fun part _ m => m.Marks g.dim (g.linked part)) g t) :
    t.Mirrored := by
  intro part m hm
  obtain ⟨_, -, hmarks⟩ := hr.exists_old hm
  obtain ⟨-, hdim, hnodes, hedges, -, -⟩ := sameFrame_of_bare hr.bare
  have hlinked : t.linked part = g.linked part := by
    cases part with
    | relation k transposed =>
      cases transposed <;> simp only [linked, live, hedges]
    | label k => simp only [linked, hnodes]
  rw [hdim, hlinked]
  exact hmarks

/-- An edge recorded after both matrix entries are written. -/
theorem Mirrored.recorded (h : g.Mirrored) {k : Nat} (hk : e.relation.toNat = k) {m m' : Matrix}
    (hm : m.Marks g.dim fun s d => between g.live k s d ≠ [] ∨ s = e.src.toNat ∧ d = e.dst.toNat)
    (hm' : m'.Marks g.dim fun d s => between g.live k s d ≠ [] ∨ d = e.dst.toNat ∧ s = e.src.toNat) :
    (recordEdge e ((g.withAdjacency k false m).withAdjacency k true m')).Mirrored := by
  intro part n hn
  have hlive : (recordEdge e ((g.withAdjacency k false m).withAdjacency k true m')).live = g.live ++ [e] :=
    liveEdges_push g.edges e
  suffices hmarks : n.Marks g.dim fun row col => g.linked part row col ∨ e.Marks part row col from
    hmarks.congr fun row col => (linked_snoc hlive rfl part row col).symm
  have hplace : ((g.withMatrix (.relation k false) m).withMatrix (.relation k true) m').matrix? part =
      some n := by
    rw [recordEdge, matrix?_modify] at hn
    · exact hn
    · exact fun _ _ => rfl
  rw [matrix?_withMatrix] at hplace
  split at hplace
  · next hpart =>
    subst hpart
    obtain ⟨_, -, rfl⟩ := Option.map_eq_some_iff.1 hplace
    exact hm'.congr fun d s => or_congr Iff.rfl (and_comm.trans (Edge.runs_iff_ends hk).symm)
  · next hother =>
    rw [matrix?_withMatrix] at hplace
    split at hplace
    · next hpart =>
      subst hpart
      obtain ⟨_, -, rfl⟩ := Option.map_eq_some_iff.1 hplace
      exact hm.congr fun s d => or_congr Iff.rfl (Edge.runs_iff_ends hk).symm
    · next hother' =>
      have helsewhere : ∀ transposed, part ≠ .relation e.relation.toNat transposed := by
        rintro transposed rfl
        subst hk
        cases transposed
        · exact hother' rfl
        · exact hother rfl
      exact (h part n hplace).congr fun row col => (or_iff_left (Edge.not_marks helsewhere row col)).symm

/-- **A new edge** is marked, whatever its number. -/
theorem Mirrored.ensures_createEdge (h : g.Mirrored) (hfits : g.nodes.size ≤ g.dim) (src dst : NodeId)
    (relation : RelationId) : Ensures (createEdge src dst relation) g
      (fun id t => t.Mirrored ∧ g.Agrees t ∧ t.relations.size = g.relations.size ∧
        t.live = g.live ++ [.mk id src dst relation])
      (fun _ _ => True) := by
  unfold createEdge
  refine ensures_subject (ensures_guard (fun _ => trivial) fun hnodes => ?_)
  refine ensures_guard (fun _ => trivial) fun hrel => ?_
  have hsrc : src.toNat < g.dim := by omega
  have hdst : dst.toNat < g.dim := by omega
  obtain ⟨r, hr⟩ : ∃ r, g.relations[relation.toNat]? = some r :=
    ⟨_, Array.getElem?_eq_getElem (Nat.not_le.1 hrel)⟩
  have hmatrix := h (.relation relation.toNat false) r.matrix (Option.map_eq_some_iff.2 ⟨r, hr, rfl⟩)
  have htransposed := h (.relation relation.toNat true) r.transposed (Option.map_eq_some_iff.2 ⟨r, hr, rfl⟩)
  refine ensures_bothWays hr (hmatrix.ensures_set hsrc hdst) (htransposed.ensures_set hdst hsrc)
    (fun _ _ _ => trivial) fun m m' hm hm' => ?_
  refine ensures_update_then (ensures_pure ⟨h.recorded rfl hm hm', ?_, ?_, liveEdges_push g.edges _⟩)
  · exact ((agrees_withAdjacency g _ false m).trans (agrees_withAdjacency _ _ true m')).trans
      (agrees_recordEdge _ _)
  · rw [relations_size_recordEdge, relations_size_withAdjacency, relations_size_withAdjacency]

/-- **A commit** keeps all marks and records. -/
theorem Mirrored.ensures_sync (h : g.Mirrored) :
    Ensures sync g (fun _ t => t.Mirrored ∧ t.bare = g.bare) (fun _ _ => True) := by
  unfold sync
  refine (ensures_onEveryMatrix fun part m hm => (h part m hm).ensures_wait).mono ?_ fun _ _ _ => trivial
  exact fun _ t ht => ⟨Mirrored.of_remade ht, ht.bare⟩

end Graph

end Adjacency
