import Adjacency.Query.Traversal
import Adjacency.Proofs.Preparation

/-!
# The edges at a node

* `Direction.Meets`, `Edge.otherEnd`: the edges that a direction asks for at a node, and where they lead.
* `EdgeBinding.incident`: the edges that a binding finds at a node, destination by destination.
* `incident_perm`, `incident_ordered`: **they are the live edges that the direction asks for, each once**,
  by destination, then the way they are stored, then age.
* `Expression.Follows`: the expressions whose entries are such edges; `Follows.links_iff`.
-/

namespace Adjacency

/-- The direction asks for the edge at the node: it leaves the node, enters it, or does either. -/
def Direction.Meets : Direction → NodeId → Edge → Prop
  | outgoing, s, e => e.src = s
  | incoming, s, e => e.dst = s
  | both, s, e => e.src = s ∨ e.dst = s

instance : (dir : Direction) → (s : NodeId) → (e : Edge) → Decidable (dir.Meets s e)
  | .outgoing, s, e => inferInstanceAs (Decidable (e.src = s))
  | .incoming, s, e => inferInstanceAs (Decidable (e.dst = s))
  | .both, s, e => inferInstanceAs (Decidable (e.src = s ∨ e.dst = s))

/-- The end of an edge that is not at the node; the node itself for a self-loop. -/
def Edge.otherEnd (e : Edge) (s : NodeId) : NodeId := if e.src = s then e.dst else e.src

/-- The order of delivery at a node: by destination; edges that are stored as leaving the node before those
that enter it; then by age. -/
def Edge.Before (s : NodeId) (a b : Edge) : Prop :=
  (a.otherEnd s).toNat < (b.otherEnd s).toNat ∨
    a.otherEnd s = b.otherEnd s ∧
      (a.src = s ∧ b.src ≠ s ∨ (a.src = s ↔ b.src = s) ∧ a.id.toNat < b.id.toNat)

theorem Edge.Before.irrefl {s : NodeId} {e : Edge} : ¬e.Before s e := by
  rintro (hlt | ⟨-, ⟨hs, hne⟩ | ⟨-, hlt⟩⟩)
  · exact Nat.lt_irrefl _ hlt
  · exact hne hs
  · exact Nat.lt_irrefl _ hlt

/-- The edges that a binding finds at a node, one destination after the other. -/
def EdgeBinding.incident (b : EdgeBinding) (g : Graph) (s : NodeId) : List Edge :=
  (List.range g.dim).flatMap fun d => b.edges g s (.ofNat d)

theorem NodeId.ofNat_toNat (n : NodeId) : ofNat n.toNat = n := congrArg NodeId.mk UInt64.ofNat_toNat

theorem NodeId.toNat_ofNat {n : Nat} (h : n ≤ maxDim) : (ofNat n).toNat = n :=
  UInt64.toNat_ofNat_of_lt' (Nat.lt_of_le_of_lt h (by decide))

variable {b : EdgeBinding} {g : Graph} {k : RelationId}

/-! ## Between two nodes -/

/-- **The edges of a pair**: the live ones that the direction asks for at the first node and that lead to the
second. -/
theorem EdgeBinding.mem_edges (h : g.Inv) (hk : b.relations = [k]) {s d : NodeId} {e : Edge} :
    e ∈ b.edges g s d ↔
      e ∈ g.live ∧ e.relation = k ∧ b.direction.Meets s e ∧ e.otherEnd s = d := by
  have hforward := (h.edgesBetween_spec s d b.relations).2 e
  have hbackward := (h.edgesBetween_spec d s b.relations).2 e
  have hrelation : (b.relations = [] ∨ e.relation ∈ b.relations) ↔ e.relation = k := by simp [hk]
  rw [hrelation] at hforward hbackward
  unfold edges Direction.Meets Edge.otherEnd
  cases b.direction with
  | outgoing =>
    simp only [reduceCtorEq, if_false, List.append_nil, false_and, or_self, hforward]
    constructor
    · rintro ⟨hlive, rfl, rfl, hrel⟩
      exact ⟨hlive, hrel, rfl, if_pos rfl⟩
    · rintro ⟨hlive, hrel, rfl, hd⟩
      rw [if_pos rfl] at hd
      exact ⟨hlive, rfl, hd, hrel⟩
  | incoming =>
    simp only [if_true, List.nil_append, true_or, hbackward]
    constructor
    · rintro ⟨hlive, rfl, rfl, hrel⟩
      refine ⟨hlive, hrel, rfl, ?_⟩
      split
      · next hloop => exact hloop.symm
      · rfl
    · rintro ⟨hlive, hrel, rfl, hd⟩
      refine ⟨hlive, ?_, rfl, hrel⟩
      split at hd
      · next hloop => exact hloop.trans hd
      · exact hd
  | both =>
    simp only [reduceCtorEq, if_false, false_or, true_and, List.mem_append, hforward]
    constructor
    · rintro (⟨hlive, rfl, rfl, hrel⟩ | hin)
      · exact ⟨hlive, hrel, .inl rfl, if_pos rfl⟩
      · by_cases hne : s ≠ d
        · rw [if_pos hne, hbackward] at hin
          obtain ⟨hlive, rfl, rfl, hrel⟩ := hin
          exact ⟨hlive, hrel, .inr rfl, if_neg (Ne.symm hne)⟩
        · rw [if_neg hne] at hin
          exact absurd hin List.not_mem_nil
    · rintro ⟨hlive, hrel, hmeets, hd⟩
      by_cases hs : e.src = s
      · rw [if_pos hs] at hd
        exact .inl ⟨hlive, hs, hd, hrel⟩
      · rw [if_neg hs] at hd
        have hdst : e.dst = s := hmeets.resolve_left hs
        have hne : s ≠ d := fun heq => hs (hd.trans heq.symm)
        right
        rw [if_pos hne, hbackward]
        exact ⟨hlive, hd, hdst, hrel⟩

/-- Edges of one relation between two nodes come by age. -/
theorem edgesBetween_byAge (h : g.Inv) (src dst : NodeId) {ids : List RelationId} (hk : ids = [k]) :
    (g.edgesBetween src dst ids).Pairwise fun a b => a.id.toNat < b.id.toNat := by
  obtain ⟨hordered, hmem⟩ := h.edgesBetween_spec src dst ids
  refine hordered.imp_of_mem fun {a b} ha hb hab => ?_
  have hrelation : ∀ e ∈ g.edgesBetween src dst ids, e.relation = k := by
    intro e he
    simpa [hk] using ((hmem e).1 he).2.2.2
  rcases hab with hlt | ⟨-, hlt⟩
  · rw [hrelation a ha, hrelation b hb] at hlt
    exact absurd hlt (Nat.lt_irrefl _)
  · exact hlt

/-- The edges of a pair come in the order of delivery. -/
theorem EdgeBinding.edges_ordered (h : g.Inv) (hk : b.relations = [k]) (s d : NodeId) :
    (b.edges g s d).Pairwise (Edge.Before s) := by
  have hend : ∀ e ∈ b.edges g s d, e.otherEnd s = d := fun e he => ((mem_edges h hk).1 he).2.2.2
  have hsrc : ∀ {x y : NodeId}, ∀ e ∈ g.edgesBetween x y b.relations, e.src = x := fun e he =>
    (((h.edgesBetween_spec _ _ _).2 e).1 he).2.1
  have hsame : ∀ {x y : NodeId}, (g.edgesBetween x y b.relations).Pairwise fun a c =>
      (a.src = s ↔ c.src = s) ∧ a.id.toNat < c.id.toNat := fun {x y} =>
    (edgesBetween_byAge h x y hk).imp_of_mem fun {a c} ha hc hac =>
      ⟨by rw [hsrc a ha, hsrc c hc], hac⟩
  have hparts : (b.edges g s d).Pairwise fun a c =>
      a.src = s ∧ c.src ≠ s ∨ (a.src = s ↔ c.src = s) ∧ a.id.toNat < c.id.toNat := by
    unfold edges
    refine List.pairwise_append.2 ⟨?_, ?_, fun a ha c hc => ?_⟩
    · split
      · exact List.Pairwise.nil
      · exact hsame.imp .inr
    · split
      · exact hsame.imp .inr
      · exact List.Pairwise.nil
    · -- both lists have edges: the pair is no self-loop and either way is asked for
      split at ha
      · exact absurd ha List.not_mem_nil
      · next hnot =>
        split at hc
        · next hway =>
          have hne := (hway.resolve_left hnot).2
          refine .inl ⟨hsrc a ha, fun heq => hne ?_⟩
          rw [← heq, hsrc c hc]
        · exact absurd hc List.not_mem_nil
  exact hparts.imp_of_mem fun {a c} ha hc hac => .inr ⟨(hend a ha).trans (hend c hc).symm, hac⟩

/-! ## At a node -/

/-- **The edges at a node come in the order of delivery.** -/
theorem EdgeBinding.incident_ordered (h : g.Inv) (hdim : g.dim ≤ maxDim) (hk : b.relations = [k])
    (s : NodeId) : (b.incident g s).Pairwise (Edge.Before s) := by
  refine List.pairwise_flatMap.2 ⟨fun d _ => edges_ordered h hk s _, ?_⟩
  refine List.pairwise_lt_range.imp_of_mem fun {d d'} hd hd' hlt e he e' he' => .inl ?_
  have hend := ((mem_edges h hk).1 he).2.2.2
  have hend' := ((mem_edges h hk).1 he').2.2.2
  have hle : d ≤ maxDim := Nat.le_of_lt (Nat.lt_of_lt_of_le (List.mem_range.1 hd) hdim)
  have hle' : d' ≤ maxDim := Nat.le_of_lt (Nat.lt_of_lt_of_le (List.mem_range.1 hd') hdim)
  rw [hend, hend', NodeId.toNat_ofNat hle, NodeId.toNat_ofNat hle']
  exact hlt

theorem EdgeBinding.mem_incident (h : g.Inv) (hk : b.relations = [k]) {s : NodeId} {e : Edge} :
    e ∈ b.incident g s ↔ e ∈ g.live ∧ e.relation = k ∧ b.direction.Meets s e := by
  unfold incident
  simp only [List.mem_flatMap, List.mem_range, mem_edges h hk]
  constructor
  · rintro ⟨d, -, hlive, hrel, hmeets, -⟩
    exact ⟨hlive, hrel, hmeets⟩
  · rintro ⟨hlive, hrel, hmeets⟩
    obtain ⟨hsrc, hdst, -⟩ := h.ends e hlive
    have hlt : (e.otherEnd s).toNat < g.nodes.size := by
      unfold Edge.otherEnd
      split
      · exact hdst
      · exact hsrc
    exact ⟨_, Nat.lt_of_lt_of_le hlt h.fits, hlive, hrel, hmeets, (NodeId.ofNat_toNat _).symm⟩

/-- **The edges at a node are the live ones that the direction asks for, each once.** -/
theorem EdgeBinding.incident_perm (h : g.Inv) (hdim : g.dim ≤ maxDim) (hk : b.relations = [k])
    (s : NodeId) :
    (b.incident g s).Perm (g.live.filter fun e => e.relation = k ∧ b.direction.Meets s e) := by
  have hfound : (b.incident g s).Nodup := by
    refine (incident_ordered h hdim hk s).imp fun {a c} hac heq => ?_
    rw [heq] at hac
    exact hac.irrefl
  have hlive : g.live.Nodup := by
    refine h.numbered.ascending.imp fun {a c} hac heq => ?_
    rw [heq] at hac
    exact Nat.lt_irrefl _ hac
  refine (List.perm_ext_iff_of_nodup hfound (hlive.filter _)).2 fun e => ?_
  rw [mem_incident h hk, List.mem_filter, decide_eq_true_eq]

/-! ## Expressions -/

namespace Expression

/-- The expression that goes with a direction: a relation, its transpose, or their sum. -/
inductive Follows (k : RelationId) : Direction → Expression → Prop
  | outgoing : Follows k .outgoing (.relation k)
  | incoming : Follows k .incoming (.transpose (.relation k))
  | both : Follows k .both (.add [.relation k, .transpose (.relation k)])
  | both_swapped : Follows k .both (.add [.transpose (.relation k), .relation k])

variable {dir : Direction} {e : Expression}

/-- The expression is square wherever the relation is registered. -/
theorem Follows.formed (hfollows : Follows k dir e) (hk : k.toNat < g.relations.size) :
    e.Formed (Operand.Square g) (· = 1) := by
  have hsquare : Operand.Square g (.relation k) := ⟨hk, trivial, if_pos hk⟩
  have hleaf : (relation k).Formed (Operand.Square g) (· = 1) := .operand hsquare
  have htransposed : (transpose (relation k)).Formed (Operand.Square g) (· = 1) :=
    .operation (fun hne => absurd rfl hne) (fun _ => rfl) (List.forall_mem_singleton.2 hleaf)
  have hsum : ∀ {x y : Expression}, x.Formed (Operand.Square g) (· = 1) →
      y.Formed (Operand.Square g) (· = 1) → (add [x, y]).Formed (Operand.Square g) (· = 1) :=
    fun hx hy => .operation (fun _ => List.cons_ne_nil _ _) Combination.noConfusion
      (List.forall_mem_cons.2 ⟨hx, List.forall_mem_singleton.2 hy⟩)
  cases hfollows with
  | outgoing => exact hleaf
  | incoming => exact htransposed
  | both => exact hsum hleaf htransposed
  | both_swapped => exact hsum htransposed hleaf

/-- **The expression links a node to where the edges at it lead.** -/
theorem Follows.links_iff (hfollows : Follows k dir e) (s d : NodeId) :
    (e.meaning (Operand.meaning g none .presence)).links s.toNat d.toNat ↔
      ∃ x ∈ g.live, x.relation = k ∧ dir.Meets s x ∧ x.otherEnd s = d := by
  have hout : (∃ x ∈ g.live, x.relation = k ∧ x.src.toNat = s.toNat ∧ x.dst.toNat = d.toNat) ↔
      ∃ x ∈ g.live, x.relation = k ∧ Direction.outgoing.Meets s x ∧ x.otherEnd s = d := by
    refine exists_congr fun x => and_congr_right fun _ => and_congr_right fun _ => ?_
    unfold Direction.Meets Edge.otherEnd
    constructor
    · rintro ⟨hs, hd⟩
      have hs := NodeId.toNat_injective hs
      rw [if_pos hs]
      exact ⟨hs, NodeId.toNat_injective hd⟩
    · rintro ⟨hs, hd⟩
      rw [if_pos hs] at hd
      rw [hs, hd]
      exact ⟨rfl, rfl⟩
  have hin : (∃ x ∈ g.live, x.relation = k ∧ x.src.toNat = d.toNat ∧ x.dst.toNat = s.toNat) ↔
      ∃ x ∈ g.live, x.relation = k ∧ Direction.incoming.Meets s x ∧ x.otherEnd s = d := by
    refine exists_congr fun x => and_congr_right fun _ => and_congr_right fun _ => ?_
    unfold Direction.Meets Edge.otherEnd
    constructor
    · rintro ⟨hd, hs⟩
      have hs := NodeId.toNat_injective hs
      have hd := NodeId.toNat_injective hd
      refine ⟨hs, ?_⟩
      split
      · next hloop => rw [hs, ← hd, hloop]
      · exact hd
    · rintro ⟨hs, hd⟩
      split at hd
      · next hloop =>
        rw [hs] at hd
        rw [hloop, hs, hd]
        exact ⟨rfl, rfl⟩
      · rw [hs, hd]
        exact ⟨rfl, rfl⟩
  have hboth : (∃ x ∈ g.live, x.relation = k ∧ Direction.both.Meets s x ∧ x.otherEnd s = d) ↔
      (∃ x ∈ g.live, x.relation = k ∧ Direction.outgoing.Meets s x ∧ x.otherEnd s = d) ∨
        ∃ x ∈ g.live, x.relation = k ∧ Direction.incoming.Meets s x ∧ x.otherEnd s = d := by
    unfold Direction.Meets
    grind
  cases hfollows with
  | outgoing => exact hout
  | incoming => exact hin
  | both => exact (or_congr hout hin).trans hboth.symm
  | both_swapped => exact ((or_congr hin hout).trans Or.comm).trans hboth.symm

end Expression

end Adjacency
