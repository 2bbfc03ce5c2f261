import Adjacency.Graph.Update
import Adjacency.Proofs.Marks

/-!
# The edges of a graph, seen from its pairs

A live edge is stored at the place that its number names; its relation marks its pair in both matrices
and lists its number under the pair.

* `Graph.live`: the live edges, oldest first.
* `between`: those of a relation that run from one node to another.
* `Relation.Holds`: a relation's matrices and pair index are those of the live edges.
-/

namespace Adjacency

/-- The edge runs from `s` to `d` in the `k`-th relation. -/
def Edge.runs (e : Edge) (k s d : Nat) : Bool :=
  e.relation.toNat == k && e.src.toNat == s && e.dst.toNat == d

theorem Edge.runs_iff {e : Edge} {k s d : Nat} :
    e.runs k s d = true ↔ e.relation.toNat = k ∧ e.src.toNat = s ∧ e.dst.toNat = d := by
  unfold runs
  rw [Bool.and_eq_true, Bool.and_eq_true, beq_iff_eq, beq_iff_eq, beq_iff_eq, and_assoc]

/-- In its own relation an edge runs between its ends. -/
theorem Edge.runs_iff_ends {e : Edge} {k s d : Nat} (hk : e.relation.toNat = k) :
    e.runs k s d = true ↔ s = e.src.toNat ∧ d = e.dst.toNat := by
  rw [runs_iff, and_iff_right hk, eq_comm (a := s), eq_comm (a := d)]

theorem EdgeId.toNat_injective {a b : EdgeId} (h : a.toNat = b.toNat) : a = b := by
  obtain ⟨a⟩ := a
  obtain ⟨b⟩ := b
  exact congrArg EdgeId.mk (UInt64.toNat_inj.1 h)

theorem NodeId.toNat_injective {a b : NodeId} (h : a.toNat = b.toNat) : a = b := by
  obtain ⟨a⟩ := a
  obtain ⟨b⟩ := b
  exact congrArg NodeId.mk (UInt64.toNat_inj.1 h)

theorem LabelId.toNat_injective {a b : LabelId} (h : a.toNat = b.toNat) : a = b := by
  obtain ⟨a⟩ := a
  obtain ⟨b⟩ := b
  exact congrArg LabelId.mk (UInt32.toNat_inj.1 h)

theorem RelationId.ofNat_toNat (r : RelationId) : ofNat r.toNat = r :=
  congrArg RelationId.mk UInt32.ofNat_toNat

theorem EdgeId.toNat_ofNat {n : Nat} (h : n < UInt64.size) : (ofNat n).toNat = n :=
  UInt64.toNat_ofNat_of_lt' h

/-! ## The edge list -/

/-- The edge list keeps the edge with number `k` at place `k`. -/
def Numbered (edges : Array (Option Edge)) : Prop :=
  ∀ (k : Nat) (e : Edge), edges[k]? = some (some e) → e.id.toNat = k

/-- The edges of an edge list that are not deleted, oldest first. -/
def liveEdges (edges : Array (Option Edge)) : List Edge := edges.toList.filterMap id

variable {edges : Array (Option Edge)}

theorem mem_liveEdges {e : Edge} : e ∈ liveEdges edges ↔ ∃ k : Nat, edges[k]? = some (some e) := by
  unfold liveEdges
  rw [List.mem_filterMap]
  constructor
  · rintro ⟨o, ho, rfl⟩
    obtain ⟨k, hk⟩ := List.mem_iff_getElem?.1 ho
    exact ⟨k, by rwa [Array.getElem?_toList] at hk⟩
  · rintro ⟨k, hk⟩
    exact ⟨some e, List.mem_iff_getElem?.2 ⟨k, by rwa [Array.getElem?_toList]⟩, rfl⟩

/-- **Age is number**: the live edges come in the order of their numbers. -/
theorem Numbered.ascending (h : Numbered edges) :
    (liveEdges edges).Pairwise fun a b => a.id.toNat < b.id.toNat := by
  have hplaces : edges.toList.Pairwise fun o o' =>
      ∀ a b, o = some a → o' = some b → a.id.toNat < b.id.toNat := by
    rw [List.pairwise_iff_getElem]
    rintro i j hi hj hij a b ha hb
    rw [Array.getElem_toList] at ha hb
    have hai := h i a (by rw [Array.getElem?_eq_getElem hi, ha])
    have hbj := h j b (by rw [Array.getElem?_eq_getElem hj, hb])
    omega
  exact List.Pairwise.filterMap _ (fun o o' hoo a ha b hb => hoo a b ha hb) hplaces

theorem liveEdges_push (edges : Array (Option Edge)) (e : Edge) :
    liveEdges (edges.push (some e)) = liveEdges edges ++ [e] := by
  unfold liveEdges
  rw [Array.toList_push, List.filterMap_append]
  rfl

theorem Numbered.push (h : Numbered edges) {e : Edge} (he : e.id.toNat = edges.size) :
    Numbered (edges.push (some e)) := by
  intro k e' hk
  rw [Array.getElem?_push] at hk
  split at hk
  · next heq =>
    obtain rfl := Option.some.inj (Option.some.inj hk)
    rw [he, heq]
  · exact h k e' hk

theorem getElem?_forget {id : EdgeId} {k : Nat} {e : Edge} :
    (edges.setIfInBounds id.toNat none)[k]? = some (some e) ↔
      edges[k]? = some (some e) ∧ k ≠ id.toNat := by
  rw [Array.getElem?_setIfInBounds]
  by_cases hk : id.toNat = k
  · rw [if_pos hk]
    split <;> simp [hk]
  · rw [if_neg hk]
    simp [Ne.symm hk]

theorem Numbered.forget (h : Numbered edges) (id : EdgeId) :
    Numbered (edges.setIfInBounds id.toNat none) :=
  fun k e hk => h k e (getElem?_forget.1 hk).1

/-- Without one of the edges, the others stay as they are. -/
theorem Numbered.liveEdges_forget (h : Numbered edges) (id : EdgeId) :
    liveEdges (edges.setIfInBounds id.toNat none) = (liveEdges edges).filter (·.id ≠ id) := by
  have hleft := (h.forget id).ascending
  have hright := h.ascending.filter fun e => e.id ≠ id
  have hmem : ∀ e, e ∈ liveEdges (edges.setIfInBounds id.toNat none) ↔
      e ∈ (liveEdges edges).filter fun e => e.id ≠ id := by
    intro e
    simp only [mem_liveEdges, getElem?_forget, List.mem_filter, decide_eq_true_eq]
    constructor
    · rintro ⟨k, hk, hne⟩
      exact ⟨⟨k, hk⟩, fun heq => hne (by rw [← heq, h k e hk])⟩
    · rintro ⟨⟨k, hk⟩, hne⟩
      exact ⟨k, hk, fun heq => hne (EdgeId.toNat_injective ((h k e hk).trans heq))⟩
  have hnodup : ∀ {l : List Edge}, l.Pairwise (fun a b => a.id.toNat < b.id.toNat) → l.Nodup :=
    fun hl => hl.imp fun {a b} hab heq => by rw [heq] at hab; exact Nat.lt_irrefl _ hab
  exact ((List.perm_ext_iff_of_nodup (hnodup hleft) (hnodup hright)).2 hmem).eq_of_pairwise
    (fun a b _ _ hab hba => absurd hab (Nat.lt_asymm hba)) hleft hright

/-! ## The edges of a pair -/

/-- The edges of a list that run from `s` to `d` in the `k`-th relation. -/
def between (live : List Edge) (k s d : Nat) : List Edge := live.filter (·.runs k s d)

variable {live live' : List Edge} {k s d : Nat}

theorem between_ne_nil_iff : between live k s d ≠ [] ↔ ∃ e ∈ live, e.runs k s d = true := by
  unfold between
  simp only [ne_eq, List.filter_eq_nil_iff, not_forall, not_not, exists_prop]

theorem between_snoc (live : List Edge) (e : Edge) (k s d : Nat) :
    between (live ++ [e]) k s d = between live k s d ++ if e.runs k s d then [e] else [] := by
  unfold between
  rw [List.filter_append, List.filter_singleton]
  cases e.runs k s d <;> rfl

theorem between_snoc_ne_nil_iff {e : Edge} :
    between (live ++ [e]) k s d ≠ [] ↔ between live k s d ≠ [] ∨ e.runs k s d = true := by
  rw [between_ne_nil_iff, between_ne_nil_iff]
  constructor
  · rintro ⟨a, ha, hruns⟩
    rcases List.mem_append.1 ha with ha | ha
    · exact .inl ⟨a, ha, hruns⟩
    · rw [List.mem_singleton] at ha
      exact .inr (ha ▸ hruns)
  · rintro (⟨a, ha, hruns⟩ | hruns)
    · exact ⟨a, List.mem_append_left _ ha, hruns⟩
    · exact ⟨e, List.mem_append_right _ (List.mem_singleton_self e), hruns⟩

theorem between_forget (live : List Edge) (id : EdgeId) (k s d : Nat) :
    between (live.filter (·.id ≠ id)) k s d = (between live k s d).filter (·.id ≠ id) := by
  unfold between
  rw [List.filter_filter, List.filter_filter]
  exact List.filter_congr fun e _ => Bool.and_comm _ _

/-- A relation's matrices and pair index are those of the edges `live`. -/
structure Relation.Holds (r : Relation) (dim : Nat) (live : List Edge) (k : Nat) : Prop where
  matrix : r.matrix.Marks dim fun s d => between live k s d ≠ []
  transposed : r.transposed.Marks dim fun d s => between live k s d ≠ []
  pairs : ∀ s d, r.pairs.getD (s, d) [] = (between live k s d).map (·.id)

/-- A relation only depends on its own edges. -/
theorem Relation.Holds.congr {r : Relation} {dim : Nat} (h : r.Holds dim live k)
    (hl : ∀ s d, between live' k s d = between live k s d) : r.Holds dim live' k :=
  ⟨h.matrix.congr fun s d => by rw [hl], h.transposed.congr fun d s => by rw [hl],
    fun s d => by rw [hl, h.pairs]⟩

/-- The number of a new edge goes to the end of its pair. -/
theorem getD_record (pairs : PairIndex) (e : Edge) (s d : Nat) :
    (pairs.alter (e.src.toNat, e.dst.toNat) fun ids => some (ids.getD [] ++ [e.id])).getD (s, d) [] =
      if e.src.toNat = s ∧ e.dst.toNat = d then pairs.getD (s, d) [] ++ [e.id]
      else pairs.getD (s, d) [] := by
  simp only [Std.TreeMap.getD_alter, Std.LawfulEqCmp.compare_eq_iff_eq, Prod.mk.injEq]
  split
  · next h => rw [Option.getD_some, h.1, h.2, Std.TreeMap.getD_eq_getD_getElem?]
  · rfl

/-- What is left of a pair replaces it. -/
theorem getD_recordPair (pairs : PairIndex) (e : Edge) (ids : List EdgeId) (s d : Nat) :
    (if ids.isEmpty then pairs.erase (e.src.toNat, e.dst.toNat)
      else pairs.insert (e.src.toNat, e.dst.toNat) ids).getD (s, d) [] =
      if e.src.toNat = s ∧ e.dst.toNat = d then ids else pairs.getD (s, d) [] := by
  cases ids with
  | nil =>
    simp only [List.isEmpty_nil, if_true, Std.TreeMap.getD_erase, Std.LawfulEqCmp.compare_eq_iff_eq,
      Prod.mk.injEq]
  | cons a ids =>
    simp only [List.isEmpty_cons, Bool.false_eq_true, if_false, Std.TreeMap.getD_insert,
      Std.LawfulEqCmp.compare_eq_iff_eq, Prod.mk.injEq]

/-- A relation whose entries are written has the new edge once its number is in the pair. -/
theorem Relation.Holds.recorded {r : Relation} {dim : Nat} (h : r.Holds dim live k) {e : Edge}
    (hk : e.relation.toNat = k) {m m' : Matrix}
    (hm : m.Marks dim fun s d => between live k s d ≠ [] ∨ s = e.src.toNat ∧ d = e.dst.toNat)
    (hm' : m'.Marks dim fun d s => between live k s d ≠ [] ∨ d = e.dst.toNat ∧ s = e.src.toNat) :
    Relation.Holds
      { r with
        matrix := m, transposed := m'
        pairs := r.pairs.alter (e.src.toNat, e.dst.toNat) fun ids => some (ids.getD [] ++ [e.id]) }
      dim (live ++ [e]) k where
  matrix := hm.congr fun s d => by rw [between_snoc_ne_nil_iff, Edge.runs_iff_ends hk]
  transposed := hm'.congr fun d s => by
    rw [between_snoc_ne_nil_iff, Edge.runs_iff_ends hk, and_comm (a := d = _)]
  pairs s d := by
    change (r.pairs.alter _ _).getD (s, d) [] = _
    rw [getD_record, between_snoc, List.map_append, h.pairs]
    by_cases hp : e.src.toNat = s ∧ e.dst.toNat = d
    · rw [if_pos hp, if_pos (Edge.runs_iff.2 ⟨hk, hp⟩)]
      rfl
    · rw [if_neg hp, if_neg fun hc => hp (Edge.runs_iff.1 hc).2, List.map_nil, List.append_nil]

/-- A relation whose matrices have followed has what is left of the edges once the pair has. -/
theorem Relation.Holds.forgotten {r : Relation} {dim : Nat} (h : r.Holds dim live k) {e : Edge}
    (hother : ∀ s d, ¬e.runs k s d = true → between live' k s d = between live k s d) {ids : List EdgeId}
    (hids : ids = (between live' k e.src.toNat e.dst.toNat).map (·.id)) {m m' : Matrix}
    (hm : m.Marks dim fun s d => between live' k s d ≠ [])
    (hm' : m'.Marks dim fun d s => between live' k s d ≠ []) :
    Relation.Holds
      { r with
        matrix := m, transposed := m'
        pairs := if ids.isEmpty then r.pairs.erase (e.src.toNat, e.dst.toNat)
          else r.pairs.insert (e.src.toNat, e.dst.toNat) ids }
      dim live' k where
  matrix := hm
  transposed := hm'
  pairs s d := by
    dsimp only
    rw [getD_recordPair]
    split
    · next hp => rw [hids, hp.1, hp.2]
    · next hp =>
      rw [h.pairs, hother]
      exact fun hruns => hp (Edge.runs_iff.1 hruns).2

end Adjacency
