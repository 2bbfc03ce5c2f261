import Adjacency.Graph.Update
import Adjacency.Proofs.Action

/-!
# The matrices of a graph, one by one

A graph is what it records and, apart from that, its matrices: one for each relation, its transpose, and one
for each label. An action on one of them leaves the records and the others alone, however it ends.

* `Graph.Part`, `Graph.matrix?`: a matrix by its place.
* `Graph.bare`: the graph without its matrices.
* `Graph.Remade`: the same records, and each matrix related to the one that was there.
* `ensures_onEveryMatrix`: **an action on every matrix**, with what it has done when it fails on one of them.
-/

namespace Adjacency

open Metered

attribute [ext] Relation Label

namespace Graph

variable {α : Type} {g t u : Graph} {k : Nat} {m m' : Matrix}

/-! ## The matrix of a relation or a label -/

/-- The graph with another matrix, or transpose, of its `k`-th relation. -/
def withAdjacency (g : Graph) (k : Nat) (transposed : Bool) (m : Matrix) : Graph :=
  { g with relations := g.relations.modify k (·.withAdjacency transposed m) }

/-- The graph with another matrix of its `k`-th label. -/
def withLabel (g : Graph) (k : Nat) (m : Matrix) : Graph :=
  { g with labels := g.labels.modify k fun l => { l with matrix := m } }

theorem getElem?_withAdjacency (g : Graph) (k : Nat) (transposed : Bool) (m : Matrix) (i : Nat) :
    (g.withAdjacency k transposed m).relations[i]? =
      if k = i then g.relations[i]?.map (·.withAdjacency transposed m) else g.relations[i]? :=
  Array.getElem?_modify

theorem getElem?_withLabel (g : Graph) (k : Nat) (m : Matrix) (i : Nat) :
    (g.withLabel k m).labels[i]? =
      if k = i then g.labels[i]?.map fun l => { l with matrix := m } else g.labels[i]? :=
  Array.getElem?_modify

theorem modify_twice {α : Type} (xs : Array α) (k : Nat) (f h : α → α) :
    (xs.modify k f).modify k h = xs.modify k (h ∘ f) := by
  refine Array.ext_getElem? fun i => ?_
  simp only [Array.getElem?_modify]
  split
  · rw [Option.map_map]
  · rfl

/-- Putting back what is there changes nothing. -/
theorem modify_eq_self {α : Type} {xs : Array α} {k : Nat} {f : α → α}
    (h : ∀ x, xs[k]? = some x → f x = x) : xs.modify k f = xs := by
  refine Array.ext_getElem? fun i => ?_
  rw [Array.getElem?_modify]
  split
  · next heq =>
    subst heq
    cases hx : xs[k]? with
    | none => rfl
    | some x => rw [Option.map_some, h x hx]
  · rfl

theorem ensures_onRelation {act : Metered Matrix α} {transposed : Bool} {r : Relation}
    {okPart : α → Matrix → Prop} {badPart : GraphError → Matrix → Prop} {good : α → Graph → Prop}
    {bad : GraphError → Graph → Prop} (hr : g.relations[k]? = some r)
    (h : Ensures act (r.adjacency transposed) okPart badPart)
    (hok : ∀ a m, okPart a m → good a (g.withAdjacency k transposed m))
    (hbad : ∀ e m, badPart e m → bad e (g.withAdjacency k transposed m)) :
    Ensures (onRelation k transposed act) g good bad := by
  have hget : (g.relations.getD k default).adjacency transposed = r.adjacency transposed := by
    rw [Array.getD_eq_getD_getElem?, hr]
    rfl
  have hset : ∀ m : Matrix,
      ({ g with
        relations := (g.relations.modify k (·.withAdjacency transposed default)).modify k
          (·.withAdjacency transposed m) } : Graph) = g.withAdjacency k transposed m := by
    intro m
    rw [modify_twice, withAdjacency]
    congr 2
    funext r
    cases transposed <;> rfl
  unfold onRelation
  refine ensures_withinTaken (show Ensures act _ okPart badPart by rwa [hget]) ?_ ?_
  · intro a m ha
    rw [hset]
    exact hok a m ha
  · intro e m he
    rw [hset]
    exact hbad e m he

theorem ensures_onLabel {act : Metered Matrix α} {l : Label} {okPart : α → Matrix → Prop}
    {badPart : GraphError → Matrix → Prop} {good : α → Graph → Prop} {bad : GraphError → Graph → Prop}
    (hl : g.labels[k]? = some l) (h : Ensures act l.matrix okPart badPart)
    (hok : ∀ a m, okPart a m → good a (g.withLabel k m))
    (hbad : ∀ e m, badPart e m → bad e (g.withLabel k m)) :
    Ensures (onLabel k act) g good bad := by
  have hget : (g.labels.getD k default).matrix = l.matrix := by
    rw [Array.getD_eq_getD_getElem?, hl]
    rfl
  have hset : ∀ m : Matrix,
      ({ g with
        labels := (g.labels.modify k fun l => { l with matrix := default }).modify k
          fun l => { l with matrix := m } } : Graph) = g.withLabel k m := by
    intro m
    rw [modify_twice, withLabel]
    rfl
  unfold onLabel
  refine ensures_withinTaken (show Ensures act _ okPart badPart by rwa [hget]) ?_ ?_
  · intro a m ha
    rw [hset]
    exact hok a m ha
  · intro e m he
    rw [hset]
    exact hbad e m he

theorem withAdjacency_eq_self {r : Relation} {transposed : Bool} (hr : g.relations[k]? = some r) :
    g.withAdjacency k transposed (r.adjacency transposed) = g := by
  have hself : g.relations.modify k (·.withAdjacency transposed (r.adjacency transposed)) = g.relations := by
    refine modify_eq_self fun x hx => ?_
    rw [hr] at hx
    obtain rfl := Option.some.inj hx
    cases transposed <;> rfl
  rw [withAdjacency, hself]

/-! ## Places -/

/-- The place of a matrix: that of a relation, or of its transpose, or of a label. -/
inductive Part
  | relation (k : Nat) (transposed : Bool)
  | label (k : Nat)
  deriving DecidableEq

variable {part : Part}

/-- The matrix in a place, if there is such a relation or label. -/
def matrix? (g : Graph) : Part → Option Matrix
  | .relation k transposed => g.relations[k]?.map (·.adjacency transposed)
  | .label k => g.labels[k]?.map (·.matrix)

theorem exists_relationMatrix {k : Nat} (hk : k < g.relations.size) (transposed : Bool) :
    ∃ m, g.matrix? (.relation k transposed) = some m := by
  rw [matrix?, Array.getElem?_eq_getElem hk]
  exact ⟨_, rfl⟩

theorem exists_labelMatrix {k : Nat} (hk : k < g.labels.size) : ∃ m, g.matrix? (.label k) = some m := by
  rw [matrix?, Array.getElem?_eq_getElem hk]
  exact ⟨_, rfl⟩

theorem relationMatrix_eq (g : Graph) (id : RelationId) (transposed : Bool) :
    g.relationMatrix id transposed =
      (g.matrix? (.relation id.toNat transposed)).elim (.error (.notFound .relation)) .ok := by
  unfold relationMatrix matrix?
  dsimp only
  cases g.relations[id.toNat]? <;> rfl

theorem labelMatrix_eq (g : Graph) (id : LabelId) :
    g.labelMatrix id = (g.matrix? (.label id.toNat)).elim (.error (.notFound .label)) .ok := by
  unfold labelMatrix matrix?
  dsimp only
  cases g.labels[id.toNat]? <;> rfl

theorem matrix?_of_relationMatrix {id : RelationId} {transposed : Bool}
    (h : g.relationMatrix id transposed = .ok m) : g.matrix? (.relation id.toNat transposed) = some m := by
  rw [relationMatrix_eq] at h
  cases hm : g.matrix? (.relation id.toNat transposed) with
  | none => rw [hm] at h; cases h
  | some m' => rw [hm] at h; exact congrArg some (Except.ok.inj h)

theorem matrix?_of_labelMatrix {id : LabelId} (h : g.labelMatrix id = .ok m) :
    g.matrix? (.label id.toNat) = some m := by
  rw [labelMatrix_eq] at h
  cases hm : g.matrix? (.label id.toNat) with
  | none => rw [hm] at h; cases h
  | some m' => rw [hm] at h; exact congrArg some (Except.ok.inj h)

/-- The index of the edges has no part in the matrices. -/
theorem matrix?_modify (g : Graph) (k : Nat) (f : Relation → Relation) (edges : Array (Option Edge))
    (hf : ∀ r transposed, (f r).adjacency transposed = r.adjacency transposed) (part : Part) :
    ({ g with relations := g.relations.modify k f, edges } : Graph).matrix? part = g.matrix? part := by
  cases part with
  | label k => rfl
  | relation i transposed =>
    rw [matrix?, matrix?, Array.getElem?_modify]
    split
    · cases g.relations[i]? with
      | none => rfl
      | some r => exact congrArg some (hf r transposed)
    · rfl

/-- A new label brings its matrix, and the others stay. -/
theorem matrix?_pushLabel {l : Label}
    (h : ({ g with labels := g.labels.push l } : Graph).matrix? part = some m) :
    g.matrix? part = some m ∨ m = l.matrix := by
  cases part with
  | relation k transposed => exact .inl h
  | label k =>
    obtain ⟨x, hx, rfl⟩ := Option.map_eq_some_iff.1 h
    rw [Array.getElem?_push] at hx
    split at hx
    · exact .inr (congrArg Label.matrix (Option.some.inj hx).symm)
    · exact .inl (Option.map_eq_some_iff.2 ⟨x, hx, rfl⟩)

/-- A new relation brings its matrix and the transpose, and the others stay. -/
theorem matrix?_pushRelation {r : Relation}
    (h : ({ g with relations := g.relations.push r } : Graph).matrix? part = some m) :
    g.matrix? part = some m ∨ ∃ transposed, m = r.adjacency transposed := by
  cases part with
  | label k => exact .inl h
  | relation k transposed =>
    obtain ⟨x, hx, rfl⟩ := Option.map_eq_some_iff.1 h
    rw [Array.getElem?_push] at hx
    split at hx
    · exact .inr ⟨transposed, congrArg (·.adjacency transposed) (Option.some.inj hx).symm⟩
    · exact .inl (Option.map_eq_some_iff.2 ⟨x, hx, rfl⟩)

/-- The graph with another matrix in a place. -/
def withMatrix (g : Graph) (part : Part) (m : Matrix) : Graph :=
  match part with
  | .relation k transposed => g.withAdjacency k transposed m
  | .label k => g.withLabel k m

/-- The graph without its matrices. -/
def bare (g : Graph) : Graph :=
  { g with
    relations := g.relations.map fun r => { r with matrix := default, transposed := default }
    labels := g.labels.map fun l => { l with matrix := default } }

/-- Acts on the matrix in a place. -/
def onPart (part : Part) (act : Metered Matrix α) : Metered Graph α :=
  match part with
  | .relation k transposed => onRelation k transposed act
  | .label k => onLabel k act

/-! ## One matrix -/

theorem matrix?_withMatrix (g : Graph) (part other : Part) (m : Matrix) :
    (g.withMatrix part m).matrix? other =
      if part = other then (g.matrix? part).map fun _ => m else g.matrix? other := by
  cases part with
  | relation k transposed =>
    cases other with
    | label l => rfl
    | relation l transposed' =>
      rw [withMatrix, matrix?, matrix?, matrix?, getElem?_withAdjacency]
      by_cases hk : k = l
      · subst hk
        rw [if_pos rfl]
        cases g.relations[k]? <;> cases transposed <;> cases transposed' <;>
          simp [Relation.adjacency, Relation.withAdjacency]
      · rw [if_neg hk, if_neg fun hc => hk (Part.relation.inj hc).1]
  | label k =>
    cases other with
    | relation l transposed => rfl
    | label l =>
      rw [withMatrix, matrix?, matrix?, matrix?, getElem?_withLabel]
      by_cases hk : k = l
      · subst hk
        rw [if_pos rfl, if_pos rfl]
        cases g.labels[k]? <;> rfl
      · rw [if_neg hk, if_neg fun hc => hk (Part.label.inj hc)]

theorem map_modify {α β : Type} (xs : Array α) (k : Nat) (f : α → α) (h : α → β)
    (hf : ∀ x, h (f x) = h x) :
    (xs.modify k f).map h = xs.map h := by
  refine Array.ext_getElem? fun i => ?_
  rw [Array.getElem?_map, Array.getElem?_map, Array.getElem?_modify]
  split
  · cases xs[i]? with
    | none => rfl
    | some x => exact congrArg some (hf x)
  · rfl

theorem bare_withMatrix (g : Graph) (part : Part) (m : Matrix) : (g.withMatrix part m).bare = g.bare := by
  cases part with
  | relation k transposed =>
    unfold bare withMatrix withAdjacency
    dsimp only
    rw [map_modify]
    intro r
    cases transposed <;> rfl
  | label k =>
    unfold bare withMatrix withLabel
    dsimp only
    rw [map_modify]
    exact fun _ => rfl

/-- What two graphs share that differ in their matrices only. -/
structure SameFrame (g t : Graph) : Prop where
  options : t.options = g.options
  dim : t.dim = g.dim
  nodes : t.nodes = g.nodes
  edges : t.edges = g.edges
  relations_size : t.relations.size = g.relations.size
  labels_size : t.labels.size = g.labels.size

theorem sameFrame_of_bare (h : t.bare = g.bare) : g.SameFrame t := by
  have hrelations := congrArg (fun s : Graph => s.relations.size) h
  have hlabels := congrArg (fun s : Graph => s.labels.size) h
  simp only [bare, Array.size_map] at hrelations hlabels
  obtain ⟨options, dim, nodes, labels, relations, edges⟩ := t
  obtain ⟨rfl, rfl, rfl, -, -, rfl⟩ := Graph.mk.inj h
  exact ⟨rfl, rfl, rfl, rfl, hrelations, hlabels⟩

theorem exists_relation_of_bare {r : Relation} (h : t.bare = g.bare) (hr : t.relations[k]? = some r) :
    ∃ r₀, g.relations[k]? = some r₀ ∧ r.name = r₀.name ∧ r.pairs = r₀.pairs := by
  have hk := congrArg (fun s : Graph => s.relations[k]?) h
  simp only [bare, Array.getElem?_map, hr, Option.map_some] at hk
  obtain ⟨r₀, hr₀, heq⟩ := Option.map_eq_some_iff.1 hk.symm
  obtain ⟨hname, -, -, hpairs⟩ := Relation.mk.inj heq
  exact ⟨r₀, hr₀, hname.symm, hpairs.symm⟩

theorem exists_label_of_bare {l : Label} (h : t.bare = g.bare) (hl : t.labels[k]? = some l) :
    ∃ l₀, g.labels[k]? = some l₀ ∧ l.name = l₀.name := by
  have hk := congrArg (fun s : Graph => s.labels[k]?) h
  simp only [bare, Array.getElem?_map, hl, Option.map_some] at hk
  obtain ⟨l₀, hl₀, heq⟩ := Option.map_eq_some_iff.1 hk.symm
  exact ⟨l₀, hl₀, (Label.mk.inj heq).1.symm⟩

theorem ensures_onPart {act : Metered Matrix α} {okPart : α → Matrix → Prop}
    {badPart : GraphError → Matrix → Prop} {good : α → Graph → Prop} {bad : GraphError → Graph → Prop}
    (hm : g.matrix? part = some m) (h : Ensures act m okPart badPart)
    (hok : ∀ a m', okPart a m' → good a (g.withMatrix part m'))
    (hbad : ∀ e m', badPart e m' → bad e (g.withMatrix part m')) :
    Ensures (onPart part act) g good bad := by
  cases part with
  | relation k transposed =>
    obtain ⟨r, hr, rfl⟩ := Option.map_eq_some_iff.1 hm
    exact ensures_onRelation hr h hok hbad
  | label k =>
    obtain ⟨l, hl, rfl⟩ := Option.map_eq_some_iff.1 hm
    exact ensures_onLabel hl h hok hbad

/-! ## All matrices -/

/-- `t` has the records of `g`, and each of its matrices is related to the one in the same place of `g`. -/
structure Remade (R : Part → Matrix → Matrix → Prop) (g t : Graph) : Prop where
  bare : t.bare = g.bare
  matrix : ∀ part, Option.Rel (R part) (g.matrix? part) (t.matrix? part)

variable {R R' : Part → Matrix → Matrix → Prop}

theorem remade_self (hR : ∀ part m, g.matrix? part = some m → R part m m) : Remade R g g := by
  refine ⟨rfl, fun part => ?_⟩
  cases hm : g.matrix? part with
  | none => exact .none
  | some m => exact .some (hR part m hm)

theorem rel_imp {S S' : Matrix → Matrix → Prop} {x y : Option Matrix} (h : Option.Rel S x y)
    (hS : ∀ m m', x = some m → y = some m' → S m m' → S' m m') : Option.Rel S' x y := by
  cases h with
  | some h => exact .some (hS _ _ rfl rfl h)
  | none => exact .none

theorem Remade.mono (h : Remade R g t) (hR : ∀ part m m', R part m m' → R' part m m') : Remade R' g t :=
  ⟨h.bare, fun part => rel_imp (h.matrix part) fun m m' _ _ => hR part m m'⟩

theorem Remade.exists_new (h : Remade R g t) (hm : g.matrix? part = some m) :
    ∃ m', t.matrix? part = some m' ∧ R part m m' := by
  have hrel := h.matrix part
  rw [hm] at hrel
  generalize t.matrix? part = y at hrel ⊢
  cases hrel with
  | some hr => exact ⟨_, rfl, hr⟩

theorem Remade.exists_old (h : Remade R g t) (hm : t.matrix? part = some m') :
    ∃ m, g.matrix? part = some m ∧ R part m m' := by
  have hrel := h.matrix part
  rw [hm] at hrel
  generalize g.matrix? part = x at hrel ⊢
  cases hrel with
  | some hr => exact ⟨_, rfl, hr⟩

/-- With the matrices that it had, a graph is itself. -/
theorem Remade.eq_self (h : Remade (fun _ m m' => m' = m) g t) : t = g := by
  have hmatrix : ∀ part m, t.matrix? part = some m → g.matrix? part = some m := by
    intro part m hm
    obtain ⟨_, hold, rfl⟩ := h.exists_old hm
    exact hold
  obtain ⟨hoptions, hdim, hnodes, hedges, hrs, hls⟩ := sameFrame_of_bare h.bare
  have hrelations : t.relations = g.relations := by
    refine Array.ext_getElem? fun k => ?_
    cases ht : t.relations[k]? with
    | none => exact (Array.getElem?_eq_none (hrs ▸ Array.getElem?_eq_none_iff.1 ht)).symm
    | some r =>
      obtain ⟨r₀, hr₀, hname, hpairs⟩ := exists_relation_of_bare h.bare ht
      have hplace : ∀ transposed, r₀.adjacency transposed = r.adjacency transposed := by
        intro transposed
        have hm := hmatrix (.relation k transposed) _ (Option.map_eq_some_iff.2 ⟨r, ht, rfl⟩)
        rw [matrix?, hr₀] at hm
        exact Option.some.inj hm
      rw [hr₀]
      exact congrArg some (Relation.ext hname (hplace false).symm (hplace true).symm hpairs)
  have hlabels : t.labels = g.labels := by
    refine Array.ext_getElem? fun k => ?_
    cases ht : t.labels[k]? with
    | none => exact (Array.getElem?_eq_none (hls ▸ Array.getElem?_eq_none_iff.1 ht)).symm
    | some l =>
      obtain ⟨l₀, hl₀, hname⟩ := exists_label_of_bare h.bare ht
      have hm := hmatrix (.label k) _ (Option.map_eq_some_iff.2 ⟨l, ht, rfl⟩)
      rw [matrix?, hl₀] at hm
      rw [hl₀]
      exact congrArg some (Label.ext hname (Option.some.inj hm).symm)
  obtain ⟨options, dim, nodes, labels, relations, edges⟩ := t
  obtain ⟨options', dim', nodes', labels', relations', edges'⟩ := g
  dsimp only at hoptions hdim hnodes hedges hrelations hlabels
  rw [hoptions, hdim, hnodes, hedges, hrelations, hlabels]

theorem Remade.trans {S : Part → Matrix → Matrix → Prop} (h : Remade R g t) (h' : Remade R' t u)
    (hS : ∀ part m m' m'', R part m m' → R' part m' m'' → S part m m'') : Remade S g u := by
  refine ⟨h'.bare.trans h.bare, fun part => ?_⟩
  have hold := h.matrix part
  have hnew := h'.matrix part
  generalize g.matrix? part = x, t.matrix? part = y, u.matrix? part = z at hold hnew ⊢
  cases hold with
  | none =>
    cases hnew
    exact .none
  | some hr =>
    cases hnew with
    | some hr' => exact .some (hS part _ _ _ hr hr')

/-- One matrix more is made anew. -/
theorem Remade.withMatrix (h : Remade R g t) (hm : g.matrix? part = some m) (hnew : R' part m m')
    (hother : ∀ other m m', other ≠ part → R other m m' → R' other m m') :
    Remade R' g (t.withMatrix part m') := by
  refine ⟨(bare_withMatrix t part m').trans h.bare, fun other => ?_⟩
  rw [matrix?_withMatrix]
  by_cases ho : part = other
  · subst ho
    obtain ⟨m₀, ht, -⟩ := h.exists_new hm
    rw [if_pos rfl, hm, ht]
    exact .some hnew
  · rw [if_neg ho]
    exact rel_imp (h.matrix other) fun n n' _ _ hn => hother other n n' (Ne.symm ho) hn

/-- One matrix is made anew. -/
theorem remade_withMatrix (hm : g.matrix? part = some m) (hnew : R part m m')
    (hother : ∀ other n, R other n n) : Remade R g (g.withMatrix part m') := by
  have hsame : Remade (fun _ n n' => n' = n) g g := remade_self fun _ _ _ => rfl
  exact hsame.withMatrix hm hnew fun other n n' _ hn => hn ▸ hother other n

/-- Some places are done; the matrices in the others are those of before. -/
def Done (D : Part → Prop) (Q : Part → Matrix → Matrix → Prop) (part : Part) (m m' : Matrix) : Prop :=
  D part ∧ Q part m m' ∨ ¬D part ∧ m' = m

section Every

variable {act : Metered Matrix Unit} {Q : Part → Matrix → Matrix → Prop}
  {B : GraphError → Matrix → Matrix → Prop} {D : Part → Prop}

/-- One place more. -/
theorem Remade.ensures_step (h : Remade (Done D Q) g t) (part : Part) (D' : Part → Prop)
    (hpart : ¬D part)
    (hm : g.matrix? part = some m)
    (hact : Ensures act m (fun _ m' => Q part m m') fun e m' => B e m m')
    (hD : ∀ other, D' other ↔ D other ∨ other = part) :
    Ensures (onPart part act) t (fun _ u => Remade (Done D' Q) g u)
      fun e u => ∃ m m', B e m m' ∧ Remade (fun p n n' => Q p n n' ∨ n' = n ∨ B e n n') g u := by
  obtain ⟨m₀, ht, hdone | ⟨-, rfl⟩⟩ := h.exists_new hm
  · exact absurd hdone.1 hpart
  refine ensures_onPart ht hact (fun _ m' hm' => ?_) fun e m' hm' => ?_
  · refine h.withMatrix hm (.inl ⟨(hD part).2 (.inr rfl), hm'⟩) fun other n n' hne hn => ?_
    have hiff : D' other ↔ D other := (hD other).trans (or_iff_left hne)
    unfold Done at hn ⊢
    rwa [hiff]
  · refine ⟨_, _, hm', h.withMatrix hm (.inr (.inr hm')) fun other n n' _ hn => ?_⟩
    exact hn.elim (fun hn => .inl hn.2) fun hn => .inr (.inl hn.2)

/-- The places before the `k`-th relation and the `l`-th label. -/
def Before (k l : Nat) : Part → Prop
  | .relation i _ => i < k
  | .label i => i < l

theorem ensures_onEveryMatrix
    (hact : ∀ part m, g.matrix? part = some m →
      Ensures act m (fun _ m' => Q part m m') fun e m' => B e m m') :
    Ensures (onEveryMatrix act) g (fun _ t => Remade Q g t)
      fun e t => ∃ m m', B e m m' ∧ Remade (fun p n n' => Q p n n' ∨ n' = n ∨ B e n n') g t := by
  have hstart : Remade (Done (Before 0 0) Q) g g := by
    refine remade_self fun part m _ => .inr ⟨?_, rfl⟩
    cases part <;> exact Nat.not_lt_zero _
  unfold onEveryMatrix
  refine ensures_subject ((ensures_range (fun k t => Remade (Done (Before k 0) Q) g t) hstart ?_).bind ?_)
  · intro k hk t ht
    obtain ⟨m, hm⟩ := exists_relationMatrix hk false
    obtain ⟨n, hn⟩ := exists_relationMatrix hk true
    have hfirst := ht.ensures_step (.relation k false)
      (fun other => Before k 0 other ∨ other = .relation k false) (Nat.lt_irrefl k) hm (hact _ m hm)
      fun _ => Iff.rfl
    refine hfirst.bind fun _ u hu => ?_
    refine hu.ensures_step (.relation k true) _ (fun hc => ?_) hn (hact _ n hn) fun other => ?_
    · rcases hc with hc | hc
      · exact Nat.lt_irrefl k hc
      · cases hc
    · cases other with
      | relation i transposed =>
        simp only [Before, Part.relation.injEq]
        cases transposed <;> simp <;> omega
      | label i => simp [Before]
  · intro _ t ht
    refine ensures_subject ?_
    rw [(sameFrame_of_bare ht.bare).labels_size]
    refine (ensures_range (fun l u => Remade (Done (Before g.relations.size l) Q) g u) ht ?_).mono ?_
      fun _ _ he => he
    · intro l hl u hu
      obtain ⟨m, hm⟩ := exists_labelMatrix hl
      refine hu.ensures_step (.label l) _ (Nat.lt_irrefl l) hm (hact _ m hm) fun other => ?_
      cases other with
      | relation i transposed => simp [Before]
      | label i =>
        simp only [Before, Part.label.injEq]
        omega
    · -- every place that has a matrix is done
      rintro _ u hu
      refine ⟨hu.bare, fun part => rel_imp (hu.matrix part) fun m m' hm _ hdone => ?_⟩
      have hbefore : Before g.relations.size g.labels.size part := by
        cases part with
        | relation i transposed =>
          obtain ⟨r, hr, -⟩ := Option.map_eq_some_iff.1 hm
          exact (Array.getElem?_eq_some_iff.1 hr).1
        | label i =>
          obtain ⟨x, hx, -⟩ := Option.map_eq_some_iff.1 hm
          exact (Array.getElem?_eq_some_iff.1 hx).1
      exact (hdone.resolve_right fun hc => hc.1 hbefore).2

end Every

end Graph

end Adjacency
