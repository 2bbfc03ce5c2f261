import Adjacency.Population
import Adjacency.Proofs.Incident
import Adjacency.Proofs.Mirrored

/-!
# The graph of a population

Whatever the options of its matrices, the graph of a population has the persons as they were drawn, and an
edge for every acquaintance drawn, parallel ones included.

* `Population.age`, `Population.pairs`: what is drawn, person by person and edge by edge.
* `Population.Peopled`: a graph with the persons and acquaintances of a population.
* `Population.ensures_register`, `Population.ensures_settle`: **the graph is built so**, or building fails.
-/

namespace Adjacency

open Metered

/-! ## Draws -/

namespace Generator

theorem manyBelow_succ (n count : Nat) (g : Generator) :
    manyBelow n (count + 1) g = ((manyBelow n count g).1.push ((manyBelow n count g).2.below n).1,
      ((manyBelow n count g).2.below n).2) := by
  unfold manyBelow
  rw [Nat.fold_succ]

theorem size_manyBelow (n count : Nat) (g : Generator) : (manyBelow n count g).1.size = count := by
  induction count with
  | zero => rfl
  | succ count ih => rw [manyBelow_succ, Array.size_push, ih]

theorem lt_of_mem_manyBelow {n count : Nat} {g : Generator} (hn : 0 < n) {d : Nat}
    (hd : d ∈ (manyBelow n count g).1) : d < n := by
  induction count with
  | zero => cases Array.not_mem_empty d hd
  | succ count ih =>
    rw [manyBelow_succ, Array.mem_push] at hd
    rcases hd with hd | rfl
    · exact ih hd
    · exact below_lt hn _

end Generator

namespace Population

variable {p : Population} {t : Terms} {g u : Graph} {s d k : Nat}

/-- The age of a person. -/
def age (p : Population) (k : Nat) : Nat := p.draws.ages.getD k 0

/-- The name of a person. -/
def name (k : Nat) : String := "person-" ++ toString k

/-- Who knows whom, in the order of the draws. -/
def pairs (p : Population) : List (Nat × Nat) :=
  p.draws.known.toList.zipIdx.map fun (other, k) => (k / p.degree, other)

theorem size_ages (p : Population) : p.draws.ages.size = p.nodes := by
  simp [draws, Generator.size_manyBelow]

theorem size_known (p : Population) : p.draws.known.size = p.nodes * p.degree :=
  Generator.size_manyBelow _ _ _

theorem length_pairs (p : Population) : p.pairs.length = p.nodes * p.degree := by
  simp [pairs, size_known]

/-- Every age is below 90. -/
theorem age_lt (p : Population) (k : Nat) : p.age k < 90 := by
  unfold age
  rw [Array.getD_eq_getD_getElem?]
  cases h : p.draws.ages[k]? with
  | none => decide
  | some a =>
    obtain ⟨d, hd, rfl⟩ := Array.mem_map.1 (Array.mem_of_getElem? h)
    have hlt := Generator.lt_of_mem_manyBelow (by decide) hd
    simp only [youngest, Option.getD_some]
    omega

/-- Acquaintances are persons. -/
theorem lt_of_mem_pairs (h : (s, d) ∈ p.pairs) : s < p.nodes ∧ d < p.nodes := by
  obtain ⟨⟨other, k⟩, hk, heq⟩ := List.mem_map.1 h
  obtain ⟨rfl, rfl⟩ := Prod.mk.inj heq
  obtain ⟨hlt, hother⟩ := List.mem_zipIdx' hk
  rw [Array.length_toList, size_known] at hlt
  have hsrc : k / p.degree < p.nodes := Nat.div_lt_of_lt_mul (by rwa [Nat.mul_comm])
  refine ⟨hsrc, Generator.lt_of_mem_manyBelow (Nat.zero_lt_of_lt hsrc) (?_ : other ∈ p.draws.known)⟩
  rw [hother, Array.getElem_toList]
  exact Array.getElem_mem _

/-! ## The graph -/

/-- A person as a node. -/
def node (t : Terms) (k age : Nat) : Node :=
  { labels := [t.person], properties := .ofList (properties k age) }

/-- A graph with the persons and the acquaintances of a population. -/
structure Peopled (p : Population) (t : Terms) (g : Graph) : Prop where
  mirrored : g.Mirrored
  fits : g.nodes.size ≤ g.dim
  knows : t.knows.toNat < g.relations.size
  nodes : g.nodes.toList = p.draws.ages.toList.zipIdx.map fun (age, k) => node t k age
  edges : g.live.map (fun e => (e.src, e.dst, e.relation)) =
    p.pairs.map fun (s, d) => (.ofNat s, .ofNat d, t.knows)

theorem Peopled.nodeCount (h : p.Peopled t g) : g.nodeCount = p.nodes := by
  have hlen := congrArg List.length h.nodes
  simpa [Graph.nodeCount, size_ages] using hlen

/-- Parallel edges count. -/
theorem Peopled.edgeCount (h : p.Peopled t g) : g.edgeCount = p.nodes * p.degree := by
  have hlen := congrArg List.length h.edges
  simp only [List.length_map, length_pairs] at hlen
  rw [← hlen]
  unfold Graph.edgeCount Graph.live liveEdges
  rw [List.length_filterMap_eq_countP]
  rfl

theorem Peopled.node? (h : p.Peopled t g) (hk : k < p.nodes) :
    g.nodes[k]? = some (node t k (p.age k)) := by
  have hsize : k < p.draws.ages.size := by rwa [size_ages]
  rw [← Array.getElem?_toList, h.nodes, List.getElem?_map, List.getElem?_zipIdx, Array.getElem?_toList,
    Array.getElem?_eq_getElem hsize]
  simp [age, hsize]

/-- Two persons are linked when the one was drawn for the other. -/
theorem Peopled.links_iff (h : p.Peopled t g) (hfew : p.nodes ≤ maxDim) :
    (∃ e ∈ g.live, e.relation = t.knows ∧ e.src.toNat = s ∧ e.dst.toNat = d) ↔ (s, d) ∈ p.pairs := by
  have hword : ∀ {s d}, (s, d) ∈ p.pairs → (NodeId.ofNat s).toNat = s ∧ (NodeId.ofNat d).toNat = d := by
    intro s d hmem
    obtain ⟨hs, hd⟩ := lt_of_mem_pairs hmem
    exact ⟨NodeId.toNat_ofNat (Nat.le_trans (Nat.le_of_lt hs) hfew),
      NodeId.toNat_ofNat (Nat.le_trans (Nat.le_of_lt hd) hfew)⟩
  constructor
  · rintro ⟨e, he, -, rfl, rfl⟩
    have hmem := List.mem_map_of_mem (f := fun e : Edge => (e.src, e.dst, e.relation)) he
    rw [h.edges] at hmem
    obtain ⟨⟨s, d⟩, hpair, heq⟩ := List.mem_map.1 hmem
    obtain ⟨hs, heq⟩ := Prod.mk.inj heq
    obtain ⟨hd, -⟩ := Prod.mk.inj heq
    rw [← hs, ← hd, (hword hpair).1, (hword hpair).2]
    exact hpair
  · intro hpair
    have hmem := List.mem_map_of_mem (f := fun (s, d) => (NodeId.ofNat s, NodeId.ofNat d, t.knows)) hpair
    rw [← h.edges] at hmem
    obtain ⟨e, he, heq⟩ := List.mem_map.1 hmem
    obtain ⟨hs, heq⟩ := Prod.mk.inj heq
    obtain ⟨hd, hrelation⟩ := Prod.mk.inj heq
    exact ⟨e, he, hrelation, hs ▸ (hword hpair).1, hd ▸ (hword hpair).2⟩

/-! ## Building it -/

/-- The first label and the first relation of a graph. -/
def terms : Terms := { person := .ofNat 0, knows := .ofNat 0 }

/-- A graph with the first persons and no acquaintances. -/
structure Housed (t : Terms) (done : List (Nat × Nat)) (g : Graph) : Prop where
  inv : g.Inv
  edges : g.edges = #[]
  knows : t.knows.toNat < g.relations.size
  nodes : g.nodes.toList = done.map fun (age, k) => node t k age

theorem ensures_emptyMatrix (g : Graph) :
    Ensures Graph.emptyMatrix g (fun _ u => u = g) (fun _ _ => True) := by
  unfold Graph.emptyMatrix
  exact ensures_subject (ensures_require (fun _ _ => rfl) fun _ _ => trivial)

theorem ensures_addLabel_new (label : String) (hnew : g.labels = #[]) :
    Ensures (Graph.addLabel label) g
      (fun id u => id = .ofNat 0 ∧ u.nodes = g.nodes ∧ u.relations = g.relations) (fun _ _ => True) := by
  have hid : g.labelId? label = none := by simp [Graph.labelId?, hnew]
  unfold Graph.addLabel
  refine ensures_subject ?_
  rw [hid]
  refine (ensures_emptyMatrix g).bind ?_
  rintro m _ rfl
  refine ensures_subject (ensures_update_then (ensures_pure ⟨?_, rfl, rfl⟩))
  rw [hnew]
  rfl

theorem ensures_addRelation_new (relation : String) (hnew : g.relations = #[]) :
    Ensures (Graph.addRelation relation) g
      (fun id u => id = .ofNat 0 ∧ u.relations.size = 1 ∧ u.nodes = g.nodes) (fun _ _ => True) := by
  have hid : g.relationId? relation = none := by simp [Graph.relationId?, hnew]
  unfold Graph.addRelation
  refine ensures_subject ?_
  rw [hid]
  refine (ensures_emptyMatrix g).bind ?_
  rintro m _ rfl
  refine ensures_subject (ensures_update_then (ensures_pure ⟨?_, ?_, rfl⟩))
  · rw [hnew]; rfl
  · simp [hnew]

/-- The label and the relation come first. -/
theorem ensures_register {options : GraphOptions} (hlimit : options.matrix.maxDenseCells < UInt64.size) :
    Ensures register (.new options) (fun t g => t = terms ∧ Housed terms [] g) (fun _ _ => True) := by
  have hnew := Graph.inv_new hlimit
  have hlabel := ((hnew.ensures_addLabel "Person").and (ensures_addLabel_new "Person" rfl)).mono
    (fun _ _ h => h) fun _ _ _ => trivial
  unfold register
  refine hlabel.bind ?_
  rintro _ g ⟨⟨hinv, hedges, -⟩, rfl, hnodes, hrelations⟩
  have hrelation := ((hinv.ensures_addRelation "knows").and
    (ensures_addRelation_new "knows" hrelations)).mono (fun _ _ h => h) fun _ _ _ => trivial
  refine hrelation.bind ?_
  rintro _ u ⟨⟨hinv', hedges', -⟩, rfl, hsize, hnodes'⟩
  refine ensures_pure ⟨rfl, hinv', hedges'.trans hedges, ?_, ?_⟩
  · rw [hsize]; decide
  · rw [hnodes', hnodes]; rfl

/-- One person more. -/
theorem Housed.ensures_step {done : List (Nat × Nat)} (h : Housed t done g) (x : Nat × Nat) :
    Ensures (discard (Graph.createNode [t.person] (properties x.2 x.1))) g
      (fun _ u => Housed t (done ++ [x]) u) (fun _ _ => True) := by
  refine ensures_discard ((h.inv.ensures_createNode _ _).mono ?_ fun _ _ _ => trivial)
  rintro - u ⟨hinv, hgains⟩
  refine ⟨hinv, hgains.edges.trans h.edges, hgains.relations_size ▸ h.knows, ?_⟩
  rw [hgains.nodes, Array.toList_push, h.nodes, List.map_append]
  rfl

/-- The graph with the first acquaintances, out of the one with the persons. -/
structure Acquainted (t : Terms) (degree : Nat) (g : Graph) (done : List (Nat × Nat)) (u : Graph) : Prop where
  mirrored : u.Mirrored
  agrees : g.Agrees u
  knows : t.knows.toNat < u.relations.size
  edges : u.live.map (fun e => (e.src, e.dst, e.relation)) =
    done.map fun (other, k) => (.ofNat (k / degree), .ofNat other, t.knows)

/-- One acquaintance more. -/
theorem Acquainted.ensures_step {degree : Nat} {done : List (Nat × Nat)} (hfits : g.nodes.size ≤ g.dim)
    (h : Acquainted t degree g done u) (x : Nat × Nat) :
    Ensures (discard (Graph.createEdge (.ofNat (x.2 / degree)) (.ofNat x.1) t.knows)) u
      (fun _ v => Acquainted t degree g (done ++ [x]) v) (fun _ _ => True) := by
  have hfits' : u.nodes.size ≤ u.dim := by rwa [h.agrees.nodes, h.agrees.dim]
  refine ensures_discard ((h.mirrored.ensures_createEdge hfits' _ _ _).mono ?_ fun _ _ _ => trivial)
  rintro _ v ⟨hmirrored, hagrees, hsize, hlive⟩
  refine ⟨hmirrored, h.agrees.trans hagrees, hsize ▸ h.knows, ?_⟩
  rw [hlive, List.map_append, h.edges, List.map_append]
  rfl

/-- **The graph has the persons and the acquaintances that were drawn**, if it is built at all. -/
theorem Housed.ensures_settle (h : Housed t [] g) :
    Ensures (settle p.degree t p.draws) g (fun _ u => p.Peopled t u) (fun _ _ => True) := by
  unfold settle
  refine (ensures_each (Housed t) h fun x _ done u hu => hu.ensures_step x).bind ?_
  rintro - g hg
  have hstart : Acquainted t p.degree g [] g := by
    refine ⟨hg.inv.mirrored, ⟨rfl, rfl, rfl, rfl⟩, hg.knows, ?_⟩
    rw [Graph.live, hg.edges]
    rfl
  refine (ensures_each (Acquainted t p.degree g) hstart fun x _ done u hu =>
    hu.ensures_step hg.inv.fits x).bind ?_
  rintro - u hu
  refine hu.mirrored.ensures_sync.mono ?_ fun _ _ _ => trivial
  rintro - v ⟨hv, hbare⟩
  obtain ⟨-, hdim, hnodes, hedges, hrelations, -⟩ := Graph.sameFrame_of_bare hbare
  refine ⟨hv, ?_, hrelations ▸ hu.knows, ?_, ?_⟩
  · rw [hnodes, hdim, hu.agrees.nodes, hu.agrees.dim]
    exact hg.inv.fits
  · rw [hnodes, hu.agrees.nodes, hg.nodes]
    rfl
  · rw [Graph.live, hedges, ← Graph.live, hu.edges]
    simp only [pairs, List.map_map, List.nil_append]
    rfl

end Population

end Adjacency
