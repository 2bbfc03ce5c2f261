import Adjacency.Proofs.FirstBatch
import Adjacency.Proofs.Peopled

/-!
# The oldest acquaintances

The query for the oldest acquaintances serves the pairs that were drawn, each once, in an order that only
the draws decide. Neither the options of the matrices nor the size of the batches leave a trace in it.

* `bytes_lt_iff`, `stable_mergeSort`: names in the order of their bytes, and what a sort does to ties.
* `Population.Precedes`: by the age of the one known, oldest first, then by name, then by who knows.
* `Population.Ranks`: the pairs that were drawn, each once, in this order.
* `Population.ranking`: the list of them, `ranks_ranking`.
* `Population.Peopled.serves`: **the query serves the head of this list.**
* `Population.Peopled.exists_execute`: it goes through when the persons fit one batch.
-/

namespace Adjacency

/-! ## Names in byte order -/

/-- The bytes of a text. -/
def bytes (s : String) : List UInt8 := s.toUTF8.data.toList

/-- A text of characters that take one byte each. -/
def Ascii (s : String) : Prop := ∀ c ∈ s.toList, c.val.toNat < 128

theorem bytes_eq {s : String} (h : Ascii s) : bytes s = s.toList.map fun c => c.val.toUInt8 := by
  have hlist : ∀ l : List Char, (∀ c ∈ l, c.val.toNat < 128) →
      l.utf8Encode.data.toList = l.map fun c => c.val.toUInt8 := by
    intro l
    induction l with
    | nil => intro _; rfl
    | cons c l ih =>
      intro hl
      obtain ⟨hc, hl⟩ := List.forall_mem_cons.1 hl
      have hsize : c.utf8Size = 1 := by
        rw [Char.utf8Size, if_pos]
        exact UInt32.le_iff_toNat_le.2 (Nat.le_of_lt_succ hc)
      rw [List.utf8Encode_cons, ByteArray.data_append, Array.toList_append, ih hl,
        List.utf8Encode_singleton, String.utf8EncodeChar_eq_singleton hsize]
      simp
  unfold bytes String.toUTF8
  rw [← hlist _ h, ← String.toByteArray_ofList, String.ofList_toList]

/-- Texts of one byte per character are in the order of their bytes. -/
theorem bytes_lt_iff {s t : String} (hs : Ascii s) (ht : Ascii t) : bytes s < bytes t ↔ s < t := by
  have hchar : ∀ {c d : Char}, c.val.toNat < 128 → d.val.toNat < 128 →
      (c.val.toUInt8 < d.val.toUInt8 ↔ c < d) ∧ (c.val.toUInt8 = d.val.toUInt8 ↔ c = d) := by
    intro c d hc hd
    rw [UInt8.lt_iff_toNat_lt, Char.lt_def, UInt32.lt_iff_toNat_lt, ← UInt8.toNat_inj, ← Char.val_inj,
      ← UInt32.toNat_inj, UInt32.toNat_toUInt8, UInt32.toNat_toUInt8, Nat.mod_eq_of_lt (by omega),
      Nat.mod_eq_of_lt (by omega)]
    exact ⟨Iff.rfl, Iff.rfl⟩
  have hlist : ∀ l l' : List Char, (∀ c ∈ l, c.val.toNat < 128) → (∀ c ∈ l', c.val.toNat < 128) →
      ((l.map fun c => c.val.toUInt8) < (l'.map fun c => c.val.toUInt8) ↔ l < l') := by
    intro l
    induction l with
    | nil =>
      intro l' _ _
      cases l' with
      | nil => simp
      | cons d l' => simp
    | cons c l ih =>
      intro l' hl hl'
      cases l' with
      | nil => simp
      | cons d l' =>
        obtain ⟨hc, hl⟩ := List.forall_mem_cons.1 hl
        obtain ⟨hd, hl'⟩ := List.forall_mem_cons.1 hl'
        rw [List.map_cons, List.map_cons, List.cons_lt_cons_iff, List.cons_lt_cons_iff, (hchar hc hd).1,
          (hchar hc hd).2, ih l' hl hl']
  rw [bytes_eq hs, bytes_eq ht, hlist _ _ hs ht, String.lt_iff_toList_lt]

/-! ## Ties -/

/-- A merge sort is stable: what compares equal keeps the order that it came in. -/
theorem stable_mergeSort {α : Type} {le : α → α → Bool} {R : α → α → Prop} {l : List α}
    (htrans : ∀ a b c, le a b = true → le b c = true → le a c = true)
    (htotal : ∀ a b, (le a b || le b a) = true) (h : l.Pairwise R) :
    (l.mergeSort le).Pairwise fun a b => le a b = true ∧ (le b a = true → R a b) := by
  -- with its place beside it, no element compares equal to another
  have hperm : (l.zipIdx.mergeSort (List.zipIdxLE le)).Perm l.zipIdx := List.mergeSort_perm _ _
  have hsorted : (l.zipIdx.mergeSort (List.zipIdxLE le)).Pairwise fun a b => List.zipIdxLE le a b = true :=
    List.pairwise_mergeSort (List.zipIdxLE_trans htrans) (List.zipIdxLE_total htotal) _
  have hplaces : (l.zipIdx.mergeSort (List.zipIdxLE le)).Pairwise fun a b => a.2 ≠ b.2 :=
    List.pairwise_map.1 ((hperm.map Prod.snd).nodup_iff.2 (List.nodup_zipIdx_map_snd l))
  rw [← List.mergeSort_zipIdx, List.pairwise_map]
  refine (hsorted.and hplaces).imp_of_mem ?_
  rintro ⟨a, i⟩ ⟨b, j⟩ ha hb ⟨hle, hne⟩
  have ha : l[i]? = some a := List.mem_zipIdx_iff_getElem?.1 (hperm.mem_iff.1 ha)
  have hb : l[j]? = some b := List.mem_zipIdx_iff_getElem?.1 (hperm.mem_iff.1 hb)
  obtain ⟨hi, rfl⟩ := List.getElem?_eq_some_iff.1 ha
  obtain ⟨hj, rfl⟩ := List.getElem?_eq_some_iff.1 hb
  unfold List.zipIdxLE at hle
  split at hle
  · next hab =>
    refine ⟨hab, fun hba => List.pairwise_iff_getElem.1 h i j hi hj ?_⟩
    rw [if_pos hba, decide_eq_true_eq] at hle
    exact Nat.lt_of_le_of_ne hle hne
  · cases hle

namespace Population

variable {p : Population} {t : Terms} {g : Graph} {a b : Nat × Nat}

theorem ascii_name (k : Nat) : Ascii (name k) := by
  intro c hc
  rw [name, String.toList_append, List.mem_append] at hc
  rcases hc with hc | hc
  · have hprefix : ∀ c ∈ "person-".toList, c.val.toNat < 128 := by simp
    exact hprefix c hc
  · rw [Nat.toString_eq_repr, Nat.toList_repr] at hc
    have hdigit := Nat.isDigit_of_mem_toDigits (by decide) (by decide) hc
    simp only [Char.isDigit, Bool.and_eq_true, decide_eq_true_eq] at hdigit
    have hle := UInt32.le_iff_toNat_le.1 hdigit.2
    exact Nat.lt_of_le_of_lt hle (by decide)

theorem name_injective {j k : Nat} (h : name j = name k) : j = k := by
  unfold name at h
  rw [String.append_right_inj, Nat.toString_eq_repr, Nat.toString_eq_repr] at h
  exact Nat.repr_injective h

/-! ## The order of the answer -/

/-- The one whom `a` knows is older than the one whom `b` knows; of the same age, comes first by name in
byte order; or is the same, and `a` comes from the lesser number. -/
def Precedes (p : Population) (a b : Nat × Nat) : Prop :=
  p.age b.2 < p.age a.2 ∨ p.age a.2 = p.age b.2 ∧
    (bytes (name a.2) < bytes (name b.2) ∨ bytes (name a.2) = bytes (name b.2) ∧ a.1 < b.1)

/-- The pairs that were drawn, each once, in order. -/
structure Ranks (p : Population) (ranking : List (Nat × Nat)) : Prop where
  nodup : ranking.Nodup
  mem_iff : ∀ x, x ∈ ranking ↔ x ∈ p.pairs
  ordered : ranking.Pairwise p.Precedes

/-- The record of a person, as the scan delivers it. -/
def someone (k : Nat) : Record := Record.ofNode 0 (.ofNat k)

/-- The record of a pair, as the traversal delivers it. -/
def found (x : Nat × Nat) : Record := (someone x.1).set 1 (.node (.ofNat x.2))

/-- The record of a pair with age and name. -/
def row (p : Population) (x : Nat × Nat) : Record :=
  ((found x).set 2 (.scalar (.int (.ofNat (p.age x.2))))).set 3 (.scalar (.string (name x.2)))

theorem node?_someone (k : Nat) : (someone k).node? 0 = some (.ofNat k) := Record.node?_set_self _ _ _

theorem node?_row_zero (x : Nat × Nat) : (p.row x).node? 0 = some (.ofNat x.1) := by
  simp [row, found, someone, Record.node?, Record.get_set, Record.ofNode]

theorem node?_row_one (x : Nat × Nat) : (p.row x).node? 1 = some (.ofNat x.2) := by
  simp [row, found, Record.node?, Record.get_set]

theorem value_row_two (x : Nat × Nat) : (p.row x).value 2 = .int (.ofNat (p.age x.2)) := by
  simp [row, found, Record.value, Record.get_set]

theorem value_row_three (x : Nat × Nat) : (p.row x).value 3 = .string (name x.2) := by
  simp [row, found, Record.value, Record.get_set]

theorem toInt_age (k : Nat) : (Int64.ofNat (p.age k)).toInt = p.age k :=
  Int64.toInt_ofNat_of_lt (Nat.lt_trans (p.age_lt k) (by decide))

/-- The keys of the query. -/
def keys : List SortKey := [⟨2, .descending⟩, ⟨3, .ascending⟩]

/-- The query compares ages, older first, and then names. -/
theorem compareRecords_row : compareRecords keys (p.row a) (p.row b) =
    (compare (p.age b.2) (p.age a.2)).then (compare (name a.2) (name b.2)) := by
  have hage : ((p.row a).value 2).order ((p.row b).value 2) = compare (p.age a.2) (p.age b.2) := by
    rw [value_row_two, value_row_two, Value.order, toInt_age, toInt_age]
    simp only [compare, compareOfLessAndEq, Int.ofNat_lt, Int.natCast_inj]
  have hname : ((p.row a).value 3).order ((p.row b).value 3) = compare (name a.2) (name b.2) := by
    rw [value_row_three, value_row_three, Value.order, Value.orderStrings_eq]
  have hswap : compare (p.age b.2) (p.age a.2) = (compare (p.age a.2) (p.age b.2)).swap :=
    Std.OrientedCmp.eq_swap
  simp only [keys, compareRecords, SortKey.order, hage, hname, hswap]
  cases compare (name a.2) (name b.2) <;> rfl

/-! ## The list in this order -/

/-- Who knows whom, each pair once: by the one who knows, then by the one known. -/
def met (p : Population) : List (Nat × Nat) :=
  (List.range p.nodes).flatMap fun s =>
    ((List.range p.nodes).filter fun d => (s, d) ∈ p.pairs).map (s, ·)

theorem mem_met_iff {x : Nat × Nat} : x ∈ p.met ↔ x ∈ p.pairs := by
  obtain ⟨s, d⟩ := x
  simp only [met, List.mem_flatMap, List.mem_map, List.mem_filter, List.mem_range, decide_eq_true_eq,
    Prod.mk.injEq]
  constructor
  · rintro ⟨_, -, _, ⟨-, hmem⟩, rfl, rfl⟩
    exact hmem
  · intro hmem
    obtain ⟨hs, hd⟩ := lt_of_mem_pairs hmem
    exact ⟨s, hs, d, ⟨hd, hmem⟩, rfl, rfl⟩

theorem met_ascends : p.met.Pairwise fun a b => a.1 < b.1 ∨ a.1 = b.1 ∧ a.2 < b.2 := by
  refine List.pairwise_flatMap.2 ⟨fun s _ => ?_, ?_⟩
  · refine List.pairwise_map.2 (List.Pairwise.filter _ ?_)
    exact List.pairwise_lt_range.imp fun hlt => .inr ⟨rfl, hlt⟩
  · refine List.pairwise_lt_range.imp fun {s u} hlt a ha b hb => .inl ?_
    obtain ⟨_, -, rfl⟩ := List.mem_map.1 ha
    obtain ⟨_, -, rfl⟩ := List.mem_map.1 hb
    exact hlt

/-- The pairs as the query ranks them. -/
def ranking (p : Population) : List (Nat × Nat) :=
  p.met.mergeSort fun a b => compareRecords keys (p.row a) (p.row b) != .gt

/-- Names tell persons apart, so that two pairs that the keys leave equal differ in who knows. -/
theorem precedes_of_keys (hab : (compareRecords keys (p.row a) (p.row b)).isLE)
    (hties : (compareRecords keys (p.row b) (p.row a)).isLE → a.1 < b.1 ∨ a.1 = b.1 ∧ a.2 < b.2) :
    p.Precedes a b := by
  rw [compareRecords_row] at hab hties
  rcases Nat.lt_trichotomy (p.age b.2) (p.age a.2) with hlt | hage | hgt
  · exact .inl hlt
  · refine .inr ⟨hage.symm, ?_⟩
    rw [hage, Nat.compare_eq_eq.2 rfl, Ordering.eq_then] at hab hties
    rcases lt_trichotomy (name a.2) (name b.2) with hlt | hname | hgt
    · exact .inl ((bytes_lt_iff (ascii_name _) (ascii_name _)).2 hlt)
    · -- the same person is known, and the pairs came in the order of those who know
      have hdst := name_injective hname
      have hsrc := hties (by rw [hname, compare_eq_iff_eq.2 rfl]; rfl)
      exact .inr ⟨congrArg bytes hname, by omega⟩
    · rw [compare_gt_iff_gt.2 hgt] at hab
      cases hab
  · rw [Nat.compare_eq_gt.2 hgt] at hab
    cases hab

/-- **The query ranks the pairs that were drawn.** -/
theorem ranks_ranking (p : Population) : p.Ranks p.ranking := by
  have hle : ∀ o : Ordering, (o != .gt) = o.isLE := by decide
  have hnodup : p.met.Nodup := met_ascends.imp (by rintro a _ hlt rfl; omega)
  refine ⟨(List.mergeSort_perm _ _).nodup_iff.2 hnodup, fun x => List.mem_mergeSort.trans mem_met_iff, ?_⟩
  unfold ranking
  simp only [hle]
  refine (stable_mergeSort (fun _ _ _ => Std.TransCmp.isLE_trans) (fun a b => ?_) met_ascends).imp fun h =>
    precedes_of_keys h.1 h.2
  have hswap : compareRecords keys (p.row b) (p.row a) = (compareRecords keys (p.row a) (p.row b)).swap :=
    Std.OrientedCmp.eq_swap
  rw [hswap]
  cases compareRecords keys (p.row a) (p.row b) <;> rfl

/-- **Sorted by the keys, the records of the pairs are those of the ranking.** -/
theorem sortedRecords_met : sortedRecords keys (p.met.map p.row) = p.ranking.map p.row := by
  unfold sortedRecords ranking
  exact (List.map_mergeSort (f := p.row) fun _ _ _ _ => rfl).symm

/-! ## The query -/

variable {k : Nat}

/-- The traversal from a person to those that the person knows. -/
def acquaintances (t : Terms) : Pattern := { expr := .relation t.knows, src := 0, dst := 1 }

/-- The scan finds the persons. -/
theorem Peopled.scanned (h : p.Peopled t g) :
    (g.nodeIds (some t.person)).map (Record.ofNode 0) = (List.range p.nodes).map someone := by
  have hlabels : ∀ x ∈ g.nodes.toList.zipIdx, x.1.labels.contains t.person = true := by
    rintro ⟨n, k⟩ hx
    obtain ⟨-, -, hn⟩ := List.mem_zipIdx hx
    have hn : n ∈ g.nodes.toList := hn ▸ List.getElem_mem _
    rw [h.nodes] at hn
    obtain ⟨x, -, rfl⟩ := List.mem_map.1 hn
    simp [node]
  have hids : g.nodeIds (some t.person) = g.nodes.toList.zipIdx.map fun x => NodeId.ofNat x.2 := by
    rw [← List.filterMap_eq_map]
    exact List.filterMap_congr fun x hx => if_pos (hlabels x hx)
  rw [hids, List.range_eq_range', ← h.nodeCount, Graph.nodeCount, ← Array.length_toList,
    ← List.zipIdx_map_snd, List.map_map, List.map_map]
  rfl

/-- The traversal can be expanded in the graph. -/
theorem Peopled.sound (h : p.Peopled t g) : (acquaintances t).Sound g :=
  ⟨h.mirrored, .operand ⟨h.knows, trivial, if_pos h.knows⟩⟩

theorem Peopled.le_dim (h : p.Peopled t g) : p.nodes ≤ g.dim := h.nodeCount ▸ h.fits

theorem Peopled.le_maxDim (h : p.Peopled t g) : p.nodes ≤ maxDim := Nat.le_trans h.le_dim h.sound.dim_le

/-- Persons are numbered as they come. -/
theorem Peopled.toNat_ofNat (h : p.Peopled t g) (hk : k < p.nodes) : (NodeId.ofNat k).toNat = k :=
  NodeId.toNat_ofNat (Nat.le_trans (Nat.le_of_lt hk) h.le_maxDim)

/-- From a person the traversal leads to those drawn for the person. -/
theorem Peopled.destinations (h : p.Peopled t g) (hk : k < p.nodes) :
    (acquaintances t).destinations g (.ofNat k) =
      (List.range p.nodes).filter fun d => (k, d) ∈ p.pairs := by
  have hlinks : ∀ d, (acquaintances t).links g (NodeId.ofNat k).toNat d ↔ (k, d) ∈ p.pairs := by
    intro d
    rw [h.toNat_ofNat hk]
    exact h.links_iff h.le_maxDim
  unfold Pattern.destinations
  simp only [hlinks]
  -- beyond the persons there are columns without entries
  obtain ⟨spare, hspare⟩ := Nat.exists_eq_add_of_le h.le_dim
  have hnone : ∀ d ∈ (List.range spare).map fun j => p.nodes + j, ¬decide ((k, d) ∈ p.pairs) = true := by
    simp only [List.forall_mem_map, decide_eq_true_eq]
    intro j _ hmem
    exact absurd (lt_of_mem_pairs hmem).2 (Nat.not_lt.2 (Nat.le_add_right _ _))
  rw [hspare, List.range_add, List.filter_append, List.filter_eq_nil_iff.2 hnone, List.append_nil]

theorem Peopled.bounds (h : p.Peopled t g) : (acquaintances t).Bounds g ((List.range p.nodes).map someone) := by
  intro r hr src hsrc
  obtain ⟨k, hk, rfl⟩ := List.mem_map.1 hr
  have hk : k < p.nodes := List.mem_range.1 hk
  rw [← Option.some.inj ((node?_someone k).symm.trans hsrc), h.toNat_ofNat hk]
  exact Nat.lt_of_lt_of_le hk h.le_dim

/-- The expansions of the persons are the pairs. -/
theorem Peopled.flatMap_expansion (h : p.Peopled t g) :
    ((List.range p.nodes).map someone).flatMap ((acquaintances t).expansion g) = p.met.map found := by
  rw [List.flatMap_map, met, List.map_flatMap]
  refine List.flatMap_congr fun k hk => ?_
  simp only [Pattern.expansion, acquaintances, node?_someone, List.map_map]
  exact congrArg _ (h.destinations (List.mem_range.1 hk))

theorem properties_node (k age : Nat) : (node t k age).properties = properties k age := by
  have hkeys : ¬"name" = "age" ∧ ¬"name" < "age" := by decide
  simp only [node, Properties.ofList, properties, List.foldl, Properties.upsert, if_neg hkeys.1, if_neg hkeys.2]

/-- A property of a person. -/
theorem Peopled.projected_eq (h : p.Peopled t g) (hk : k < p.nodes) {r : Record}
    (hr : r.node? 1 = some (.ofNat k)) (key : String) (out : Nat) :
    Source.projected g 1 key out r =
      r.set out (.scalar (((properties k (p.age k)).lookup key).getD .null)) := by
  have hnode : g.node? (.ofNat k) = some (node t k (p.age k)) := by
    rw [Graph.node?, h.toNat_ofNat hk]
    exact h.node? hk
  rw [Source.projected, hr, Option.bind_some, hnode, Option.map_some, Node.property, properties_node]
  rfl

/-- Age and name make the record of a pair complete. -/
theorem Peopled.projected_found (h : p.Peopled t g) {x : Nat × Nat} (hx : x ∈ p.met) :
    Source.projected g 1 "name" 3 (Source.projected g 1 "age" 2 (found x)) = p.row x := by
  have hdst : x.2 < p.nodes := (lt_of_mem_pairs (mem_met_iff.1 hx)).2
  have hnode : (found x).node? 1 = some (.ofNat x.2) := Record.node?_set_self _ _ _
  rw [h.projected_eq hdst hnode, h.projected_eq hdst ((Record.node?_set _ _ _ (by decide)).trans hnode)]
  rfl

/-- **The query serves the head of the ranking**, whatever the options of the matrices are and however
many records a batch has. -/
theorem Peopled.serves (h : p.Peopled t g) {options : ExecOptions} (hpos : 0 < options.batchSize)
    (hmax : options.batchSize ≤ maxDim) {limit : Nat} (hlimit : limit < UInt64.size) :
    (oldestKnown t limit).source.Serves options g (fun e => False ∨ e.OfMemory)
      ((p.ranking.take limit).map p.row) := by
  have hscan : (Source.scan 0 (some t.person)).Serves options g (fun _ => False)
      ((List.range p.nodes).map someone) := h.scanned ▸ Source.serves_scan 0 (some t.person)
  have hfound := Source.serves_traverse h.sound rfl hpos hmax hscan h.bounds
  rw [h.flatMap_expansion] at hfound
  have hdescribed := (hfound.project 1 "age" 2).project 1 "name" 3
  have hrows : ((p.met.map found).map (Source.projected g 1 "age" 2)).map (Source.projected g 1 "name" 3) =
      p.met.map p.row := by
    rw [List.map_map, List.map_map]
    exact List.map_congr_left fun x hx => h.projected_found hx
  rw [hrows] at hdescribed
  have hcut := (hdescribed.sort keys (some (0, limit))).skipLimit 0 limit
  have hcapacity : min (0 + limit) (UInt64.size - 1) = limit := by omega
  rw [sortCapacity, Option.elim_some, hcapacity, sortedRecords_met, List.drop_zero, List.take_take,
    Nat.min_self, ← List.map_take] at hcut
  exact hcut

/-! ## A population that fits one batch -/

section OneBatch

variable {n : CallCounts}

/-- A traversal that has read the persons into its first batch. -/
def firstBatch (p : Population) (capacity : Nat) : Traversal :=
  { capacity, phase := .filling, batch := ((List.range p.nodes).map someone).toArray }

theorem Peopled.opens (h : p.Peopled t g) {capacity : Nat} (hsome : 0 < p.nodes)
    (hfew : p.nodes < capacity) (hmax : capacity ≤ maxDim)
    (heval : Metered.succeeds (Traversal.evaluateBatch (acquaintances t) g) (firstBatch p capacity, n) = true) :
    ((Source.scan 0 (some t.person)).traverse (acquaintances t)).Opens g n
      (none, { capacity, phase := .filling }) := by
  have hread : Source.taken (fun b _ => decide (b.size < capacity)) (acquaintances t).gather #[]
      ((List.range p.nodes).map someone) = (((List.range p.nodes).map someone).toArray, []) := by
    refine (Source.taken_gather (by simp; omega) fun r hr => ?_).trans (by simp)
    obtain ⟨k, -, rfl⟩ := List.mem_map.1 hr
    exact Option.isSome_iff_exists.2 ⟨_, node?_someone k⟩
  have hids : ((none : Option (List NodeId)).getD (g.nodeIds (some t.person))).map (Record.ofNode 0) =
      (List.range p.nodes).map someone := h.scanned
  -- the scan makes no calls, so that the batch is evaluated at the counts of the start
  obtain ⟨left, hleft⟩ := Source.exists_pull_scan (n := n) (fun b _ => decide (b.size < capacity))
    (acquaintances t).gather #[] none hids
  have hfill : (Source.scan 0 (some t.person)).fillBatch (acquaintances t) g
      (⟨(none, { capacity, phase := .filling }), false⟩, n) = .ok () (⟨(left, firstBatch p capacity), false⟩, n) := by
    rw [hread] at hleft
    unfold Pattern.gather at hleft
    simp only [Source.fillBatch, Step.onto, hleft]
    rfl
  obtain ⟨_, u, hu⟩ := Metered.exists_ok heval
  have heval' : Source.onTraversal (Traversal.evaluateBatch (acquaintances t) g)
      (⟨(left, firstBatch p capacity), false⟩, n) = .ok () (⟨(left, u.1), false⟩, u.2) := by
    simp only [Source.onTraversal, hu]
  have hscan : (Source.scan 0 (some t.person)).Serves {} g (fun _ => False)
      ((List.range p.nodes).map someone) := h.scanned ▸ Source.serves_scan 0 (some t.person)
  have hbatch : (firstBatch p capacity).batch.size = p.nodes := by simp [firstBatch]
  refine Source.opens_traverse h.sound rfl hmax rfl ⟨rfl, (fun w hw => by cases hw), fun e he => by cases he⟩
    (hscan.of_ok (n := n) rfl) h.bounds hfill (fun hnone => ?_) (hbatch ▸ hfew) heval'
  rw [hnone, Array.size_empty] at hbatch
  exact Nat.ne_of_gt hsome hbatch.symm

/-- **The query goes through** when the persons fit one batch and this is evaluated. -/
theorem Peopled.exists_execute (h : p.Peopled t g) {options : ExecOptions} {limit : Nat} (hsome : 0 < p.nodes)
    (hfew : p.nodes < options.batchSize) (hmax : options.batchSize ≤ maxDim) (hlimit : 0 < limit)
    (heval : Metered.succeeds (Traversal.evaluateBatch (acquaintances t) g)
      (p.firstBatch options.batchSize, n) = true) :
    ∃ r u, Plan.execute g (.new (oldestKnown t limit) options, n) = .ok r u := by
  have hopens := ((((h.opens hsome hfew hmax heval).project 1 "age" 2).project 1 "name" 3).sort keys
    (some (0, limit))).skipLimit hlimit
  have hinit : (oldestKnown t limit).source.init options ((oldestKnown t limit).source.start, n) =
      .ok () (⟨{ child := (none, { capacity := options.batchSize, phase := .filling }) }, 0, 0⟩, n) := by
    have hzero : ¬(none : Option Nat).getD options.batchSize = 0 := Nat.ne_of_gt (Nat.zero_lt_of_lt hfew)
    simp only [oldestKnown, OperatorTree.source, Source.skipLimit, Source.sort, Source.project, Source.traverse,
      if_neg hzero]
    rfl
  exact Source.Opens.exists_execute hinit hopens

end OneBatch

end Population

end Adjacency
