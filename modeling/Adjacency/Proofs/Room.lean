import Adjacency.Proofs.Product
import Adjacency.Proofs.Reservations
import Adjacency.Proofs.Write

/-!
# Matrices that there is memory for

An index has no two slots for one cell, so a matrix of `D` rows and columns has at most `D * D` slots, and
no more tuples go into a copy of it. Where the limit of a reservation is well beyond that, no operation on
such matrices runs out of memory.

* `Ample`: the limit of a reservation is well beyond the cells of a matrix of this dimension.
* `Matrix.Laid.slotCount_le`: **there are no more slots than cells**, tombstones included.
* `Matrix.Roomy`: a matrix of at most that dimension, with room left in its queue.
* `Matrix.Roomy.ensures_wait`: a commit of a roomy matrix succeeds.
* `Matrix.Roomy.ensures_product`, `Matrix.Roomy.ensures_union`, `Matrix.Roomy.ensures_assignFrom`,
  `Matrix.Roomy.ensures_accumulate`: **no other operation on roomy matrices runs out of memory**, and what
  it leaves is roomy.
-/

namespace Adjacency

open Metered

/-- The limit of a reservation lies beyond three times the cells of a square of this dimension: a commit asks
for the index and the queue together, and a union queues the entries of two matrices. -/
def Ample (D : Nat) : Prop := 3 * (D * D) + 1 < reservationLimit

instance (D : Nat) : Decidable (Ample D) := inferInstanceAs (Decidable (_ < _))

example : Ample 400000000 := by decide

theorem lt_word_of_lt_reservationLimit {n : Nat} (h : n < reservationLimit) : n < UInt64.size :=
  Nat.lt_trans h (by decide)

/-- Distinct places inside a grid are no more than its cells. -/
theorem length_le_of_places {l : List (Nat × Nat)} (hl : l.Nodup) {a b : Nat}
    (h : ∀ p ∈ l, p.1 < a ∧ p.2 < b) : l.length ≤ a * b := by
  have hsub : l ⊆ List.range a ×ˢ List.range b := fun p hp =>
    List.mem_product.2 ⟨List.mem_range.2 (h p hp).1, List.mem_range.2 (h p hp).2⟩
  have hle := (List.subperm_of_subset hl hsub).length_le
  rwa [List.length_product, List.length_range, List.length_range] at hle

theorem IndexEntry.Distinct.length_le {l : List IndexEntry} (hl : IndexEntry.Distinct l) {a b : Nat}
    (h : ∀ e ∈ l, e.i < a ∧ e.j < b) : l.length ≤ a * b := by
  have hplaces : (l.map fun e => (e.i, e.j)).Nodup :=
    List.pairwise_map.2 (hl.imp fun hne heq => hne ⟨congrArg Prod.snd heq, congrArg Prod.fst heq⟩)
  have hle := length_le_of_places hplaces (a := a) (b := b) fun p hp => by
    obtain ⟨e, he, rfl⟩ := List.mem_map.1 hp
    exact h e he
  rwa [List.length_map] at hle

/-! ## Failures for other reasons -/

namespace GraphError

theorem not_ofMemory_invalid (cause : BadArgument) : ¬(invalid cause).OfMemory := by
  rintro ⟨_, hsite⟩
  cases hsite

theorem not_ofMemory_dimensionMismatch (op : ShapedOp) (left right : Nat × Nat) :
    ¬(dimensionMismatch op left right).OfMemory := by
  rintro ⟨_, hsite⟩
  cases hsite

end GraphError

namespace Matrix

variable {m a b : Matrix} {D : Nat} {σ : Type} {s : σ}

theorem not_ofMemory_checkBounds {row col : Nat} {e : GraphError} (h : m.checkBounds row col = .error e) :
    ¬e.OfMemory := by
  rintro ⟨site, rfl⟩
  unfold checkBounds at h
  split at h
  · cases h
  · split at h <;> cases h

theorem not_ofMemory_castIn {v : Scalar} {e : GraphError} (h : m.castIn v = .error e) : ¬e.OfMemory := by
  rintro ⟨site, rfl⟩
  unfold castIn at h
  split at h <;> cases h

theorem not_ofMemory_withOptions {type : ScalarType} {nrows ncols : Nat} {options : MatrixOptions}
    {e : GraphError} (h : withOptions type nrows ncols options = .error e) : ¬e.OfMemory := by
  rintro ⟨site, rfl⟩
  unfold withOptions at h
  split at h <;> cases h

/-! ## How much a matrix can hold -/

theorem Laid.extent_le (h : m.Laid) : m.extent ≤ m.nrows * m.ncols := by
  have hplaces : ((List.range m.extent).map m.place).Nodup := by
    refine List.nodup_range.map_on fun x hx y hy heq => ?_
    exact h.place_injective (List.mem_range.1 hx) (List.mem_range.1 hy) heq
  have hle := length_le_of_places hplaces (a := m.vlen) (b := m.vdim) fun p hp => by
    obtain ⟨pos, hpos, rfl⟩ := List.mem_map.1 hp
    exact h.at_lt (at_place (List.mem_range.1 hpos))
  rwa [List.length_map, List.length_range, vlen_mul_vdim] at hle

theorem length_entries_le (m : Matrix) : m.entries.length ≤ m.extent := by
  rw [entries, List.length_map]
  exact (List.length_filter_le _ _).trans_eq List.length_range

/-- **There are no more slots than cells.** -/
theorem Laid.slotCount_le (h : m.Laid) : m.slotCount ≤ m.nrows * m.ncols := by
  refine Nat.le_trans ?_ h.extent_le
  cases hd : m.store.dense with
  | true =>
    rw [h.slotCount_eq (deferred_eq_false_iff.1 (h.calm hd)).2.1]
    exact m.length_entries_le
  | false => rw [slotCount_sparse hd, extent_sparse hd]

theorem Laid.length_tuples_le (h : m.Laid) : m.tuples.toList.length ≤ m.nrows * m.ncols := by
  rw [h.tuples_eq, List.length_map]
  exact Nat.le_trans m.length_entries_le h.extent_le

/-! ## Room -/

/-- A matrix of dimensions up to `D` with room left in its queue, whose options keep the dense formats within
the limit of a reservation. -/
structure Roomy (D : Nat) (m : Matrix) : Prop where
  inv : m.Inv
  nrows : m.nrows ≤ D
  ncols : m.ncols ≤ D
  queue : m.pendingCount ≤ 2 * (D * D)
  dense : m.options.maxDenseCells < reservationLimit

theorem pendingCount_of_settled (hdef : m.deferred = false) : m.pendingCount = 0 := by
  rw [pendingCount, (deferred_eq_false_iff.1 hdef).1]

namespace Roomy

theorem of_sameShape {t : Matrix} (h : m.Roomy D) (hs : m.SameShape t) (hinv : t.Inv)
    (hq : t.pendingCount ≤ 2 * (D * D)) : t.Roomy D :=
  ⟨hinv, hs.nrows ▸ h.nrows, hs.ncols ▸ h.ncols, hq, hs.options ▸ h.dense⟩

theorem of_settled {t : Matrix} (h : m.Roomy D) (hs : m.SameShape t) (hinv : t.Inv)
    (hdef : t.deferred = false) : t.Roomy D :=
  h.of_sameShape hs hinv (by rw [pendingCount_of_settled hdef]; exact Nat.zero_le _)

theorem transposed (h : m.Roomy D) : m.transposed.Roomy D :=
  ⟨h.inv.transposed.1, h.ncols, h.nrows, h.queue, h.dense⟩

theorem cells_le (h : m.Roomy D) : m.nrows * m.ncols ≤ D * D := Nat.mul_le_mul h.nrows h.ncols

theorem not_vast (hD : Ample D) (h : m.Roomy D) : ¬m.Vast := by
  have hslots := Nat.le_trans h.inv.laid.slotCount_le h.cells_le
  have hqueue := h.queue
  have hvdim : m.vdim ≤ D := by
    unfold vdim
    split
    · exact h.nrows
    · exact h.ncols
  have hsquare := Nat.le_mul_self D
  unfold Ample at hD
  rintro (hmany | hvectors | hcells)
  · omega
  · omega
  · exact Nat.not_lt.2 hcells h.dense

/-! ## Commits and copies -/

/-- **A commit of a roomy matrix succeeds.** -/
theorem ensures_wait (hD : Ample D) (h : m.Roomy D) : Ensures wait m
    (fun _ t => t.Roomy D ∧ m.Keeps t ∧ t.deferred = false) (fun _ _ => False) := by
  refine ((Matrix.ensures_wait h.inv).and h.inv.ensures_wait_vast).mono ?_ ?_
  · rintro _ t ⟨⟨hinv, hkeeps, hdef⟩, -⟩
    exact ⟨h.of_settled hkeeps.toSameShape hinv hdef, hkeeps, hdef⟩
  · rintro e _ ⟨⟨he, -⟩, hvast⟩
    exact h.not_vast hD (hvast he)

theorem ensures_committed (hD : Ample D) (h : m.Roomy D) : Ensures (settle m wait) s
    (fun r t => t = s ∧ r.Roomy D ∧ m.Keeps r ∧ r.deferred = false) (fun _ _ => False) :=
  ensures_settle (h.ensures_wait hD) (fun _ hr => ⟨rfl, hr⟩) fun _ _ he => he

end Roomy

theorem pendingCount_enqueue (m : Matrix) (t : QueuedTuple) (type : ScalarType) (op : DupOp) :
    (m.enqueue t type op).pendingCount = m.pendingCount + 1 := by
  unfold enqueue pendingCount
  cases m.pending with
  | none => rfl
  | some q => exact Array.size_push _

/-- Every tuple makes the queue longer by one. -/
theorem ensures_queueTuples_count (op : DupOp) (ts : List Tuple) : Ensures (queueTuples op ts) m
    (fun _ t => t.pendingCount = m.pendingCount + ts.length) (fun e _ => ¬e.OfMemory) := by
  induction ts generalizing m with
  | nil => exact ensures_pure rfl
  | cons t ts ih =>
    unfold queueTuples
    refine ensures_subject (ensures_require_then (fun _ he => not_ofMemory_checkBounds he) fun _ _ => ?_)
    refine ensures_require_then (fun _ he => not_ofMemory_castIn he) fun v _ => ensures_update_then ?_
    refine ih.mono (fun _ u hu => ?_) fun _ _ he => he
    rw [hu, pendingCount_enqueue, List.length_cons]
    omega

/-- **A matrix of tuples** can be built if they are no more than the cells of two. -/
theorem ensures_ofTuples_roomy (hD : Ample D) {type : ScalarType} {nrows ncols : Nat} {byRow : Bool}
    {op : DupOp} {options : MatrixOptions} {ts : List Tuple} (hr : nrows ≤ D) (hc : ncols ≤ D)
    (hdense : options.maxDenseCells < reservationLimit) (hts : ts.length ≤ 2 * (D * D)) :
    Ensures (ofTuples type nrows ncols byRow ts op options) s
      (fun r t => t = s ∧ r.Roomy D ∧ r.deferred = false) (fun e t => t = s ∧ ¬e.OfMemory) := by
  unfold ofTuples
  refine ensures_require_then (fun _ he => ⟨rfl, not_ofMemory_withOptions he⟩) fun m hm => ?_
  obtain ⟨hrows, hcols, rfl⟩ := withOptions_eq_ok_iff.1 hm
  have hblank : (blank type nrows ncols byRow options).Inv :=
    (inv_blank hrows hcols (lt_word_of_lt_reservationLimit hdense)).1
  have hqueued : Ensures (queueTuples op ts) (blank type nrows ncols byRow options)
      (fun _ t => t.Roomy D) (fun e _ => ¬e.OfMemory) := by
    refine ((ensures_queueTuples op hblank rfl rfl rfl).and (ensures_queueTuples_count op ts)).mono ?_
      fun _ _ he => he.2
    rintro _ t ⟨⟨hinv, hs, -⟩, hcount⟩
    exact ⟨hinv, hs.nrows ▸ hr, hs.ncols ▸ hc, by rw [hcount]; exact (Nat.zero_add _).trans_le hts,
      hs.options ▸ hdense⟩
  have hbuilt : Ensures (do queueTuples op ts; wait) (blank type nrows ncols byRow options)
      (fun _ t => t.Roomy D ∧ t.deferred = false) (fun e _ => ¬e.OfMemory) :=
    hqueued.bind fun _ t ht =>
      (ht.ensures_wait hD).mono (fun _ _ hu => ⟨hu.1, hu.2.2⟩) fun _ _ he => he.elim
  exact ensures_settle hbuilt (fun _ hr => ⟨rfl, hr⟩) fun _ _ he => ⟨rfl, he⟩

namespace Roomy

/-- A copy of a committed roomy matrix. -/
theorem ensures_rebuilt (hD : Ample D) (h : m.Roomy D) {type : ScalarType} {byRow : Bool} {op : DupOp}
    {options : MatrixOptions} (hdense : options.maxDenseCells < reservationLimit) {nrows ncols : Nat}
    (hr : nrows ≤ D) (hc : ncols ≤ D) :
    Ensures (ofTuples type nrows ncols byRow m.tuples.toList op options) s
      (fun r t => t = s ∧ r.Roomy D ∧ r.deferred = false) (fun e t => t = s ∧ ¬e.OfMemory) := by
  refine ensures_ofTuples_roomy hD hr hc hdense ?_
  have hlength := Nat.le_trans h.inv.laid.length_tuples_le h.cells_le
  omega

/-- **A committed by-row copy** of a roomy matrix can be had. -/
theorem ensures_committedRows (hD : Ample D) (h : m.Roomy D) : Ensures m.committedRows s
    (fun r t => t = s ∧ m.Committed r ∧ r.Roomy D) (fun _ _ => False) := by
  have hroom : Ensures m.committedRows s (fun r _ => r.Roomy D) (fun e _ => ¬e.OfMemory) := by
    unfold committedRows reoriented
    refine ensures_ite (fun _ => ensures_ite (fun _ => ensures_pure h) fun _ => ?_) fun _ =>
      ensures_ite (fun _ => ?_) fun _ => ensures_pure h
    · refine (h.ensures_committed hD).andThen (fun _ _ he => he.elim) ?_
      rintro src _ ⟨-, hsrc, -⟩
      exact (hsrc.ensures_rebuilt hD h.dense h.nrows h.ncols).mono (fun _ _ hr => hr.2.1) fun _ _ he => he.2
    · exact (h.ensures_committed hD).mono (fun _ _ hr => hr.2.1) fun _ _ he => he.elim
  refine ((Matrix.ensures_committedRows h.inv).and hroom).mono ?_ fun _ _ he => he.2 he.1.2
  rintro r _ ⟨⟨rfl, hc⟩, hr⟩
  exact ⟨rfl, hc, hr⟩

/-! ## Kernels -/

/-- A product has no more rows with entries than rows, and no more entries than cells. -/
theorem size_productEntries_le (ha : a.Roomy D) (hb : b.Roomy D) {a' b' : Matrix} (hac : a.Committed a')
    (hbc : b.Committed b') (hdim : a.ncols = b.nrows) (kind : Semiring) :
    (groupRows a'.tuples).size ≤ D ∧
      (productEntries kind (kind.outputType a.type) b' (groupRows a'.tuples)).size ≤ D * D := by
  obtain ⟨-, hdistinct, -, hin⟩ := hac.productEntries_spec ha.inv hbc hb.inv hdim kind
  constructor
  · have hgroups := hac.inv.groups hac.byRow hac.settled
    have hrows : ((groupRows a'.tuples).toList.map (·.1)).Nodup :=
      List.pairwise_map.2 (hgroups.ascending.imp Nat.ne_of_lt)
    have hsub : (groupRows a'.tuples).toList.map (·.1) ⊆ List.range D := by
      intro row hrow
      obtain ⟨g, hg, rfl⟩ := List.mem_map.1 hrow
      obtain ⟨t, ht, hrow⟩ := hgroups.row_mem hg
      have hlt := (hac.inv.laid.tuples_spec ht).1
      rw [hrow, hac.nrows] at hlt
      exact List.mem_range.2 (Nat.lt_of_lt_of_le hlt ha.nrows)
    have hle := (List.subperm_of_subset hrows hsub).length_le
    rwa [List.length_map, Array.length_toList, List.length_range] at hle
  · rw [← Array.length_toList]
    exact hdistinct.length_le fun e he =>
      ⟨Nat.lt_of_lt_of_le (hin e he).1 hb.ncols, Nat.lt_of_lt_of_le (hin e he).2.1 ha.nrows⟩

/-- **There is memory for a product** of roomy matrices. -/
theorem ensures_product (hD : Ample D) (ha : a.Roomy D) (hb : b.Roomy D) (kind : Semiring)
    {options : MatrixOptions} (hdense : options.maxDenseCells < reservationLimit) :
    Ensures (a.product b kind options) s (fun r t => t = s ∧ r.Roomy D)
      (fun e t => t = s ∧ ¬e.OfMemory) := by
  have hroom : Ensures (a.product b kind options) s (fun r _ => r.pending = none) (fun e _ => ¬e.OfMemory) := by
    unfold product
    refine ensures_guard (fun _ => GraphError.not_ofMemory_dimensionMismatch _ _ _) fun heq => ?_
    have hdim : a.ncols = b.nrows := not_not.1 heq
    refine (ha.ensures_committedRows hD).andThen (fun _ _ he => he.elim) ?_
    rintro a' _ ⟨rfl, hac, -⟩
    refine (hb.ensures_committedRows hD).andThen (fun _ _ he => he.elim) ?_
    rintro b' _ ⟨rfl, hbc, -⟩
    refine ensures_require_then (fun _ he => not_ofMemory_withOptions he) fun r hr => ?_
    obtain ⟨-, -, rfl⟩ := withOptions_eq_ok_iff.1 hr
    obtain ⟨hrows, hentries⟩ := ha.size_productEntries_le hb hac hbc hdim kind
    have hsquare := Nat.le_mul_self D
    unfold Ample at hD
    refine ensures_buildStorage_large ?_ (ensures_tally_then (ensures_pure rfl))
    rintro (hlarge | hlarge)
    · omega
    · exact absurd (Nat.le_trans hlarge hentries) (by omega)
  refine ((Matrix.ensures_product ha.inv hb.inv kind (lt_word_of_lt_reservationLimit hdense)).and
    hroom).mono ?_ fun _ _ he => ⟨he.1.1, he.2⟩
  rintro r _ ⟨⟨rfl, hinv, -, hs, -⟩, hp⟩
  exact ⟨rfl, hinv, hs.nrows ▸ ha.nrows, hs.ncols ▸ hb.ncols, by rw [pendingCount, hp]; exact Nat.zero_le _,
    hs.options ▸ hdense⟩

/-- **There is memory for a union** of roomy matrices. -/
theorem ensures_union (hD : Ample D) (ha : a.Roomy D) (hb : b.Roomy D) (op : DupOp)
    {options : MatrixOptions} (hdense : options.maxDenseCells < reservationLimit) :
    Ensures (a.union b op options) s (fun r t => t = s ∧ r.Roomy D) (fun e t => t = s ∧ ¬e.OfMemory) := by
  unfold union
  refine ensures_guard (fun _ => ⟨rfl, GraphError.not_ofMemory_dimensionMismatch _ _ _⟩) fun _ => ?_
  refine (ha.ensures_committedRows hD).andThen (fun _ _ he => he.elim) ?_
  rintro a' _ ⟨rfl, -, ha'⟩
  refine (hb.ensures_committedRows hD).andThen (fun _ _ he => he.elim) ?_
  rintro b' _ ⟨rfl, -, hb'⟩
  have hleft := Nat.le_trans ha'.inv.laid.length_tuples_le ha'.cells_le
  have hright := Nat.le_trans hb'.inv.laid.length_tuples_le hb'.cells_le
  refine (ensures_ofTuples_roomy hD ha'.nrows ha'.ncols hdense ?_).mono (fun _ _ hr => ⟨hr.1, hr.2.1⟩)
    fun _ _ he => he
  rw [Array.toList_append, List.length_append]
  omega

/-- **There is memory for an assignment** between roomy matrices. -/
theorem ensures_assignFrom (hD : Ample D) (hm : m.Roomy D) (ha : a.Roomy D) :
    Ensures (assignFrom a) m (fun _ t => t.Roomy D ∧ m.SameShape t) (fun e _ => ¬e.OfMemory) := by
  have hroom : Ensures (assignFrom a) m (fun _ t => t.pendingCount ≤ 2 * (D * D)) (fun e _ => ¬e.OfMemory) := by
    unfold assignFrom
    refine ensures_subject (ensures_guard (fun _ => GraphError.not_ofMemory_dimensionMismatch _ _ _) fun _ => ?_)
    refine ensures_ite (fun _ => ?_) fun _ => ensures_put ha.queue
    refine (ha.ensures_committed hD).andThen (fun _ _ he => he.elim) ?_
    rintro src _ ⟨rfl, hsrc, -⟩
    refine (hsrc.ensures_rebuilt hD hm.dense hm.nrows hm.ncols).andThen (fun _ _ he => he.2) ?_
    rintro copy _ ⟨rfl, hcopy, -⟩
    exact ensures_put hcopy.queue
  refine ((Matrix.ensures_assignFrom hm.inv ha.inv).and hroom).mono ?_ fun _ _ he => he.2
  rintro _ t ⟨⟨hinv, hs, -⟩, hq⟩
  exact ⟨hm.of_sameShape hs hinv hq, hs⟩

/-! ## Writes -/

/-- There is memory to make room for a write; the queue does not grow by it. -/
theorem ensures_prepareWrite (hD : Ample D) (h : m.Roomy D) (v : Scalar) (op : DupOp) :
    Ensures (prepareWrite v op) m (fun _ t => t.pendingCount ≤ m.pendingCount) (fun e _ => ¬e.OfMemory) := by
  have hexpand : ∀ {t : Matrix}, t.Roomy D → t.pendingCount ≤ m.pendingCount →
      Ensures expandIso t (fun _ u => u.pendingCount ≤ m.pendingCount) (fun e _ => ¬e.OfMemory) := by
    intro t ht hle
    have hsize : t.expandedSize ≤ D * D := Nat.le_trans ht.inv.laid.extent_le ht.cells_le
    unfold Ample at hD
    unfold expandIso
    refine ensures_subject (ensures_ite (fun _ => ?_) fun _ => ensures_pure hle)
    exact ensures_reserve_large (fun hlarge => by omega) (ensures_put hle)
  have hroom : (if m.jumbled then m.unjumbled else m).Roomy D ∧
      (if m.jumbled then m.unjumbled else m).pendingCount = m.pendingCount := by
    obtain ⟨hinv, hkeeps, -, hpend⟩ := h.inv.ordered
    have hcount : (if m.jumbled then m.unjumbled else m).pendingCount = m.pendingCount := by
      rw [pendingCount, hpend, pendingCount]
    exact ⟨h.of_sameShape hkeeps.toSameShape hinv (hcount ▸ h.queue), hcount⟩
  unfold prepareWrite
  refine ensures_update_then ?_
  generalize (if m.jumbled then m.unjumbled else m) = t at hroom
  obtain ⟨ht, hcount⟩ := hroom
  refine ensures_subject (ensures_ite (fun _ => ?_) fun _ => ?_)
  · refine ensures_ite (fun _ => ?_) fun _ => ensures_pure (Nat.le_of_eq hcount)
    refine ensures_when (fun u => u.Roomy D ∧ u.pendingCount ≤ m.pendingCount) (fun _ => ?_)
      (fun _ => ⟨ht, Nat.le_of_eq hcount⟩) fun u hu => hexpand hu.1 hu.2
    refine (ht.ensures_wait hD).mono (fun _ u hu => ⟨hu.1, ?_⟩) fun _ _ he => he.elim
    rw [pendingCount_of_settled hu.2.2]
    exact Nat.zero_le _
  · exact ensures_ite (fun _ => ensures_put (Nat.le_of_eq hcount)) fun _ => ensures_pure (Nat.le_of_eq hcount)

/-- An attempt at a write queues one tuple at most. -/
theorem ensures_tryWrite (hD : Ample D) (h : m.Roomy D) (raw v : Scalar) (i j : Nat) (op : DupOp) :
    Ensures (tryWrite raw v i j op) m (fun _ t => t.pendingCount ≤ m.pendingCount + 1)
      (fun e _ => ¬e.OfMemory) := by
  unfold tryWrite
  refine (h.ensures_prepareWrite hD v op).bind fun _ t ht => ensures_subject ?_
  have hsame : ∀ {u : Matrix}, u.pending = t.pending → u.pendingCount ≤ m.pendingCount + 1 := by
    intro u hu
    rw [pendingCount, hu]
    exact Nat.le_succ_of_le ht
  cases t.locate i j with
  | cell pos => exact ensures_update_then (ensures_pure (hsame rfl))
  | live pos =>
    refine ensures_update_then (ensures_pure (hsame ?_))
    unfold writeLive
    split <;> rfl
  | zombie pos => exact ensures_update_then (ensures_pure (hsame rfl))
  | absent =>
    refine ensures_ite (fun _ => ensures_update_then (ensures_subject (ensures_pure ?_))) fun _ =>
      ensures_pure (hsame rfl)
    rw [pendingCount_enqueue]
    exact Nat.succ_le_succ ht

/-- **There is memory for a write** to a roomy matrix whose queue can take one more tuple. -/
theorem ensures_accumulate (hD : Ample D) (h : m.Roomy D) (hq : m.pendingCount < 2 * (D * D)) (raw : Scalar)
    (row col : Nat) (op : DupOp) : Ensures (accumulate raw row col op) m
      (fun _ t => t.Roomy D ∧ m.SameShape t ∧ t.pendingCount ≤ m.pendingCount + 1)
      (fun e _ => ¬e.OfMemory) := by
  have hroom : Ensures (accumulate raw row col op) m (fun _ t => t.pendingCount ≤ m.pendingCount + 1)
      (fun e _ => ¬e.OfMemory) := by
    unfold accumulate
    refine ensures_subject (ensures_require_then (fun _ he => not_ofMemory_checkBounds he) fun _ hbounds =>
      ensures_require_then (fun _ he => not_ofMemory_castIn he) fun v hv => ?_)
    obtain ⟨hr, hc⟩ := checkBounds_ok hbounds
    obtain ⟨hi, hj⟩ := toVector_lt hr hc
    dsimp only
    refine ((Matrix.ensures_tryWrite h.inv (castIn_eq_ok_iff.1 hv) hi hj op).and
      (h.ensures_tryWrite hD raw v _ _ op)).andThen (fun _ _ he => he.2) ?_
    rintro (_ | done) t ⟨⟨hinv, ht⟩, hcount⟩
    · -- after the commit the queue is empty
      have hqueued : t.Roomy D := h.of_sameShape ht.1.toSameShape hinv (by omega)
      refine (hqueued.ensures_wait hD).andThen (fun _ _ he => he.elim) ?_
      rintro _ u ⟨hu, -, hdef⟩
      refine (hu.ensures_tryWrite hD raw v _ _ op).bind fun done w hw => ?_
      rw [pendingCount_of_settled hdef] at hw
      cases done with
      | some done => exact ensures_pure (by omega)
      | none => exact ensures_throw (GraphError.not_ofMemory_contractViolation _)
    · exact ensures_pure hcount
  refine ((Matrix.ensures_accumulate h.inv raw row col op).and hroom).mono ?_ fun _ _ he => he.2
  rintro _ t ⟨⟨hinv, -, -, v, -, hputs⟩, hcount⟩
  exact ⟨h.of_sameShape hputs.toSameShape hinv (by omega), hputs.toSameShape, hcount⟩

end Roomy

end Matrix

end Adjacency
