import Adjacency.Proofs.Build
import Adjacency.Proofs.Dense

/-!
# Another format

A matrix with nothing deferred is laid out anew from its entries in order.

* `Matrix.Fits`: what a format asks of the matrix that goes over to it.
* `Matrix.ensures_convertTo`: **going over to another format keeps the content.**
* `Matrix.ensures_conform`: so does going over to the preferred one, which always fits.
* `Matrix.Shares`: neither touches the queue or the value that all entries share.
-/

namespace Adjacency

open Metered

namespace Matrix

variable {m m' : Matrix}

theorem Laid.sortedEntries_eq (h : m.Laid) :
    m.sortedEntries = stableSort (fun a b => placeLe a.j a.i b.j b.i) m.entries := by
  rw [sortedEntries, h.tuples_eq, List.map_map]
  congr 1
  exact (List.map_congr_left fun e _ => entryOf_tupleOf e).trans (List.map_id _)

theorem Laid.sortedEntries_perm (h : m.Laid) : m.sortedEntries.Perm m.entries := by
  rw [h.sortedEntries_eq]; exact stableSort_perm _

theorem Laid.sortedEntries_sorted (h : m.Laid) : IndexEntry.Sorted m.sortedEntries := by
  rw [h.sortedEntries_eq]
  exact stableSort_sorted IndexEntry.j IndexEntry.i h.entries_distinct

/-- Sorted entries are grouped by vector. -/
theorem grouped_of_sorted {l : List IndexEntry} (h : IndexEntry.Sorted l) :
    l.Pairwise fun a b => a.j ≤ b.j :=
  h.imp fun hab => by
    rcases hab with hlt | ⟨heq, -⟩
    · exact Nat.le_of_lt hlt
    · exact Nat.le_of_eq heq

theorem Laid.entry_lt (h : m.Laid) {e : IndexEntry} (he : e ∈ m.entries) :
    e.i < m.vlen ∧ e.j < m.vdim := by
  obtain ⟨pos, hat, -⟩ := h.stored_eq_some_iff.1 (h.mem_entries.1 he)
  exact h.at_lt hat

theorem Laid.entry_type (h : m.Laid) {e : IndexEntry} (he : e ∈ m.entries) : e.value.type = m.type :=
  h.stored_type (h.mem_entries.1 he)

theorem Laid.entry_shared (h : m.Laid) {e : IndexEntry} (he : e ∈ m.entries) (hi : m.iso = true) :
    e.value = m.shared := by
  obtain ⟨pos, -, -, hv⟩ := h.stored_eq_some_iff.1 (h.mem_entries.1 he)
  rw [← hv, valueAt, if_pos hi]

theorem Laid.sortedEntries_lt (h : m.Laid) {e : IndexEntry} (he : e ∈ m.sortedEntries) :
    e.i < m.vlen ∧ e.j < m.vdim := h.entry_lt (h.sortedEntries_perm.mem_iff.1 he)

theorem Laid.sortedEntries_type (h : m.Laid) {e : IndexEntry} (he : e ∈ m.sortedEntries) :
    e.value.type = m.type := h.entry_type (h.sortedEntries_perm.mem_iff.1 he)

theorem Laid.sortedEntries_shared (h : m.Laid) {e : IndexEntry} (he : e ∈ m.sortedEntries)
    (hi : m.iso = true) : e.value = m.shared := h.entry_shared (h.sortedEntries_perm.mem_iff.1 he) hi

/-- The dense arrays of a matrix hold its entries. -/
theorem Laid.fills (h : m.Laid) (hcells : m.vlen * m.vdim < UInt64.size) :
    m.Fills m.sortedEntries (m.denseArrays m.sortedEntries).1 (m.denseArrays m.sortedEntries).2 :=
  denseArrays_fills hcells h.sortedEntries_sorted.distinct (fun _ he => h.sortedEntries_lt he)
    (fun _ he => h.sortedEntries_type he) h.shared_type

/-- The positions taken in the index are the entries and the tombstones. -/
theorem Laid.slotCount_eq (h : m.Laid) (hz : m.zombies = 0) : m.slotCount = m.entries.length := by
  rw [entries, List.length_map, ← List.countP_eq_length_filter]
  have hsparse : m.store.dense = false → m.store.slots.size = (List.range m.extent).countP m.present := by
    intro hd
    have hdead := h.zombies hd
    rw [hz, eq_comm, List.countP_eq_zero] at hdead
    rw [extent_sparse hd, List.countP_eq_length.2, List.length_range]
    intro pos hpos
    rw [present_sparse hd (List.mem_range.1 hpos)]
    simpa using hdead pos hpos
  cases hs : m.store with
  | full x =>
    have hd : m.store.dense = true := by rw [hs]; rfl
    have hp : ∀ pos ∈ List.range m.extent, m.present pos = true := fun pos _ => by
      rw [present_dense hd, cellPresent, hs]
    rw [List.countP_eq_length.2 hp, List.length_range, slotCount, hs, extent, if_pos hd]
  | bitmap b x n =>
    have hd : m.store.dense = true := by rw [hs]; rfl
    have hp : m.present = (b.getD · false) := funext fun pos => by
      rw [present_dense hd, cellPresent, hs]
    rw [slotCount, hs, extent_dense h hd, hp]
    exact (h.bits b x n hs).2
  | sparse p i x =>
    rw [slotCount, hs]
    have := hsparse (by rw [hs]; rfl)
    rwa [hs] at this
  | hypersparse l p i x =>
    rw [slotCount, hs]
    have := hsparse (by rw [hs]; rfl)
    rwa [hs] at this

theorem Laid.length_sortedEntries (h : m.Laid) (hz : m.zombies = 0) :
    m.sortedEntries.length = m.slotCount := by
  rw [h.slotCount_eq hz, h.sortedEntries_perm.length_eq]

theorem keepShared_eq {store : Storage} (h : m.iso = true → store.values = #[m.shared]) :
    m.keepShared store = store := by
  unfold keepShared
  split
  · next hi =>
    have := h hi
    cases store <;> simp_all [Storage.mapValues, Storage.values]
  · rfl

@[simp] theorem format_keepShared (m : Matrix) (store : Storage) :
    (m.keepShared store).format = store.format := by
  unfold keepShared
  split
  · rw [Storage.format_mapValues]
  · rfl

/-- Where all entries share a value, it is the first of them; without entries there is none to differ. -/
theorem getD_values {store : Storage} {l : List IndexEntry}
    (hv : store.values.toList = l.map IndexEntry.value) (hsh : ∀ e ∈ l, e.value = m.shared) :
    store.values.getD 0 m.shared = m.shared := by
  rw [Array.getD_eq_getD_getElem?, ← Array.getElem?_toList, hv, List.getElem?_map]
  cases he : l[0]? with
  | none => rfl
  | some e => exact hsh e (List.mem_of_getElem? he)

/-- The values of a rebuilt sparse format. -/
theorem carries_keepShared {store : Storage} {l : List IndexEntry} (hs : m.SameShape m')
    (hst : m'.store = m.keepShared store) (hi : m'.iso = m.iso)
    (hv : store.values.toList = l.map IndexEntry.value) (hl : ∀ e ∈ l, e.value.type = m.type)
    (hty : m.iso = true → m.shared.type = m.type) (hsh : m.iso = true → ∀ e ∈ l, e.value = m.shared) :
    m'.Carries l := by
  cases hiso : m.iso with
  | true =>
    have hhead := getD_values hv (hsh hiso)
    have hvalues : m'.store.values = #[m.shared] := by
      rw [hst, keepShared, if_pos hiso, Storage.values_mapValues, hhead]
    refine ⟨by simp [hvalues, hi, hiso], fun v hv => ?_, fun pos hpos => ?_⟩
    · rw [hvalues, List.mem_singleton] at hv
      rw [hv, hs.type, hty hiso]
    · rw [valueAt, hi, hiso, if_pos rfl, shared, hvalues, hsh hiso _ (List.getElem_mem hpos)]
      rfl
  | false =>
    have hvalues : m'.store.values.toList = l.map IndexEntry.value := by
      rw [hst, keepShared, if_neg (by simp [hiso]), hv]
    exact carries_of_values (hi.trans hiso) hvalues fun e he => (hl e he).trans hs.type.symm

/-! ## The conversion -/

theorem ensures_buildStorage {σ α : Type} {s : σ} {vectors : Nat} {entries : Array IndexEntry}
    {k : Storage → Metered σ α} {good : α → σ → Prop} {bad : GraphError → σ → Prop}
    (hbad : ∀ e, e.OfMemory → bad e s) (h : Ensures (k (.ofEntries entries)) s good bad) :
    Ensures (buildStorage vectors entries >>= k) s good bad := by
  simp only [buildStorage, bind_assoc, pure_bind]
  exact ensures_reserve hbad (ensures_reserve hbad (ensures_reserve hbad (ensures_reserve hbad h)))

/-- The same entries laid out sparsely. -/
theorem Inv.relaid_sparse (h : m.Inv) (hdef : m.deferred = false) {store : Storage}
    (hl : store.Lists m.vlen m.vdim m.sortedEntries)
    (hv : store.values.toList = m.sortedEntries.map IndexEntry.value) :
    ({ m with store := m.keepShared store } : Matrix).Inv ∧
      m.Keeps { m with store := m.keepShared store } := by
  obtain ⟨hp, hz, -⟩ := deferred_eq_false_iff.1 hdef
  have hmem : ∀ e, e ∈ m.sortedEntries ↔ e ∈ m.entries := fun e => h.laid.sortedEntries_perm.mem_iff
  set m' : Matrix := { m with store := m.keepShared store }
  have hs : m.SameShape m' := ⟨rfl, rfl, rfl, rfl, rfl⟩
  have hl' : m'.store.Lists m'.vlen m'.vdim m.sortedEntries := by
    change (m.keepShared store).Lists m.vlen m.vdim _
    unfold keepShared
    split
    · exact hl.mapValues _
    · exact hl
  have hc : m'.Carries m.sortedEntries := carries_keepShared hs rfl rfl hv
    (fun _ he => h.laid.sortedEntries_type he) h.laid.shared_type
    (fun hi _ he => h.laid.sortedEntries_shared he hi)
  have hlaid : m'.Laid := laid_of_lists hl' hc hz fun _ => h.laid.sortedEntries_sorted
  refine h.of_settled hs hlaid hp fun i j => ?_
  rw [value_of_settled hp, h.laid.stored_eq hlaid]
  intro e
  rw [entries_of_lists hl' hc, hmem]

/-- The same entries laid out densely. -/
theorem Inv.relaid_dense (h : m.Inv) (hdef : m.deferred = false)
    (hcells : m.vlen * m.vdim < UInt64.size) (hs : m.SameShape m') (hi : m'.iso = m.iso)
    (hd : m'.store.dense = true) (hv : m'.store.values = (m.denseArrays m.sortedEntries).2)
    (hdef' : m'.deferred = false)
    (hbits : ∀ b x n, m'.store = .bitmap b x n →
      b.size = m'.vlen * m'.vdim ∧ n = (List.range (m'.vlen * m'.vdim)).countP (b.getD · false))
    (hpres : ∀ pos, pos < m.vlen * m.vdim →
      m'.cellPresent pos = (m.denseArrays m.sortedEntries).1.getD pos false) :
    m'.Inv ∧ m.Keeps m' := by
  obtain ⟨hlaid, hent⟩ := (h.laid.fills hcells).laid hs hi hcells hd hv hdef' hbits hpres
    (fun _ he => h.laid.sortedEntries_lt he) fun hi _ he => h.laid.sortedEntries_shared he hi
  refine h.of_settled hs hlaid (deferred_eq_false_iff.1 hdef').1 fun i j => ?_
  rw [value_of_settled (deferred_eq_false_iff.1 hdef).1, h.laid.stored_eq hlaid]
  exact fun e => (hent e).trans h.laid.sortedEntries_perm.mem_iff

/-- The full format needs an entry at every cell. -/
theorem Inv.relaid_full (h : m.Inv) (hdef : m.deferred = false) (hcells : m.vlen * m.vdim < UInt64.size)
    (hall : m.slotCount = m.vlen * m.vdim) :
    ({ m with store := m.keepShared (.full (m.denseArrays m.sortedEntries).2) } : Matrix).Inv ∧
      m.Keeps { m with store := m.keepShared (.full (m.denseArrays m.sortedEntries).2) } := by
  have hf := h.laid.fills hcells
  have hlen := h.laid.length_sortedEntries (deferred_eq_false_iff.1 hdef).2.1
  have hkeep : m.keepShared (.full (m.denseArrays m.sortedEntries).2) =
      .full (m.denseArrays m.sortedEntries).2 := keepShared_eq fun hi => hf.shared hi
  rw [hkeep]
  refine h.relaid_dense hdef hcells ⟨rfl, rfl, rfl, rfl, rfl⟩ rfl rfl rfl hdef (fun _ _ _ hc => by cases hc)
    fun pos hpos => ?_
  exact (hf.all_of_length h.laid.sortedEntries_sorted.distinct (fun _ he => h.laid.sortedEntries_lt he)
    (hlen.trans hall) hpos).symm

/-- The bitmap counts its bits as it is filled. -/
theorem Inv.relaid_bitmap (h : m.Inv) (hdef : m.deferred = false) (hcells : m.vlen * m.vdim < UInt64.size)
    {b : Array Bool} {x : Array Scalar} (hbx : m.denseArrays m.sortedEntries = (b, x)) :
    ({ m with store := m.keepShared (.bitmap b x m.sortedEntries.length) } : Matrix).Inv ∧
      m.Keeps { m with store := m.keepShared (.bitmap b x m.sortedEntries.length) } := by
  have hf := h.laid.fills hcells
  rw [hbx] at hf
  have hkeep : m.keepShared (.bitmap b x m.sortedEntries.length) = .bitmap b x m.sortedEntries.length :=
    keepShared_eq fun hi => hf.shared hi
  rw [hkeep]
  refine h.relaid_dense hdef hcells ⟨rfl, rfl, rfl, rfl, rfl⟩ rfl rfl (by rw [hbx]; rfl) hdef
    (fun _ _ _ hc => ?_) fun _ _ => by rw [hbx]; rfl
  obtain ⟨rfl, rfl, rfl⟩ := Storage.bitmap.inj hc
  exact ⟨hf.bits, hf.length_eq h.laid.sortedEntries_sorted.distinct fun _ he => h.laid.sortedEntries_lt he⟩

/-- A dense layout is only chosen for cells that can be counted, and the full one only when every cell is
taken. -/
def Fits (m : Matrix) (target : Format) : Prop :=
  match target with
  | .full => m.vlen * m.vdim < UInt64.size ∧ m.slotCount = m.vlen * m.vdim
  | .bitmap => m.vlen * m.vdim < UInt64.size
  | .sparse | .hypersparse => True

/-- **Going over to another format** keeps the content. -/
theorem ensures_convertTo (h : m.Inv) (hdef : m.deferred = false) (target : Format)
    (hfit : m.Fits target) : Ensures (convertTo target) m
      (fun _ t => t.Inv ∧ m.Keeps t ∧ t.deferred = false ∧ t.format = target)
      (fun e t => e.OfMemory ∧ t = m) := by
  have hsorted := h.laid.sortedEntries_sorted
  have hlen := h.laid.length_sortedEntries (deferred_eq_false_iff.1 hdef).2.1
  have hlists : (Storage.ofEntries m.sortedEntries.toArray).Lists m.vlen m.vdim m.sortedEntries :=
    Storage.ofEntries_lists (grouped_of_sorted hsorted) hsorted.distinct fun _ he => h.laid.sortedEntries_lt he
  have hvalues := Storage.ofEntries_values (grouped_of_sorted hsorted)
  have hbad : ∀ e : GraphError, e.OfMemory → e.OfMemory ∧ m = m := fun e he => ⟨he, rfl⟩
  unfold convertTo
  refine ensures_subject ?_
  refine ensures_guard (fun hc => absurd hc (by simp [hdef])) fun _ => ?_
  refine ensures_reserve hbad ?_
  cases target with
  | full =>
    obtain ⟨hcells, hall⟩ := hfit
    refine ensures_guard (fun hc => absurd (hlen.trans hall) (by rwa [cells, wordOf_eq hcells] at hc))
      fun _ => ?_
    refine ensures_reserve hbad ?_
    refine ensures_put ?_
    obtain ⟨hinv, hkeeps⟩ := h.relaid_full hdef hcells hall
    exact ⟨hinv, hkeeps, hdef, format_keepShared m _⟩
  | bitmap =>
    refine ensures_reserve hbad ?_
    refine ensures_reserve hbad ?_
    obtain ⟨b, x, hbx⟩ : ∃ b x, m.denseArrays m.sortedEntries = (b, x) := ⟨_, _, rfl⟩
    rw [hbx]
    refine ensures_put ?_
    obtain ⟨hinv, hkeeps⟩ := h.relaid_bitmap hdef hfit hbx
    exact ⟨hinv, hkeeps, hdef, format_keepShared m _⟩
  | sparse =>
    refine ensures_buildStorage hbad ?_
    refine ensures_reserve hbad ?_
    refine ensures_put ?_
    obtain ⟨hinv, hkeeps⟩ := h.relaid_sparse hdef (Storage.allPointers_lists hlists) hvalues
    exact ⟨hinv, hkeeps, hdef, format_keepShared m _⟩
  | hypersparse =>
    refine ensures_buildStorage hbad ?_
    refine ensures_put ?_
    obtain ⟨hinv, hkeeps⟩ := h.relaid_sparse hdef hlists hvalues
    exact ⟨hinv, hkeeps, hdef, format_keepShared m _⟩

/-- The preferred format fits. -/
theorem Inv.fits_preferred (h : m.Inv) : m.Fits m.preferredFormat := by
  have hlimit := h.denseLimit
  have hsparse : m.Fits m.sparseFormat := by
    unfold sparseFormat; split <;> trivial
  unfold preferredFormat
  dsimp only
  split
  · trivial
  · trivial
  · split
    · next hok =>
      simp only [Bool.and_eq_true, decide_eq_true_eq] at hok
      split
      · next hfull => exact ⟨by omega, hfull⟩
      · exact show m.vlen * m.vdim < UInt64.size by omega
    · exact hsparse
  · split
    · next hok =>
      simp only [Bool.and_eq_true, decide_eq_true_eq] at hok
      exact show m.vlen * m.vdim < UInt64.size by omega
    · exact hsparse
  · exact hsparse
  · split
    · next hok =>
      simp only [Bool.and_eq_true, decide_eq_true_eq, beq_iff_eq] at hok
      exact ⟨by omega, hok.2⟩
    · split
      · next hok =>
        simp only [Bool.and_eq_true, decide_eq_true_eq] at hok
        exact show m.vlen * m.vdim < UInt64.size by omega
      · exact hsparse

/-- Going over to the preferred format. -/
theorem ensures_conform (h : m.Inv) (hdef : m.deferred = false) : Ensures conform m
    (fun _ t => t.Inv ∧ m.Keeps t ∧ t.deferred = false) (fun e t => e.OfMemory ∧ t = m) := by
  unfold conform
  refine ensures_subject ?_
  refine ensures_ite (fun _ => ?_) fun _ => ensures_pure ⟨h, Keeps.refl m, hdef⟩
  exact (ensures_convertTo h hdef _ h.fits_preferred).mono
    (fun _ _ ht => ⟨ht.1, ht.2.1, ht.2.2.1⟩) fun _ _ he => he

/-! ## The shared value -/

/-- The same queue; and if all entries share a value, it is the same one. -/
structure Shares (m m' : Matrix) : Prop where
  iso : m'.iso = m.iso
  shared : m.iso = true → m'.shared = m.shared
  pending : m'.pending = m.pending

theorem Shares.refl (m : Matrix) : m.Shares m := ⟨rfl, fun _ => rfl, rfl⟩

/-- The shared value is the first one stored. -/
theorem shares_of_values (htype : m'.type = m.type) (hi : m'.iso = m.iso) (hp : m'.pending = m.pending)
    (hv : m.iso = true → m'.store.values = m.store.values) : m.Shares m' where
  iso := hi
  shared h := by rw [shared, shared, hv h, htype]
  pending := hp

theorem shares_keepShared {store : Storage}
    (h : m.iso = true → store.values.getD 0 m.shared = m.shared) :
    m.Shares { m with store := m.keepShared store } where
  iso := rfl
  shared hi := by
    have hvalues : (m.keepShared store).values = #[m.shared] := by
      rw [keepShared, if_pos hi, Storage.values_mapValues, h hi]
    change (m.keepShared store).values.getD 0 m.type.zero = m.shared
    rw [hvalues]
    rfl
  pending := rfl

/-- The dense arrays of a matrix whose entries share a value hold that value only. -/
theorem getD_denseArrays (hi : m.iso = true) (l : List IndexEntry) :
    (m.denseArrays l).2.getD 0 m.shared = m.shared := by
  rw [denseArrays]
  refine List.foldlRecOn (motive := fun s : Array Bool × Array Scalar => s.2.getD 0 m.shared = m.shared) l _ ?_
    fun s hs e _ => ?_
  · rw [sharedIfIso, if_pos hi, if_pos hi]
    rfl
  · dsimp only
    rw [if_pos hi]
    exact hs

theorem Laid.getD_sortedEntries (h : m.Laid) (hi : m.iso = true) :
    (Storage.ofEntries m.sortedEntries.toArray).values.getD 0 m.shared = m.shared :=
  getD_values (Storage.ofEntries_values (grouped_of_sorted h.sortedEntries_sorted)) fun _ he =>
    h.entry_shared (h.sortedEntries_perm.mem_iff.1 he) hi

/-- **Another format** keeps the shared value, even where there is no entry to hold it. -/
theorem Laid.ensures_convertTo_shares (h : m.Laid) (target : Format) :
    Ensures (convertTo target) m (fun _ t => m.Shares t) (fun _ t => t = m) := by
  unfold convertTo
  refine ensures_subject (ensures_guard (fun _ => rfl) fun _ => ?_)
  refine ensures_reserve (fun _ _ => rfl) ?_
  cases target with
  | full =>
    refine ensures_guard (fun _ => rfl) fun _ => ensures_reserve (fun _ _ => rfl) (ensures_put ?_)
    exact shares_keepShared fun hi => getD_denseArrays hi _
  | bitmap =>
    refine ensures_reserve (fun _ _ => rfl) (ensures_reserve (fun _ _ => rfl) (ensures_put ?_))
    exact shares_keepShared fun hi => getD_denseArrays hi _
  | sparse =>
    refine ensures_buildStorage (fun _ _ => rfl) (ensures_reserve (fun _ _ => rfl) (ensures_put ?_))
    exact shares_keepShared fun hi => h.getD_sortedEntries hi
  | hypersparse =>
    refine ensures_buildStorage (fun _ _ => rfl) (ensures_put ?_)
    exact shares_keepShared fun hi => h.getD_sortedEntries hi

theorem Laid.ensures_conform_shares (h : m.Laid) :
    Ensures conform m (fun _ t => m.Shares t) (fun _ t => t = m) := by
  unfold conform
  exact ensures_subject (ensures_ite (fun _ => h.ensures_convertTo_shares _)
    fun _ => ensures_pure (Shares.refl m))

end Matrix

end Adjacency
