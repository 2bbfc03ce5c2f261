import Adjacency.Proofs.Commit

/-!
# What a commit asks memory for

A commit asks for as many elements as there are slots and queued tuples, for a pointer to every vector, or
for the cells of a dense format. Unless one of these numbers reaches the limit of a reservation, it has
memory enough.

* `Matrix.Vast`: one of these numbers reaches the limit.
* `Matrix.Stranded`: there is no memory for the format that a committed matrix prefers.
* `Matrix.Inv.ensures_conform_stranded`: only such a matrix runs out of memory on the way to its format.
* `Matrix.Inv.ensures_wait_vast`: **only a vast matrix runs out of memory in a commit.**
-/

namespace Adjacency

open Metered

theorem GraphError.not_ofMemory_contractViolation (v : Contract) :
    ¬(GraphError.contractViolation v).OfMemory := by
  rintro ⟨_, hsite⟩
  cases hsite

/-! ## How much there is to install -/

theorem size_combineRuns_le (op : DupOp) (ty : ScalarType) (acc : Array IndexEntry) (e : IndexEntry) :
    (combineRuns op ty acc e).size ≤ acc.size + 1 := by
  unfold combineRuns
  cases acc.back? with
  | none => rw [Array.size_push]
  | some last =>
    dsimp only
    split
    · rw [Array.size_push, Array.size_pop]
      omega
    · rw [Array.size_push]

theorem size_foldl_combineRuns_le (op : DupOp) (ty : ScalarType) (l : List IndexEntry)
    (acc : Array IndexEntry) : (l.foldl (combineRuns op ty) acc).size ≤ acc.size + l.length := by
  induction l generalizing acc with
  | nil => exact Nat.le_refl _
  | cons e l ih =>
    have := size_combineRuns_le op ty acc e
    have := ih (combineRuns op ty acc e)
    rw [List.foldl_cons, List.length_cons]
    omega

/-- A merge has at most one entry for each that goes in. -/
theorem length_merged_le (op : DupOp) (ty : ScalarType) (as : List Existing) (bs : List IndexEntry) :
    (merged op ty as bs).length ≤ as.length + bs.length := by
  have hlive : ∀ a : Existing, a.live.toList.length ≤ 1 := fun a => by
    cases a.live <;> simp
  fun_induction merged op ty as bs with
  | case1 bs => simp
  | case2 a as => exact List.length_filterMap_le _ _
  | case3 a as b bs hlt ih =>
    have := hlive a
    simp only [List.length_append, List.length_cons] at ih ⊢
    omega
  | case4 a as b bs hle hlt ih =>
    simp only [List.length_cons] at ih ⊢
    omega
  | case5 a as b bs hle hle' ih =>
    simp only [List.length_cons]
    omega

namespace Matrix

/-- There are no more runs than entries. -/
theorem countVectors_le (entries : Array IndexEntry) : countVectors entries ≤ entries.size := by
  unfold countVectors
  refine Array.foldl_induction (motive := fun i (s : Nat × Option Nat) => s.1 ≤ i) (Nat.le_refl 0) ?_
  intro i s hs
  dsimp only
  split <;> dsimp only <;> omega

variable {m : Matrix}

theorem length_combined_le (m : Matrix) (op : DupOp) (l : List IndexEntry) :
    (m.combined op l).length ≤ l.length := by
  have := size_foldl_combineRuns_le op m.type (stableSort (fun a b => placeLe a.j a.i b.j b.i) l) #[]
  rw [stableSort_eq_mergeSort, List.length_mergeSort, ← stableSort_eq_mergeSort] at this
  simpa [combined] using this

theorem length_incoming (m : Matrix) : m.incoming.length = m.pendingCount := by
  rw [incoming, List.length_map, queue, pendingCount]
  cases m.pending with
  | none => rfl
  | some q => exact Array.length_toList

theorem slotCount_sparse (hd : m.store.dense = false) : m.slotCount = m.store.slots.size := by
  unfold slotCount
  cases hs : m.store with
  | full x => rw [hs] at hd; cases hd
  | bitmap b x n => rw [hs] at hd; cases hd
  | sparse p i x => rfl
  | hypersparse l p i x => rfl

theorem Laid.length_existing (h : m.Laid) (hd : m.store.dense = false) :
    m.existing.length = m.slotCount := by
  rw [(h.existing_perm hd).length_eq, List.length_map, List.length_range, extent_sparse hd,
    slotCount_sparse hd]

theorem Laid.length_committing_le (h : m.Laid) (hd : m.store.dense = false) :
    m.committing.length ≤ m.slotCount + m.pendingCount := by
  have := length_merged_le m.queueOp m.type m.existing (m.combined m.queueOp m.incoming)
  have := length_combined_le m m.queueOp m.incoming
  rw [h.length_existing hd] at *
  rw [length_incoming] at this
  rw [committing]
  omega

/-- Something that a commit may ask memory for reaches the limit of a reservation: its entries, its
vectors, or the cells of a dense format. -/
def Vast (m : Matrix) : Prop :=
  reservationLimit ≤ m.slotCount + m.pendingCount + 1 ∨ reservationLimit ≤ m.vdim + 1 ∨
    reservationLimit ≤ m.options.maxDenseCells

/-- Memory for an index is refused only for too many vectors or entries. -/
theorem ensures_buildStorage_large {σ α : Type} {s : σ} {vectors : Nat} {entries : Array IndexEntry}
    {k : Storage → Metered σ α} {good : α → σ → Prop} {bad : GraphError → σ → Prop}
    (hbad : reservationLimit ≤ vectors + 1 ∨ reservationLimit ≤ entries.size → ∀ e, bad e s)
    (h : Ensures (k (.ofEntries entries)) s good bad) :
    Ensures (buildStorage vectors entries >>= k) s good bad := by
  simp only [buildStorage, bind_assoc, pure_bind]
  refine ensures_reserve_large (fun hn => hbad (by omega) _) ?_
  refine ensures_reserve_large (fun hn => hbad (by omega) _) ?_
  refine ensures_reserve_large (fun hn => hbad (by omega) _) ?_
  exact ensures_reserve_large (fun hn => hbad (by omega) _) h

theorem ensures_buildStorage_vast {σ α : Type} {s : σ} {entries : Array IndexEntry}
    {k : Storage → Metered σ α} {good : α → σ → Prop} {bad : GraphError → σ → Prop}
    (hbad : reservationLimit ≤ entries.size + 1 → ∀ e, bad e s)
    (h : Ensures (k (.ofEntries entries)) s good bad) :
    Ensures (buildStorage (countVectors entries) entries >>= k) s good bad := by
  have hle := countVectors_le entries
  exact ensures_buildStorage_large (fun hn => hbad (by omega)) h

/-- A dense format has no more cells than the options allow. -/
theorem cells_le_of_preferred (m : Matrix) (hf : m.preferredFormat = .full ∨ m.preferredFormat = .bitmap) :
    m.cells ≤ m.options.maxDenseCells := by
  refine Nat.le_trans (Nat.mod_le _ _) ?_
  have hsparse : ¬(m.sparseFormat = .full ∨ m.sparseFormat = .bitmap) := by
    unfold sparseFormat
    split <;> simp
  -- each way to a dense format asks for the bound, and the other ways lead to a sparse one
  unfold preferredFormat at hf
  dsimp only at hf
  split at hf
  · simp at hf
  · simp at hf
  · split at hf
    · next hok => simp only [Bool.and_eq_true, decide_eq_true_eq] at hok; exact hok.2
    · exact absurd hf hsparse
  · split at hf
    · next hok => simp only [Bool.and_eq_true, decide_eq_true_eq] at hok; exact hok.2
    · exact absurd hf hsparse
  · exact absurd hf hsparse
  · split at hf
    · next hok => simp only [Bool.and_eq_true, decide_eq_true_eq] at hok; exact hok.1.2
    · split at hf
      · next hok => simp only [Bool.and_eq_true, decide_eq_true_eq] at hok; exact hok.1.1.2
      · exact absurd hf hsparse

/-- There is no memory for the format that a committed matrix prefers. -/
structure Stranded (m : Matrix) : Prop where
  committed : m.deferred = false
  format : m.format ≠ m.preferredFormat
  vast : m.Vast

theorem Inv.ensures_convertTo_vast (h : m.Inv) (hdef : m.deferred = false) :
    Ensures (convertTo m.preferredFormat) m (fun _ _ => True) (fun e _ => e.OfMemory → m.Vast) := by
  have hz := (deferred_eq_false_iff.1 hdef).2.1
  have hlen : m.sortedEntries.toArray.size = m.slotCount := by
    rw [List.size_toArray, h.laid.slotCount_eq hz, h.laid.sortedEntries_perm.length_eq]
  have hmany : reservationLimit ≤ m.sortedEntries.toArray.size + 1 →
      ∀ e : GraphError, e.OfMemory → m.Vast := fun hn _ _ => .inl (by rw [hlen] at hn; omega)
  have hdense : ∀ {e : GraphError}, m.preferredFormat = .full ∨ m.preferredFormat = .bitmap →
      reservationLimit ≤ m.cells → e.OfMemory → m.Vast := fun hf hn _ =>
    .inr (.inr (Nat.le_trans hn (m.cells_le_of_preferred hf)))
  have hcells : ∀ {e : GraphError}, m.preferredFormat = .full ∨ m.preferredFormat = .bitmap →
      reservationLimit ≤ (if m.iso then 1 else m.cells) → e.OfMemory → m.Vast := by
    intro e hf hn
    split at hn
    · exact absurd hn (by decide)
    · exact hdense hf hn
  unfold convertTo
  refine ensures_subject (ensures_guard
    (fun _ he => absurd he (GraphError.not_ofMemory_contractViolation _)) fun _ => ?_)
  refine ensures_reserve_large (fun hn _ => .inl (by omega)) ?_
  cases hf : m.preferredFormat with
  | full =>
    refine ensures_guard (fun _ he => absurd he (GraphError.not_ofMemory_contractViolation _)) fun _ => ?_
    exact ensures_reserve_large (hcells (.inl hf)) (ensures_put trivial)
  | bitmap =>
    refine ensures_reserve_large (hcells (.inr hf)) ?_
    exact ensures_reserve_large (hdense (.inr hf)) (ensures_put trivial)
  | sparse =>
    -- the pointers are asked for last, on top of the arrays of the hypersparse format
    refine ensures_buildStorage_vast hmany ?_
    exact ensures_reserve_large (fun hn _ => .inr (.inl hn)) (ensures_put trivial)
  | hypersparse => exact ensures_buildStorage_vast hmany (ensures_put trivial)

/-- **On the way to its format only a vast matrix runs out of memory.** -/
theorem Inv.ensures_conform_stranded (h : m.Inv) (hdef : m.deferred = false) :
    Ensures conform m (fun _ _ => True) (fun e _ => e.OfMemory → m.Stranded) := by
  unfold conform
  refine ensures_subject (ensures_ite (fun hne => ?_) fun _ => ensures_pure trivial)
  exact (h.ensures_convertTo_vast hdef).mono (fun _ _ _ => trivial)
    fun _ _ he hm => ⟨hdef, hne.symm, he hm⟩

theorem Inv.ensures_assemble_vast (h : m.Inv) (hd : m.store.dense = false) :
    Ensures assemble m (fun _ _ => True) (fun e _ => e.OfMemory → m.Vast) := by
  have hexisting := h.laid.length_existing hd
  have hincoming := length_combined_le m m.queueOp m.incoming
  have hcommitting := h.laid.length_committing_le hd
  rw [length_incoming] at hincoming
  refine h.ensures_assemble_of (ensures_reserve_large (fun hn _ => .inl (by omega)) ?_)
  have hrest : Ensures m.installing m (fun _ _ => True) (fun e _ => e.OfMemory → m.Vast) := by
    unfold installing
    refine ensures_reserve_large (fun hn _ => .inl (by omega)) ?_
    simp only [installSorted, bind_assoc]
    refine ensures_buildStorage_vast (fun hn _ _ => .inl ?_) (ensures_update_then (ensures_update trivial))
    rw [List.size_toArray] at hn
    omega
  exact ensures_ite (fun _ => ensures_reserve_large (fun hn _ => .inl (by omega)) hrest) fun _ => hrest

/-- What a commit installs is vast only if the matrix was. -/
theorem Inv.vast_of_installed (h : m.Inv) (hd : m.store.dense = false)
    (hv : (m.installed m.committing.toArray).Vast) : m.Vast := by
  obtain ⟨hinv, -⟩ := h.installed_committing hd
  have hslots : (m.installed m.committing.toArray).slotCount = m.committing.length := by
    rw [hinv.laid.slotCount_eq rfl, (h.lists_installed hd).2]
  have hpending : (m.installed m.committing.toArray).pendingCount = 0 := rfl
  have hle := h.laid.length_committing_le hd
  obtain hmany | hrest := hv
  · rw [hslots, hpending] at hmany
    exact .inl (by omega)
  · exact .inr hrest

/-- **Only a vast matrix runs out of memory in a commit.** -/
theorem Inv.ensures_wait_vast (h : m.Inv) :
    Ensures wait m (fun _ _ => True) (fun e _ => e.OfMemory → m.Vast) := by
  unfold wait
  refine ensures_subject (ensures_when (fun t => t.Inv ∧ t.deferred = false ∧ (t.Vast → m.Vast))
    (fun hdef => ?_) (fun hdef => ⟨h, by simpa using hdef, id⟩) ?_)
  · have hd := h.sparse_of_deferred hdef
    refine ((ensures_assemble_installs h).and (h.ensures_assemble_vast hd)).mono ?_ fun _ _ he => he.2
    rintro _ _ ⟨rfl, -⟩
    exact ⟨(h.installed_committing hd).1, rfl, h.vast_of_installed hd⟩
  · rintro t ⟨ht, hdef, hvast⟩
    exact (ht.ensures_conform_stranded hdef).andThen (fun _ _ he hm => hvast (he hm).vast)
      fun _ _ _ => ensures_tally trivial

end Matrix

end Adjacency
