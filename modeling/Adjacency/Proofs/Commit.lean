import Adjacency.Proofs.Convert

/-!
# Commits

A commit folds everything deferred into the index. What a matrix holds stays the same.

* `Matrix.committing`: the entries of the index that a commit builds.
* `Matrix.installed_spec`: an index built from sorted entries holds those entries.
* `Matrix.ensures_wait`: **a commit keeps the content, leaves nothing deferred, and can only run out of
  memory.**
-/

namespace Adjacency

open Metered

namespace Matrix

variable {m m' : Matrix}

/-- The queued tuples as entries, in the order of their writing. -/
def incoming (m : Matrix) : List IndexEntry := m.queue.map fun t => ⟨t.j, t.i, m.written t⟩

theorem valuesAt_incoming (m : Matrix) (i j : Nat) : valuesAt m.incoming j i = m.queuedAt i j := by
  rw [valuesAt, incoming, queuedAt, List.filter_map, List.map_map]
  congr 1
  exact List.filter_congr fun t _ => Bool.and_comm _ _

theorem Inv.queuedEntries_eq (h : m.Inv) {q : Pending} (hq : m.pending = some q) :
    m.queuedEntries q = .ok m.incoming := by
  have hqueue : m.queue = q.tuples.toList := by rw [queue, hq]
  have hall : ∀ t ∈ q.tuples.toList, m.queuedValue t = .ok (m.written t) := fun t ht =>
    (h.queuedValue_eq (hqueue.symm ▸ ht)).1
  rw [queuedEntries, incoming, hqueue]
  generalize q.tuples.toList = ts at hall
  induction ts with
  | nil => rfl
  | cons t ts ih =>
    rw [List.mapM_cons, hall t List.mem_cons_self, ih fun t' ht' => hall t' (List.mem_cons_of_mem _ ht')]
    rfl

/-- The index that a commit builds. -/
def committing (m : Matrix) : List IndexEntry :=
  merged m.queueOp m.type m.existing (m.combined m.queueOp m.incoming)

theorem mergePlaces_committing (m : Matrix) : mergePlaces m.queueOp m.type
    (m.existing.length + (m.combined m.queueOp m.incoming).length + 1) #[] m.existing
    (m.combined m.queueOp m.incoming) = m.committing.toArray := by
  refine Array.toList_inj.1 ?_
  rw [mergePlaces_toList (Nat.lt_succ_self _)]
  rfl

/-- Without a queue there is nothing to merge. -/
theorem nothing_incoming (hq : m.pending = none) : (DupOp.second, ([] : List IndexEntry)) =
    (m.queueOp, m.combined m.queueOp m.incoming) := by
  rw [incoming, queue, queueOp, hq]
  rfl

theorem Inv.committing_spec (h : m.Inv) (hd : m.store.dense = false) :
    IndexEntry.Sorted m.committing ∧
      ∀ e, e ∈ m.committing ↔ m.value e.i e.j = some e.value := by
  have hl := h.laid
  obtain ⟨hcs, hcv⟩ := valuesAt_combined m m.queueOp m.incoming
  have hes := hl.existing_sorted hd
  have hsorted : IndexEntry.Sorted m.committing := merged_sorted hes hcs
  refine ⟨hsorted, ?_⟩
  have hlive : ∀ i j, (valuesAt (m.existing.filterMap Existing.live) j i).head? = m.stored i j := by
    intro i j
    refine Option.ext fun v => ?_
    rw [hes.live.distinct.valuesAt_eq_some_iff, mem_filterMap_live, (hl.existing_perm hd).mem_iff,
      ← mem_filterMap_live, filterMap_existingAt]
    exact hl.mem_entries (e := ⟨j, i, v⟩)
  rintro ⟨j, i, v⟩
  rw [← hsorted.distinct.valuesAt_eq_some_iff, committing, valuesAt_merged hes hcs, hlive, hcv,
    valuesAt_incoming, value]
  by_cases hat : ∃ pos, m.At i j pos
  · obtain ⟨pos, hat⟩ := hat
    rw [h.queuedAt_of_at hat]
    cases m.stored i j <;> simp
  · rw [hl.stored_of_absent fun pos hp => hat ⟨pos, hp⟩]
    cases foldOnto (m.queueOp.apply m.type) none (m.queuedAt i j) <;> simp

/-- All entries of a uniform list have one value. -/
theorem uniform_iff {l : List IndexEntry} :
    isUniform l.toArray = true ↔ ∃ e ∈ l, ∀ e' ∈ l, e'.value = e.value := by
  cases l with
  | nil => simp [isUniform]
  | cons a l =>
    simp only [isUniform, List.getElem?_toArray, List.getElem?_cons_zero, List.all_toArray,
      List.all_eq_true, beq_iff_eq]
    constructor
    · exact fun h => ⟨a, List.mem_cons_self, h⟩
    · rintro ⟨e, he, h⟩ e' he'
      rw [h e' he', h a List.mem_cons_self]

/-- The matrix with an index of its own and nothing deferred. Of values that are all the same only one
is kept. -/
def installed (m : Matrix) (entries : Array IndexEntry) : Matrix :=
  { m with
    store := if isUniform entries then (Storage.ofEntries entries).mapValues fun x => x.take 1
      else .ofEntries entries
    iso := isUniform entries
    pending := none
    zombies := 0
    jumbled := false }

/-- **An index built from sorted entries holds those entries.** -/
theorem installed_spec {l : List IndexEntry} (hs : IndexEntry.Sorted l)
    (hb : ∀ e ∈ l, e.i < m.vlen ∧ e.j < m.vdim) (hty : ∀ e ∈ l, e.value.type = m.type) :
    (m.installed l.toArray).Laid ∧ (m.installed l.toArray).entries = l := by
  have hlists : (Storage.ofEntries l.toArray).Lists m.vlen m.vdim l :=
    Storage.ofEntries_lists (grouped_of_sorted hs) hs.distinct hb
  have hvalues := Storage.ofEntries_values (grouped_of_sorted hs)
  set m' := m.installed l.toArray with hm'
  have hl' : m'.store.Lists m'.vlen m'.vdim l := by
    change (if isUniform l.toArray then _ else _ : Storage).Lists m.vlen m.vdim l
    split
    · exact hlists.mapValues _
    · exact hlists
  have hc : m'.Carries l := by
    cases hu : isUniform l.toArray with
    | true =>
      obtain ⟨e, he, hall⟩ := uniform_iff.1 hu
      have hhead : ∃ e' ∈ l, m'.store.values = #[e'.value] := by
        have hst : m'.store = (Storage.ofEntries l.toArray).mapValues fun x => x.take 1 := if_pos hu
        rw [hst, Storage.values_mapValues]
        cases l with
        | nil => cases he
        | cons a l =>
          refine ⟨a, List.mem_cons_self, Array.toList_inj.1 ?_⟩
          rw [Array.take_eq_extract, Array.toList_extract, hvalues]
          rfl
      obtain ⟨e', he', hx⟩ := hhead
      have hi : m'.iso = true := hu
      refine ⟨by rw [hx, hi]; rfl, fun v hv => ?_, fun pos hpos => ?_⟩
      · rw [hx, List.mem_singleton] at hv
        rw [hv]; exact hty e' he'
      · rw [valueAt, if_pos hi, shared, hx, hall _ (List.getElem_mem hpos), ← hall e' he']
        rfl
    | false =>
      have hi : m'.iso = false := hu
      have hx : m'.store.values.toList = l.map IndexEntry.value := by
        have hst : m'.store = Storage.ofEntries l.toArray := if_neg (by simp [hu])
        rw [hst, hvalues]
      exact carries_of_values hi hx hty
  exact ⟨laid_of_lists hl' hc rfl fun _ => hs, entries_of_lists hl' hc⟩

theorem ensures_installSorted (m : Matrix) (entries : Array IndexEntry) :
    Ensures (installSorted entries) m
      (fun _ t => { t with pending := none, zombies := 0, jumbled := false } = m.installed entries)
      (fun e t => e.OfMemory ∧ t = m) := by
  unfold installSorted
  exact ensures_buildStorage (fun e he => ⟨he, rfl⟩) (ensures_update rfl)

/-- What a commit installs lists the entries that it builds. -/
theorem Inv.lists_installed (h : m.Inv) (hd : m.store.dense = false) :
    (m.installed m.committing.toArray).Laid ∧
      (m.installed m.committing.toArray).entries = m.committing := by
  obtain ⟨hsorted, hmem⟩ := h.committing_spec hd
  refine installed_spec hsorted (fun e he => ?_) fun e he => h.value_type ((hmem e).1 he)
  by_contra hout
  have := (hmem e).1 he
  rw [h.value_of_out hout] at this
  cases this

/-- What a commit installs holds what the matrix held. -/
theorem Inv.installed_committing (h : m.Inv) (hd : m.store.dense = false) :
    (m.installed m.committing.toArray).Inv ∧ m.Keeps (m.installed m.committing.toArray) := by
  obtain ⟨hlaid, hent⟩ := h.lists_installed hd
  refine h.of_settled ⟨rfl, rfl, rfl, rfl, rfl⟩ hlaid rfl fun i j => ?_
  refine Option.ext fun v => ?_
  have hiff := hlaid.mem_entries (e := ⟨j, i, v⟩)
  rw [hent] at hiff
  exact hiff.symm.trans ((h.committing_spec hd).2 ⟨j, i, v⟩)

/-- What a commit installs shares a value exactly if there are entries and all have the same one. -/
theorem Inv.iso_installed_iff (h : m.Inv) (hd : m.store.dense = false) :
    (m.installed m.committing.toArray).iso = true ↔
      ∃ v, (∃ i j, m.value i j = some v) ∧ ∀ i j w, m.value i j = some w → w = v := by
  have hmem := (h.committing_spec hd).2
  refine uniform_iff.trans ⟨?_, ?_⟩
  · rintro ⟨e, he, hall⟩
    exact ⟨e.value, ⟨e.i, e.j, (hmem e).1 he⟩, fun i j w hw => hall ⟨j, i, w⟩ ((hmem _).2 hw)⟩
  · rintro ⟨v, ⟨i, j, hv⟩, hall⟩
    exact ⟨⟨j, i, v⟩, (hmem _).2 hv, fun e he => hall e.i e.j e.value ((hmem e).1 he)⟩

/-- The shared value is that of every entry. -/
theorem Inv.shared_installed (h : m.Inv) (hd : m.store.dense = false)
    (hi : (m.installed m.committing.toArray).iso = true) {i j : Nat} {v : Scalar}
    (hv : m.value i j = some v) : (m.installed m.committing.toArray).shared = v := by
  obtain ⟨hinv, hkeeps⟩ := h.installed_committing hd
  have hstored : (m.installed m.committing.toArray).stored i j = some v := by
    rw [← value_of_settled rfl, hkeeps.value, hv]
  exact (hinv.laid.entry_shared (e := ⟨j, i, v⟩) (hinv.laid.mem_entries.2 hstored) hi).symm

/-- The end of a commit: the merge takes the place of slots, queue and tombstones. -/
def installing (m : Matrix) : Metered Matrix Unit := do
  reserve (m.existing.length + (m.combined m.queueOp m.incoming).length) .commitMerge
  installSorted m.committing.toArray
  update fun m => { m with pending := none, zombies := 0, jumbled := false }

/-- The commit proper of a matrix in order, without the casts that cannot fail. -/
def assembling (m : Matrix) : Metered Matrix Unit := do
  reserve m.slotCount .commitExisting
  if m.pending.isSome then reserve m.pendingCount .commitPending
  m.installing

theorem Inv.ensures_assemble_of (h : m.Inv) {good : Unit → Matrix → Prop}
    {bad : GraphError → Matrix → Prop} (hm : Ensures m.assembling m good bad) :
    Ensures assemble m good bad := by
  unfold assemble
  refine ensures_subject ?_
  rw [assembling, installing, ← mergePlaces_committing] at hm
  cases hq : m.pending with
  | none =>
    simp only [nothing_incoming hq, pure_bind]
    rw [hq] at hm
    exact hm
  | some q =>
    have hop : q.op = m.queueOp := by rw [queueOp, hq]
    have hsize : m.pendingCount = q.tuples.size := by rw [pendingCount, hq]
    rw [hq, hsize] at hm
    simp only [h.queuedEntries_eq hq, hop]
    exact hm

/-- Slots, queue and tombstones become one sorted index. -/
theorem ensures_assemble_installs (h : m.Inv) : Ensures assemble m
    (fun _ t => t = m.installed m.committing.toArray) (fun e t => e.OfMemory ∧ t = m) := by
  have hbad : ∀ e : GraphError, e.OfMemory → e.OfMemory ∧ m = m := fun e he => ⟨he, rfl⟩
  refine h.ensures_assemble_of (ensures_reserve hbad ?_)
  have hrest : Ensures m.installing m (fun _ t => t = m.installed m.committing.toArray)
      (fun e t => e.OfMemory ∧ t = m) :=
    ensures_reserve hbad ((ensures_installSorted m _).bind fun _ t ht => ensures_update ht)
  exact ensures_ite (fun _ => ensures_reserve hbad hrest) fun _ => hrest

/-- It keeps the content. -/
theorem ensures_assemble (h : m.Inv) (hd : m.store.dense = false) : Ensures assemble m
    (fun _ t => t.Inv ∧ m.Keeps t ∧ t.deferred = false) (fun e t => e.OfMemory ∧ t = m) := by
  refine (ensures_assemble_installs h).mono ?_ fun _ _ he => he
  rintro _ _ rfl
  obtain ⟨hinv, hkeeps⟩ := h.installed_committing hd
  exact ⟨hinv, hkeeps, rfl⟩

/-- **A commit** keeps the content and leaves nothing deferred. It can only run out of memory, and then
the content is kept as well. -/
theorem ensures_wait (h : m.Inv) : Ensures wait m
    (fun _ t => t.Inv ∧ m.Keeps t ∧ t.deferred = false)
    (fun e t => e.OfMemory ∧ t.Inv ∧ m.Keeps t) := by
  unfold wait
  refine ensures_subject ?_
  refine ensures_when (fun t => t.Inv ∧ m.Keeps t ∧ t.deferred = false)
    (fun hdef => (ensures_assemble h (h.sparse_of_deferred hdef)).mono (fun _ _ ht => ht) ?_)
    (fun hdef => ⟨h, Keeps.refl m, by simpa using hdef⟩) ?_
  · rintro e _ ⟨he, rfl⟩; exact ⟨he, h, Keeps.refl _⟩
  · rintro t ⟨hinv, hkeeps, hdef⟩
    refine (ensures_conform hinv hdef).andThen ?_ fun _ t' ht' => ensures_tally
      ⟨ht'.1, hkeeps.trans ht'.2.1, ht'.2.2⟩
    rintro e _ ⟨he, rfl⟩
    exact ⟨he, hinv, hkeeps⟩

end Matrix

end Adjacency
