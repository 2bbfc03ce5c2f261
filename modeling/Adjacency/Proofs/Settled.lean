import Adjacency.Proofs.Kernels

/-!
# What a commit leaves behind

* `Matrix.nonemptyVectors_eq`: every format counts its non-empty vectors right.
* `Matrix.preferredFormat_congr`: the choice of a format depends on the content alone.
* `Matrix.ensures_wait_format`: a commit ends in the format that its result would choose again.
* `Matrix.Reachable.settled_of_wait`: **what a commit leaves is its content, in order and at rest**: a second
  commit changes nothing.
-/

namespace Adjacency

open Metered

namespace Matrix

variable {m m' : Matrix}

/-! ## Vectors that have an entry -/

/-- The vectors with an entry. -/
def occupied (m : Matrix) : Finset Nat := (m.entries.map IndexEntry.j).toFinset

theorem Laid.mem_occupied (h : m.Laid) {j : Nat} :
    j ∈ m.occupied ↔ ∃ i pos, m.At i j pos ∧ m.present pos = true := by
  simp only [occupied, List.mem_toFinset, List.mem_map]
  constructor
  · rintro ⟨e, he, rfl⟩
    obtain ⟨pos, hat, hp, -⟩ := h.stored_eq_some_iff.1 (h.mem_entries.1 he)
    exact ⟨_, pos, hat, hp⟩
  · rintro ⟨i, pos, hat, hp⟩
    exact ⟨⟨j, i, m.valueAt pos⟩, h.mem_entries.2 (h.stored_eq_some_iff.2 ⟨pos, hat, hp, rfl⟩), rfl⟩

theorem countP_range_eq_card (p : Nat → Bool) (n : Nat) :
    (List.range n).countP p = ((Finset.range n).filter fun k => p k = true).card := by
  rw [← Nat.count_eq_card_filter_range, Nat.count]
  exact List.countP_congr fun k _ => by rw [decide_eq_true_eq]

/-- Without tombstones every slot is an entry. -/
theorem Laid.present_of_no_zombies (h : m.Laid) (hd : m.store.dense = false) (hz : m.zombies = 0)
    {pos : Nat} (hpos : pos < m.store.slots.size) : m.present pos = true := by
  have hdead := h.zombies hd
  rw [hz, eq_comm, List.countP_eq_zero] at hdead
  rw [present_sparse hd hpos]
  simpa using hdead pos (List.mem_range.2 hpos)

/-- In a sparse format each vector with an entry has one non-empty range. -/
theorem Laid.card_occupied_sparse (h : m.Laid) (hd : m.store.dense = false) (hz : m.zombies = 0) :
    m.occupied.card = (List.range m.store.rangeCount).countP fun k =>
      decide (m.store.start k < m.store.start (k + 1)) := by
  have hx := h.indexed hd
  have himage : m.occupied = ((Finset.range m.store.rangeCount).filter fun k =>
      decide (m.store.start k < m.store.start (k + 1)) = true).image m.store.vectorAt := by
    ext j
    rw [h.mem_occupied]
    simp only [h.at_sparse_iff hd, Finset.mem_image, Finset.mem_filter, Finset.mem_range,
      decide_eq_true_eq]
    constructor
    · rintro ⟨i, pos, ⟨k, hk, rfl, hlo, hhi, -⟩, -⟩
      exact ⟨k, ⟨hk, by omega⟩, rfl⟩
    · rintro ⟨k, ⟨hk, hlt⟩, rfl⟩
      exact ⟨_, _, ⟨k, hk, rfl, Nat.le_refl _, hlt, rfl⟩,
        h.present_of_no_zombies hd hz (hx.lt_size hk hlt)⟩
  rw [himage, Finset.card_image_of_injOn, countP_range_eq_card]
  intro a ha b hb hab
  have hak := Finset.mem_range.1 (Finset.mem_filter.1 ha).1
  have hbk := Finset.mem_range.1 (Finset.mem_filter.1 hb).1
  exact hx.ascending.injective (Nat.zero_le _) hak (Nat.zero_le _) hbk hab

/-- In a dense format each vector is a stretch of cells. -/
theorem Laid.card_occupied_dense (h : m.Laid) (hd : m.store.dense = true) :
    m.occupied.card = (List.range m.vdim).countP fun j =>
      (firstFrom m.present m.vlen (j * m.vlen)).isSome := by
  have hfilter : m.occupied = (Finset.range m.vdim).filter fun j =>
      (firstFrom m.present m.vlen (j * m.vlen)).isSome = true := by
    ext j
    rw [h.mem_occupied]
    simp only [h.at_dense_iff hd, Finset.mem_filter, Finset.mem_range, firstFrom_isSome]
    constructor
    · rintro ⟨i, pos, ⟨hi, hj, rfl⟩, hp⟩
      exact ⟨hj, _, by omega, by omega, hp⟩
    · rintro ⟨hj, pos, hge, hlt, hp⟩
      exact ⟨pos - j * m.vlen, pos, ⟨by omega, hj, by omega⟩, hp⟩
  rw [hfilter, countP_range_eq_card]

/-- In a matrix without cells there is no entry. -/
theorem Laid.occupied_of_flat (h : m.Laid) (hv : m.vlen = 0) : m.occupied = ∅ := by
  refine Finset.eq_empty_of_forall_notMem fun j hj => ?_
  obtain ⟨i, pos, hat, -⟩ := h.mem_occupied.1 hj
  have := (h.at_lt hat).1
  omega

/-- **Every format counts its non-empty vectors right**, once there are no tombstones. -/
theorem Laid.nonemptyVectors_eq (h : m.Laid) (hz : m.zombies = 0) :
    m.nonemptyVectors = m.occupied.card := by
  cases hs : m.store with
  | sparse p i x =>
    have hranges : p.toList.zip p.toList.tail = m.ranges := by rw [ranges, hs]; rfl
    have hd : m.store.dense = false := by rw [hs]; rfl
    rw [nonemptyVectors, hs, h.card_occupied_sparse hd hz]
    simp only [hranges, ranges_eq, List.countP_map]
    rfl
  | hypersparse l p i x =>
    have hd : m.store.dense = false := by rw [hs]; rfl
    have hpointed := (h.indexed hd).pointed
    rw [hs] at hpointed
    obtain ⟨hp, hstep⟩ := hpointed
    have hcount : m.store.rangeCount = l.size := by
      rw [hs]
      exact (congrArg (· - 1) hp).trans (Nat.add_sub_cancel _ _)
    rw [nonemptyVectors, hs, h.card_occupied_sparse hd hz, hcount, List.countP_eq_length.2,
      List.length_range]
    -- only vectors with a slot are listed, so each of them counts
    intro k hk
    rw [hs]
    exact decide_eq_true (hstep k (List.mem_range.1 hk))
  | bitmap b x n =>
    have hd : m.store.dense = true := by rw [hs]; rfl
    rw [nonemptyVectors, hs]
    dsimp only
    split
    case isTrue hv => rw [h.occupied_of_flat hv, Finset.card_empty]
    case isFalse hv =>
      have hpresent : m.present = (b.getD · false) := funext fun pos => by
        rw [present_dense hd, cellPresent, hs]
      have hdim : (b.size + m.vlen - 1) / m.vlen = m.vdim := by
        rw [(h.bits b x n hs).1, Nat.add_sub_assoc (by omega), Nat.mul_add_div (by omega),
          Nat.div_eq_of_lt (by omega), Nat.add_zero]
      rw [h.card_occupied_dense hd, hpresent, hdim]
  | full x =>
    have hd : m.store.dense = true := by rw [hs]; rfl
    rw [nonemptyVectors, hs]
    dsimp only
    split
    case isTrue hv => rw [h.occupied_of_flat hv, Finset.card_empty]
    case isFalse hv =>
      rw [h.card_occupied_dense hd, List.countP_eq_length.2, List.length_range]
      intro j _
      refine firstFrom_isSome.2 ⟨j * m.vlen, Nat.le_refl _, by omega, ?_⟩
      rw [present_dense hd, cellPresent, hs]

/-! ## The choice of a format -/

/-- Two matrices at rest with the same content have the same entries, in some order. -/
theorem Laid.entries_perm (h : m.Laid) (h' : m'.Laid) (hst : m'.stored = m.stored) :
    m'.entries.Perm m.entries := by
  have hnodup {t : Matrix} (ht : t.Laid) : t.entries.Nodup :=
    ht.entries_distinct.imp fun hne => by
      rintro rfl
      exact hne ⟨rfl, rfl⟩
  refine (List.perm_ext_iff_of_nodup (hnodup h') (hnodup h)).2 fun e => ?_
  rw [h'.mem_entries, h.mem_entries, hst]

/-- **The choice of a format depends on the content alone.** -/
theorem preferredFormat_congr (h : m.Inv) (h' : m'.Inv) (hk : m.Keeps m') (hdef : m.deferred = false)
    (hdef' : m'.deferred = false) : m'.preferredFormat = m.preferredFormat := by
  obtain ⟨hp, hz, -⟩ := deferred_eq_false_iff.1 hdef
  obtain ⟨hp', hz', -⟩ := deferred_eq_false_iff.1 hdef'
  have hst : m'.stored = m.stored := by
    funext i j
    rw [← value_of_settled hp', ← value_of_settled hp, hk.value]
  have hperm := h.laid.entries_perm h'.laid hst
  have hslots : m'.slotCount = m.slotCount := by
    rw [h'.laid.slotCount_eq hz', h.laid.slotCount_eq hz, hperm.length_eq]
  have hvectors : m'.nonemptyVectors = m.nonemptyVectors := by
    rw [h'.laid.nonemptyVectors_eq hz', h.laid.nonemptyVectors_eq hz, occupied, occupied,
      List.toFinset_eq_of_perm _ _ (hperm.map _)]
  have hsparse : m'.sparseFormat = m.sparseFormat := by
    rw [sparseFormat, sparseFormat, hvectors, hk.options, hk.vdim]
  rw [preferredFormat, preferredFormat, hsparse, hslots, hk.options, hk.vlen, hk.vdim]

theorem ensures_conform_format (h : m.Inv) (hdef : m.deferred = false) :
    Ensures conform m (fun _ t => t.format = t.preferredFormat) (fun _ _ => True) := by
  unfold conform
  refine ensures_subject (ensures_ite (fun _ => ?_) fun heq => ensures_pure ?_)
  · refine (ensures_convertTo h hdef _ h.fits_preferred).mono ?_ fun _ _ _ => trivial
    rintro _ t ⟨ht, hk, hdef', hformat⟩
    rw [hformat, preferredFormat_congr h ht hk hdef hdef']
  · exact (not_not.1 heq).symm

/-- **A commit ends in the format that its result would choose again.** -/
theorem ensures_wait_format (h : m.Inv) :
    Ensures wait m (fun _ t => t.format = t.preferredFormat) (fun _ _ => True) := by
  unfold wait
  refine ensures_subject ?_
  refine ensures_when (fun t => t.Inv ∧ t.deferred = false)
    (fun hdef => (ensures_assemble h (h.sparse_of_deferred hdef)).mono
      (fun _ _ ht => ⟨ht.1, ht.2.2⟩) fun _ _ _ => trivial)
    (fun hdef => ⟨h, by simpa using hdef⟩) ?_
  rintro t ⟨hinv, hdef⟩
  exact (ensures_conform_format hinv hdef).andThen (fun _ _ he => he) fun _ _ ht => ensures_tally ht

/-- A commit of a matrix at rest only counts itself. -/
theorem wait_of_settled (hdef : m.deferred = false) (hformat : m.format = m.preferredFormat)
    (n : CallCounts) : wait (m, n) = .ok () (m, n.bump .commit) := by
  have hconform : ¬m.preferredFormat ≠ m.format := fun hne => hne hformat.symm
  simp only [wait, conform, subject, tally, Bind.bind, EStateM.bind, hdef, Bool.false_eq_true, if_false,
    if_neg hconform]
  rfl

/-- What a commit of `m` leaves behind. -/
structure Settled (m t : Matrix) : Prop where
  committed : t.pending = none
  swept : t.zombies = 0
  sorted : t.jumbled = false
  /-- What is listed is what look-ups found before. -/
  lists : ∀ u, u ∈ t.tuples.toList ↔ m.extract u.row u.col = .ok (some u.value)
  /-- Vector by vector, and within a vector by index. -/
  ascending : t.tuples.toList.Pairwise fun a b =>
    Before (t.toVector a.row a.col).2 (t.toVector a.row a.col).1
      (t.toVector b.row b.col).2 (t.toVector b.row b.col).1
  format : t.format = t.preferredFormat
  /-- A second commit changes nothing. -/
  rests : ∀ n, wait (t, n) = .ok () (t, n.bump .commit)

/-- **What a commit leaves is the content, in order and at rest.** -/
theorem Reachable.settled_of_wait (h : m.Reachable) {n : CallCounts} {s : Matrix × CallCounts}
    (hs : wait (m, n) = .ok () s) : m.Settled s.1 := by
  obtain ⟨ht, hk, hdef⟩ := (ensures_wait h.inv).of_ok hs
  have hformat := (ensures_wait_format h.inv).of_ok hs
  obtain ⟨hp, hz, hj⟩ := deferred_eq_false_iff.1 hdef
  refine ⟨hp, hz, hj, fun u => ?_, ?_, hformat, wait_of_settled hdef hformat⟩
  · rw [ht.mem_tuples hp, hk.cell, h.inv.extract_eq_some_iff]
  · rw [ht.laid.tuples_eq]
    refine List.pairwise_map.2 ((ht.laid.entries_sorted hj).imp fun hab => ?_)
    simp only [tupleOf, toVector_toCell]
    exact hab

/-- Two writes that are still queued, in descending order of their places. -/
theorem settled_queued_writes : ∃ (m : Matrix) (s : Matrix × CallCounts), m.deferred = true ∧
    wait (m, {}) = .ok () s ∧ m.Settled s.1 := by
  have hlimit : ({} : MatrixOptions).maxDenseCells < UInt64.size := by decide
  have hnew : Reachable (blank .int64 2 3 true {}) :=
    .created hlimit (show withOptions .int64 2 3 {} = .ok _ from rfl)
  have h₁ : Reachable (waiting (.int64 2) 2 3 #[⟨1, 1, none⟩]) :=
    hnew.requested (r := .set (.int64 2) 1 1) (a := .done) (n := {}) (s := (_, {})) trivial rfl
  have h₂ : Reachable (waiting (.int64 2) 2 3 #[⟨1, 1, none⟩, ⟨2, 0, none⟩]) :=
    h₁.requested (r := .set (.int64 2) 0 2) (a := .done) (n := {}) (s := (_, {})) trivial rfl
  have hok : succeeds wait (waiting (.int64 2) 2 3 #[⟨1, 1, none⟩, ⟨2, 0, none⟩], {}) = true := by
    decide +kernel
  obtain ⟨_, s, hs⟩ := exists_ok hok
  exact ⟨_, s, rfl, hs, h₂.settled_of_wait hs⟩

end Matrix

end Adjacency
