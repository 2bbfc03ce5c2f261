import Adjacency.Proofs.Kernels
import Adjacency.Proofs.Ready

/-!
# One value for all entries

Entries that share a value take the memory of one. A commit that rebuilds the index finds out whether they
do; a write finds out whether they still do.

* `Matrix.flushed`: what a commit hands over to the choice of a format.
* `Reachable.iso_of_wait`: **a commit with something to commit tells uniform content from other content.** A
  commit with nothing to commit leaves the matrix as iso as it was, which may be out of step either way.
* `Matrix.Repeats`: writes of one value, with calls between them that change no entry.
* `Repeats.takes_one_value`: **such writes take the memory of one value**, and the first other value gives
  every entry its own again.
-/

namespace Adjacency

open Metered

namespace Matrix

variable {m t : Matrix} {v w : Scalar} {cells : List (Nat × Nat)} {row col : Nat}

/-! ## What a commit finds out -/

/-- What a commit hands over to the choice of a format. -/
def flushed (m : Matrix) : Matrix := if m.deferred then m.installed m.committing.toArray else m

theorem Inv.flushed (h : m.Inv) : m.flushed.Inv ∧ m.Keeps m.flushed := by
  unfold Matrix.flushed
  split
  · next hdef => exact h.installed_committing (h.sparse_of_deferred hdef)
  · exact ⟨h, Keeps.refl m⟩

/-- **A commit** is the flushed matrix in another format; if it fails, the format is the old one. -/
theorem ensures_wait_flushed (h : m.Inv) :
    Ensures wait m (fun _ t => m.flushed.Shares t) (fun _ t => t = m ∨ t = m.flushed) := by
  unfold wait
  refine ensures_subject (ensures_when (fun t => t = m.flushed) (fun hdef => ?_)
    (fun hdef => (if_neg hdef).symm) ?_)
  · refine (ensures_assemble_installs h).mono ?_ ?_
    · rintro _ _ rfl
      exact (if_pos hdef).symm
    · rintro _ _ ⟨-, rfl⟩
      exact .inl rfl
  · rintro _ rfl
    refine h.flushed.1.laid.ensures_conform_shares.andThen ?_ fun _ _ ht => ensures_tally ht
    rintro _ _ rfl
    exact .inr rfl

/-- There are entries, and all have the same value. -/
def Uniform (m : Matrix) : Prop :=
  ∃ v, (∃ row col, m.extract row col = .ok (some v)) ∧
    ∀ row col w, m.extract row col = .ok (some w) → w = v

theorem Inv.uniform_iff (h : m.Inv) :
    m.Uniform ↔ ∃ v, (∃ i j, m.value i j = some v) ∧ ∀ i j w, m.value i j = some w → w = v := by
  have hcell : ∀ i j, m.cell (m.toCell i j).1 (m.toCell i j).2 = m.value i j := fun i j => by
    rw [cell, toVector_toCell]
  refine exists_congr fun v => and_congr ?_ ⟨fun hall i j w hw => ?_, fun hall row col w hw => ?_⟩
  · constructor
    · rintro ⟨row, col, hv⟩
      exact ⟨_, _, h.extract_eq_some_iff.1 hv⟩
    · rintro ⟨i, j, hv⟩
      exact ⟨_, _, h.extract_eq_some_iff.2 ((hcell i j).trans hv)⟩
  · exact hall _ _ w (h.extract_eq_some_iff.2 ((hcell i j).trans hw))
  · exact hall _ _ w (h.extract_eq_some_iff.1 hw)

theorem Keeps.uniform_iff (hk : m.Keeps t) (h : m.Inv) (ht : t.Inv) : t.Uniform ↔ m.Uniform := by
  rw [h.uniform_iff, ht.uniform_iff, hk.value]

/-- In a matrix with nothing queued every entry has the shared value. -/
theorem Inv.eq_shared (h : m.Inv) (hp : m.pending = none) (hi : m.iso = true)
    (hv : m.extract row col = .ok (some v)) : v = m.shared := by
  have hcell := h.extract_eq_some_iff.1 hv
  rw [cell, value_of_settled hp] at hcell
  exact h.laid.entry_shared (e := ⟨_, _, v⟩) (h.laid.mem_entries.2 hcell) hi

/-- **A commit that has something to commit leaves the matrix iso exactly if there are entries and all have
the same value.** One that has nothing to commit leaves it as iso as it was. An iso matrix holds one value
in either case, and it is that of every entry. -/
theorem Reachable.iso_of_wait (h : m.Reachable) {n : CallCounts} {s : Matrix × CallCounts}
    (hs : wait (m, n) = .ok () s) :
    (m.deferred = true → (s.1.iso = true ↔ s.1.Uniform)) ∧ (m.deferred = false → s.1.iso = m.iso) ∧
    (s.1.iso = true → s.1.store.values.size = 1 ∧
      ∀ row col v, s.1.extract row col = .ok (some v) → v = s.1.shared) := by
  obtain ⟨ht, hk, hdef⟩ := (ensures_wait h.inv).of_ok hs
  have hshares := (ensures_wait_flushed h.inv).of_ok hs
  refine ⟨fun hm => ?_, fun hm => ?_, fun hi => ⟨?_, fun row col v hv => ?_⟩⟩
  · have hinstalled : m.flushed = m.installed m.committing.toArray := if_pos hm
    rw [hk.uniform_iff h.inv ht, h.inv.uniform_iff, hshares.iso, hinstalled]
    exact h.inv.iso_installed_iff (h.inv.sparse_of_deferred hm)
  · have hsame : m.flushed = m := if_neg (by simp [hm])
    rw [hshares.iso, hsame]
  · rw [ht.laid.values, if_pos hi]
  · exact ht.eq_shared (deferred_eq_false_iff.1 hdef).1 hi hv

/-- Two writes that are still queued. -/
theorem iso_of_queued_writes : ∃ (m : Matrix) (s : Matrix × CallCounts), m.deferred = true ∧
    wait (m, {}) = .ok () s ∧ (s.1.iso = true ↔ s.1.Uniform) := by
  have hnew : Reachable (blank .int64 2 3 true {}) :=
    .created (by decide) (show withOptions .int64 2 3 {} = .ok _ from rfl)
  have h₁ : Reachable (waiting (.int64 2) 2 3 #[⟨1, 1, none⟩]) :=
    hnew.requested (r := .set (.int64 2) 1 1) (a := .done) (n := {}) (s := (_, {})) trivial rfl
  have h₂ : Reachable (waiting (.int64 2) 2 3 #[⟨1, 1, none⟩, ⟨2, 0, none⟩]) :=
    h₁.requested (r := .set (.int64 2) 0 2) (a := .done) (n := {}) (s := (_, {})) trivial rfl
  have hok : succeeds wait (waiting (.int64 2) 2 3 #[⟨1, 1, none⟩, ⟨2, 0, none⟩], {}) = true := by
    decide +kernel
  obtain ⟨_, s, hs⟩ := exists_ok hok
  exact ⟨_, s, rfl, hs, (h₂.iso_of_wait hs).1 rfl⟩

/-- A row of two ones, each stored for itself. -/
def twoOnes : Matrix :=
  { type := .int64, nrows := 1, ncols := 2, store := .full #[.int64 1, .int64 1] }

/-- A row of two cells without entries, under the value that its entries shared. -/
def vacated : Matrix :=
  { type := .int64, nrows := 1, ncols := 2, store := .bitmap #[false, false] #[.int64 1] 0, iso := true }

theorem twoOnes_reachable : twoOnes.Reachable := by
  have hbuilt : (outcome (ofTuples .int64 1 2 true [⟨0, 0, .int64 1⟩, ⟨0, 1, .int64 2⟩] .second {}
      (((), {}) : Unit × CallCounts))).1.toOption =
        some { twoOnes with store := .full #[.int64 1, .int64 2] } := by
    decide +kernel
  have hnew := Reachable.built (by decide) (eq_ok_of_outcome hbuilt)
  exact hnew.requested (r := .set (.int64 1) 0 1) (a := .done) (n := {}) (s := (_, {})) trivial rfl

theorem vacated_reachable : vacated.Reachable := by
  have hbuilt : (outcome (ofTuples .int64 1 2 true [⟨0, 0, .int64 1⟩, ⟨0, 1, .int64 1⟩] .second {}
      (((), {}) : Unit × CallCounts))).1.toOption =
        some { vacated with store := .full #[.int64 1] } := by
    decide +kernel
  have hnew := Reachable.built (by decide) (eq_ok_of_outcome hbuilt)
  have hhalf : Reachable { vacated with store := .bitmap #[false, true] #[.int64 1] 1 } :=
    hnew.requested (r := .remove 0 0) (a := .removed true) (n := {}) (s := (_, {})) trivial rfl
  exact hhalf.requested (r := .remove 0 1) (a := .removed true) (n := {}) (s := (_, {})) trivial rfl

/-- **A commit with nothing to commit does not look at the values.** A row that has come to hold two ones
stays as it was, and so does one that has been emptied. -/
theorem exists_iso_out_of_step :
    (∃ (m : Matrix) (s : Matrix × CallCounts), m.Reachable ∧ wait (m, {}) = .ok () s ∧ s.1.Uniform ∧
      s.1.iso = false) ∧
    ∃ (m : Matrix) (s : Matrix × CallCounts), m.Reachable ∧ wait (m, {}) = .ok () s ∧ ¬s.1.Uniform ∧
      s.1.iso = true := by
  constructor
  · refine ⟨twoOnes, (twoOnes, { commit := 1 }), twoOnes_reachable, rfl, ⟨.int64 1, ⟨0, 0, rfl⟩, ?_⟩, rfl⟩
    intro row col w hw
    obtain ⟨hr, hc⟩ := twoOnes_reachable.inv.lt_of_cell (twoOnes_reachable.inv.extract_eq_some_iff.1 hw)
    change row < 1 at hr
    change col < 2 at hc
    interval_cases row
    interval_cases col <;> cases hw <;> rfl
  · have hok : succeeds wait (vacated, {}) = true := by decide +kernel
    obtain ⟨_, s, hs⟩ := exists_ok hok
    have hinv := vacated_reachable.inv
    obtain ⟨ht, hk, -⟩ := (ensures_wait hinv).of_ok hs
    refine ⟨vacated, s, vacated_reachable, hs, fun huniform => ?_,
      ((ensures_wait_flushed hinv).of_ok hs).iso.trans rfl⟩
    obtain ⟨v, ⟨row, col, hv⟩, -⟩ := (hk.uniform_iff hinv ht).1 huniform
    obtain ⟨hr, hc⟩ := hinv.lt_of_cell (hinv.extract_eq_some_iff.1 hv)
    change row < 1 at hr
    change col < 2 at hc
    interval_cases row
    interval_cases col <;> cases hv

/-! ## Writes -/

/-- All entries share the value `v`, be there any or not. -/
structure Sharing (m : Matrix) (v : Scalar) : Prop where
  iso : m.iso = true
  shared : m.shared = v

theorem Sharing.of_shares (h : m.Sharing v) (hs : m.Shares t) : t.Sharing v :=
  ⟨hs.iso.trans h.iso, (hs.shared h.iso).trans h.shared⟩

/-- Once there is room, a write changes neither whether the entries share a value nor that value, and the
queue takes it if it is empty. -/
theorem ensures_tryWrite_room {raw : Scalar} {i j : Nat} {op : DupOp} {room : Matrix → Prop}
    {bad : GraphError → Matrix → Prop}
    (hroom : Ensures (prepareWrite v op) m (fun _ t => room t) bad) :
    Ensures (tryWrite raw v i j op) m (fun done t => ∃ s, room s ∧ t.iso = s.iso ∧
      (s.iso = true → t.shared = s.shared) ∧ (done = none → s.pending ≠ none)) bad := by
  unfold tryWrite
  refine hroom.bind fun _ s hs => ensures_subject ?_
  have hwritten : ∀ {t : Matrix} {done : SetOutcome}, s.Shares t → ∃ s, room s ∧ t.iso = s.iso ∧
      (s.iso = true → t.shared = s.shared) ∧ (some done = none → s.pending ≠ none) :=
    fun ht => ⟨s, hs, ht.iso, ht.shared, fun hc => by cases hc⟩
  cases s.locate i j with
  | cell pos => exact ensures_update_then (ensures_pure (hwritten (shares_writeCell s pos v op)))
  | live pos => exact ensures_update_then (ensures_pure (hwritten (shares_writeLive s pos v op)))
  | zombie pos => exact ensures_update_then (ensures_pure (hwritten (shares_revive s pos i v)))
  | absent =>
    refine ensures_ite (fun _ => ?_) fun hq => ensures_pure ⟨s, hs, rfl, fun _ => rfl, fun _ hp => hq ?_⟩
    · exact ensures_update_then (ensures_subject (ensures_pure
        ⟨s, hs, rfl, fun _ => rfl, fun hc => by cases hc⟩))
    · rw [queueAccepts, hp]

/-- The value that all entries share is written without further ado. -/
theorem Sharing.ensures_prepareWrite (h : m.Sharing v) :
    Ensures (prepareWrite v .second) m (fun _ t => t.Sharing v) (fun _ _ => True) := by
  unfold prepareWrite
  refine ensures_update_then ?_
  have hs := h.of_shares (shares_ordered m)
  generalize (if m.jumbled then m.unjumbled else m) = s at hs
  refine ensures_subject (ensures_ite (fun _ => ?_) fun hi => absurd hs.iso hi)
  rw [if_neg fun hc => hc.elim (fun hop => hop rfl) fun hne => hne hs.shared]
  exact ensures_pure hs

/-- **Another value** ends the sharing; what is queued without a value has been committed before. -/
theorem Sharing.ensures_prepareWrite_other (h : m.Sharing v) (hinv : m.Inv) (hne : w ≠ v) (op : DupOp) :
    Ensures (prepareWrite w op) m (fun _ t => t.iso = false ∧ t.pending = none) (fun _ _ => True) := by
  unfold prepareWrite
  refine ensures_update_then ?_
  have hs := h.of_shares (shares_ordered m)
  have hsinv := hinv.ordered.1
  generalize (if m.jumbled then m.unjumbled else m) = s at hs hsinv
  refine ensures_subject (ensures_ite (fun _ => ?_) fun hi => absurd hs.iso hi)
  rw [if_pos (.inr fun hc => hne (hc.symm.trans hs.shared))]
  refine ensures_when (fun t => t.pending = none) (fun _ => ?_) (fun hp => by simpa using hp) fun t ht => ?_
  · exact (ensures_wait hsinv).mono (fun _ _ ht => (deferred_eq_false_iff.1 ht.2.2).1) fun _ _ _ => trivial
  · unfold expandIso
    refine ensures_subject (ensures_ite (fun _ => ?_) fun hi => ensures_pure ⟨by simpa using hi, ht⟩)
    exact ensures_reserve (fun _ _ => trivial) (ensures_put ⟨rfl, ht⟩)

/-- **The first value** of an empty matrix at rest becomes the one that all entries share. -/
theorem Inv.ensures_prepareWrite_first (h : m.Inv) (hi : m.iso = false) (hdef : m.deferred = false)
    (hnone : ∀ i j, m.value i j = none) {i j : Nat} (hlen : i < m.vlen) (hdim : j < m.vdim) :
    Ensures (prepareWrite v .second) m (fun _ t => t.Sharing v) (fun _ _ => True) := by
  obtain ⟨hp, hz, hj⟩ := deferred_eq_false_iff.1 hdef
  have hslots : m.slotCount = 0 := by
    rw [h.laid.slotCount_eq hz, List.length_eq_zero_iff, List.eq_nil_iff_forall_not_mem]
    intro e he
    have hstored := h.laid.mem_entries.1 he
    rw [← value_of_settled hp, hnone] at hstored
    cases hstored
  -- a full matrix would have an entry in the cell to be written
  have hfull : m.format ≠ .full := by
    intro hf
    cases hst : m.store with
    | full x =>
      have hd : m.store.dense = true := by rw [hst]; rfl
      have hvalue := hnone i j
      have hat : m.At i j (i + j * m.vlen) := (h.laid.at_dense_iff hd).2 ⟨hlen, hdim, rfl⟩
      rw [value_of_settled hp, h.laid.stored_of_at hat, present_dense hd, cellPresent, hst] at hvalue
      cases hvalue
    | bitmap b x n => rw [format, hst] at hf; cases hf
    | sparse p i x => rw [format, hst] at hf; cases hf
    | hypersparse l p i x => rw [format, hst] at hf; cases hf
  unfold prepareWrite
  refine ensures_update_then ?_
  rw [if_neg (by simp [hj])]
  refine ensures_subject (ensures_ite (fun hc => absurd hc (by simp [hi])) fun _ => ?_)
  rw [if_pos ⟨hslots, hfull, by rw [hp]; rfl⟩]
  refine ensures_put ⟨rfl, ?_⟩
  change (m.store.mapValues fun _ => #[v]).values.getD 0 m.type.zero = v
  rw [Storage.values_mapValues]
  rfl

/-! ## Calls that change the store only -/

/-- The same matrix with another store. -/
def Rehoused (m t : Matrix) : Prop := t = { m with store := t.store }

theorem leaves_convertTo_rehoused (target : Format) : Leaves (convertTo target) m m.Rehoused :=
  leaves_convertTo_of target rfl fun _ _ => rfl

theorem Rehoused.deferred (h : m.Rehoused t) : t.deferred = m.deferred := by rw [h]; rfl

/-- Growth of a matrix at rest leaves it at rest. -/
theorem Inv.ensures_resize_rests (h : m.Inv) (hdef : m.deferred = false) (nrows ncols : Nat) :
    Ensures (resize nrows ncols) m (fun _ t => t.deferred = false) (fun _ _ => True) := by
  unfold resize
  refine ensures_subject (ensures_guard (fun _ => trivial) fun _ => ?_)
  refine ensures_guard (fun _ => trivial) fun _ => ensures_ite (fun _ => ?_) fun _ => ensures_pure hdef
  refine (ensures_wait h).andThen (fun _ _ _ => trivial) ?_
  rintro _ s ⟨-, -, hs⟩
  refine ensures_subject (ensures_when (fun t => t.deferred = false) (fun _ => ?_) (fun _ => hs) ?_)
  · exact Ensures.mono (leaves_convertTo_rehoused .hypersparse) (fun _ _ ht => ht.deferred.trans hs)
      fun _ _ _ => trivial
  intro t ht
  refine (ensures_extendPointers t _).andThen (fun _ _ _ => trivial) ?_
  rintro _ _ rfl
  refine ensures_update_then ?_
  unfold conform
  refine ensures_subject (ensures_ite (fun _ => ?_) fun _ => ensures_pure ht)
  exact Ensures.mono (leaves_convertTo_rehoused _) (fun _ _ hu => hu.deferred.trans ht)
    fun _ _ _ => trivial

/-! ## Writes of one value only -/

/-- The entries are those in `cells`, all with the value `v`; once there is one, they share it. -/
structure Alike (m : Matrix) (v : Scalar) (cells : List (Nat × Nat)) : Prop where
  inv : m.Inv
  cell : ∀ row col w, m.cell row col = some w ↔ (row, col) ∈ cells ∧ w = v
  blank : cells = [] → m.iso = false ∧ m.deferred = false
  sharing : cells ≠ [] → m.Sharing v

theorem alike_of_empty (hinv : m.Inv) (hnone : ∀ i j, m.value i j = none) (hi : m.iso = false)
    (hdef : m.deferred = false) (v : Scalar) : m.Alike v [] where
  inv := hinv
  cell row col w := by
    rw [Matrix.cell, hnone]
    simp
  blank _ := ⟨hi, hdef⟩
  sharing h := absurd rfl h

theorem Alike.value_eq (h : m.Alike v cells) {i j : Nat} (hw : m.value i j = some w) : w = v := by
  refine ((h.cell (m.toCell i j).1 (m.toCell i j).2 w).1 ?_).2
  rw [Matrix.cell, toVector_toCell]
  exact hw

theorem Alike.exists_value (h : m.Alike v cells) (hne : cells ≠ []) : ∃ i j, m.value i j = some v := by
  obtain ⟨⟨row, col⟩, hp⟩ := List.exists_mem_of_ne_nil cells hne
  exact ⟨_, _, (h.cell row col v).2 ⟨hp, rfl⟩⟩

/-- What becomes of the matrix while its entries and its state of rest stay. -/
theorem Alike.of_cell (h : m.Alike v cells) (ht : t.Inv) (hcell : t.cell = m.cell)
    (hblank : cells = [] → t.iso = false ∧ t.deferred = false) (hsharing : cells ≠ [] → t.Sharing v) :
    t.Alike v cells :=
  ⟨ht, fun row col w => by rw [hcell, h.cell], hblank, hsharing⟩

/-- A commit that rebuilds the index finds the value that all entries share. -/
theorem Alike.sharing_flushed (h : m.Alike v cells) (hne : cells ≠ []) : m.flushed.Sharing v := by
  unfold Matrix.flushed
  split
  · next hdef =>
    have hd := h.inv.sparse_of_deferred hdef
    obtain ⟨i, j, hv⟩ := h.exists_value hne
    have hi := (h.inv.iso_installed_iff hd).2 ⟨v, ⟨i, j, hv⟩, fun i j w hw => h.value_eq hw⟩
    exact ⟨hi, h.inv.shared_installed hd hi hv⟩
  · exact h.sharing hne

theorem Alike.ensures_wait (h : m.Alike v cells) : Ensures wait m (fun _ t => t.Alike v cells)
    (fun _ t => (cells ≠ [] → t.Sharing v) ∧ (cells = [] → t.iso = false)) := by
  have hrest : cells = [] → m.flushed = m := fun hc => if_neg (by simp [(h.blank hc).2])
  refine ((Matrix.ensures_wait h.inv).and (ensures_wait_flushed h.inv)).mono ?_ ?_
  · rintro _ t ⟨⟨ht, hk, hdef⟩, hs⟩
    refine h.of_cell ht hk.cell (fun hc => ⟨?_, hdef⟩) fun hne => (h.sharing_flushed hne).of_shares hs
    rw [hs.iso, hrest hc, (h.blank hc).1]
  · rintro _ t ⟨-, rfl | rfl⟩
    · exact ⟨h.sharing, fun hc => (h.blank hc).1⟩
    · exact ⟨h.sharing_flushed, fun hc => by rw [hrest hc, (h.blank hc).1]⟩

/-- There is room for one more of the same value. -/
theorem Alike.ensures_prepareWrite (h : m.Alike v cells) {i j : Nat} (hi : i < m.vlen) (hj : j < m.vdim) :
    Ensures (prepareWrite v .second) m (fun _ t => t.Sharing v) (fun _ _ => True) := by
  by_cases hc : cells = []
  · have hnone : ∀ i j, m.value i j = none := by
      intro i j
      refine Option.eq_none_iff_forall_ne_some.2 fun w hw => ?_
      have hcell := (h.cell (m.toCell i j).1 (m.toCell i j).2 w).1 (by rw [Matrix.cell, toVector_toCell, hw])
      rw [hc] at hcell
      cases hcell.1
    exact h.inv.ensures_prepareWrite_first (h.blank hc).1 (h.blank hc).2 hnone hi hj
  · exact (h.sharing hc).ensures_prepareWrite

theorem Alike.ensures_tryWrite (h : m.Alike v cells) {raw : Scalar} {i j : Nat} (hi : i < m.vlen)
    (hj : j < m.vdim) : Ensures (tryWrite raw v i j .second) m (fun _ t => t.Sharing v) (fun _ _ => True) := by
  refine (ensures_tryWrite_room (h.ensures_prepareWrite hi hj)).mono ?_ fun _ _ _ => trivial
  rintro _ t ⟨s, hs, hiso, hshared, -⟩
  exact ⟨hiso.trans hs.iso, (hshared hs.iso).trans hs.shared⟩

theorem Alike.ensures_set_sharing (h : m.Alike v cells) {raw : Scalar} (hcast : raw.cast m.type = some v)
    (row col : Nat) : Ensures (setElement raw row col) m (fun _ t => t.Sharing v) (fun _ _ => True) := by
  unfold setElement accumulate
  refine ensures_subject (ensures_require_then (fun _ _ => trivial) fun _ hbounds => ?_)
  refine ensures_require_then (fun _ _ => trivial) fun v' hv' => ?_
  obtain rfl : v = v' := Option.some.inj (hcast.symm.trans (castIn_eq_ok_iff.1 hv'))
  obtain ⟨hr, hc⟩ := checkBounds_ok hbounds
  obtain ⟨hi, hj⟩ := toVector_lt hr hc
  dsimp only
  refine ((Matrix.ensures_tryWrite h.inv hcast hi hj .second).and (h.ensures_tryWrite hi hj)).andThen
    (fun _ _ _ => trivial) ?_
  rintro (_ | done) s ⟨⟨hinv, hs⟩, hsharing⟩
  · -- a queue that does not take the tuple shows that there are entries already
    obtain ⟨hk, hp⟩ := hs
    have hne : cells ≠ [] := fun hc => hp (deferred_eq_false_iff.1 (h.blank hc).2).1
    have hsalike : s.Alike v cells := h.of_cell hinv hk.cell (fun hc => absurd hc hne) fun _ => hsharing
    refine ((Matrix.ensures_wait hinv).and hsalike.ensures_wait).andThen (fun _ _ _ => trivial) ?_
    rintro _ t ⟨⟨-, hkt, -⟩, ht⟩
    have hk := hk.trans hkt
    refine (ht.ensures_tryWrite (hk.vlen.symm ▸ hi) (hk.vdim.symm ▸ hj)).andThen (fun _ _ _ => trivial) ?_
    rintro (_ | done) u hu
    · exact ensures_throw trivial
    · exact ensures_pure hu
  · exact ensures_pure hsharing

/-- **One more cell with the same value.** -/
theorem Alike.ensures_set (h : m.Alike v cells) {raw : Scalar} (hcast : raw.cast m.type = some v)
    (row col : Nat) : Ensures (setElement raw row col) m (fun _ t => t.Alike v ((row, col) :: cells))
      (fun _ _ => True) := by
  refine ((ensures_accumulate h.inv raw row col .second).and (h.ensures_set_sharing hcast row col)).mono ?_
    fun _ _ _ => trivial
  rintro _ t ⟨⟨ht, -, -, v', hv', hputs⟩, hsharing⟩
  obtain rfl : v = v' := Option.some.inj (hcast.symm.trans hv')
  refine ⟨ht, fun r c w => ?_, fun hc => (by cases hc), fun _ => hsharing⟩
  have hfold : foldOnto (DupOp.second.apply m.type) (m.cell row col) [v] = some v := by
    cases m.cell row col <;> rfl
  rw [Puts.cell hputs, hfold, Cells.put, List.mem_cons, Prod.mk.injEq]
  split
  · next hp => simp [hp, eq_comm]
  · next hp => simp [hp, h.cell]

theorem Alike.ensures_resize (h : m.Alike v cells) (nrows ncols : Nat) :
    Ensures (resize nrows ncols) m (fun _ t => t.Alike v cells) (fun _ _ => True) := by
  have hkept : ∀ s t : Matrix, ((cells ≠ [] → s.Sharing v) ∧ (cells = [] → s.iso = false)) → s.Shares t →
      (cells ≠ [] → t.Sharing v) ∧ (cells = [] → t.iso = false) :=
    fun s t hs ht => ⟨fun hne => (hs.1 hne).of_shares ht, fun hc => ht.iso.trans (hs.2 hc)⟩
  have hwait := h.ensures_wait.mono (fun _ t ht => (⟨ht.sharing, fun hc => (ht.blank hc).1⟩ :
    (cells ≠ [] → t.Sharing v) ∧ (cells = [] → t.iso = false))) fun _ _ he => he
  have hresize := ensures_resize_keeping h.inv ⟨h.sharing, fun hc => (h.blank hc).1⟩ hwait hkept nrows ncols
  by_cases hc : cells = []
  · refine (hresize.and (h.inv.ensures_resize_rests (h.blank hc).2 nrows ncols)).mono ?_ fun _ _ _ => trivial
    rintro _ t ⟨⟨ht, hk, -, hsharing, hi⟩, hdef⟩
    exact h.of_cell ht hk.cell (fun hc => ⟨hi hc, hdef⟩) hsharing
  · refine hresize.mono ?_ fun _ _ _ => trivial
    rintro _ t ⟨ht, hk, -, hsharing, -⟩
    exact h.of_cell ht hk.cell (fun hc' => absurd hc' hc) hsharing

/-- **Another value gives every entry its own again.** -/
theorem Alike.ensures_set_other (h : m.Alike v cells) (hne : cells ≠ []) {raw : Scalar}
    (hcast : raw.cast m.type = some w) (hw : w ≠ v) (row col : Nat) :
    Ensures (setElement raw row col) m (fun _ t => t.iso = false) (fun _ _ => True) := by
  unfold setElement accumulate
  refine ensures_subject (ensures_require_then (fun _ _ => trivial) fun _ _ => ?_)
  refine ensures_require_then (fun _ _ => trivial) fun w' hw' => ?_
  obtain rfl : w = w' := Option.some.inj (hcast.symm.trans (castIn_eq_ok_iff.1 hw'))
  dsimp only
  refine (ensures_tryWrite_room ((h.sharing hne).ensures_prepareWrite_other h.inv hw .second)).bind ?_
  rintro (_ | done) t ⟨s, ⟨hi, hp⟩, hiso, -, hqueue⟩
  · exact absurd hp (hqueue rfl)
  · exact ensures_pure (hiso.trans hi)

/-- A matrix along a run of calls that write nothing but `v`, from an empty one on. `cells` are those written
so far, the last one first. -/
inductive Repeats (v : Scalar) : Matrix → List (Nat × Nat) → Prop
  | created {type : ScalarType} {nrows ncols : Nat} {options : MatrixOptions} {m : Matrix}
      (hlimit : options.maxDenseCells < UInt64.size)
      (h : withOptions type nrows ncols options = .ok m) : Repeats v m []
  | cleared {m : Matrix} {n : CallCounts} {s : Matrix × CallCounts} (h : m.Reachable)
      (hs : clear (m, n) = .ok () s) : Repeats v s.1 []
  | set {m : Matrix} {cells : List (Nat × Nat)} {raw : Scalar} {row col : Nat} {n : CallCounts}
      {out : SetOutcome} {s : Matrix × CallCounts} (h : Repeats v m cells) (hcast : raw.cast m.type = some v)
      (hs : setElement raw row col (m, n) = .ok out s) : Repeats v s.1 ((row, col) :: cells)
  | wait {m : Matrix} {cells : List (Nat × Nat)} {n : CallCounts} {s : Matrix × CallCounts}
      (h : Repeats v m cells) (hs : wait (m, n) = .ok () s) : Repeats v s.1 cells
  | nvals {m : Matrix} {cells : List (Nat × Nat)} {n : CallCounts} {count : Nat} {s : Matrix × CallCounts}
      (h : Repeats v m cells) (hs : nvals (m, n) = .ok count s) : Repeats v s.1 cells
  | extract {m : Matrix} {cells : List (Nat × Nat)} {row col : Nat} {a : Option Scalar}
      (h : Repeats v m cells) (hs : m.extract row col = .ok a) : Repeats v m cells
  | setOptions {m : Matrix} {cells : List (Nat × Nat)} {options : MatrixOptions} {n : CallCounts}
      {s : Matrix × CallCounts} (h : Repeats v m cells) (hlimit : options.maxDenseCells < UInt64.size)
      (hs : setOptions options (m, n) = .ok () s) : Repeats v s.1 cells
  | resize {m : Matrix} {cells : List (Nat × Nat)} {nrows ncols : Nat} {n : CallCounts}
      {s : Matrix × CallCounts} (h : Repeats v m cells) (hs : resize nrows ncols (m, n) = .ok () s) :
      Repeats v s.1 cells

theorem Repeats.alike (h : Repeats v m cells) : m.Alike v cells := by
  induction h with
  | created hlimit h =>
    obtain ⟨hr, hc, rfl⟩ := withOptions_eq_ok_iff.1 h
    obtain ⟨hinv, hnone⟩ := inv_blank hr hc hlimit
    exact alike_of_empty hinv hnone rfl rfl v
  | cleared h hs =>
    cases hs
    obtain ⟨hinv, -, hnone⟩ := h.inv.cleared
    exact alike_of_empty hinv hnone rfl rfl v
  | set h hcast hs ih => exact (ih.ensures_set hcast _ _).of_ok hs
  | wait h hs ih => exact ih.ensures_wait.of_ok hs
  | @nvals m cells n count s h hs ih =>
    have hnvals : Ensures Matrix.nvals m (fun _ t => t.Alike v cells) (fun _ _ => True) :=
      ih.ensures_wait.andThen (fun _ _ _ => trivial) fun _ _ ht => ensures_subject (ensures_pure ht)
    exact hnvals.of_ok hs
  | extract h hs ih => exact ih
  | setOptions h hlimit hs ih =>
    cases hs
    obtain ⟨hinv, hvalue⟩ := ih.inv.withOptions _ hlimit
    refine ih.of_cell hinv ?_ ih.blank fun hne => ⟨(ih.sharing hne).iso, (ih.sharing hne).shared⟩
    funext row col
    exact congrFun (congrFun hvalue _) _
  | resize h hs ih => exact (ih.ensures_resize _ _).of_ok hs

/-- **Writes of one value take the memory of one value.** From the first of them on the matrix is iso, stores
one value and queues none, whatever is committed, counted, grown or tuned in between. The first other value
ends that: its cell has it, and every cell written before has the old one. -/
theorem Repeats.takes_one_value (h : Repeats v m cells) (hne : cells ≠ []) :
    m.iso = true ∧ m.store.values.size = 1 ∧
    (∀ q, m.pending = some q → ∀ t ∈ q.tuples.toList, t.value = none) ∧
    ∀ raw w row col n out s, raw.cast m.type = some w → w ≠ v →
      setElement raw row col (m, n) = .ok out s → s.1.iso = false ∧
        s.1.extract row col = .ok (some w) ∧
        ∀ r c, (r, c) ∈ cells → (r, c) ≠ (row, col) → s.1.extract r c = .ok (some v) := by
  have ha := h.alike
  have hi := (ha.sharing hne).iso
  refine ⟨hi, ?_, fun q hq t ht => ?_, fun raw w row col n out s hcast hw hs => ?_⟩
  · rw [ha.inv.laid.values, if_pos hi]
  · have hcarries := ((ha.inv.queued q hq).2.2 t ht).carries
    cases hv : t.value with
    | none => rfl
    | some u =>
      rw [hv, hi] at hcarries
      cases hcarries.1
  · obtain ⟨ht, -, -, w', hw', hputs⟩ := (ensures_accumulate ha.inv raw row col .second).of_ok hs
    obtain rfl : w = w' := Option.some.inj (hcast.symm.trans hw')
    have hfold : foldOnto (DupOp.second.apply m.type) (m.cell row col) [w] = some w := by
      cases m.cell row col <;> rfl
    have hcell := Puts.cell hputs
    rw [hfold] at hcell
    refine ⟨(ha.ensures_set_other hne hcast hw row col).of_ok hs, ?_, fun r c hp hne' => ?_⟩
    · rw [ht.extract_eq_some_iff, hcell, Cells.put, if_pos ⟨rfl, rfl⟩]
    · rw [ht.extract_eq_some_iff, hcell, Cells.put, if_neg fun hc => hne' (Prod.ext hc.1 hc.2),
        ha.cell]
      exact ⟨hp, rfl⟩

/-- A one and a true, which commits the one first; then a five. -/
theorem takes_one_value_two_types : ∃ (m : Matrix) (s : Matrix × CallCounts),
    Repeats (.int64 1) m [(0, 2), (1, 1)] ∧ m.store.values.size = 1 ∧
      setElement (.int64 5) 0 0 (m, {}) = .ok .inPlace s ∧ s.1.iso = false ∧
      s.1.extract 0 0 = .ok (some (.int64 5)) ∧ s.1.extract 1 1 = .ok (some (.int64 1)) := by
  have hnew : Repeats (.int64 1) (blank .int64 2 3 true {}) [] :=
    .created (by decide) (show withOptions .int64 2 3 {} = .ok _ from rfl)
  have hset : setElement (.int64 1) 1 1 (blank .int64 2 3 true {}, {}) =
      .ok (.queued false) (waiting (.int64 1) 2 3 #[⟨1, 1, none⟩], {}) := rfl
  have hone : Repeats (.int64 1) (waiting (.int64 1) 2 3 #[⟨1, 1, none⟩]) [(1, 1)] :=
    hnew.set (show (Scalar.int64 1).cast .int64 = _ from rfl) hset
  have htrue : (outcome (setElement (.bool true) 0 2 (waiting (.int64 1) 2 3 #[⟨1, 1, none⟩], {}))).1.toOption =
      some (.queued false) := by decide +kernel
  have hboth := hone.set rfl (eq_ok_of_outcome htrue)
  have hfive : (outcome (setElement (.int64 5) 0 0 ((outcome (setElement (.bool true) 0 2
      (waiting (.int64 1) 2 3 #[⟨1, 1, none⟩], {}))).2.1, {}))).1.toOption = some .inPlace := by
    decide +kernel
  have hs := eq_ok_of_outcome hfive
  obtain ⟨-, hsize, -, hother⟩ := hboth.takes_one_value (List.cons_ne_nil _ _)
  obtain ⟨hi, hhere, hold⟩ := hother _ (.int64 5) _ _ _ _ _ (by decide +kernel) (by decide) hs
  exact ⟨_, _, hboth, hsize, hs, hi, hhere, hold 1 1 (by decide) (by decide)⟩

end Matrix

end Adjacency
