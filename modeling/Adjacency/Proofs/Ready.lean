import Adjacency.Proofs.Frame
import Adjacency.Proofs.Marks

/-!
# Matrices that take marks

A write asks for memory only where the entries share another value than the one to be written, or where the
queue is for writes of another kind. Neither is the case in a matrix that has only ever held marks: it is
ready for any mark, and it stays so, also through commits, deletions and growth that run out of memory.

* `Matrix.Ready`: a mark can be written as it is.
* `Ready.ensures_set`: **a mark inside the matrix is written without fail.**
* `Ready.leaves_wait`, `Ready.leaves_remove`: however a commit or a deletion ends, the matrix is ready.
* `Matrix.SameView`, `Matrix.Widens`, `Matrix.Empties`: what a caller sees before and after a call.
* `Markable.ensures_wait`, `Markable.ensures_remove`, `Markable.ensures_resize`: **of a call that fails
  nothing is to be seen**, but that growth may have reached the new dimension.
-/

namespace Adjacency

open Metered

namespace Matrix

variable {m t u : Matrix} {rows cols i j : Nat} {p : Nat → Nat → Prop}

/-! ## Ready for a mark -/

/-- If all entries share a value it is true, and the queue is for writes of such values: there is a place
for any mark. -/
structure Ready (m : Matrix) : Prop where
  shared : m.iso = true → m.shared = .bool true
  queue : m.queueAccepts .bool .second = true

theorem Ready.of_shares (h : m.Ready) (hs : m.Shares t) : t.Ready where
  shared hi := (hs.shared (hs.iso.symm.trans hi)).trans (h.shared (hs.iso.symm.trans hi))
  queue := by
    have hq := h.queue
    unfold queueAccepts at hq ⊢
    rwa [hs.pending]

theorem ready_blank (type : ScalarType) (rows cols : Nat) (byRow : Bool) (options : MatrixOptions) :
    (blank type rows cols byRow options).Ready := ⟨fun hi => (by cases hi), rfl⟩

/-- A place that has a value is marked. -/
theorem Marked.value_eq (h : m.Marked rows cols p) {v : Scalar} (hv : m.value i j = some v) :
    v = .bool true := by
  refine ((h.cell (m.toCell i j).1 (m.toCell i j).2 v).1 ?_).2
  rw [Matrix.cell, toVector_toCell]
  exact hv

/-! ## Commits -/

/-- What a commit builds shares a value only if there are entries, and then all are marks. -/
theorem Marked.ready_installed (h : m.Marked rows cols p) (hd : m.store.dense = false) :
    (m.installed m.committing.toArray).Ready := by
  refine ⟨fun hi => ?_, rfl⟩
  obtain ⟨v, ⟨i, j, hvalue⟩, -⟩ := (h.inv.iso_installed_iff hd).1 hi
  rw [h.inv.shared_installed hd hi hvalue]
  exact h.value_eq hvalue

theorem Ready.leaves_wait (hr : m.Ready) (h : m.Marked rows cols p) : Leaves wait m Ready := by
  unfold wait
  refine ensures_subject (ensures_when (fun t => t.Laid ∧ t.Ready) (fun hdef => ?_)
    (fun _ => ⟨h.inv.laid, hr⟩) ?_)
  · have hd := h.inv.sparse_of_deferred hdef
    refine (ensures_assemble_installs h.inv).mono ?_ ?_
    · rintro _ _ rfl
      exact ⟨(h.inv.installed_committing hd).1.laid, h.ready_installed hd⟩
    · rintro _ _ ⟨-, rfl⟩
      exact hr
  · rintro t ⟨hl, hready⟩
    refine hl.ensures_conform_shares.andThen ?_ fun _ u hu => ensures_tally (hready.of_shares hu)
    rintro _ _ rfl
    exact hready

/-! ## Writes -/

theorem shares_ordered (m : Matrix) : m.Shares (if m.jumbled then m.unjumbled else m) := by
  split
  · refine shares_of_values rfl rfl rfl fun hi => ?_
    unfold unjumbled
    rw [hi]
    cases m.store <;> rfl
  · exact Shares.refl m

theorem shares_writeCell (m : Matrix) (pos : Nat) (v : Scalar) (op : DupOp) :
    m.Shares (m.writeCell pos v op) := by
  refine shares_of_values rfl rfl rfl fun hi => ?_
  unfold writeCell
  rw [withStore_eq, hi]
  exact values_setBit m.store pos

theorem shares_writeLive (m : Matrix) (pos : Nat) (v : Scalar) (op : DupOp) :
    m.Shares (m.writeLive pos v op) := by
  unfold writeLive
  split
  · exact Shares.refl m
  · next hi => exact ⟨rfl, fun h => absurd h hi, rfl⟩

theorem shares_revive (m : Matrix) (pos i : Nat) (v : Scalar) : m.Shares (m.revive pos i v) := by
  refine shares_of_values rfl rfl rfl fun hi => ?_
  have hstore : (m.revive pos i v).store =
      (if m.iso then m.store else m.store.mapValues (·.setIfInBounds pos v)).mapSlots
        (·.setIfInBounds pos { index := i }) := rfl
  rw [hstore, Storage.values_mapSlots, if_pos hi]

theorem Ready.enqueue (h : m.Ready) (q : QueuedTuple) : (m.enqueue q .bool .second).Ready := by
  refine ⟨h.shared, queueAccepts_iff.2 fun q' hq' => ?_⟩
  have hold := queueAccepts_iff.1 h.queue
  cases hp : m.pending with
  | none =>
    rw [Matrix.enqueue, hp] at hq'
    obtain rfl := Option.some.inj hq'
    exact ⟨rfl, rfl⟩
  | some q =>
    rw [Matrix.enqueue, hp] at hq'
    obtain rfl := Option.some.inj hq'
    exact hold q hp

/-- Room for a mark is made without asking for memory. -/
theorem Ready.ensures_prepareWrite (h : m.Ready) :
    Ensures (prepareWrite (.bool true) .second) m (fun _ t => t.Ready) (fun _ _ => False) := by
  unfold prepareWrite
  refine ensures_update_then ?_
  have hs := h.of_shares (shares_ordered m)
  generalize (if m.jumbled then m.unjumbled else m) = s at hs
  refine ensures_subject (ensures_ite (fun hi => ?_) fun _ => ?_)
  · -- the shared value is the one to be written, so there is nothing to expand
    rw [if_neg fun hc => hc.elim (fun hop => hop rfl) fun hne => hne (hs.shared hi)]
    exact ensures_pure hs
  · refine ensures_ite (fun _ => ensures_put ?_) fun _ => ensures_pure hs
    refine ⟨fun _ => ?_, hs.queue⟩
    change (s.store.mapValues fun _ => #[Scalar.bool true]).values.getD 0 s.type.zero = _
    rw [Storage.values_mapValues]
    rfl

theorem Ready.ensures_tryWrite (h : m.Ready) (i j : Nat) :
    Ensures (tryWrite (.bool true) (.bool true) i j .second) m
      (fun done t => done.isSome = true ∧ t.Ready) (fun _ _ => False) := by
  unfold tryWrite
  refine h.ensures_prepareWrite.bind ?_
  intro _ s hs
  refine ensures_subject ?_
  cases s.locate i j with
  | cell pos => exact ensures_update_then (ensures_pure ⟨rfl, hs.of_shares (shares_writeCell s pos _ _)⟩)
  | live pos => exact ensures_update_then (ensures_pure ⟨rfl, hs.of_shares (shares_writeLive s pos _ _)⟩)
  | zombie pos => exact ensures_update_then (ensures_pure ⟨rfl, hs.of_shares (shares_revive s pos i _)⟩)
  | absent =>
    refine ensures_ite (fun _ => ?_) fun hq => absurd hs.queue hq
    exact ensures_update_then (ensures_subject (ensures_pure ⟨rfl, hs.enqueue _⟩))

/-- **A mark inside the matrix is written without fail.** -/
theorem Ready.ensures_set (h : m.Ready) (htype : m.type = .bool) {row col : Nat} (hrow : row < m.nrows)
    (hcol : col < m.ncols) :
    Ensures (setElement (.bool true) row col) m (fun _ t => t.Ready) (fun _ _ => False) := by
  have hcast : m.castIn (.bool true) = .ok (.bool true) := by
    rw [castIn_eq_ok_iff, htype]
    rfl
  unfold setElement accumulate
  refine ensures_subject ?_
  rw [checkBounds_eq_ok hrow hcol, hcast]
  refine ensures_require_then (fun e he => by cases he) fun _ _ => ?_
  refine ensures_require_then (fun e he => by cases he) fun v hv => ?_
  cases hv
  refine (h.ensures_tryWrite _ _).bind ?_
  rintro (_ | done) t ⟨hdone, ht⟩
  · cases hdone
  · exact ensures_pure ht

/-! ## Deletions -/

theorem shares_bury (m : Matrix) (pos : Nat) : m.Shares (m.bury pos) :=
  shares_of_values rfl rfl rfl fun _ => m.store.values_mapSlots _

theorem leaves_clearCell (h : m.Ready) (pos : Nat) : Leaves (clearCell pos) m Ready := by
  unfold clearCell
  refine ensures_subject (ensures_ite (fun _ => ?_) fun _ => ensures_pure h)
  refine ensures_update_then (ensures_pure (h.of_shares (shares_of_values rfl rfl rfl fun _ => ?_)))
  rw [withStore_eq]
  cases m.store <;> rfl

theorem Ready.leaves_tryRemove (hr : m.Ready) (h : m.Inv) (i j : Nat) :
    Leaves (tryRemove i j) m Ready := by
  unfold tryRemove
  refine ensures_update_then ?_
  have hl := h.ordered.1.laid
  have hs := hr.of_shares (shares_ordered m)
  generalize (if m.jumbled then m.unjumbled else m) = s at hl hs
  refine ensures_subject ?_
  cases s.locate i j with
  | cell pos =>
    refine ensures_when Ready (fun _ => ?_) (fun _ => hs) fun t ht => ?_
    · refine (hl.ensures_convertTo_shares .bitmap).mono (fun _ t ht => hs.of_shares ht) ?_
      rintro _ _ rfl
      exact hs
    · exact (leaves_clearCell ht pos).bind fun _ _ hu => ensures_pure hu
  | live pos => exact ensures_update_then (ensures_pure (hs.of_shares (shares_bury s pos)))
  | zombie pos => exact ensures_pure hs
  | absent => exact ensures_pure hs

theorem Ready.leaves_remove (hr : m.Ready) (h : m.Marked rows cols p) (row col : Nat) :
    Leaves (remove row col) m Ready := by
  unfold remove
  refine ensures_subject (ensures_require_then (fun _ _ => hr) fun _ hbounds => ?_)
  obtain ⟨hrow, hcol⟩ := checkBounds_ok hbounds
  obtain ⟨hi, hj⟩ := toVector_lt hrow hcol
  dsimp only
  refine ((Matrix.ensures_tryRemove h.inv hi hj).and (hr.leaves_tryRemove h.inv _ _)).andThen
    (fun _ _ ht => ht.2) ?_
  rintro (_ | done) s ⟨⟨hinv, hs⟩, hready⟩
  · refine ensures_subject (ensures_ite (fun _ => ?_) fun _ => ensures_pure hready)
    have hmarked := h.of_keeps hinv hs.1
    refine ((Matrix.ensures_wait hinv).and (hready.leaves_wait hmarked)).andThen (fun _ _ ht => ht.2) ?_
    rintro _ t ⟨ht, htready⟩
    exact (htready.leaves_tryRemove ht.1 _ _).bind fun _ _ hu => ensures_pure hu
  · exact ensures_pure hready

/-! ## Seen from outside -/

/-- The same type and dimensions, and the same answer for every cell. -/
structure SameView (m t : Matrix) : Prop where
  type : t.type = m.type
  nrows : t.nrows = m.nrows
  ncols : t.ncols = m.ncols
  extract : ∀ row col, t.extract row col = m.extract row col

/-- The same type and entries, in the same dimensions or in those of a square of dimension `dim`. -/
structure Widens (m t : Matrix) (dim : Nat) : Prop where
  type : t.type = m.type
  size : t.nrows = m.nrows ∧ t.ncols = m.ncols ∨ t.nrows = dim ∧ t.ncols = dim
  entry : ∀ row col v, t.extract row col = .ok (some v) ↔ m.extract row col = .ok (some v)

/-- The same view, but for one cell that has no entry any more. -/
structure Empties (m t : Matrix) (row col : Nat) : Prop where
  type : t.type = m.type
  nrows : t.nrows = m.nrows
  ncols : t.ncols = m.ncols
  here : t.extract row col = .ok none
  elsewhere : ∀ r c, ¬(r = row ∧ c = col) → t.extract r c = m.extract r c

theorem SameView.refl (m : Matrix) : m.SameView m := ⟨rfl, rfl, rfl, fun _ _ => rfl⟩

theorem SameView.trans (h : m.SameView t) (h' : t.SameView u) : m.SameView u :=
  ⟨h'.type.trans h.type, h'.nrows.trans h.nrows, h'.ncols.trans h.ncols,
    fun row col => (h'.extract row col).trans (h.extract row col)⟩

theorem Empties.trans {row col : Nat} (h : m.Empties t row col) (h' : t.SameView u) :
    m.Empties u row col :=
  ⟨h'.type.trans h.type, h'.nrows.trans h.nrows, h'.ncols.trans h.ncols,
    (h'.extract row col).trans h.here, fun r c hne => (h'.extract r c).trans (h.elsewhere r c hne)⟩

theorem Widens.refl (m : Matrix) (dim : Nat) : m.Widens m dim :=
  ⟨rfl, .inl ⟨rfl, rfl⟩, fun _ _ _ => Iff.rfl⟩

/-- Two matrices of the same dimensions answer the same for a cell with the same value. -/
theorem Inv.extract_congr (h : m.Inv) (ht : t.Inv) (hr : t.nrows = m.nrows) (hc : t.ncols = m.ncols)
    {row col : Nat} (hcell : t.cell row col = m.cell row col) : t.extract row col = m.extract row col := by
  have hbounds : t.checkBounds row col = m.checkBounds row col := by
    rw [checkBounds, checkBounds, hr, hc]
  cases hb : m.checkBounds row col with
  | ok _ =>
    obtain ⟨hrow, hcol⟩ := checkBounds_ok hb
    rw [h.extract_eq hrow hcol, ht.extract_eq (hr ▸ hrow) (hc ▸ hcol), hcell]
  | error e =>
    rw [extract, extract, hbounds, hb]
    rfl

theorem Keeps.sameView (hk : m.Keeps t) (h : m.Inv) (ht : t.Inv) : m.SameView t :=
  ⟨hk.type, hk.nrows, hk.ncols, fun _ _ => h.extract_congr ht hk.nrows hk.ncols (by rw [hk.cell])⟩

theorem Retains.widens (hk : m.Retains t) (h : m.Inv) (ht : t.Inv) {dim : Nat}
    (hsize : t.nrows = m.nrows ∧ t.ncols = m.ncols ∨ t.nrows = dim ∧ t.ncols = dim) : m.Widens t dim :=
  ⟨hk.type, hsize, fun _ _ _ => by rw [h.extract_eq_some_iff, ht.extract_eq_some_iff, hk.cell]⟩

theorem Puts.empties {row col : Nat} (hp : m.Puts t (m.toVector row col).1 (m.toVector row col).2 none)
    (h : m.Inv) (ht : t.Inv) (hr : row < m.nrows) (hc : col < m.ncols) : m.Empties t row col := by
  have hcell := Puts.cell hp
  refine ⟨hp.type, hp.nrows, hp.ncols, ?_, fun r c hne => h.extract_congr ht hp.nrows hp.ncols ?_⟩
  · rw [ht.extract_eq (hp.nrows ▸ hr) (hp.ncols ▸ hc), hcell, Cells.put, if_pos ⟨rfl, rfl⟩]
  · rw [hcell, Cells.put, if_neg hne]

/-! ## Square matrices of marks -/

/-- A square matrix of marks that takes any other mark. -/
structure Markable (m : Matrix) (dim : Nat) : Prop where
  marks : ∃ p, m.Marks dim p
  ready : m.Ready

variable {dim dim' : Nat}

theorem Markable.inv (h : m.Markable dim) : m.Inv := h.marks.elim fun _ hm => hm.inv

theorem markable_blank {options : MatrixOptions} (hdim : dim ≤ maxDim)
    (hlimit : options.maxDenseCells < UInt64.size) : (blank .bool dim dim true options).Markable dim :=
  ⟨⟨_, marked_blank hdim hdim hlimit⟩, ready_blank _ _ _ _ _⟩

theorem Markable.ensures_set (h : m.Markable dim) {row col : Nat} (hrow : row < dim) (hcol : col < dim) :
    Ensures (setElement (.bool true) row col) m (fun _ t => t.Markable dim) (fun _ _ => False) := by
  obtain ⟨⟨p, hm⟩, hr⟩ := h
  refine ((hm.ensures_set hrow hcol).and (hr.ensures_set hm.type (hm.nrows ▸ hrow) (hm.ncols ▸ hcol))).mono
    (fun _ t ht => ⟨⟨_, ht.1⟩, ht.2⟩) fun _ _ he => he.2

theorem Markable.ensures_wait (h : m.Markable dim) : Ensures wait m
    (fun _ t => t.Markable dim ∧ m.SameView t)
    (fun e t => e.OfMemory ∧ t.Markable dim ∧ m.SameView t) := by
  obtain ⟨⟨p, hm⟩, hr⟩ := h
  refine ((Matrix.ensures_wait hm.inv).and (hr.leaves_wait hm)).mono ?_ ?_
  · rintro _ t ⟨⟨ht, hk, -⟩, hready⟩
    exact ⟨⟨⟨p, hm.of_keeps ht hk⟩, hready⟩, hk.sameView hm.inv ht⟩
  · rintro e t ⟨⟨he, ht, hk⟩, hready⟩
    exact ⟨he, ⟨⟨p, hm.of_keeps ht hk⟩, hready⟩, hk.sameView hm.inv ht⟩

/-- A deletion that fails has changed nothing to be seen. -/
theorem Markable.ensures_remove (h : m.Markable dim) {row col : Nat} (hrow : row < dim) (hcol : col < dim) :
    Ensures (remove row col) m (fun _ t => t.Markable dim ∧ m.Empties t row col)
      (fun e t => e.OfMemory ∧ t.Markable dim ∧ m.SameView t) := by
  obtain ⟨⟨p, hm⟩, hr⟩ := h
  have hrow' : row < m.nrows := hm.nrows ▸ hrow
  have hcol' : col < m.ncols := hm.ncols ▸ hcol
  refine ((Matrix.ensures_remove hm.inv row col).and ((hm.ensures_remove hrow hcol).and
    (hr.leaves_remove hm row col))).mono ?_ ?_
  · rintro _ t ⟨⟨ht, -, -, hputs, -⟩, hmarks, hready⟩
    exact ⟨⟨⟨_, hmarks⟩, hready⟩, hputs.empties hm.inv ht hrow' hcol'⟩
  · rintro e t ⟨⟨ht, hk, -⟩, he, hready⟩
    exact ⟨he, ⟨⟨p, hm.of_keeps ht hk⟩, hready⟩, hk.sameView hm.inv ht⟩

/-- Growth that fails leaves the matrix small or large, with the entries that it had. -/
theorem Markable.ensures_resize (h : m.Markable dim) (hle : dim ≤ dim') (hmax : dim' ≤ maxDim) :
    Ensures (resize dim' dim') m (fun _ t => t.Markable dim' ∧ m.Widens t dim')
      (fun e t => e.OfMemory ∧ (t.Markable dim ∨ t.Markable dim') ∧ m.Widens t dim') := by
  obtain ⟨⟨p, hm⟩, hr⟩ := h
  have hgrown : ∀ {t : Matrix} {d : Nat}, t.Inv → m.Retains t → t.nrows = d ∧ t.ncols = d → t.Ready →
      t.Markable d := fun ht hk hd hready =>
    ⟨⟨p, ht, hk.type.trans hm.type, hd.1, hd.2, fun row col v => by rw [hk.cell, hm.cell]⟩, hready⟩
  refine (ensures_resize_keeping hm.inv hr (hr.leaves_wait hm) (fun s t hs hst => hs.of_shares hst)
    dim' dim').mono ?_ ?_
  · rintro _ t ⟨ht, hk, hd, hready⟩
    exact ⟨hgrown ht hk hd hready, hk.widens hm.inv ht (.inr hd)⟩
  · rintro e t ⟨ht, hk, hready, ⟨he, hd⟩ | ⟨-, hsmall | hlarge⟩⟩
    · have hd := hd.imp (fun hs => (⟨hs.nrows, hs.ncols⟩ : _ ∧ _)) And.left
      have hwidens := hk.widens hm.inv ht hd
      rw [hm.nrows, hm.ncols] at hd
      exact ⟨he, hd.imp (fun hd => hgrown ht hk hd hready) fun hd => hgrown ht hk hd hready, hwidens⟩
    · rw [hm.nrows, hm.ncols] at hsmall
      omega
    · omega

end Matrix

end Adjacency
