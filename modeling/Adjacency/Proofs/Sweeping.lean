import Adjacency.Proofs.Listing
import Adjacency.Proofs.Ready

/-!
# Walking a matrix that is thinned out

A cursor is a bare position, and deletions may come between its calls. With nothing queued and every vector in
order, a deletion moves no entry, so the position stays good: what a cursor has still to deliver loses the entry
that is deleted, and nothing else.

* `Matrix.Shed`, `Inv.ensures_remove_sheds`: what a deletion does to the index.
* `Matrix.Thinned`: one entry at most is gone, and the others stay where they are.
* `Thinned.rest_sublist`, `Thinned.mem_rest`: what is left for a cursor then.
* `Sweep`, `Sweep.Proceeds`: a cursor and deletions that take turns; **what was delivered and what is left come
  from what was left before, in order, and nothing that is still there gets lost.**
* `Matrix.Reachable.sweeps`: what a caller can rely on, over a committed matrix.
-/

namespace Adjacency

open Metered

namespace Matrix

variable {m t : Matrix} {row col i j : Nat} {c : Cursor}

/-! ## What a deletion leaves in place -/

/-- What a deletion makes of the index, if nothing is queued and every vector is in order. -/
inductive Shed (m : Matrix) : Matrix → Prop
  | same : Shed m m
  | dense {t : Matrix} (hd : m.store.dense = true) (hdt : t.store.dense = true) : Shed m t
  | buried {pos : Nat} (hd : m.store.dense = false) (hpos : pos < m.store.slots.size) : Shed m (m.bury pos)

theorem ensures_clearCell_dense (hd : m.store.dense = true) (pos : Nat) :
    Ensures (clearCell pos) m (fun _ t => t.store.dense = true) (fun _ _ => False) := by
  have hclear : (m.withStore (·.clearBit pos)).store.dense = true := by
    change (m.store.clearBit pos).dense = true
    cases hs : m.store <;> rw [hs] at hd <;> first | rfl | cases hd
  unfold clearCell
  exact ensures_subject (ensures_ite (fun _ => ensures_update_then (ensures_pure hclear)) fun _ => ensures_pure hd)

theorem Inv.ensures_tryRemove_sheds (h : m.Inv) (hp : m.pending = none) (hj : m.jumbled = false)
    (hi : i < m.vlen) (hdim : j < m.vdim) : Ensures (tryRemove i j) m
      (fun done t => m.Shed t ∧ (done = none → t = m)) (fun _ t => m.Shed t) := by
  unfold tryRemove
  refine ensures_update_then ?_
  rw [if_neg (by simp [hj])]
  refine ensures_subject ?_
  have hloc := h.laid.locate_cases hi hdim
  cases hl : m.locate i j with
  | cell pos =>
    rw [hl] at hloc
    obtain ⟨hd, -⟩ := hloc
    -- a full matrix becomes a bitmap first, or stays as it is for want of memory
    refine ensures_when (fun t => t.store.dense = true) (fun _ => ?_) (fun _ => hd) ?_
    · refine (ensures_convertTo h (h.laid.calm hd) .bitmap (h.laid.cells_lt hd)).mono ?_ ?_
      · rintro _ t ⟨-, -, -, hformat⟩
        obtain ⟨b, x, n, hst⟩ := Storage.exists_bitmap hformat
        rw [hst]
        rfl
      · rintro e t ⟨-, rfl⟩
        exact .same
    · intro t hdt
      refine (ensures_clearCell_dense hdt pos).andThen (fun _ _ he => he.elim) ?_
      exact fun done u hdu => ensures_pure ⟨.dense hd hdu, fun hnone => by cases hnone⟩
  | live pos =>
    rw [hl] at hloc
    obtain ⟨hd, hat, -⟩ := hloc
    exact ensures_update_then (ensures_pure
      ⟨.buried hd (extent_sparse hd ▸ hat.1), fun hnone => by cases hnone⟩)
  | zombie pos => exact ensures_pure ⟨.same, fun _ => rfl⟩
  | absent => exact ensures_pure ⟨.same, fun _ => rfl⟩

theorem Inv.ensures_remove_sheds (h : m.Inv) (hp : m.pending = none) (hj : m.jumbled = false) (row col : Nat) :
    Ensures (remove row col) m (fun _ t => m.Shed t) (fun _ t => m.Shed t) := by
  unfold remove
  refine ensures_subject (ensures_require_then (fun _ _ => .same) fun _ hbounds => ?_)
  obtain ⟨hr, hc⟩ := checkBounds_ok hbounds
  obtain ⟨hi, hdim⟩ := toVector_lt hr hc
  refine (h.ensures_tryRemove_sheds hp hj hi hdim).andThen (fun _ _ he => he) ?_
  rintro (_ | done) t ⟨ht, hsame⟩
  · -- nothing is queued, so there is no second attempt
    obtain rfl := hsame rfl
    exact ensures_subject (ensures_ite (fun hq => by simp [hp] at hq) fun _ => ensures_pure ht)
  · exact ensures_pure ht

/-- The entry of one cell may be gone. All other entries stand where they stood, so that a cursor can go on;
nothing is queued, and every vector is in order. -/
structure Thinned (m t : Matrix) (row col : Nat) : Prop extends SameShape m t where
  inv : t.Inv
  pending : t.pending = none
  jumbled : t.jumbled = false
  extent : t.extent = m.extent
  place : t.place = m.place
  fits : ∀ {c : Cursor}, c.Fits m → c.Fits t
  cell : ∀ r c, t.cell r c = m.cell r c ∨ r = row ∧ c = col ∧ t.cell r c = none

theorem Shed.thinned (h : m.Shed t) (hm : m.Inv) (hp : m.pending = none) (hj : m.jumbled = false)
    (ht : t.Inv) (hs : m.SameShape t)
    (hcell : ∀ r c, t.cell r c = m.cell r c ∨ r = row ∧ c = col ∧ t.cell r c = none) :
    m.Thinned t row col := by
  cases h with
  | same => exact ⟨hs, ht, hp, hj, rfl, rfl, fun hc => hc, hcell⟩
  | dense hd hdt =>
    -- the shape alone says where a cell stands
    obtain ⟨hpt, -, hjt⟩ := deferred_eq_false_iff.1 (ht.laid.calm hdt)
    refine ⟨hs, ht, hpt, hjt, ?_, ?_, fun _ => .inl hdt, hcell⟩
    · rw [extent_dense ht.laid hdt, extent_dense hm.laid hd, hs.vlen, hs.vdim]
    · funext pos
      rw [place_dense hdt, place_dense hd, hs.vlen]
  | buried hd hpos =>
    -- pointers and indices stay: the slot of a tombstone still counts
    have hr := reslots_bury hd hpos
    have hdt := hr.dense.trans hd
    refine ⟨hs, ht, hp, hr.jumbled.trans hj, ?_, ?_, fun {c} hc => .inr ?_, hcell⟩
    · rw [extent_sparse hdt, extent_sparse hd, hr.size]
    · funext pos
      rw [place_sparse hdt, place_sparse hd, hr.indexAt, hr.vectorAt, Storage.rangeOf_congr hr.pointers]
    · rw [Storage.rangeCount_congr hr.pointers, Storage.start_congr hr.pointers]
      exact hc.resolve_left (by simp [hd])

/-- **A deletion thins a matrix out**, whether it succeeds or fails. -/
theorem Inv.ensures_remove_thins (h : m.Inv) (hp : m.pending = none) (hj : m.jumbled = false) (row col : Nat) :
    Ensures (remove row col) m (fun _ t => m.Thinned t row col) (fun _ t => m.Thinned t row col) := by
  refine ((ensures_remove h row col).and (h.ensures_remove_sheds hp hj row col)).mono ?_ ?_
  · rintro _ t ⟨⟨ht, -, -, hputs, -⟩, hshed⟩
    refine hshed.thinned h hp hj ht hputs.toSameShape fun r c => ?_
    rw [hputs.cell, Cells.put]
    split
    · next hrc => exact .inr ⟨hrc.1, hrc.2, rfl⟩
    · exact .inl rfl
  · rintro _ t ⟨⟨ht, hkeeps, -⟩, hshed⟩
    exact hshed.thinned h hp hj ht hkeeps.toSameShape fun r c => .inl (by rw [hkeeps.cell])

/-! ## What is left for a cursor -/

/-- The cell of a storage position holds its entry, if nothing is queued. -/
theorem Inv.cell_entryAt (h : m.Inv) (hp : m.pending = none) {pos : Nat} (hpos : pos < m.extent) :
    m.cell (m.tupleOf (m.entryAt pos)).row (m.tupleOf (m.entryAt pos)).col =
      if m.present pos then some (m.valueAt pos) else none := by
  unfold Matrix.cell tupleOf
  rw [toVector_toCell, value_of_settled hp]
  exact h.laid.stored_of_at (at_place hpos)

theorem Thinned.cell_entryAt (ht : m.Thinned t row col) {pos : Nat} (hpos : pos < m.extent) :
    t.cell (m.tupleOf (m.entryAt pos)).row (m.tupleOf (m.entryAt pos)).col =
      if t.present pos then some (t.valueAt pos) else none := by
  rw [← ht.inv.cell_entryAt ht.pending (ht.extent.symm ▸ hpos)]
  simp only [tupleOf, entryAt, toCell, ht.place, ht.byRow]

/-- An entry that is present after the deletion was present before it. -/
theorem Thinned.entry_eq (ht : m.Thinned t row col) (h : m.Inv) (hp : m.pending = none) {pos : Nat}
    (hpos : pos < m.extent) (hpresent : t.present pos = true) :
    m.present pos = true ∧ t.tupleOf (t.entryAt pos) = m.tupleOf (m.entryAt pos) := by
  have hafter := ht.cell_entryAt hpos
  rw [if_pos hpresent] at hafter
  have hbefore : m.cell (m.tupleOf (m.entryAt pos)).row (m.tupleOf (m.entryAt pos)).col = some (t.valueAt pos) := by
    rcases ht.cell (m.tupleOf (m.entryAt pos)).row (m.tupleOf (m.entryAt pos)).col with hsame | ⟨-, -, hnone⟩
    · rw [← hsame, hafter]
    · rw [hnone] at hafter
      cases hafter
  rw [h.cell_entryAt hp hpos] at hbefore
  split at hbefore
  · next hm =>
    have hvalue : m.valueAt pos = t.valueAt pos := Option.some.inj hbefore
    exact ⟨hm, by simp only [tupleOf, entryAt, toCell, ht.place, ht.byRow, hvalue]⟩
  · cases hbefore

/-- What is left for a cursor after a deletion, out of what was left before it. -/
theorem Thinned.rest_eq (ht : m.Thinned t row col) (h : m.Inv) (hp : m.pending = none) (c : Cursor) :
    t.rest c = (((List.range' c.pos (m.extent - c.pos)).filter m.present).filter t.present).map
      fun pos => m.tupleOf (m.entryAt pos) := by
  have hrange : ∀ pos ∈ List.range' c.pos (m.extent - c.pos), pos < m.extent := by
    intro pos hpos
    have := List.mem_range'_1.1 hpos
    omega
  have hfilter : (List.range' c.pos (m.extent - c.pos)).filter t.present =
      ((List.range' c.pos (m.extent - c.pos)).filter m.present).filter t.present := by
    rw [List.filter_filter]
    refine List.filter_congr fun pos hpos => ?_
    cases hpresent : t.present pos with
    | true => rw [(ht.entry_eq h hp (hrange pos hpos) hpresent).1]; rfl
    | false => rfl
  rw [rest, ht.extent, ← hfilter]
  refine List.map_congr_left fun pos hpos => ?_
  obtain ⟨hmem, hpresent⟩ := List.mem_filter.1 hpos
  exact (ht.entry_eq h hp (hrange pos hmem) hpresent).2

/-- **A deletion adds nothing to what is left.** -/
theorem Thinned.rest_sublist (ht : m.Thinned t row col) (h : m.Inv) (hp : m.pending = none) (c : Cursor) :
    (t.rest c).Sublist (m.rest c) := by
  rw [ht.rest_eq h hp c]
  exact List.filter_sublist.map _

/-- **What is still there is still left.** -/
theorem Thinned.mem_rest (ht : m.Thinned t row col) (h : m.Inv) (hp : m.pending = none) {u : Tuple}
    (hu : u ∈ m.rest c) (hcell : t.cell u.row u.col = some u.value) : u ∈ t.rest c := by
  obtain ⟨pos, hpos, rfl⟩ := List.mem_map.1 hu
  rw [ht.rest_eq h hp c]
  refine List.mem_map_of_mem (List.mem_filter.2 ⟨hpos, ?_⟩)
  have hlt := List.mem_range'_1.1 (List.mem_filter.1 hpos).1
  rw [ht.cell_entryAt (by omega)] at hcell
  by_contra hno
  rw [if_neg hno] at hcell
  cases hcell

end Matrix

/-! ## Taking turns -/

/-- What is done next: a call of the cursor, or a deletion. -/
inductive Turn
  | next
  | remove (row col : Nat)
  deriving DecidableEq

/-- A matrix, a cursor on it, and the calls counted so far. -/
structure Sweep where
  matrix : Matrix
  cursor : Cursor := {}
  counts : CallCounts := {}

namespace Sweep

variable {w w' w'' : Sweep} {turns turns' : List Turn} {us us' : List Tuple}

/-- What the next call of the cursor answers. -/
def answer (w : Sweep) : Option Tuple := (w.cursor.next w.matrix).1

/-- What a turn leaves. A deletion may fail. -/
def turn (w : Sweep) : Turn → Sweep
  | .next => { w with cursor := (w.cursor.next w.matrix).2 }
  | .remove row col =>
    match Matrix.remove row col (w.matrix, w.counts) with
    | .ok _ s | .error _ s => { w with matrix := s.1, counts := s.2 }

/-- What a turn delivers. -/
def yield (w : Sweep) : Turn → List Tuple
  | .next => w.answer.toList
  | .remove .. => []

/-- What a row of turns leaves. -/
def after (w : Sweep) (turns : List Turn) : Sweep := turns.foldl turn w

/-- What a row of turns delivers. -/
def yields (w : Sweep) : List Turn → List Tuple
  | [] => []
  | turn :: turns => w.yield turn ++ (w.turn turn).yields turns

/-- What is left for the cursor. -/
def rest (w : Sweep) : List Tuple := w.matrix.rest w.cursor

/-- Nothing is queued, every vector is in order, and the cursor fits. -/
structure Sound (w : Sweep) : Prop where
  inv : w.matrix.Inv
  pending : w.matrix.pending = none
  jumbled : w.matrix.jumbled = false
  fits : w.cursor.Fits w.matrix

theorem Sound.answer_eq (h : w.Sound) : w.answer = w.rest.head? := (h.inv.laid.next_rest h.fits).1

theorem Sound.rest_next (h : w.Sound) : (w.turn .next).rest = w.rest.tail := (h.inv.laid.next_rest h.fits).2.2

/-- A call of the cursor takes what it delivers off what is left. -/
theorem Sound.yield_next (h : w.Sound) : w.yield .next ++ (w.turn .next).rest = w.rest := by
  rw [yield, h.answer_eq, h.rest_next]
  cases w.rest <;> rfl

theorem Sound.next (h : w.Sound) : (w.turn .next).Sound :=
  ⟨h.inv, h.pending, h.jumbled, (h.inv.laid.next_rest h.fits).2.1⟩

theorem Sound.remove (h : w.Sound) (row col : Nat) :
    (w.turn (.remove row col)).Sound ∧ w.matrix.Thinned (w.turn (.remove row col)).matrix row col ∧
      (w.turn (.remove row col)).cursor = w.cursor := by
  have hensures := h.inv.ensures_remove_thins h.pending h.jumbled row col
  obtain ⟨s, hs, ht⟩ : ∃ s : Matrix × CallCounts, w.turn (.remove row col) =
      { w with matrix := s.1, counts := s.2 } ∧ w.matrix.Thinned s.1 row col := by
    simp only [turn]
    cases hr : Matrix.remove row col (w.matrix, w.counts) with
    | ok done s => exact ⟨s, rfl, hensures.of_ok hr⟩
    | error e s => exact ⟨s, rfl, hensures.of_error hr⟩
  rw [hs]
  exact ⟨⟨ht.inv, ht.pending, ht.jumbled, ht.fits h.fits⟩, ht, rfl⟩

/-! ## What turns preserve -/

/-- `w'` is what turns make of `w` and `us` what they deliver. What was delivered and what is left come from
what was left before, in order; and what is still there has been delivered or is left. -/
structure Proceeds (w : Sweep) (turns : List Turn) (w' : Sweep) (us : List Tuple) : Prop where
  sound : w'.Sound
  shape : w.matrix.SameShape w'.matrix
  sublist : (us ++ w'.rest).Sublist w.rest
  kept : ∀ u ∈ w.rest, w'.matrix.cell u.row u.col = some u.value → u ∈ us ++ w'.rest
  cell : ∀ r c, w'.matrix.cell r c = w.matrix.cell r c ∨ .remove r c ∈ turns ∧ w'.matrix.cell r c = none

theorem Sound.proceeds_nil (h : w.Sound) : w.Proceeds [] w [] where
  sound := h
  shape := .refl _
  sublist := .refl _
  kept _ hu _ := hu
  cell _ _ := .inl rfl

/-- An entry that is there after the turns was there before them. -/
theorem Proceeds.cell_before (h : w.Proceeds turns w' us) {row col : Nat} {v : Scalar}
    (hcell : w'.matrix.cell row col = some v) : w.matrix.cell row col = some v := by
  rcases h.cell row col with hsame | ⟨-, hnone⟩
  · rw [← hsame, hcell]
  · rw [hnone] at hcell
    cases hcell

theorem Proceeds.trans (h : w.Proceeds turns w' us) (h' : w'.Proceeds turns' w'' us') :
    w.Proceeds (turns ++ turns') w'' (us ++ us') where
  sound := h'.sound
  shape := h.shape.trans h'.shape
  sublist := by
    rw [List.append_assoc]
    exact (h'.sublist.append_left us).trans h.sublist
  kept u hu hcell := by
    -- what is there in the end was there in between
    rw [List.append_assoc]
    rcases List.mem_append.1 (h.kept u hu (h'.cell_before hcell)) with hmem | hmem
    · exact List.mem_append_left _ hmem
    · exact List.mem_append_right _ (h'.kept u hmem hcell)
  cell r c := by
    rcases h'.cell r c with hsame | ⟨hmem, hnone⟩
    · rw [hsame]
      exact (h.cell r c).imp_right fun hgone => ⟨List.mem_append_left _ hgone.1, hgone.2⟩
    · exact .inr ⟨List.mem_append_right _ hmem, hnone⟩

/-- **One turn.** -/
theorem Sound.proceeds_turn (h : w.Sound) (turn : Turn) : w.Proceeds [turn] (w.turn turn) (w.yield turn) := by
  cases turn with
  | next =>
    have hrest := h.yield_next
    exact ⟨h.next, .refl _, hrest ▸ .refl _, fun u hu _ => hrest.symm ▸ hu, fun _ _ => .inl rfl⟩
  | remove row col =>
    obtain ⟨hsound, hthinned, hcursor⟩ := h.remove row col
    refine ⟨hsound, hthinned.toSameShape, ?_, fun u hu hcell => ?_, fun r c => ?_⟩
    · rw [rest, hcursor]
      exact hthinned.rest_sublist h.inv h.pending w.cursor
    · change u ∈ (w.turn (.remove row col)).rest
      rw [rest, hcursor]
      exact hthinned.mem_rest h.inv h.pending hu hcell
    · refine (hthinned.cell r c).imp_right ?_
      rintro ⟨rfl, rfl, hnone⟩
      exact ⟨List.mem_singleton_self _, hnone⟩

/-- **Any number of turns.** -/
theorem Sound.proceeds (h : w.Sound) (turns : List Turn) : w.Proceeds turns (w.after turns) (w.yields turns) := by
  induction turns generalizing w with
  | nil => exact h.proceeds_nil
  | cons turn turns ih =>
    have hturn := h.proceeds_turn turn
    exact hturn.trans (ih hturn.sound)

/-- Every call of the cursor delivers something, unless nothing is left. -/
theorem Sound.length_yields (h : w.Sound) (turns : List Turn) :
    (w.yields turns).length = turns.count .next ∨ (w.after turns).rest = [] := by
  induction turns generalizing w with
  | nil => exact .inl rfl
  | cons turn turns ih =>
    rcases ih (h.proceeds_turn turn).sound with hlength | hdone
    · cases turn with
      | remove row col => exact .inl hlength
      | next =>
        cases hrest : w.rest with
        | nil =>
          -- a call that finds nothing left is the last one that could have found something
          have hsublist := (h.proceeds (.next :: turns)).sublist
          rw [hrest] at hsublist
          exact .inr (List.append_eq_nil_iff.1 (List.sublist_nil.1 hsublist)).2
        | cons u us =>
          left
          rw [yields, yield, h.answer_eq, hrest, List.length_append, hlength, List.count_cons_self, Nat.add_comm]
          rfl
    · exact .inr hdone

/-- Calls of the cursor alone deliver the beginning of what is left. -/
theorem Sound.yields_next (h : w.Sound) (hnext : ∀ turn ∈ turns, turn = Turn.next) :
    w.yields turns = w.rest.take turns.length := by
  induction turns generalizing w with
  | nil => rfl
  | cons turn turns ih =>
    obtain rfl := hnext turn List.mem_cons_self
    rw [yields, ih h.next fun turn hmem => hnext turn (List.mem_cons_of_mem _ hmem), yield, h.answer_eq, h.rest_next]
    cases w.rest with
    | nil => simp
    | cons u us => rfl

end Sweep

/-! ## What a caller can rely on -/

namespace Matrix

/-- One tuple comes before another in the order of vector and index. -/
def Ahead (m : Matrix) (a b : Tuple) : Prop :=
  Before (m.entryOf a).j (m.entryOf a).i (m.entryOf b).j (m.entryOf b).i

end Matrix

/-- What turns on a matrix deliver, and what the next call of the cursor does. -/
structure Sweep.Covers (start : Sweep) (turns : List Turn) : Prop where
  /-- Tuples are delivered in the order of vector and index, none twice. -/
  ascending : (start.yields turns).Pairwise start.matrix.Ahead
  /-- What is delivered next is there. -/
  present : ∀ u, (start.after turns).answer = some u →
    (start.after turns).matrix.extract u.row u.col = .ok (some u.value)
  /-- Only a deletion of its own takes an entry away. -/
  gone : ∀ row col, (start.after turns).matrix.extract row col = start.matrix.extract row col ∨
    .remove row col ∈ turns ∧ (start.after turns).matrix.extract row col = .ok none
  /-- An entry that is never taken away has been delivered once, if there were as many calls as entries, or when
  the cursor has come to its end. -/
  once : start.matrix.tuples.size ≤ turns.count .next ∨ (start.after turns).answer = none →
    ∀ row col v, start.matrix.extract row col = .ok (some v) →
      (start.after turns).matrix.extract row col ≠ .ok none → (start.yields turns).count ⟨row, col, v⟩ = 1
  /-- The cursor has come to its end exactly if no entry lies beyond all that was delivered. -/
  dry : (start.after turns).answer = none ↔
    ∀ row col v, (start.after turns).matrix.extract row col = .ok (some v) →
      ∃ u ∈ start.yields turns, ¬start.matrix.Ahead u ⟨row, col, v⟩
  /-- From then on it delivers nothing. -/
  dried : (start.after turns).answer = none → ∀ more, ((start.after turns).after more).answer = none
  /-- Without deletions, the calls enumerate the content. -/
  whole : (∀ turn ∈ turns, turn = .next) →
    start.yields turns = start.matrix.tuples.toList.take turns.length

namespace Sweep

variable {w : Sweep} {turns : List Turn}

theorem Sound.answer_eq_none_iff (h : w.Sound) : w.answer = none ↔ w.rest = [] := by
  rw [h.answer_eq, List.head?_eq_none_iff]

/-- For a fresh cursor all tuples are left. -/
theorem Sound.rest_fresh (h : w.Sound) (hfresh : w.cursor = {}) : w.rest = w.matrix.tuples.toList := by
  rw [rest, hfresh, Matrix.rest_start, h.inv.laid.tuples_eq]

theorem Sound.rest_ascends (h : w.Sound) (hfresh : w.cursor = {}) : w.rest.Pairwise w.matrix.Ahead := by
  rw [rest, hfresh, Matrix.rest_start, List.pairwise_map]
  simp only [Matrix.Ahead, Matrix.entryOf_tupleOf]
  exact h.inv.laid.entries_sorted h.jumbled

theorem Sound.mem_rest_fresh (h : w.Sound) (hfresh : w.cursor = {}) {u : Tuple} :
    u ∈ w.rest ↔ w.matrix.cell u.row u.col = some u.value := by
  rw [h.rest_fresh hfresh]
  exact h.inv.mem_tuples h.pending

/-- What turns leave in a cell. -/
theorem Proceeds.extract_cases {us : List Tuple} {w' : Sweep} (h : w.Proceeds turns w' us) (hw : w.Sound)
    (row col : Nat) : w'.matrix.extract row col = w.matrix.extract row col ∨
      .remove row col ∈ turns ∧ w'.matrix.extract row col = .ok none := by
  rcases h.cell row col with hsame | ⟨hmem, hnone⟩
  · exact .inl (hw.inv.extract_congr h.sound.inv h.shape.nrows h.shape.ncols hsame)
  · by_cases hin : row < w'.matrix.nrows ∧ col < w'.matrix.ncols
    · exact .inr ⟨hmem, by rw [h.sound.inv.extract_eq hin.1 hin.2, hnone]⟩
    · -- outside there was nothing to delete
      have hout : w.matrix.cell row col = none := by
        rw [h.shape.nrows, h.shape.ncols] at hin
        exact hw.inv.cell_of_out hin
      exact .inl (hw.inv.extract_congr h.sound.inv h.shape.nrows h.shape.ncols (hnone.trans hout.symm))

/-- Nothing is left after as many calls as there were tuples. -/
theorem Sound.rest_eq_nil_of_count (h : w.Sound) (henough : w.rest.length ≤ turns.count .next) :
    (w.after turns).rest = [] := by
  rcases h.length_yields turns with hlength | hdone
  · have hle := (h.proceeds turns).sublist.length_le
    rw [List.length_append, hlength] at hle
    exact List.length_eq_zero_iff.1 (by omega)
  · exact hdone

theorem not_ahead_self (m : Matrix) (u : Tuple) : ¬m.Ahead u u := fun hu => hu.ne ⟨rfl, rfl⟩

/-- **What turns deliver out of a sound state**, if the cursor is fresh. -/
theorem Sound.covers (h : w.Sound) (hfresh : w.cursor = {}) (turns : List Turn) : w.Covers turns := by
  have hrun := h.proceeds turns
  have hafter := hrun.sound
  obtain ⟨hascends, -, hahead⟩ := List.pairwise_append.1 ((h.rest_ascends hfresh).sublist hrun.sublist)
  -- an entry that is still there has been delivered or is left
  have hkept : ∀ {row col v}, (w.after turns).matrix.cell row col = some v →
      ⟨row, col, v⟩ ∈ w.yields turns ++ (w.after turns).rest := fun hcell =>
    hrun.kept _ ((h.mem_rest_fresh hfresh).2 (hrun.cell_before hcell)) hcell
  have hdelivered : (w.after turns).rest = [] → ∀ {row col v}, (w.after turns).matrix.cell row col = some v →
      ⟨row, col, v⟩ ∈ w.yields turns := by
    intro hdone row col v hcell
    have hmem := hkept hcell
    rwa [hdone, List.append_nil] at hmem
  refine
    { ascending := hascends
      present := fun u hu => ?_
      gone := hrun.extract_cases h
      once := fun henough row col v hv hstays => ?_
      dry := ⟨fun hend row col v hv => ?_, fun hbehind => ?_⟩
      dried := fun hend more => ?_
      whole := fun hnext => ?_ }
  · rw [hafter.answer_eq] at hu
    exact hafter.inv.extract_eq_some_iff.2 (hafter.inv.cell_of_mem_rest hafter.pending (List.mem_of_mem_head? hu))
  · have hdone : (w.after turns).rest = [] := by
      rcases henough with hcount | hend
      · refine h.rest_eq_nil_of_count ?_
        rw [h.rest_fresh hfresh]
        exact hcount
      · exact hafter.answer_eq_none_iff.1 hend
    have hcell : (w.after turns).matrix.cell row col = some v := by
      rcases hrun.extract_cases h row col with hsame | ⟨-, hnone⟩
      · exact hafter.inv.extract_eq_some_iff.1 (hsame.trans hv)
      · exact absurd hnone hstays
    have hnodup : (w.yields turns).Nodup := by
      refine hascends.imp ?_
      rintro u _ hu rfl
      exact not_ahead_self _ u hu
    exact List.count_eq_one_of_mem hnodup (hdelivered hdone hcell)
  · have hmem := hdelivered (hafter.answer_eq_none_iff.1 hend) (hafter.inv.extract_eq_some_iff.1 hv)
    exact ⟨_, hmem, not_ahead_self _ _⟩
  · rw [hafter.answer_eq_none_iff, List.eq_nil_iff_forall_not_mem]
    intro u hu
    have hcell := hafter.inv.extract_eq_some_iff.2 (hafter.inv.cell_of_mem_rest hafter.pending hu)
    obtain ⟨u', hu', hnot⟩ := hbehind _ _ _ hcell
    exact hnot (hahead u' hu' u hu)
  · have hmore := hafter.proceeds more
    have hleft := hmore.sublist
    rw [hafter.answer_eq_none_iff.1 hend] at hleft
    exact hmore.sound.answer_eq_none_iff.2 (List.append_eq_nil_iff.1 (List.sublist_nil.1 hleft)).2
  · rw [← h.rest_fresh hfresh]
    exact h.yields_next hnext

end Sweep

namespace Matrix

variable {m : Matrix}

/-- **A cursor over a committed matrix** whose entries are deleted between the calls: it delivers in order what
is there at the time, misses nothing that stays, and ends when nothing lies ahead. -/
theorem Reachable.sweeps (h : m.Reachable) {n : CallCounts} {s : Matrix × CallCounts}
    (hwait : wait (m, n) = .ok () s) (turns : List Turn) :
    Sweep.Covers { matrix := s.1, counts := s.2 } turns := by
  obtain ⟨hinv, -, hdef⟩ := (ensures_wait h.inv).of_ok hwait
  obtain ⟨hpending, -, hjumbled⟩ := deferred_eq_false_iff.1 hdef
  have hsound : Sweep.Sound { matrix := s.1, counts := s.2 } := ⟨hinv, hpending, hjumbled, hinv.laid.fits_start⟩
  exact hsound.covers rfl turns

/-- Four ones. -/
def quartet : Matrix :=
  { type := .int64, nrows := 2, ncols := 2, iso := true, store := .full #[.int64 1] }

/-- The matrix is full when the cursor sets out, and a bitmap when it comes to its end. -/
theorem sweeps_of_full :
    let start : Sweep := { matrix := quartet, counts := { commit := 1 } }
    let turns : List Turn := [.next, .remove 0 1, .remove 5 0, .next, .remove 0 0, .next]
    wait (quartet, {}) = .ok () (quartet, { commit := 1 }) ∧ start.Covers turns ∧
      start.yields turns = [⟨0, 0, .int64 1⟩, ⟨1, 0, .int64 1⟩, ⟨1, 1, .int64 1⟩] ∧
      (start.after turns).matrix.format = .bitmap ∧ (start.after turns).answer = none := by
  intro start turns
  have hbuilt : (outcome (ofTuples .int64 2 2 true [⟨0, 0, .int64 1⟩, ⟨0, 1, .int64 1⟩, ⟨1, 0, .int64 1⟩,
      ⟨1, 1, .int64 1⟩] .second {} (((), {}) : Unit × CallCounts))).1.toOption = some quartet := by decide +kernel
  have hnew : quartet.Reachable := .built (by decide) (eq_ok_of_outcome hbuilt)
  have hwait : wait (quartet, {}) = .ok () (quartet, { commit := 1 }) := rfl
  have hrun : start.yields turns = [⟨0, 0, .int64 1⟩, ⟨1, 0, .int64 1⟩, ⟨1, 1, .int64 1⟩] ∧
      (start.after turns).matrix.format = .bitmap ∧ (start.after turns).answer = none := by decide +kernel
  exact ⟨hwait, hnew.sweeps hwait turns, hrun⟩

end Matrix

end Adjacency
