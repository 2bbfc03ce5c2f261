import Adjacency.Proofs.GuardedReading
import Adjacency.Proofs.Kernels
import Adjacency.Proofs.SlotBound

/-!
# Three readers of one index

An index is read in three ways that have no code in common. A product walks one vector after the other, a change
of format and every copy follow the cursor over the whole matrix, and each point call begins with the lookup of a
place. Here they are held against each other, in any format and whatever is still deferred: tombstones, queued
tuples, jumbled vectors.

* `Laid.vectorEntries_eq_tuples`: the walk of a vector is the part of the cursor's list that belongs to it.
* `Laid.mem_tuples_iff`, `Laid.liveAt_iff`: the cursor yields a position, and the lookup finds it alive, for the
  same storage positions.
* `Laid.storedValue_eq`: those positions hold a value.
* `Matrix.ReadersAgree`, `Reachable.readers_agree`: **the three readers agree, in every matrix there can be.**
* `Graph.Reaches.reachable`: the matrices of a graph are among these, also after it has run out of memory.
-/

namespace Adjacency

open Metered

namespace Matrix

variable {m : Matrix} {row col i j pos : Nat} {v : Scalar}

/-! ## What the lookup finds alive -/

/-- The storage position that an outcome of the lookup reports as live: a dense cell that is present, or a slot
that is no tombstone. -/
def livePosition (m : Matrix) : Place → Option Nat
  | .cell pos => if m.cellPresent pos then some pos else none
  | .live pos => some pos
  | .zombie _ | .absent => none

/-- The lookup of a cell reports a storage position as live. -/
def LiveAt (m : Matrix) (row col pos : Nat) : Prop :=
  m.livePosition (m.locate (m.toVector row col).1 (m.toVector row col).2) = some pos

/-- The value stored for a position, if the array of values reaches so far; an iso matrix has one for all. -/
def storedValue (m : Matrix) (pos : Nat) : Option Scalar :=
  m.store.values[if m.iso then 0 else pos]?

theorem Laid.storedValue_eq (h : m.Laid) (hpos : pos < m.extent) :
    m.storedValue pos = some (m.valueAt pos) := by
  have hsize := h.values
  unfold storedValue valueAt shared
  by_cases hi : m.iso = true
  · rw [if_pos hi] at hsize
    have hfirst : 0 < m.store.values.size := by omega
    simp [hi, hfirst]
  · rw [if_neg hi] at hsize
    have hlt : pos < m.store.values.size := by omega
    simp [hi, hlt]

/-- **The lookup finds a position alive** if it is that of the place, and present. -/
theorem Laid.livePosition_locate (h : m.Laid) (hi : i < m.vlen) (hj : j < m.vdim) :
    m.livePosition (m.locate i j) = some pos ↔ m.At i j pos ∧ m.present pos = true := by
  have hlocate := h.locate_cases hi hj
  cases hl : m.locate i j with
  | cell q =>
    rw [hl] at hlocate
    obtain ⟨hd, hat⟩ := hlocate
    rw [livePosition, ← present_dense hd, Option.ite_none_right_eq_some, Option.some.injEq]
    constructor
    · rintro ⟨hp, rfl⟩
      exact ⟨hat, hp⟩
    · rintro ⟨hat', hp⟩
      have hq := h.at_unique hat hat'
      exact ⟨hq ▸ hp, hq⟩
  | live q =>
    rw [hl] at hlocate
    obtain ⟨-, hat, hp⟩ := hlocate
    rw [livePosition, Option.some.injEq]
    constructor
    · intro hq
      exact hq ▸ ⟨hat, hp⟩
    · intro hother
      exact h.at_unique hat hother.1
  | zombie q =>
    -- the only position of the place is a tombstone
    rw [hl] at hlocate
    obtain ⟨-, hat, hdead⟩ := hlocate
    simp only [livePosition, reduceCtorEq, false_iff]
    rintro ⟨hat', hp⟩
    rw [← h.at_unique hat hat', hdead] at hp
    cases hp
  | absent =>
    rw [hl] at hlocate
    simp only [livePosition, reduceCtorEq, false_iff]
    intro hother
    exact hlocate.2 pos hother.1

theorem Laid.liveAt_iff (h : m.Laid) (hr : row < m.nrows) (hc : col < m.ncols) :
    m.LiveAt row col pos ↔
      m.At (m.toVector row col).1 (m.toVector row col).2 pos ∧ m.present pos = true := by
  obtain ⟨hi, hj⟩ := toVector_lt hr hc
  exact h.livePosition_locate hi hj

/-! ## What the cursor yields -/

/-- **The cursor yields a tuple** for each position that is present, with the value there. -/
theorem Laid.mem_tuples_iff (h : m.Laid) : ⟨row, col, v⟩ ∈ m.tuples ↔
    ∃ pos, m.At (m.toVector row col).1 (m.toVector row col).2 pos ∧ m.present pos = true ∧
      m.valueAt pos = v := by
  rw [← Array.mem_toList_iff, h.mem_tuples, h.mem_entries, h.stored_eq_some_iff]
  rfl

/-- No position is yielded twice. -/
theorem Laid.tuples_nodup (h : m.Laid) : (m.tuples.toList.map fun t => (t.row, t.col)).Nodup := by
  rw [h.tuples_eq, List.map_map, List.Nodup, List.pairwise_map]
  refine h.entries_distinct.imp ?_
  intro a b hne heq
  -- row and column determine index and vector
  have hplace : (a.i, a.j) = (b.i, b.j) := by
    have hcell : m.toCell a.i a.j = m.toCell b.i b.j := heq
    rw [← toVector_toCell (m := m) a.i a.j, ← toVector_toCell (m := m) b.i b.j, hcell]
  obtain ⟨hi, hj⟩ := Prod.mk.inj hplace
  exact hne ⟨hj, hi⟩

/-! ## The walk of one vector -/

/-- **The walk of a vector** visits what the cursor yields for that vector, in the same order. -/
theorem Laid.vectorEntries_eq_tuples (h : m.Laid) (j : Nat) :
    m.vectorEntries j = (m.tuples.toList.filter fun t => (m.toVector t.row t.col).2 == j).map
      fun t => ((m.toVector t.row t.col).1, t.value) := by
  have hcursor : ((m.tuples.toList.filter fun t => (m.toVector t.row t.col).2 == j).map
      fun t => ((m.toVector t.row t.col).1, t.value)) =
      (m.entries.filter fun e => e.j == j).map fun e => (e.i, e.value) := by
    rw [h.tuples_eq, List.filter_map, List.map_map]
    simp only [Function.comp_def, tupleOf, toVector_toCell]
  rw [hcursor]
  rcases Nat.lt_or_ge j m.vdim with hj | hj
  · exact h.vectorEntries_eq hj
  · -- no entry stands beyond the last vector
    have hnone : (m.entries.filter fun e => e.j == j) = [] := by
      rw [List.filter_eq_nil_iff]
      intro e he
      have hlt := (h.entry_lt he).2
      simp only [beq_iff_eq]
      omega
    rw [hnone, vectorEntries, if_pos hj, List.map_nil]

/-! ## Agreement -/

/-- The walk of a vector, the cursor and the lookup of a place show the same entries of the index. -/
structure ReadersAgree (m : Matrix) : Prop where
  /-- None of them reaches beyond an array. -/
  inside : (∀ j, Guarded.vectorEntries .wrapping m j = .ok (m.vectorEntries j)) ∧
    Guarded.tuples .wrapping m = .ok m.tuples ∧
    ∀ row < m.nrows, ∀ col < m.ncols,
      Guarded.locate .wrapping m (m.toVector row col).1 (m.toVector row col).2 =
        .ok (m.locate (m.toVector row col).1 (m.toVector row col).2)
  /-- The walk of a vector visits the indices and values that the cursor yields for it, in the same order. -/
  walk : ∀ j, m.vectorEntries j = (m.tuples.toList.filter fun t => (m.toVector t.row t.col).2 == j).map
    fun t => ((m.toVector t.row t.col).1, t.value)
  /-- Beyond the last vector it visits nothing. -/
  beyond : ∀ j, m.vdim ≤ j → m.vectorEntries j = []
  /-- The cursor yields no position twice. -/
  once : (m.tuples.toList.map fun t => (t.row, t.col)).Nodup
  /-- The lookup reports a live slot exactly where the cursor yields something. -/
  found : ∀ row < m.nrows, ∀ col < m.ncols,
    (∃ pos, m.LiveAt row col pos) ↔ ∃ v, ⟨row, col, v⟩ ∈ m.tuples
  /-- The value stored for the slot is the one yielded. -/
  value : ∀ row < m.nrows, ∀ col < m.ncols, ∀ pos v,
    m.LiveAt row col pos → ⟨row, col, v⟩ ∈ m.tuples → m.storedValue pos = some v

/-- **The three readers agree**, in every matrix there can be. -/
theorem Reachable.readers_agree (h : m.Reachable) : m.ReadersAgree := by
  have hl : m.Laid := h.inv.laid
  refine
    { inside := ⟨hl.guarded_vectorEntries, hl.guarded_tuples, fun row hr col hc => ?_⟩
      walk := hl.vectorEntries_eq_tuples
      beyond := fun j hj => if_pos hj
      once := hl.tuples_nodup
      found := fun row hr col hc => ?_
      value := fun row hr col hc pos v hlive hmem => ?_ }
  · exact hl.guarded_locate (toVector_lt hr hc).1 (toVector_lt hr hc).2
  · simp only [hl.liveAt_iff hr hc, hl.mem_tuples_iff]
    constructor
    · rintro ⟨pos, hat, hp⟩
      exact ⟨_, pos, hat, hp, rfl⟩
    · rintro ⟨_, pos, hat, hp, -⟩
      exact ⟨pos, hat, hp⟩
  · -- both have seen the one position of the place
    obtain ⟨hat, -⟩ := (hl.liveAt_iff hr hc).1 hlive
    obtain ⟨q, hat', -, rfl⟩ := hl.mem_tuples_iff.1 hmem
    rw [hl.at_unique hat hat', hl.storedValue_eq hat'.1]

/-- Columns of an 8 by 8 matrix. In the third one an entry stands before a tombstone, and a write is queued. -/
def partlyDeleted : Matrix :=
  { type := .int64, nrows := 8, ncols := 8, byRow := false, zombies := 1
    store := .sparse #[0, 0, 0, 2, 2, 2, 3, 3, 3] #[⟨1, false⟩, ⟨3, true⟩, ⟨0, false⟩]
      #[.int64 10, .int64 13, .int64 7]
    pending := some { tuples := #[⟨4, 2, some (.int64 9)⟩], type := .int64, op := .second } }

/-- A row as a product leaves it: index 5 was met before index 1. -/
def scrambled : Matrix :=
  { type := .int64, nrows := 1, ncols := 8, jumbled := true
    store := .hypersparse #[0] #[0, 2] #[⟨5, false⟩, ⟨1, false⟩] #[.int64 12, .int64 6] }

theorem partlyDeleted_reachable : partlyDeleted.Reachable := by
  have hbuilt : (outcome (ofTuples .int64 8 8 false [⟨1, 2, .int64 10⟩, ⟨3, 2, .int64 13⟩, ⟨0, 5, .int64 7⟩]
      .second {} (((), {}) : Unit × CallCounts))).1.toOption = some { partlyDeleted with
        store := partlyDeleted.store.mapSlots (·.modify 1 fun slot => { slot with dead := false })
        zombies := 0, pending := none } := by decide +kernel
  have hnew := Reachable.built (by decide) (eq_ok_of_outcome hbuilt)
  have hburied : ({ partlyDeleted with pending := none } : Matrix).Reachable :=
    hnew.requested (r := .remove 3 2) (a := .removed true) (n := {}) (s := (_, {})) trivial rfl
  exact hburied.requested (r := .set (.int64 9) 4 2) (a := .done) (n := {}) (s := (_, {})) trivial rfl

theorem scrambled_reachable : scrambled.Reachable := by
  have hlimit : ({} : MatrixOptions).maxDenseCells < UInt64.size := by decide
  have hrow : Reachable (waiting (.int64 2) 1 2 #[⟨0, 0, none⟩]) :=
    (Reachable.created hlimit (show withOptions .int64 1 2 {} = .ok _ from rfl)).requested
      (r := .set (.int64 2) 0 0) (a := .done) (n := {}) (s := (_, {})) trivial rfl
  have ha : Reachable (waiting (.int64 2) 1 2 #[⟨0, 0, none⟩, ⟨1, 0, none⟩]) :=
    hrow.requested (r := .set (.int64 2) 0 1) (a := .done) (n := {}) (s := (_, {})) trivial rfl
  have hone : Reachable (waiting (.int64 3) 2 8 #[⟨5, 0, none⟩]) :=
    (Reachable.created hlimit (show withOptions .int64 2 8 {} = .ok _ from rfl)).requested
      (r := .set (.int64 3) 0 5) (a := .done) (n := {}) (s := (_, {})) trivial rfl
  have htwo : Reachable (waiting (.int64 3) 2 8 #[⟨5, 0, none⟩, ⟨1, 1, none⟩]) :=
    hone.requested (r := .set (.int64 3) 1 1) (a := .done) (n := {}) (s := (_, {})) trivial rfl
  have hb : Reachable (waiting (.int64 3) 2 8 #[⟨5, 0, none⟩, ⟨1, 1, none⟩, ⟨5, 1, none⟩]) :=
    htwo.requested (r := .set (.int64 3) 1 5) (a := .done) (n := {}) (s := (_, {})) trivial rfl
  have hproduct : (outcome ((waiting (.int64 2) 1 2 #[⟨0, 0, none⟩, ⟨1, 0, none⟩]).product
      (waiting (.int64 3) 2 8 #[⟨5, 0, none⟩, ⟨1, 1, none⟩, ⟨5, 1, none⟩]) .plusTimes {}
      (((), {}) : Unit × CallCounts))).1.toOption = some scrambled := by decide +kernel
  exact .product hlimit ha hb (eq_ok_of_outcome hproduct)

/-- A tombstone and a queued write in a matrix by columns, and a row out of order. -/
theorem readers_agree_unsettled : partlyDeleted.ReadersAgree ∧
    partlyDeleted.vectorEntries 2 = [(1, .int64 10)] ∧ partlyDeleted.LiveAt 1 2 0 ∧
    (¬∃ v, ⟨3, 2, v⟩ ∈ partlyDeleted.tuples) ∧
    scrambled.ReadersAgree ∧ scrambled.vectorEntries 0 = [(5, .int64 12), (1, .int64 6)] ∧
    scrambled.LiveAt 0 1 1 := by
  have hunsettled := partlyDeleted_reachable.readers_agree
  refine ⟨hunsettled, rfl, rfl, ?_, scrambled_reachable.readers_agree, rfl, rfl⟩
  rw [← hunsettled.found 3 (by decide) 2 (by decide)]
  rintro ⟨pos, hlive⟩
  cases hlive

end Matrix

/-! ## The matrices of a graph -/

namespace Metered

/-- What an action leaves behind does not depend on what is made of its answer. -/
theorem Leaves.of_map {σ α β : Type} {s : σ} {P : σ → Prop} {act : Metered σ α} (f : α → β)
    (h : Leaves (f <$> act) s P) : Leaves act s P := by
  intro n
  have hn := h n
  simp only [Functor.map, EStateM.map] at hn
  cases hr : act (s, n) with
  | ok a t =>
    rw [hr] at hn
    exact hn
  | error e t =>
    rw [hr] at hn
    exact hn

end Metered

/-- However a call ends, it leads on to a matrix there can be. -/
theorem Matrix.Reachable.leaves_request {m : Matrix} (h : m.Reachable) {r : Matrix.Request} (hr : r.Sized) :
    Leaves r.perform m Matrix.Reachable := by
  intro n
  cases hs : r.perform (m, n) with
  | ok a s => exact h.requested hr hs
  | error e s => exact h.refused hr hs

namespace Graph

variable {g : Graph} {part : Part} {m : Matrix}

/-- A graph makes no calls on its matrices but those that anyone can make. -/
theorem lasting_reachable : Lasting Matrix.Reachable where
  set _ row col h :=
    have hset := h.leaves_request (r := .set (.bool true) row col) trivial
    .of_map (fun _ => ()) (.of_map (fun _ => Matrix.Answer.done) hset)
  remove _ row col h := .of_map Matrix.Answer.removed (h.leaves_request (r := .remove row col) trivial)
  wait _ h := .of_map (fun _ => Matrix.Answer.done) (h.leaves_request (r := .wait) trivial)
  resize _ dim h :=
    .of_map (fun _ => Matrix.Answer.done) (h.leaves_request (r := .resize dim dim) trivial)

/-- **The matrices of a graph are among those there can be**, whatever calls on the graph have failed. -/
theorem Reaches.reachable {options : GraphOptions} (hlimit : options.matrix.maxDenseCells < UInt64.size)
    (h : (new options).Reaches g) (hm : g.matrix? part = some m) : m.Reachable :=
  h.every hlimit lasting_reachable (fun _ ht _ hnew => .created ht.limit hnew) part m hm

end Graph

end Adjacency
