import Adjacency.Proofs.Displaced
import Adjacency.Proofs.Reservations
import Adjacency.Proofs.SlotBound

/-!
# Tombstones

Where nothing is queued, an entry of a sparse format that is deleted leaves a tombstone, and the next write to
its cell takes the tombstone's place. No trace of the old value is left.

* `Matrix.SameIndex`: the same slots in the same format, under the same queue.
* `Inv.ensures_remove_live`: **a deletion leaves a tombstone.**
* `Buried.ensures_accumulate`: **a write brings it back to life**, with the new value alone.
* `Reachable.revives`: both, one after the other, as a caller sees them.
-/

namespace Adjacency

open Metered

namespace Matrix

variable {m s t u : Matrix} {i j row col : Nat} {v : Scalar} {op : DupOp}

/-- As many slots, in the same format, under the same queue. -/
structure SameIndex (m t : Matrix) : Prop where
  format : t.format = m.format
  slots : t.store.slots.size = m.store.slots.size
  pending : t.pending = m.pending

theorem SameIndex.refl (m : Matrix) : m.SameIndex m := ⟨rfl, rfl, rfl⟩

theorem SameIndex.trans (h : m.SameIndex t) (h' : t.SameIndex u) : m.SameIndex u :=
  ⟨h'.format.trans h.format, h'.slots.trans h.slots, h'.pending.trans h.pending⟩

theorem SameIndex.dense (h : m.SameIndex t) : t.store.dense = m.store.dense := by
  rw [Storage.dense_eq, Storage.dense_eq]
  exact congrArg Format.dense h.format

theorem Inv.sameIndex_ordered (h : m.Inv) : m.SameIndex (if m.jumbled then m.unjumbled else m) := by
  split
  · next hj =>
    have hd := h.sparse_of_deferred (by simp [Matrix.deferred, hj])
    refine ⟨?_, h.laid.unjumbled_size hd, rfl⟩
    rw [format, unjumbled_store m hd]
    split
    · exact Storage.format_mapSlots _ _
    · rw [Storage.format_mapValues, Storage.format_mapSlots, format]
  · exact SameIndex.refl m

theorem sameIndex_bury (m : Matrix) (pos : Nat) : m.SameIndex (m.bury pos) :=
  ⟨m.store.format_mapSlots _, size_slots_bury m pos, rfl⟩

theorem sameIndex_revive (m : Matrix) (pos i : Nat) (v : Scalar) : m.SameIndex (m.revive pos i v) := by
  refine ⟨?_, size_slots_revive m pos i v, rfl⟩
  have hstore : (m.revive pos i v).store =
      (if m.iso then m.store else m.store.mapValues (·.setIfInBounds pos v)).mapSlots
        (·.setIfInBounds pos { index := i }) := rfl
  rw [format, hstore, Storage.format_mapSlots]
  split
  · rfl
  · exact m.store.format_mapValues _

theorem sameIndex_revalued (m : Matrix) (f : Array Scalar → Array Scalar) (iso : Bool) :
    m.SameIndex (m.revalued f iso) :=
  ⟨m.store.format_mapValues f, congrArg Array.size (m.store.slots_mapValues f), rfl⟩

/-! ## Deletion -/

/-- `t` is `m`, sorted, with a tombstone for the entry of one place. -/
structure Buried (m t : Matrix) (i j : Nat) : Prop where
  inv : t.Inv
  puts : m.Puts t i j none
  index : m.SameIndex t
  zombies : t.zombies = m.zombies + 1
  sorted : t.jumbled = false
  /-- The place has a slot. -/
  slot : ∃ pos, t.At i j pos

theorem Inv.ensures_tryRemove_live (h : m.Inv) (hd : m.store.dense = false) (hp : m.pending = none)
    {old : Scalar} (hold : m.value i j = some old) : Ensures (tryRemove i j) m
      (fun done t => done = some true ∧ m.Buried t i j) (fun _ _ => False) := by
  unfold tryRemove
  refine ensures_update_then ?_
  obtain ⟨hinv, hkeeps, hj, hpend⟩ := h.ordered
  have hindex := h.sameIndex_ordered
  have hzombies : (if m.jumbled then m.unjumbled else m).zombies = m.zombies := by split <;> rfl
  generalize (if m.jumbled then m.unjumbled else m) = s at hinv hkeeps hj hpend hindex hzombies
  refine ensures_subject ?_
  have hsd := hindex.dense.trans hd
  have hstored : s.stored i j = some old := by
    rw [← value_of_settled (hpend.trans hp), hkeeps.value, hold]
  obtain ⟨pos, hloc⟩ := hinv.laid.locate_of_stored hsd hstored
  have hb : i < s.vlen ∧ j < s.vdim := by
    by_contra hb
    rw [stored, if_neg hb] at hstored
    cases hstored
  have hcases := hinv.laid.locate_cases hb.1 hb.2
  rw [hloc] at hcases ⊢
  obtain ⟨-, hat, hpres⟩ := hcases
  obtain ⟨hbinv, hputs⟩ := hinv.bury hsd hat hpres
  have hre := reslots_bury hsd (extent_sparse hsd ▸ hat.1)
  exact ensures_update_then (ensures_pure ⟨rfl, hbinv, hkeeps.puts hputs,
    hindex.trans (sameIndex_bury s pos), congrArg (· + 1) hzombies, hj, pos, (hre.at_iff hsd).2 hat⟩)

/-- **A deletion leaves a tombstone**, if there is an entry and nothing is queued. -/
theorem Inv.ensures_remove_live (h : m.Inv) (hd : m.store.dense = false) (hp : m.pending = none)
    {old : Scalar} (hold : m.cell row col = some old) : Ensures (remove row col) m
      (fun done t => done = true ∧ m.Buried t (m.toVector row col).1 (m.toVector row col).2)
      (fun _ _ => False) := by
  obtain ⟨hr, hc⟩ := h.lt_of_cell hold
  unfold remove
  refine ensures_subject ?_
  rw [checkBounds_eq_ok hr hc]
  refine ensures_require_then (fun e he => by cases he) fun _ _ => ?_
  dsimp only
  refine (h.ensures_tryRemove_live hd hp hold).bind ?_
  rintro _ t ⟨rfl, ht⟩
  exact ensures_pure ⟨rfl, ht⟩

/-! ## Revival -/

/-- Room for a write over a tombstone: at most, every entry gets a value of its own. -/
theorem Modest.ensures_prepareWrite (h : m.Modest) (hd : m.store.dense = false) (hp : m.pending = none)
    (hj : m.jumbled = false) (hpos : 0 < m.store.slots.size) (v : Scalar) (op : DupOp) :
    Ensures (prepareWrite v op) m (fun _ t => ∃ f iso, t = m.revalued f iso) (fun _ _ => False) := by
  have hself : ∃ f iso, m = m.revalued f iso := by
    refine ⟨id, m.iso, ?_⟩
    unfold revalued
    have hstore : m.store.mapValues id = m.store := by cases m.store <;> rfl
    rw [hstore]
  have hslots : m.slotCount ≠ 0 := by
    rw [slotCount_sparse hd]
    omega
  unfold prepareWrite
  refine ensures_update_then ?_
  rw [if_neg (by simp [hj])]
  refine ensures_subject (ensures_ite (fun _ => ?_) fun _ => ?_)
  · refine ensures_ite (fun _ => ?_) fun _ => ensures_pure hself
    rw [if_neg (by simp [hp])]
    unfold expandIso
    refine ensures_subject (ensures_ite (fun _ => ?_) fun _ => ensures_pure hself)
    -- memory for as many values as there are slots can be had again
    have hsize : m.expandedSize = m.store.slots.size := by rw [expandedSize, hd]; rfl
    refine ensures_reserve_large (fun hlarge => ?_) (ensures_put ⟨_, false, rfl⟩)
    exact absurd hlarge (by rw [hsize]; exact Nat.not_le.2 h)
  · exact ensures_ite (fun hc => absurd hc.1 hslots) fun _ => ensures_pure hself

theorem Buried.ensures_tryWrite (h : m.Buried t i j) (hm : t.Modest) (hd : t.store.dense = false)
    (hp : t.pending = none) {raw : Scalar} (hv : v.type = t.type) (op : DupOp) :
    Ensures (tryWrite raw v i j op) t
      (fun done u => done = some .resurrected ∧ t.SameIndex u ∧ u.zombies = t.zombies - 1)
      (fun _ _ => False) := by
  obtain ⟨pos, hat⟩ := h.slot
  have hpos : pos < t.store.slots.size := extent_sparse hd ▸ hat.1
  obtain ⟨hi, hj⟩ := h.inv.laid.at_lt hat
  unfold tryWrite
  refine ((Matrix.ensures_prepareWrite h.inv hv op).and
    (hm.ensures_prepareWrite hd hp h.sorted (Nat.zero_lt_of_lt hpos) v op)).andThen
      (fun _ _ he => he.2) ?_
  rintro _ s ⟨⟨hinv, hkeeps, -, hpend⟩, f, iso, rfl⟩
  refine ensures_subject ?_
  have hindex := sameIndex_revalued t f iso
  have hsd := hindex.dense.trans hd
  have hsat := (at_revalued t f iso).2 hat
  have hnone : (t.revalued f iso).stored i j = none := by
    rw [← value_of_settled (hpend hp), hkeeps.value, h.puts.here]
  have hcases := hinv.laid.locate_cases (hkeeps.vlen.symm ▸ hi) (hkeeps.vdim.symm ▸ hj)
  cases hloc : (t.revalued f iso).locate i j with
  | cell pos =>
    rw [hloc, hsd] at hcases
    cases hcases.1
  | live pos =>
    rw [hloc] at hcases
    rw [hinv.laid.stored_of_at hcases.2.1, hcases.2.2] at hnone
    cases hnone
  | zombie pos =>
    exact ensures_update_then (ensures_pure
      ⟨rfl, hindex.trans (sameIndex_revive _ pos i v), rfl⟩)
  | absent =>
    rw [hloc] at hcases
    exact absurd hsat (hcases.2 _)

/-- **A write over a tombstone brings it back to life**, with the new value alone. -/
theorem Buried.ensures_accumulate (h : m.Buried t (m.toVector row col).1 (m.toVector row col).2)
    (hm : t.Modest) (hd : t.store.dense = false) (hp : t.pending = none) (hr : row < m.nrows)
    (hc : col < m.ncols) {raw : Scalar} (hcast : raw.cast m.type = some v) (op : DupOp) :
    Ensures (accumulate raw row col op) t
      (fun done u => done = .resurrected ∧ u.Inv ∧ t.SameIndex u ∧ u.zombies = m.zombies ∧
        t.Puts u (m.toVector row col).1 (m.toVector row col).2 (some v))
      (fun _ _ => False) := by
  have hplace : t.toVector row col = m.toVector row col := by rw [toVector, toVector, h.puts.byRow]
  have hzombies : t.zombies - 1 = m.zombies := by rw [h.zombies, Nat.add_sub_cancel]
  rw [← h.puts.type] at hcast
  have hwrite : Ensures (accumulate raw row col op) t
      (fun done u => done = .resurrected ∧ t.SameIndex u ∧ u.zombies = m.zombies) (fun _ _ => False) := by
    unfold accumulate
    refine ensures_subject ?_
    rw [checkBounds_eq_ok (h.puts.nrows ▸ hr) (h.puts.ncols ▸ hc), castIn_eq_ok_iff.2 hcast, hplace]
    refine ensures_require_then (fun e he => by cases he) fun _ _ => ?_
    refine ensures_require_then (fun e he => by cases he) fun v' hv' => ?_
    cases hv'
    refine (h.ensures_tryWrite hm hd hp (Scalar.cast_eq_some hcast).1 op).bind ?_
    rintro _ u ⟨rfl, hindex, hz⟩
    exact ensures_pure ⟨rfl, hindex, hz.trans hzombies⟩
  refine ((Matrix.ensures_accumulate h.inv raw row col op).and hwrite).mono ?_ fun _ _ he => he.2
  rintro _ u ⟨⟨hu, -, -, v', hv', hputs⟩, rfl, hindex, hz⟩
  obtain rfl : v = v' := Option.some.inj (hcast.symm.trans hv')
  refine ⟨rfl, hu, hindex, hz, ?_⟩
  rwa [cell, hplace, h.puts.here] at hputs

/-- From outside `t` is `m` with another answer for one cell. Inside the format is the same, and there are as
many slots and queued tuples. -/
structure Overlays (m t : Matrix) (row col : Nat) (w : Option Scalar) : Prop where
  here : t.extract row col = .ok w
  elsewhere : ∀ r c, ¬(r = row ∧ c = col) → t.extract r c = m.extract r c
  format : t.format = m.format
  slots : t.store.slots.size = m.store.slots.size
  pending : t.pendingCount = m.pendingCount

theorem SameIndex.overlays (h : m.SameIndex t) (hm : m.Inv) (ht : t.Inv) {w : Option Scalar}
    (hputs : m.Puts t (m.toVector row col).1 (m.toVector row col).2 w) (hr : row < m.nrows)
    (hc : col < m.ncols) : m.Overlays t row col w := by
  have hcell := Puts.cell hputs
  refine ⟨?_, fun r c hne => hm.extract_congr ht hputs.nrows hputs.ncols ?_, h.format, h.slots, ?_⟩
  · rw [ht.extract_eq (hputs.nrows ▸ hr) (hputs.ncols ▸ hc), hcell, Cells.put, if_pos ⟨rfl, rfl⟩]
  · rw [hcell, Cells.put, if_neg hne]
  · rw [pendingCount, pendingCount, h.pending]

/-- **An entry that is deleted and written again leaves no trace**, in any sparse matrix without pending
tuples. The deletion answers that there was an entry, and leaves a tombstone; the write, which cannot fail,
takes the tombstone's place and does not see the old value. Neither touches another cell, the format or the
number of slots. -/
theorem Reachable.revives (h : m.Reachable) (hformat : m.format = .sparse ∨ m.format = .hypersparse)
    (hpending : m.pendingCount = 0) {old : Scalar} (hold : m.extract row col = .ok (some old))
    (n : CallCounts) : ∃ s, remove row col (m, n) = .ok true s ∧ m.Overlays s.1 row col none ∧
      s.1.zombies = m.zombies + 1 ∧
      ∀ (raw v : Scalar) (write : Metered Matrix SetOutcome) (n' : CallCounts), raw.cast m.type = some v →
        (write = setElement raw row col ∨ ∃ op, write = accumulate raw row col op) →
        ∃ u, write (s.1, n') = .ok .resurrected u ∧ m.Overlays u.1 row col (some v) ∧
          u.1.zombies = m.zombies := by
  have hd : m.store.dense = false := by
    rw [Storage.dense_eq]
    exact hformat.elim (congrArg Format.dense) (congrArg Format.dense)
  have hp : m.pending = none := by
    cases hq : m.pending with
    | none => rfl
    | some q =>
      rw [pendingCount, hq] at hpending
      exact absurd (Array.toList_eq_nil_iff.2 (Array.eq_empty_of_size_eq_zero hpending))
        (h.inv.queued q hq).1
  have hcell := h.inv.extract_eq_some_iff.1 hold
  obtain ⟨hr, hc⟩ := h.inv.lt_of_cell hcell
  obtain ⟨_, s, hs, rfl, hburied⟩ := (h.inv.ensures_remove_live hd hp hcell).exists_ok n
  refine ⟨s, hs, hburied.index.overlays h.inv hburied.inv hburied.puts hr hc, hburied.zombies, ?_⟩
  rintro raw v write n' hcast hwrite
  obtain ⟨op, rfl⟩ : ∃ op, write = accumulate raw row col op := hwrite.elim (fun hset => ⟨.second, hset⟩) id
  have hmodest : s.1.Modest := h.modest.of_slots hburied.index.slots
  obtain ⟨_, u, hu, rfl, huinv, hindex, hz, hputs⟩ := (hburied.ensures_accumulate hmodest
    (hburied.index.dense.trans hd) (hburied.index.pending.trans hp) hr hc hcast op).exists_ok n'
  exact ⟨u, hu, (hburied.index.trans hindex).overlays h.inv huinv (hburied.puts.trans hputs) hr hc, hz⟩

/-- Two ones, or one of them beside the tombstone of the other. -/
def twoSlots (dead : Bool) : Matrix :=
  { type := .int64, nrows := 8, ncols := 8, iso := true, zombies := dead.toNat
    store := .sparse #[0, 0, 1, 1, 2, 2, 2, 2, 2] #[⟨2, false⟩, ⟨0, dead⟩] #[.int64 1] }

/-- The one that is left goes, and a five is added to nothing. -/
theorem revives_beside_tombstone : ∃ s u : Matrix × CallCounts,
    (twoSlots true).extract 1 2 = .ok (some (.int64 1)) ∧ remove 1 2 (twoSlots true, {}) = .ok true s ∧
      s.1.extract 1 2 = .ok none ∧ accumulate (.int64 5) 1 2 .plus (s.1, {}) = .ok .resurrected u ∧
      u.1.extract 1 2 = .ok (some (.int64 5)) ∧ u.1.zombies = 1 := by
  have hbuilt : (outcome (ofTuples .int64 8 8 true [⟨1, 2, .int64 1⟩, ⟨3, 0, .int64 1⟩] .second {}
      (((), {}) : Unit × CallCounts))).1.toOption = some (twoSlots false) := by decide +kernel
  have hnew := Reachable.built (by decide) (eq_ok_of_outcome hbuilt)
  have hm : (twoSlots true).Reachable :=
    hnew.requested (r := .remove 3 0) (a := .removed true) (n := {}) (s := (_, {})) trivial rfl
  have hone : (twoSlots true).extract 1 2 = .ok (some (.int64 1)) := rfl
  obtain ⟨s, hs, hgone, -, hwrite⟩ := hm.revives (.inl rfl) rfl hone {}
  obtain ⟨u, hu, hback, hz⟩ := hwrite (.int64 5) (.int64 5) _ {} rfl (.inr ⟨.plus, rfl⟩)
  exact ⟨s, u, hone, hs, hgone.here, hu, hback.here, hz⟩

end Matrix

end Adjacency
