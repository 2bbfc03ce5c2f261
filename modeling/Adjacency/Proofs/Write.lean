import Adjacency.Proofs.Commit
import Adjacency.Proofs.Order

/-!
# Point writes

A write lands in a dense cell, in a live slot, in a tombstone or in the queue. Wherever it lands, the
value there is combined with the new one, and every other place keeps its value.

* `Matrix.Puts`: one place takes a value, all others keep theirs.
* `Matrix.ensures_prepareWrite`: making room for a write keeps the content.
* `Matrix.ensures_accumulate`: **a write changes one cell, and a failed one changes none.**
-/

namespace Adjacency

open Metered

namespace Matrix

/-- One place takes a value, all others keep theirs. -/
structure Puts (m m' : Matrix) (i j : Nat) (w : Option Scalar) : Prop extends SameShape m m' where
  here : m'.value i j = w
  elsewhere : ∀ i' j', ¬(i' = i ∧ j' = j) → m'.value i' j' = m.value i' j'

variable {m m' m'' : Matrix} {i j : Nat} {w : Option Scalar}

theorem Puts.trans {w' : Option Scalar} (h : m.Puts m' i j w) (h' : m'.Puts m'' i j w') :
    m.Puts m'' i j w' :=
  ⟨h.toSameShape.trans h'.toSameShape, h'.here, fun i' j' hne => by
    rw [h'.elsewhere i' j' hne, h.elsewhere i' j' hne]⟩

theorem Keeps.puts (h : m.Keeps m') (h' : m'.Puts m'' i j w) : m.Puts m'' i j w :=
  ⟨h.toSameShape.trans h'.toSameShape, h'.here, fun i' j' hne => by rw [h'.elsewhere i' j' hne, h.value]⟩

/-- A matrix in which one storage position holds something new. -/
theorem Inv.of_change (h : m.Inv) (hs : m.SameShape m') (hl : m'.Laid) (hp : m'.pending = m.pending)
    (hi : m'.iso = m.iso) (hsh : m.iso = true → m'.shared = m.shared) {pos : Nat}
    (hpos : m.At i j pos) (hat : ∀ i j p, m'.At i j p ↔ m.At i j p)
    (helse : ∀ p, p < m.extent → p ≠ pos → m'.present p = m.present p ∧
      (m.present p = true → m'.valueAt p = m.valueAt p)) :
    m'.Inv ∧ m.Puts m' i j (if m'.present pos then some (m'.valueAt pos) else none) := by
  obtain ⟨hinv, hv⟩ := h.same_queue hs hl hp hi hsh fun i j p hp => ⟨p, (hat i j p).1 hp⟩
  refine ⟨hinv, hs, ?_, fun i' j' hne => ?_⟩
  · rw [hinv.value_of_at ((hat i j pos).2 hpos), hl.stored_of_at ((hat i j pos).2 hpos)]
  · rw [hv, value, h.laid.stored_congr hl (hat i' j') fun p hp => helse p hp.1 fun hc => hne ?_]
    rw [← hc, At] at hpos
    have := hp.2.symm.trans hpos.2
    exact Prod.mk.inj this

theorem typed_set {x : Array Scalar} {ty : ScalarType} {pos : Nat} {v : Scalar}
    (hx : ∀ w ∈ x.toList, w.type = ty) (hv : v.type = ty) :
    ∀ w ∈ (x.setIfInBounds pos v).toList, w.type = ty := by
  intro w hw
  rw [Array.toList_setIfInBounds] at hw
  rcases List.mem_or_eq_of_mem_set hw with hw | rfl
  · exact hx w hw
  · exact hv

/-! ## New values for the same index -/

section Values

variable (m) (f : Array Scalar → Array Scalar) (iso : Bool)

/-- The same index with other values. -/
def revalued : Matrix := { m with store := m.store.mapValues f, iso }

theorem extent_revalued : (m.revalued f iso).extent = m.extent := by
  change (if (m.store.mapValues f).dense then m.cells else (m.store.mapValues f).slots.size) = _
  rw [Storage.dense_mapValues, Storage.slots_mapValues]; rfl

theorem place_revalued (pos : Nat) : (m.revalued f iso).place pos = m.place pos := by
  change (if (m.store.mapValues f).dense then (pos % m.vlen, pos / m.vlen) else
    ((m.store.mapValues f).indexAt pos,
      (m.store.mapValues f).vectorAt ((m.store.mapValues f).rangeOf pos))) = _
  rw [Storage.dense_mapValues, Storage.vectorAt_mapValues, Storage.indexAt, Storage.slots_mapValues,
    Storage.rangeOf_congr (m.store.pointers_mapValues f)]
  rfl

theorem present_revalued (pos : Nat) : (m.revalued f iso).present pos = m.present pos := by
  unfold present revalued slotLive cellPresent
  cases m.store <;> rfl

theorem at_revalued {pos : Nat} : (m.revalued f iso).At i j pos ↔ m.At i j pos := by
  rw [At, At, extent_revalued, place_revalued]

variable {m f iso}

theorem Laid.revalued (h : m.Laid) (hsize : (f m.store.values).size = if iso then 1 else m.extent)
    (hty : ∀ v ∈ (f m.store.values).toList, v.type = m.type) : (m.revalued f iso).Laid := by
  have hslots : (m.revalued f iso).store.slots = m.store.slots := m.store.slots_mapValues f
  have hptr : (m.revalued f iso).store.pointers = m.store.pointers := m.store.pointers_mapValues f
  have hvec : (m.revalued f iso).store.vectorAt = m.store.vectorAt := m.store.vectorAt_mapValues f
  have hdense : (m.revalued f iso).store.dense = m.store.dense := m.store.dense_mapValues f
  have hvalues : (m.revalued f iso).store.values = f m.store.values := m.store.values_mapValues f
  have hindex : (m.revalued f iso).store.indexAt = m.store.indexAt := by
    funext pos; rw [Storage.indexAt, hslots]; rfl
  have hdead : (m.revalued f iso).store.deadAt = m.store.deadAt := by
    funext pos; rw [Storage.deadAt, hslots]; rfl
  refine ⟨fun hd => h.cells_lt (hdense ▸ hd), fun b x n hs => ?_, fun hd => ?_, fun hd hj => ?_,
    fun hd => ?_, fun hd => h.calm (hdense ▸ hd), ?_, fun v hv => hty v (hvalues ▸ hv)⟩
  · change m.store.mapValues f = _ at hs
    cases hst : m.store with
    | full x => rw [hst] at hs; cases hs
    | bitmap b' x' n' => rw [hst] at hs; cases hs; exact h.bits _ _ _ hst
    | sparse p i x => rw [hst] at hs; cases hs
    | hypersparse l p i x => rw [hst] at hs; cases hs
  · have hx := h.indexed (hdense ▸ hd)
    exact hx.congr ((m.store.pointed_mapValues f).2 hx.pointed) hptr hvec (by rw [hslots])
      fun pos _ => by rw [hindex]
  · rw [Storage.rangeCount_congr hptr, Storage.start_congr hptr, hindex]
    exact h.sorted (hdense ▸ hd) hj
  · rw [hslots, hdead]; exact h.zombies (hdense ▸ hd)
  · rw [hvalues, hsize, extent_revalued]; rfl

end Values

/-! ## Making room -/

/-- Giving each entry a value of its own keeps the content. -/
theorem ensures_expandIso (h : m.Inv) (hp : m.iso = true → m.pending = none) : Ensures expandIso m
    (fun _ t => t.Inv ∧ m.Keeps t ∧ t.iso = false ∧ t.jumbled = m.jumbled ∧ t.pending = m.pending)
    (fun e t => e.OfMemory ∧ t = m) := by
  unfold expandIso
  refine ensures_subject (ensures_ite (fun hi => ?_) fun hi =>
    ensures_pure ⟨h, Keeps.refl m, by simpa using hi, rfl, rfl⟩)
  refine ensures_reserve (fun e he => ⟨he, rfl⟩) (ensures_put ?_)
  set m' := m.revalued (fun _ => Array.replicate m.expandedSize m.shared) false
  have hshared := h.laid.shared_type hi
  have hl' : m'.Laid := h.laid.revalued (by rw [Array.size_replicate]; rfl) fun v hv => by
    rw [Array.toList_replicate, List.mem_replicate] at hv
    rw [hv.2, hshared]
  have hst : m'.stored = m.stored := by
    funext i j
    refine h.laid.stored_congr hl' (fun pos => at_revalued m _ _) fun pos hpos =>
      ⟨present_revalued m _ _ pos, fun _ => ?_⟩
    have hlt : pos < m.expandedSize := hpos.1
    have hvalues : m'.store.values = Array.replicate m.expandedSize m.shared :=
      m.store.values_mapValues _
    rw [valueAt, valueAt, if_pos hi, if_neg (show ¬m'.iso = true from Bool.false_ne_true), hvalues]
    simp [hlt]
  obtain ⟨hinv, hkeeps⟩ := h.of_settled (show m.SameShape m' from ⟨rfl, rfl, rfl, rfl, rfl⟩) hl' (hp hi) fun i j => by
    rw [hst, value_of_settled (hp hi)]
  exact ⟨hinv, hkeeps, rfl, rfl, rfl⟩

/-- A matrix without taken positions, other than a full one, has no entries. -/
theorem Laid.present_of_slotCount (h : m.Laid) (hc : m.slotCount = 0) (hf : m.format ≠ .full)
    {pos : Nat} (hpos : pos < m.extent) : m.present pos = false := by
  rw [slotCount] at hc
  cases hs : m.store with
  | full x => exact absurd (by rw [format, hs]; rfl) hf
  | bitmap b x n =>
    have hd : m.store.dense = true := by rw [hs]; rfl
    rw [hs] at hc
    have hcount := (h.bits b x n hs).2
    rw [show n = 0 from hc, eq_comm, List.countP_eq_zero] at hcount
    rw [extent_dense h hd] at hpos
    rw [present_dense hd, cellPresent, hs]
    simpa using hcount pos (List.mem_range.2 hpos)
  | sparse p i x =>
    rw [hs] at hc
    rw [extent_sparse (by rw [hs]; rfl), hs] at hpos
    exact absurd hpos (by rw [show (Storage.sparse p i x).slots.size = 0 from hc]; omega)
  | hypersparse l p i x =>
    rw [hs] at hc
    rw [extent_sparse (by rw [hs]; rfl), hs] at hpos
    exact absurd hpos (by rw [show (Storage.hypersparse l p i x).slots.size = 0 from hc]; omega)

/-- A matrix whose entries share a value takes a write of that value as it is. -/
def Accepts (m : Matrix) (v : Scalar) (op : DupOp) : Prop :=
  m.iso = true → m.shared = v ∧ (op = .second ∨ ∀ i j, m.value i j = none)

/-- An empty matrix becomes iso. -/
theorem Inv.becomeIso (h : m.Inv) {v : Scalar} (hv : v.type = m.type) (hc : m.slotCount = 0)
    (hf : m.format ≠ .full) (hp : m.pending = none) (op : DupOp) :
    (m.becomeIso v).Inv ∧ m.Keeps (m.becomeIso v) ∧ (m.becomeIso v).Accepts v op := by
  change (m.revalued (fun _ => #[v]) true).Inv ∧ m.Keeps (m.revalued (fun _ => #[v]) true) ∧
    (m.revalued (fun _ => #[v]) true).Accepts v op
  set m' := m.revalued (fun _ => #[v]) true
  have hl' : m'.Laid := h.laid.revalued rfl fun w hw => by
    rw [List.mem_singleton.1 hw, hv]
  have hnone : ∀ i j, m.stored i j = none := by
    intro i j
    by_cases hat : ∃ pos, m.At i j pos
    · obtain ⟨pos, hat⟩ := hat
      rw [h.laid.stored_of_at hat, h.laid.present_of_slotCount hc hf hat.1]
      rfl
    · exact h.laid.stored_of_absent fun pos hpos => hat ⟨pos, hpos⟩
  have hst : m'.stored = m.stored := by
    funext i j
    refine h.laid.stored_congr hl' (fun pos => at_revalued m _ _) fun pos hpos =>
      ⟨present_revalued m _ _ pos, fun hpres => ?_⟩
    rw [h.laid.present_of_slotCount hc hf hpos.1] at hpres
    cases hpres
  obtain ⟨hinv, hkeeps⟩ := h.of_settled (show m.SameShape m' from ⟨rfl, rfl, rfl, rfl, rfl⟩) hl' hp fun i j => by
    rw [hst, value_of_settled hp]
  refine ⟨hinv, hkeeps, fun _ => ⟨?_, .inr fun i j => ?_⟩⟩
  · have hvalues : m'.store.values = #[v] := m.store.values_mapValues _
    rw [shared, hvalues]; rfl
  · rw [hkeeps.value, value_of_settled hp, hnone]

/-- The vectors, sorted if they were not. -/
theorem Inv.ordered (h : m.Inv) : (if m.jumbled then m.unjumbled else m).Inv ∧
    m.Keeps (if m.jumbled then m.unjumbled else m) ∧
    (if m.jumbled then m.unjumbled else m).jumbled = false ∧
    (if m.jumbled then m.unjumbled else m).pending = m.pending := by
  split
  · next hj =>
    obtain ⟨hinv, hkeeps, hj', hp, -⟩ := h.unjumbled hj
    exact ⟨hinv, hkeeps, hj', hp⟩
  · next hj => exact ⟨h, Keeps.refl m, by simpa using hj, rfl⟩

/-- **Making room for a write** keeps the content; if the entries share a value, it is the one to be
written. -/
theorem ensures_prepareWrite (h : m.Inv) {v : Scalar} (hv : v.type = m.type) (op : DupOp) :
    Ensures (prepareWrite v op) m
      (fun _ t => t.Inv ∧ m.Keeps t ∧ t.Accepts v op ∧ (m.pending = none → t.pending = none))
      (fun e t => e.OfMemory ∧ t.Inv ∧ m.Keeps t) := by
  unfold prepareWrite
  refine ensures_update_then ?_
  obtain ⟨hinv, hkeeps, -, hpend⟩ := h.ordered
  generalize (if m.jumbled then m.unjumbled else m) = s at hinv hkeeps hpend
  refine ensures_subject ?_
  refine ensures_ite (fun hi => ?_) fun hi => ?_
  · refine ensures_ite (fun hne => ?_) fun heq => ?_
    · -- the shared value goes: what relies on it is committed first
      refine ensures_when (fun t => t.Inv ∧ m.Keeps t ∧ t.pending = none)
        (fun _ => (ensures_wait hinv).mono
          (fun _ t ht => ⟨ht.1, hkeeps.trans ht.2.1, (deferred_eq_false_iff.1 ht.2.2).1⟩)
          fun e t ht => ⟨ht.1, ht.2.1, hkeeps.trans ht.2.2⟩)
        (fun hp => ⟨hinv, hkeeps, by simpa using hp⟩) ?_
      rintro t ⟨htinv, htkeeps, htp⟩
      refine (ensures_expandIso htinv fun _ => htp).mono ?_ ?_
      · rintro _ t' ⟨hinv', hkeeps', hi', -, hp'⟩
        exact ⟨hinv', htkeeps.trans hkeeps', fun hc => (by rw [hi'] at hc; cases hc),
          fun _ => hp'.trans htp⟩
      · rintro e _ ⟨he, rfl⟩
        exact ⟨he, htinv, htkeeps⟩
    · rw [not_or, not_not, not_not] at heq
      exact ensures_pure ⟨hinv, hkeeps, fun _ => ⟨heq.2, .inl heq.1⟩, fun hp => hpend.trans hp⟩
  · refine ensures_ite (fun hempty => ?_) fun _ => ensures_pure
      ⟨hinv, hkeeps, fun hc => absurd hc hi, fun hp => hpend.trans hp⟩
    refine ensures_put ?_
    obtain ⟨hc, hf, hp⟩ := hempty
    have hp : s.pending = none := by simpa using hp
    obtain ⟨hinv', hkeeps', hacc⟩ := hinv.becomeIso (hkeeps.type.symm ▸ hv) hc hf hp op
    exact ⟨hinv', hkeeps.trans hkeeps', hacc, fun _ => hp⟩

/-! ## Dense cells -/

theorem getD_setIfInBounds {α : Type} {x : Array α} {k pos : Nat} {v d : α} (h : pos < x.size) :
    (x.setIfInBounds pos v).getD k d = if k = pos then v else x.getD k d := by
  split
  · next hk => rw [hk, getD_setIfInBounds_self h]
  · next hk => exact getD_setIfInBounds_ne fun hc => hk hc.symm

@[simp] theorem dense_setBit (s : Storage) (pos : Nat) : (s.setBit pos).dense = s.dense := by
  cases s <;> rfl

@[simp] theorem values_setBit (s : Storage) (pos : Nat) : (s.setBit pos).values = s.values := by
  cases s <;> rfl

/-- Values that are shared stay as they are. -/
theorem mapValues_unless (s : Storage) (shared : Bool) (f : Array Scalar → Array Scalar) :
    (if shared then s else s.mapValues f) = s.mapValues fun x => if shared then x else f x := by
  cases shared with
  | true => cases s <;> rfl
  | false => rfl

/-- Two dense matrices of one shape have the same places. -/
theorem Laid.at_iff_of_dense (h : m.Laid) (h' : m'.Laid) (hs : m.SameShape m')
    (hd : m.store.dense = true) (hd' : m'.store.dense = true) {pos : Nat} :
    m'.At i j pos ↔ m.At i j pos := by
  rw [h.at_dense_iff hd, h'.at_dense_iff hd', hs.vlen, hs.vdim]

/-- A bit that is set, and the count of the bits. -/
theorem countP_setBit {b : Array Bool} {n pos : Nat} (hpos : pos < n) (hn : b.size = n) :
    (List.range n).countP ((b.setIfInBounds pos true).getD · false) =
      if b.getD pos false then (List.range n).countP (b.getD · false)
      else (List.range n).countP (b.getD · false) + 1 := by
  have hget : ∀ k, (b.setIfInBounds pos true).getD k false = if k = pos then true else b.getD k false :=
    fun k => getD_setIfInBounds (hn.symm ▸ hpos)
  split
  · next hbit =>
    refine countP_range_congr fun k _ => ?_
    rw [hget]
    split
    · next hk => rw [hk, hbit]
    · rfl
  · next hbit =>
    exact countP_range_toggle hpos (by simpa using hbit) (by rw [hget, if_pos rfl]) fun k hk => by
      rw [hget, if_neg hk]

/-- A bit that is cleared, and the count of the bits. -/
theorem countP_clearBit {b : Array Bool} {n pos : Nat} (hpos : pos < n) (hn : b.size = n)
    (hbit : b.getD pos false = true) :
    (List.range n).countP ((b.setIfInBounds pos false).getD · false) =
      (List.range n).countP (b.getD · false) - 1 := by
  have hget : ∀ k, (b.setIfInBounds pos false).getD k false = if k = pos then false else b.getD k false :=
    fun k => getD_setIfInBounds (hn.symm ▸ hpos)
  have htoggle : (List.range n).countP (b.getD · false) =
      (List.range n).countP ((b.setIfInBounds pos false).getD · false) + 1 :=
    countP_range_toggle hpos (by rw [hget, if_pos rfl]) hbit fun k hk => by rw [hget, if_neg hk]
  omega

/-! ## One new value -/

/-- The values of a matrix, one of them replaced unless they are shared. -/
structure Revalues (m m' : Matrix) (pos : Nat) (new : Scalar) : Prop where
  iso : m'.iso = m.iso
  type : m'.type = m.type
  extent : m'.extent = m.extent
  values : m'.store.values =
    if m.iso then m.store.values else m.store.values.setIfInBounds pos new

section Revalues

variable {pos : Nat} {new : Scalar}

theorem Revalues.size (hr : m.Revalues m' pos new) (h : m.Laid) :
    m'.store.values.size = if m'.iso then 1 else m'.extent := by
  have hsize := h.values
  rw [hr.values, hr.iso, hr.extent]
  split
  · next hi => rw [hsize, if_pos hi]
  · next hi => rw [Array.size_setIfInBounds, hsize, if_neg hi]

theorem Revalues.typed (hr : m.Revalues m' pos new) (h : m.Laid)
    (hty : m.iso = false → new.type = m.type) : ∀ v ∈ m'.store.values.toList, v.type = m'.type := by
  intro v hv
  rw [hr.values] at hv
  rw [hr.type]
  split at hv
  · exact h.typed v hv
  · next hi => exact typed_set h.typed (hty (by simpa using hi)) v hv

theorem Revalues.shared (hr : m.Revalues m' pos new) (hi : m.iso = true) : m'.shared = m.shared := by
  rw [Matrix.shared, Matrix.shared, hr.values, if_pos hi, hr.type]

theorem Revalues.valueAt (hr : m.Revalues m' pos new) (h : m.Laid) (hpos : pos < m.extent) (p : Nat) :
    m'.valueAt p = if m.iso = false ∧ p = pos then new else m.valueAt p := by
  rw [Matrix.valueAt, Matrix.valueAt, hr.iso]
  cases hi : m.iso with
  | true => rw [if_pos rfl, if_pos rfl, if_neg (by simp), hr.shared hi]
  | false =>
    have hsize := h.values
    rw [if_neg (by simp [hi])] at hsize
    simp only [hr.values, hr.type, hi, Bool.false_eq_true, if_false, true_and]
    exact getD_setIfInBounds (by omega)

end Revalues

/-- A write of the shared value leaves that value. -/
theorem Accepts.fold {v : Scalar} {op : DupOp} (hacc : m.Accepts v op) (hi : m.iso = true) (i j : Nat) :
    foldOnto (op.apply m.type) (m.value i j) [v] = some v := by
  obtain ⟨-, rfl | hnone⟩ := hacc hi
  · cases m.value i j <;> rfl
  · rw [hnone]; rfl

theorem foldOnto_singleton (f : Scalar → Scalar → Scalar) (start : Option Scalar) (v : Scalar) :
    foldOnto f start [v] = some (match start with | some old => f old v | none => v) := rfl

/-- **A write at a storage position** combines the value there with the new one. -/
theorem Inv.of_write (h : m.Inv) (hs : m.SameShape m') (hl' : m'.Laid) (hp : m'.pending = m.pending)
    {pos : Nat} {new v : Scalar} {op : DupOp} (hr : m.Revalues m' pos new) (hpos : m.At i j pos)
    (hat : ∀ i j p, m'.At i j p ↔ m.At i j p)
    (hpres : ∀ p, p < m.extent → m'.present p = if p = pos then true else m.present p)
    (hacc : m.Accepts v op)
    (hnew : m.iso = false → foldOnto (op.apply m.type) (m.value i j) [v] = some new) :
    m'.Inv ∧ m.Puts m' i j (foldOnto (op.apply m.type) (m.value i j) [v]) := by
  obtain ⟨hinv, hputs⟩ := h.of_change hs hl' hp hr.iso hr.shared hpos hat fun p hp hne =>
    ⟨by rw [hpres p hp, if_neg hne],
      fun _ => by rw [hr.valueAt h.laid hpos.1, if_neg fun hc => hne hc.2]⟩
  refine ⟨hinv, ?_⟩
  rw [hpres pos hpos.1, if_pos rfl, if_pos rfl, hr.valueAt h.laid hpos.1] at hputs
  cases hi : m.iso with
  | true =>
    rw [hi, if_neg (by simp), Matrix.valueAt, if_pos hi, (hacc hi).1] at hputs
    rwa [hacc.fold hi]
  | false =>
    rw [hi, if_pos ⟨rfl, rfl⟩] at hputs
    rwa [hnew hi]

/-! ## In place -/

theorem valueAt_of_not_iso (hi : m.iso = false) (pos : Nat) :
    m.valueAt pos = m.store.values.getD pos m.type.zero := by
  rw [valueAt, hi]; rfl

/-- A bitmap counts a bit that is set, once. -/
theorem Laid.bits_setBit (h : m.Laid) {pos : Nat} (hpos : pos < m.vlen * m.vdim)
    {f : Array Scalar → Array Scalar} {b : Array Bool} {x : Array Scalar} {n : Nat}
    (hb : (m.store.mapValues f).setBit pos = .bitmap b x n) :
    b.size = m.vlen * m.vdim ∧ n = (List.range (m.vlen * m.vdim)).countP (b.getD · false) := by
  cases hst : m.store with
  | full x => rw [hst] at hb; cases hb
  | sparse p i x => rw [hst] at hb; cases hb
  | hypersparse l p i x => rw [hst] at hb; cases hb
  | bitmap b' x' n' =>
    obtain ⟨hsize, hcount⟩ := h.bits b' x' n' hst
    rw [hst] at hb
    obtain ⟨rfl, -, rfl⟩ := Storage.bitmap.inj hb
    refine ⟨by rw [Array.size_setIfInBounds]; exact hsize, ?_⟩
    rw [hcount]
    exact (countP_setBit hpos hsize).symm

/-- The cell of a bit that is set is taken, the others are as they were. -/
theorem Laid.cellPresent_setBit (h : m.Laid) (hd : m.store.dense = true) {pos : Nat}
    (hpos : pos < m.vlen * m.vdim) {f : Array Scalar → Array Scalar}
    (hs : m'.store = (m.store.mapValues f).setBit pos) (p : Nat) :
    m'.cellPresent p = if p = pos then true else m.cellPresent p := by
  rw [cellPresent, cellPresent, hs]
  cases hst : m.store with
  | full x => exact (ite_self true).symm
  | bitmap b x n => exact getD_setIfInBounds ((h.bits b x n hst).1.symm ▸ hpos)
  | sparse p i x => rw [hst] at hd; cases hd
  | hypersparse l p i x => rw [hst] at hd; cases hd

/-- **Writing a dense cell.** -/
theorem Inv.writeCell (h : m.Inv) (hd : m.store.dense = true) {pos : Nat} (hat : m.At i j pos)
    {v : Scalar} (hv : v.type = m.type) {op : DupOp} (hacc : m.Accepts v op) :
    (m.writeCell pos v op).Inv ∧ m.Puts (m.writeCell pos v op) i j
      (foldOnto (op.apply m.type) (m.value i j) [v]) := by
  have hl := h.laid
  have hcell : pos < m.vlen * m.vdim := extent_dense hl hd ▸ hat.1
  set new := if m.cellPresent pos then op.apply m.type (m.store.values.getD pos m.type.zero) v else v
    with hnew
  set m' := m.writeCell pos v op
  have hs : m.SameShape m' := ⟨rfl, rfl, rfl, rfl, rfl⟩
  have hstore : m'.store =
      (m.store.mapValues fun x => if m.iso then x else x.setIfInBounds pos new).setBit pos :=
    congrArg (·.setBit pos) (mapValues_unless m.store m.iso _)
  have hd' : m'.store.dense = true := by rw [hstore, dense_setBit, Storage.dense_mapValues, hd]
  have hr : m.Revalues m' pos new := by
    refine ⟨rfl, rfl, by rw [extent, extent, if_pos hd, if_pos hd']; rfl, ?_⟩
    rw [hstore, values_setBit, Storage.values_mapValues]
  have hpresent : ∀ p, p < m.extent → m'.present p = if p = pos then true else m.present p := by
    intro p _
    rw [present_dense hd', present_dense hd, hl.cellPresent_setBit hd hcell hstore]
  have hbits : ∀ b x n, m'.store = .bitmap b x n → b.size = m'.vlen * m'.vdim ∧
      n = (List.range (m'.vlen * m'.vdim)).countP (b.getD · false) :=
    fun b x n hb => hl.bits_setBit hcell (hstore.symm.trans hb)
  have hnewty : m.iso = false → new.type = m.type := by
    intro hi
    have hold := hl.valueAt_type hat.1
    rw [valueAt_of_not_iso hi] at hold
    rw [hnew]
    split
    · exact DupOp.apply_type hold hv
    · exact hv
  have hl' : m'.Laid := laid_dense hd' (hl.cells_lt hd) hbits (hl.calm hd) (hr.size hl)
    (hr.typed hl hnewty)
  refine h.of_write hs hl' rfl hr hat (fun i j p => hl.at_iff_of_dense hl' hs hd hd') hpresent hacc
    fun hi => ?_
  rw [h.value_of_at hat, hl.stored_of_at hat, present_dense hd, foldOnto_singleton, hnew,
    valueAt_of_not_iso hi]
  cases m.cellPresent pos <;> rfl

/-- **Writing a live slot.** -/
theorem Inv.writeLive (h : m.Inv) {pos : Nat} (hat : m.At i j pos)
    (hpres : m.present pos = true) {v : Scalar} (hv : v.type = m.type) {op : DupOp}
    (hacc : m.Accepts v op) : (m.writeLive pos v op).Inv ∧ m.Puts (m.writeLive pos v op) i j
      (foldOnto (op.apply m.type) (m.value i j) [v]) := by
  have hl := h.laid
  set new := op.apply m.type (m.store.values.getD pos m.type.zero) v with hnew
  have hm' : m.writeLive pos v op =
      m.revalued (fun x => if m.iso then x else x.setIfInBounds pos new) m.iso := by
    unfold Matrix.writeLive revalued
    rw [← mapValues_unless]
    split <;> rfl
  rw [hm']
  set f : Array Scalar → Array Scalar := fun x => if m.iso then x else x.setIfInBounds pos new
  have hr : m.Revalues (m.revalued f m.iso) pos new :=
    ⟨rfl, rfl, extent_revalued m _ _, m.store.values_mapValues _⟩
  have hnewty : m.iso = false → new.type = m.type := by
    intro hi
    have hold := hl.valueAt_type hat.1
    rw [valueAt_of_not_iso hi] at hold
    exact DupOp.apply_type hold hv
  have hsize := hr.size hl
  have htyped := hr.typed hl hnewty
  have hvalues : (m.revalued f m.iso).store.values = f m.store.values := m.store.values_mapValues _
  rw [hvalues] at hsize htyped
  have hl' : (m.revalued f m.iso).Laid := hl.revalued (by rw [hsize, extent_revalued]; rfl) htyped
  refine h.of_write (show m.SameShape (m.revalued f m.iso) from ⟨rfl, rfl, rfl, rfl, rfl⟩) hl' rfl hr hat
    (fun i j p => at_revalued m _ _) (fun p _ => ?_) hacc fun hi => ?_
  · rw [present_revalued]
    split
    · next hp => rw [hp, hpres]
    · rfl
  · rw [h.value_of_at hat, hl.stored_of_at hat, hpres, if_pos rfl, foldOnto_singleton, hnew,
      valueAt_of_not_iso hi]

/-! ## Tombstones -/

/-- The index of a matrix in which one slot dies or comes back to life. -/
structure Reslots (m m' : Matrix) (pos : Nat) (dead : Bool) : Prop extends SameShape m m' where
  jumbled : m'.jumbled = m.jumbled
  dense : m'.store.dense = m.store.dense
  pointed : m'.store.Pointed m.vdim ↔ m.store.Pointed m.vdim
  pointers : m'.store.pointers = m.store.pointers
  vectorAt : m'.store.vectorAt = m.store.vectorAt
  size : m'.store.slots.size = m.store.slots.size
  slot : ∀ p, m'.store.slots.getD p default =
    if p = pos then { index := m.store.indexAt pos, dead } else m.store.slots.getD p default

section Reslots

variable {pos : Nat} {dead : Bool}

theorem Reslots.indexAt (hr : m.Reslots m' pos dead) : m'.store.indexAt = m.store.indexAt := by
  funext p
  rw [Storage.indexAt, hr.slot]
  split
  · next hp => rw [hp]
  · rfl

theorem Reslots.deadAt (hr : m.Reslots m' pos dead) (p : Nat) :
    m'.store.deadAt p = if p = pos then dead else m.store.deadAt p := by
  rw [Storage.deadAt, hr.slot]
  split <;> rfl

theorem Reslots.at_iff (hr : m.Reslots m' pos dead) (hd : m.store.dense = false) {p : Nat} :
    m'.At i j p ↔ m.At i j p := by
  rw [At, At, extent_sparse hd, extent_sparse (hr.dense.trans hd), place_sparse hd,
    place_sparse (hr.dense.trans hd), hr.size, hr.indexAt, hr.vectorAt,
    Storage.rangeOf_congr hr.pointers]

theorem Reslots.present (hr : m.Reslots m' pos dead) (hd : m.store.dense = false) {p : Nat}
    (hp : p < m.extent) : m'.present p = if p = pos then !dead else m.present p := by
  rw [extent_sparse hd] at hp
  rw [present_sparse (hr.dense.trans hd) (hr.size.symm ▸ hp), present_sparse hd hp, hr.deadAt]
  split <;> rfl

theorem Reslots.laid (hr : m.Reslots m' pos dead) (h : m.Laid) (hd : m.store.dense = false)
    (hz : m'.zombies = (List.range m.store.slots.size).countP m'.store.deadAt)
    (hsize : m'.store.values.size = if m'.iso then 1 else m'.extent)
    (hty : ∀ v ∈ m'.store.values.toList, v.type = m'.type) : m'.Laid := by
  have hx := h.indexed hd
  have hd' := hr.dense.trans hd
  refine laid_sparse hd' ?_ (fun hj => ?_) (by rw [hz, hr.size]) ?_ hty
  · rw [hr.vlen, hr.vdim]
    exact hx.congr (hr.pointed.2 hx.pointed) hr.pointers hr.vectorAt hr.size fun p _ => by
      rw [hr.indexAt]
  · rw [Storage.rangeCount_congr hr.pointers, Storage.start_congr hr.pointers, hr.indexAt]
    exact h.sorted hd (hr.jumbled ▸ hj)
  · rw [hsize, extent_sparse hd']

end Reslots

theorem slots_getD_set {slots : Array Slot} {pos p : Nat} {s : Slot} (h : pos < slots.size) :
    (slots.setIfInBounds pos s).getD p default = if p = pos then s else slots.getD p default :=
  getD_setIfInBounds h

/-- **Bringing a tombstone back to life.** -/
theorem Inv.revive (h : m.Inv) (hd : m.store.dense = false) {pos : Nat} (hat : m.At i j pos)
    (hpres : m.present pos = false) {v : Scalar} (hv : v.type = m.type) {op : DupOp}
    (hacc : m.Accepts v op) : (m.revive pos i v).Inv ∧ m.Puts (m.revive pos i v) i j
      (foldOnto (op.apply m.type) (m.value i j) [v]) := by
  have hl := h.laid
  have hpos : pos < m.store.slots.size := extent_sparse hd ▸ hat.1
  have hdead : m.store.deadAt pos = true := by simpa [present_sparse hd hpos] using hpres
  set m' := m.revive pos i v
  have hstore : m'.store = (if m.iso then m.store else m.store.mapValues (·.setIfInBounds pos v)).mapSlots
      (·.setIfInBounds pos { index := i }) := rfl
  have hslots : m'.store.slots = m.store.slots.setIfInBounds pos { index := i } := by
    rw [hstore, Storage.slots_mapSlots _ (by split <;> simp [hd])]
    split <;> simp
  have hi : m.store.indexAt pos = i := by
    have := hat.2
    rw [place_sparse hd] at this
    exact (Prod.mk.inj this).1
  have hr : m.Reslots m' pos false := by
    refine ⟨⟨rfl, rfl, rfl, rfl, rfl⟩, rfl, ?_, ?_, ?_, ?_, by rw [hslots, Array.size_setIfInBounds],
      fun p => ?_⟩
    · rw [hstore]; split <;> simp
    · rw [hstore]; split <;> simp
    · rw [hstore]; split <;> simp
    · rw [hstore]; split <;> simp
    · rw [hslots, slots_getD_set hpos, hi]
  have hrv : m.Revalues m' pos v := by
    refine ⟨rfl, rfl, by rw [extent_sparse hd, extent_sparse (hr.dense.trans hd), hr.size], ?_⟩
    rw [hstore, Storage.values_mapSlots]; split <;> simp
  have hz : m'.zombies = (List.range m.store.slots.size).countP m'.store.deadAt := by
    have hcount := countP_range_toggle hpos (p := m'.store.deadAt) (q := m.store.deadAt)
      (by rw [hr.deadAt, if_pos rfl]) hdead fun p hp => by rw [hr.deadAt, if_neg hp]
    have : m'.zombies = m.zombies - 1 := rfl
    rw [this, hl.zombies hd, hcount, Nat.add_sub_cancel]
  have hl' : m'.Laid := hr.laid hl hd hz (hrv.size hl) (hrv.typed hl fun _ => hv)
  refine h.of_write hr.toSameShape hl' rfl hrv hat (fun i j p => hr.at_iff hd)
    (fun p hp => hr.present hd hp) hacc fun _ => ?_
  rw [h.value_of_at hat, hl.stored_of_at hat, hpres]
  rfl

/-! ## The queue -/

theorem queue_enqueue (m : Matrix) (t : QueuedTuple) (type : ScalarType) (op : DupOp) :
    (m.enqueue t type op).queue = m.queue ++ [t] := by
  unfold enqueue queue
  cases m.pending <;> simp

theorem queueAccepts_iff {type : ScalarType} {op : DupOp} : m.queueAccepts type op = true ↔
    ∀ q, m.pending = some q → q.type = type ∧ q.op = op := by
  unfold queueAccepts Pending.accepts
  cases m.pending <;> simp

/-- What takes a tuple is the queue it declares. -/
theorem pending_enqueue {t : QueuedTuple} {type : ScalarType} {op : DupOp}
    (hacc : m.queueAccepts type op = true) : (m.enqueue t type op).pending =
      some { tuples := (m.pending.getD ⟨#[], type, op⟩).tuples.push t, type, op } := by
  change some (_ : Pending) = _
  cases hp : m.pending with
  | none => rfl
  | some q =>
    obtain ⟨rfl, rfl⟩ := queueAccepts_iff.1 hacc q hp
    rfl

/-- A tuple comes after those queued for its place, and for no other. -/
theorem queuedAt_enqueue (m : Matrix) (t : QueuedTuple) (type : ScalarType) (op : DupOp) (i j : Nat) :
    (m.enqueue t type op).queuedAt i j =
      m.queuedAt i j ++ if t.i = i ∧ t.j = j then [m.written t] else [] := by
  rw [queuedAt, queuedAt, queue_enqueue, List.filter_append, List.map_append]
  congr 1
  by_cases hp : t.i = i ∧ t.j = j
  · rw [if_pos hp, List.filter_cons_of_pos (by simp [hp])]
    rfl
  · rw [if_neg hp, List.filter_cons_of_neg (by simpa using hp)]
    rfl

/-- The values of a matrix whose queue takes a tuple. -/
theorem value_enqueue {t : QueuedTuple} {type : ScalarType} {op : DupOp}
    (hacc : m.queueAccepts type op = true) (i j : Nat) : (m.enqueue t type op).value i j =
      foldOnto (op.apply m.type) (m.value i j) (if t.i = i ∧ t.j = j then [m.written t] else []) := by
  -- an operator that an empty queue does not have yet makes no difference to what is queued in it
  have hold : foldOnto (op.apply m.type) (m.stored i j) (m.queuedAt i j) = m.value i j := by
    cases hp : m.pending with
    | none => rw [value, queuedAt, queue, hp]; rfl
    | some q =>
      obtain ⟨-, rfl⟩ := queueAccepts_iff.1 hacc q hp
      rw [value, queueOp, hp]
  have hop : (m.enqueue t type op).queueOp = op := by rw [queueOp, pending_enqueue hacc]
  rw [value, hop, queuedAt_enqueue, foldOnto_append, ← hold]
  rfl

/-- **A tuple that the queue takes** combines with what is queued for its place. -/
theorem Inv.enqueue (h : m.Inv) {t : QueuedTuple} {type : ScalarType} {op : DupOp}
    (hacc : m.queueAccepts type op = true) (hc : type.castable m.type = true) (ht : m.Awaits type t) :
    (m.enqueue t type op).Inv ∧ m.Puts (m.enqueue t type op) t.i t.j
      (foldOnto (op.apply m.type) (m.value t.i t.j) [m.written t]) := by
  have hd : m.store.dense = false := by
    by_contra hd
    exact ht.missing _ ((h.laid.at_dense_iff (by simpa using hd)).2 ⟨ht.index_lt, ht.vector_lt, rfl⟩)
  have hl' : (m.enqueue t type op).Laid :=
    ⟨h.laid.cells_lt, h.laid.bits, h.laid.indexed, h.laid.sorted, h.laid.zombies,
      fun hc => absurd (show m.store.dense = true from hc) (by simp [hd]), h.laid.values, h.laid.typed⟩
  have hinv : (m.enqueue t type op).Inv := by
    refine ⟨hl', h.nrows_le, h.ncols_le, h.denseLimit, fun q hq' => ?_⟩
    rw [pending_enqueue hacc] at hq'
    cases hq'
    refine ⟨by simp, hc, fun t' ht' => ?_⟩
    rw [Array.toList_push, List.mem_append, List.mem_singleton] at ht'
    rcases ht' with ht' | rfl
    · cases hp : m.pending with
      | none => rw [hp] at ht'; simp at ht'
      | some q =>
        rw [hp] at ht'
        obtain ⟨rfl, -⟩ := queueAccepts_iff.1 hacc q hp
        have ha := (h.queued q hp).2.2 t' ht'
        exact ⟨ha.index_lt, ha.vector_lt, ha.missing, ha.carries⟩
    · exact ⟨ht.index_lt, ht.vector_lt, ht.missing, ht.carries⟩
  refine ⟨hinv, ⟨rfl, rfl, rfl, rfl, rfl⟩, by rw [value_enqueue hacc, if_pos ⟨rfl, rfl⟩], fun i' j' hne => ?_⟩
  rw [value_enqueue hacc, if_neg fun hc => hne ⟨hc.1.symm, hc.2.symm⟩]
  rfl

/-- A tuple is queued without its value where all entries share that; either way the value is what it
writes. -/
theorem Accepts.written_eq {raw v : Scalar} {op : DupOp} (hacc : m.Accepts v op)
    (hv : raw.cast m.type = some v) (i j : Nat) :
    m.written ⟨i, j, if m.iso then none else some raw⟩ = v := by
  have hself : v.cast m.type = some v := by
    rw [← (Scalar.cast_eq_some hv).1]
    exact v.cast_self
  rw [written]
  cases hiso : m.iso with
  | true =>
    simp only [if_true, Option.none_or, sharedIfIso, hiso, (hacc hiso).1, Option.bind_some, hself,
      Option.getD_some]
  | false => simp only [Bool.false_eq_true, if_false, Option.some_or, Option.bind_some, hv, Option.getD_some]

theorem awaits_of_missing {raw : Scalar} (hi : i < m.vlen) (hj : j < m.vdim)
    (hmissing : ∀ pos, ¬m.At i j pos) : m.Awaits raw.type ⟨i, j, if m.iso then none else some raw⟩ := by
  refine ⟨hi, hj, hmissing, ?_⟩
  cases hiso : m.iso with
  | true => rfl
  | false => exact ⟨rfl, rfl⟩

/-! ## The write -/

/-- **One attempt at a write.** It is put off only when there is a queue that does not take it. -/
theorem ensures_tryWrite (h : m.Inv) {raw v : Scalar} (hv : raw.cast m.type = some v) (hi : i < m.vlen)
    (hj : j < m.vdim) (op : DupOp) : Ensures (tryWrite raw v i j op) m
      (fun done t => t.Inv ∧ match done with
        | some _ => m.Puts t i j (foldOnto (op.apply m.type) (m.value i j) [v])
        | none => m.Keeps t ∧ m.pending ≠ none)
      (fun e t => e.OfMemory ∧ t.Inv ∧ m.Keeps t) := by
  obtain ⟨hvt, hcast⟩ := Scalar.cast_eq_some hv
  unfold tryWrite
  refine (ensures_prepareWrite h hvt op).bind ?_
  rintro _ s ⟨hinv, hkeeps, hacc, hnone⟩
  have hsv : v.type = s.type := hkeeps.type.symm ▸ hvt
  have hfold : foldOnto (op.apply m.type) (m.value i j) [v] =
      foldOnto (op.apply s.type) (s.value i j) [v] := by rw [hkeeps.type, hkeeps.value]
  refine ensures_subject ?_
  have hloc := hinv.laid.locate_cases (hkeeps.vlen.symm ▸ hi) (hkeeps.vdim.symm ▸ hj)
  rw [hfold]
  cases hl : s.locate i j with
  | cell pos =>
    rw [hl] at hloc
    obtain ⟨hinv', hputs⟩ := hinv.writeCell hloc.1 hloc.2 hsv hacc
    exact ensures_update_then (ensures_pure ⟨hinv', hkeeps.puts hputs⟩)
  | live pos =>
    rw [hl] at hloc
    obtain ⟨hinv', hputs⟩ := hinv.writeLive hloc.2.1 hloc.2.2 hsv hacc
    exact ensures_update_then (ensures_pure ⟨hinv', hkeeps.puts hputs⟩)
  | zombie pos =>
    rw [hl] at hloc
    obtain ⟨hinv', hputs⟩ := hinv.revive hloc.1 hloc.2.1 hloc.2.2 hsv hacc
    exact ensures_update_then (ensures_pure ⟨hinv', hkeeps.puts hputs⟩)
  | absent =>
    rw [hl] at hloc
    refine ensures_ite (fun hq => ?_) fun hq => ensures_pure ⟨hinv, hkeeps, fun hp => hq ?_⟩
    · have hawaits : s.Awaits raw.type ⟨i, j, if s.iso then none else some raw⟩ :=
        awaits_of_missing (hkeeps.vlen.symm ▸ hi) (hkeeps.vdim.symm ▸ hj) hloc.2
      obtain ⟨hinv', hputs⟩ := hinv.enqueue hq (hkeeps.type.symm ▸ hcast) hawaits
      rw [hacc.written_eq (hkeeps.type.symm ▸ hv)] at hputs
      exact ensures_update_then (ensures_subject (ensures_pure ⟨hinv', hkeeps.puts hputs⟩))
    · rw [queueAccepts, hnone hp]

/-- **A write** combines its value, cast to the element type, with the one at its cell. If it fails, it
is for its cell, for its value or for want of memory, and nothing has changed. -/
theorem ensures_accumulate (h : m.Inv) (raw : Scalar) (row col : Nat) (op : DupOp) :
    Ensures (accumulate raw row col op) m
      (fun _ t => t.Inv ∧ row < m.nrows ∧ col < m.ncols ∧ ∃ v, raw.cast m.type = some v ∧
        m.Puts t (m.toVector row col).1 (m.toVector row col).2
          (foldOnto (op.apply m.type) (m.cell row col) [v]))
      (fun e t => t.Inv ∧ m.Keeps t ∧
        (e.OfMemory ∨ m.checkBounds row col = .error e ∨ m.castIn raw = .error e)) := by
  unfold accumulate
  refine ensures_subject (ensures_require_then (fun e he => ⟨h, Keeps.refl m, .inr (.inl he)⟩)
    fun _ hbounds => ensures_require_then (fun e he => ⟨h, Keeps.refl m, .inr (.inr he)⟩)
      fun v hv => ?_)
  have hcast := castIn_eq_ok_iff.1 hv
  obtain ⟨hr, hc⟩ := checkBounds_ok hbounds
  obtain ⟨hi, hj⟩ := toVector_lt hr hc
  dsimp only
  refine (ensures_tryWrite h hcast hi hj op).andThen
    (fun e t ht => ⟨ht.2.1, ht.2.2, .inl ht.1⟩) ?_
  rintro (_ | done) s ⟨hinv, hs⟩
  · -- the queue did not take it: after a commit there is none
    obtain ⟨hkeeps, -⟩ := hs
    refine (ensures_wait hinv).andThen
      (fun e t ht => ⟨ht.2.1, hkeeps.trans ht.2.2, .inl ht.1⟩) ?_
    rintro _ t ⟨htinv, htkeeps, hdef⟩
    have hk := hkeeps.trans htkeeps
    refine (ensures_tryWrite htinv (hk.type.symm ▸ hcast) (hk.vlen.symm ▸ hi) (hk.vdim.symm ▸ hj)
      op).andThen (fun e t ht => ⟨ht.2.1, hk.trans ht.2.2, .inl ht.1⟩) ?_
    rintro (_ | done) u ⟨huinv, hu⟩
    · exact absurd (deferred_eq_false_iff.1 hdef).1 hu.2
    · refine ensures_pure ⟨huinv, hr, hc, v, hcast, ?_⟩
      have := hk.puts hu
      rwa [hk.type, hk.value] at this
  · exact ensures_pure ⟨hinv, hr, hc, v, hcast, hs⟩

end Matrix

end Adjacency
