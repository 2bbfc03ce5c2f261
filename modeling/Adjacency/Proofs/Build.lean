import Adjacency.Proofs.Content

/-!
# Laying out entries

A list of entries, grouped by vector, laid out in the two sparse formats.

* `Storage.Lists`: the slots of a sparse format are the entries of a list, in order.
* `Storage.ofEntries_lists`, `Storage.allPointers_lists`: the two sparse layouts.
* `Matrix.laid_of_lists`, `Matrix.entries_of_lists`: a matrix so laid out is in order, and has the
  entries of the list.
-/

namespace Adjacency

namespace Storage

/-! ## One pointer range for each vector that has entries -/

theorem getD_push {α : Type} (a : Array α) (v d : α) (k : Nat) :
    (a.push v).getD k d = if k = a.size then v else a.getD k d := by
  rw [Array.getD_eq_getD_getElem?, Array.getD_eq_getD_getElem?, Array.getElem?_push]
  split <;> rfl

theorem getD_pop_push {α : Type} {a : Array α} {n : Nat} (h : a.size = n + 1) (v d : α) (k : Nat) :
    (a.pop.push v).getD k d = if k = n then v else a.getD k d := by
  rw [getD_push, Array.size_pop, h, Nat.add_sub_cancel]
  split
  · rfl
  · next hk =>
    rw [Array.getD_eq_getD_getElem?, Array.getD_eq_getD_getElem?, Array.getElem?_pop, h,
      Nat.add_sub_cancel]
    split
    · rfl
    · rw [Array.getElem?_eq_none (by omega)]

/-- What the parts of an index under construction hold once the entries of `l` are in. -/
structure Builder.Holds (b : Builder) (l : List IndexEntry) : Prop where
  slots : b.i.toList = l.map fun e => { index := e.i }
  values : b.x.toList = l.map IndexEntry.value
  size : b.p.size = b.h.size + 1
  first : b.p.getD 0 0 = 0
  last : b.p.getD b.h.size 0 = l.length
  step : ∀ k, k < b.h.size → b.p.getD k 0 < b.p.getD (k + 1) 0
  back : b.h.back? = l.getLast?.map IndexEntry.j
  ascending : Ascending (b.h.getD · 0) 0 b.h.size
  vector : ∀ k, k < b.h.size → ∀ pos, b.p.getD k 0 ≤ pos → pos < b.p.getD (k + 1) 0 →
    l[pos]?.map IndexEntry.j = some (b.h.getD k 0)

theorem Builder.holds_nil : ({} : Builder).Holds [] where
  slots := rfl
  values := rfl
  size := rfl
  first := rfl
  last := rfl
  step := fun _ h => absurd h (Nat.not_lt_zero _)
  back := rfl
  ascending := fun _ _ _ _ h => absurd h (Nat.not_lt_zero _)
  vector := fun _ h => absurd h (Nat.not_lt_zero _)

variable {b : Builder} {l : List IndexEntry}

theorem Builder.Holds.count (h : b.Holds l) : b.i.size = l.length := by
  rw [← Array.length_toList, h.slots, List.length_map]

theorem Builder.Holds.lt_length (h : b.Holds l) {k pos : Nat} (hk : k < b.h.size)
    (h₁ : b.p.getD k 0 ≤ pos) (h₂ : pos < b.p.getD (k + 1) 0) : pos < l.length := by
  have := h.vector k hk pos h₁ h₂
  by_contra hge
  rw [List.getElem?_eq_none (by omega)] at this
  cases this

/-- The last vector listed is the one of the last entry. -/
theorem Builder.getD_back {j : Nat} (hb : b.h.back? = some j) :
    0 < b.h.size ∧ b.h.getD (b.h.size - 1) 0 = j := by
  rw [Array.back?_eq_getElem?] at hb
  obtain ⟨hlt, -⟩ := Array.getElem?_eq_some_iff.1 hb
  refine ⟨by omega, ?_⟩
  rw [Array.getD_eq_getD_getElem?, hb, Option.getD_some]

theorem Builder.Holds.vector_snoc (h : b.Holds l) (e : IndexEntry) {k pos : Nat} (hk : k < b.h.size)
    (h₁ : b.p.getD k 0 ≤ pos) (h₂ : pos < b.p.getD (k + 1) 0) :
    (l ++ [e])[pos]?.map IndexEntry.j = some (b.h.getD k 0) := by
  rw [List.getElem?_append_left (h.lt_length hk h₁ h₂), h.vector k hk pos h₁ h₂]

theorem getElem?_snoc_j (l : List IndexEntry) (e : IndexEntry) :
    (l ++ [e])[l.length]?.map IndexEntry.j = some e.j := by simp

/-- A vector that is not the last one lies behind all that are listed. -/
theorem Builder.Holds.listed_lt (h : b.Holds l) {e : IndexEntry} (he : ∀ e' ∈ l, e'.j ≤ e.j)
    (hb : b.h.back? ≠ some e.j) {k : Nat} (hk : k < b.h.size) : b.h.getD k 0 < e.j := by
  have hlast : b.h.back? = some (b.h.getD (b.h.size - 1) 0) := by
    rw [Array.back?_eq_getElem?, Array.getD_eq_getD_getElem?, Array.getElem?_eq_getElem (by omega)]
    rfl
  have hle : b.h.getD k 0 ≤ b.h.getD (b.h.size - 1) 0 := by
    rcases Nat.eq_or_lt_of_le (show k ≤ b.h.size - 1 by omega) with heq | hlt
    · rw [heq]
    · exact Nat.le_of_lt (h.ascending k _ (Nat.zero_le _) hlt (by omega))
  have hback := h.back
  rw [hlast] at hback hb
  -- the last vector is that of the last entry
  cases hl : l.getLast? with
  | none =>
    rw [hl] at hback
    cases hback
  | some e' =>
    rw [hl, Option.map_some, Option.some.injEq] at hback
    have hle' := he e' (List.mem_of_getLast? hl)
    have hne : b.h.getD (b.h.size - 1) 0 ≠ e.j := fun hc => hb (by rw [hc])
    omega

/-- An entry of the last vector widens its range. -/
theorem Builder.Holds.widened (h : b.Holds l) {e : IndexEntry} (hb : b.h.back? = some e.j) :
    ({ b with
      p := b.p.pop.push (l.length + 1), i := b.i.push { index := e.i }
      x := b.x.push e.value } : Builder).Holds (l ++ [e]) := by
  obtain ⟨hpos, hlast⟩ := getD_back hb
  have hp := fun k => getD_pop_push h.size (l.length + 1) 0 k
  refine ⟨?_, ?_, ?_, ?_, ?_, fun k hk => ?_, ?_, h.ascending, fun k hk pos h₁ h₂ => ?_⟩
  · simp [h.slots]
  · simp [h.values]
  · simp [h.size]
  · simp only [hp]
    rw [if_neg (by omega), h.first]
  · simp only [hp]
    rw [if_pos trivial, List.length_append, List.length_singleton]
  · change k < b.h.size at hk
    have hstep := h.step k hk
    simp only [hp]
    rw [if_neg (by omega)]
    split
    · next heq =>
      rw [heq, h.last] at hstep
      omega
    · exact hstep
  · simp [hb]
  · change k < b.h.size at hk
    simp only [hp] at h₁ h₂
    rw [if_neg (by omega)] at h₁
    split at h₂
    · next heq =>
      -- the widened range is the last; the new entry is at its end
      rcases Nat.lt_or_ge pos l.length with hlt | hge
      · exact h.vector_snoc e hk h₁ (by rw [heq, h.last]; exact hlt)
      · obtain rfl : pos = l.length := by omega
        rw [getElem?_snoc_j, ← hlast, ← heq, Nat.add_sub_cancel]
    · exact h.vector_snoc e hk h₁ h₂

/-- An entry of another vector opens a range. -/
theorem Builder.Holds.opened (h : b.Holds l) {e : IndexEntry} (he : ∀ e' ∈ l, e'.j ≤ e.j)
    (hb : b.h.back? ≠ some e.j) :
    ({
      h := b.h.push e.j, p := b.p.push (l.length + 1), i := b.i.push { index := e.i }
      x := b.x.push e.value } : Builder).Holds (l ++ [e]) := by
  have hsize := h.size
  have hh := fun k => getD_push b.h e.j 0 k
  have hp := fun k => getD_push b.p (l.length + 1) 0 k
  refine ⟨?_, ?_, ?_, ?_, ?_, fun k hk => ?_, ?_, fun k k' hk hlt hk' => ?_, fun k hk pos h₁ h₂ => ?_⟩
  · simp [h.slots]
  · simp [h.values]
  · simp [h.size]
  · simp only [hp]
    rw [if_neg (by omega), h.first]
  · simp only [hp, Array.size_push, h.size]
    rw [if_pos trivial, List.length_append, List.length_singleton]
  · rw [Array.size_push] at hk
    simp only [hp, h.size]
    rw [if_neg (by omega)]
    split
    · next heq =>
      obtain rfl : k = b.h.size := by omega
      rw [h.last]
      omega
    · exact h.step k (by omega)
  · simp
  · rw [Array.size_push] at hk'
    simp only [hh]
    rw [if_neg (by omega)]
    split
    · exact h.listed_lt he hb (by omega)
    · exact h.ascending k k' hk hlt (by omega)
  · rw [Array.size_push] at hk
    simp only [hp, hh, h.size] at h₁ h₂ ⊢
    rw [if_neg (by omega)] at h₁
    split at h₂
    · next heq =>
      obtain rfl : k = b.h.size := by omega
      rw [h.last] at h₁
      obtain rfl : pos = l.length := by omega
      rw [getElem?_snoc_j, if_pos rfl]
    · rw [if_neg (by omega)]
      exact h.vector_snoc e (by omega) h₁ h₂

/-- **One more entry** goes behind the others, into the last vector or a new one. -/
theorem Builder.Holds.push (h : b.Holds l) {e : IndexEntry} (he : ∀ e' ∈ l, e'.j ≤ e.j) :
    (b.push e).Holds (l ++ [e]) := by
  unfold Builder.push
  simp only [h.count]
  by_cases hb : b.h.back? = some e.j
  · rw [if_pos hb]
    exact h.widened hb
  · rw [if_neg hb]
    exact h.opened he hb

theorem Builder.holds_foldl (h : l.Pairwise fun a b => a.j ≤ b.j) :
    (l.foldl Builder.push {}).Holds l := by
  induction l using List.reverseRecOn with
  | nil => exact holds_nil
  | append_singleton l e ih =>
    rw [List.pairwise_append] at h
    rw [List.foldl_append]
    exact (ih h.1).push fun e' he' => h.2.2 e' he' e List.mem_cons_self

/-! ## The slots of a list -/

/-- The slots of a sparse format are the entries of `l`, in order. -/
structure Lists (s : Storage) (vlen vdim : Nat) (l : List IndexEntry) : Prop where
  sparse : s.dense = false
  indexed : s.Indexed vlen vdim
  size : s.slots.size = l.length
  slot : ∀ pos (h : pos < l.length), s.indexAt pos = l[pos].i ∧
    s.vectorAt (s.rangeOf pos) = l[pos].j ∧ s.deadAt pos = false

variable {vlen vdim : Nat}

/-- The values do not matter to the index. -/
theorem Lists.mapValues {s : Storage} (h : s.Lists vlen vdim l) (f : Array Scalar → Array Scalar) :
    (s.mapValues f).Lists vlen vdim l := by
  have hp : (s.mapValues f).pointers = s.pointers := s.pointers_mapValues f
  have hs : (s.mapValues f).slots = s.slots := s.slots_mapValues f
  refine ⟨(s.dense_mapValues f).trans h.sparse, ?_, by rw [hs, h.size], fun pos hpos => ?_⟩
  · exact h.indexed.congr ((s.pointed_mapValues f).2 h.indexed.pointed) hp (s.vectorAt_mapValues f)
      (by rw [hs]) fun pos _ => by rw [indexAt, hs]; rfl
  · rw [indexAt, deadAt, hs, rangeOf_congr hp, vectorAt_mapValues]
    exact h.slot pos hpos

theorem Builder.Holds.slot_eq (h : b.Holds l) {pos : Nat} (hpos : pos < l.length) :
    b.i.getD pos default = { index := l[pos].i } := by
  rw [Array.getD_eq_getD_getElem?, ← Array.getElem?_toList, h.slots, List.getElem?_map,
    List.getElem?_eq_getElem hpos]
  rfl

theorem Builder.Holds.vector_eq (h : b.Holds l) {k pos : Nat} (hk : k < b.h.size)
    (h₁ : b.p.getD k 0 ≤ pos) (h₂ : pos < b.p.getD (k + 1) 0) :
    ∃ hpos : pos < l.length, l[pos].j = b.h.getD k 0 := by
  have hpos := h.lt_length hk h₁ h₂
  have hv := h.vector k hk pos h₁ h₂
  rw [List.getElem?_eq_getElem hpos, Option.map_some, Option.some.injEq] at hv
  exact ⟨hpos, hv⟩

/-- The parts under construction are an index of the entries. -/
theorem Builder.Holds.lists (h : b.Holds l) (hd : IndexEntry.Distinct l)
    (hb : ∀ e ∈ l, e.i < vlen ∧ e.j < vdim) (x : Array Scalar) :
    (Storage.hypersparse b.h b.p b.i x).Lists vlen vdim l := by
  set s := Storage.hypersparse b.h b.p b.i x with hs
  have hcount : s.rangeCount = b.h.size := by
    change b.p.size - 1 = _
    rw [h.size, Nat.add_sub_cancel]
  have hindex : ∀ pos (hpos : pos < l.length), s.indexAt pos = l[pos].i := fun pos hpos => by
    change (b.i.getD pos default).index = _
    rw [h.slot_eq hpos]
  have hranges : Partition s.start s.rangeCount s.slots.size := by
    rw [hcount]
    exact ⟨h.first, fun k hk => Nat.le_of_lt (h.step k hk), h.last.trans h.count.symm⟩
  have hindexed : s.Indexed vlen vdim := by
    refine ⟨⟨h.size, h.step⟩, hranges, fun k hk => ?_, hcount ▸ h.ascending, fun pos hpos => ?_,
      fun k hk a c ha hac hc => ?_⟩
    · rw [hcount] at hk
      obtain ⟨hpos, hj⟩ := h.vector_eq hk (Nat.le_refl _) (h.step k hk)
      change b.h.getD k 0 < vdim
      rw [← hj]
      exact (hb _ (List.getElem_mem hpos)).2
    · have hpos' : pos < l.length := h.count ▸ hpos
      rw [hindex pos hpos']
      exact (hb _ (List.getElem_mem hpos')).1
    · rw [hcount] at hk
      obtain ⟨hal, haj⟩ := h.vector_eq hk ha (Nat.lt_trans hac hc)
      obtain ⟨hcl, hcj⟩ := h.vector_eq hk (Nat.le_trans ha (Nat.le_of_lt hac)) hc
      rw [hindex a hal, hindex c hcl]
      exact fun hi => List.pairwise_iff_getElem.1 hd a c hal hcl hac ⟨haj.trans hcj.symm, hi⟩
  refine ⟨rfl, hindexed, h.count, fun pos hpos => ⟨hindex pos hpos, ?_, ?_⟩⟩
  · obtain ⟨hr, hr₁, hr₂⟩ := hindexed.rangeOf_lt (show pos < b.i.size from h.count.symm ▸ hpos)
    rw [hcount] at hr
    obtain ⟨_, hj⟩ := h.vector_eq hr hr₁ hr₂
    exact hj.symm
  · change (b.i.getD pos default).dead = false
    rw [h.slot_eq hpos]

/-- **Grouped entries, laid out with a pointer range for each vector that has some.** -/
theorem ofEntries_lists (hg : l.Pairwise fun a b => a.j ≤ b.j) (hd : IndexEntry.Distinct l)
    (hb : ∀ e ∈ l, e.i < vlen ∧ e.j < vdim) : (ofEntries l.toArray).Lists vlen vdim l := by
  rw [ofEntries, List.foldl_toArray]
  exact (Builder.holds_foldl hg).lists hd hb _

theorem ofEntries_values (hg : l.Pairwise fun a b => a.j ≤ b.j) :
    (ofEntries l.toArray).values.toList = l.map IndexEntry.value := by
  rw [ofEntries, List.foldl_toArray]
  exact (Builder.holds_foldl hg).values

/-! ## A pointer for every vector -/

/-- The pointers of the first `n` vectors, and how many of the listed vectors are among them. -/
def scanPointers (h p : Array Nat) (n : Nat) : Array Nat × Nat :=
  (List.range n).foldl (fun (acc, k) j =>
    let k := if h[k]? = some j then k + 1 else k
    (acc.push (p.getD k 0), k)) (#[0], 0)

theorem scanPointers_succ (h p : Array Nat) (n : Nat) :
    scanPointers h p (n + 1) =
      let k := (scanPointers h p n).2
      let k' := if h[k]? = some n then k + 1 else k
      ((scanPointers h p n).1.push (p.getD k' 0), k') := by
  rw [scanPointers, List.range_succ, List.foldl_append]
  rfl

/-- The pointers so far: a listed vector has its range, any other an empty one. -/
structure Scanned (h p : Array Nat) (n : Nat) (acc : Array Nat) (k : Nat) : Prop where
  size : acc.size = n + 1
  first : acc.getD 0 0 = p.getD 0 0
  last : acc.getD n 0 = p.getD k 0
  le : k ≤ h.size
  below : ∀ a, a < k → h.getD a 0 < n
  above : ∀ a, k ≤ a → a < h.size → n ≤ h.getD a 0
  cut : ∀ j, j < n →
    (∃ a, a < h.size ∧ h.getD a 0 = j ∧ acc.getD j 0 = p.getD a 0 ∧
      acc.getD (j + 1) 0 = p.getD (a + 1) 0) ∨
    ((∀ a, a < h.size → h.getD a 0 ≠ j) ∧ acc.getD (j + 1) 0 = acc.getD j 0)

theorem getElem?_eq_some_iff_getD {a : Array Nat} {k v : Nat} :
    a[k]? = some v ↔ k < a.size ∧ a.getD k 0 = v := by
  rw [Array.getElem?_eq_some_iff, Array.getD_eq_getD_getElem?]
  constructor
  · rintro ⟨hk, rfl⟩; exact ⟨hk, by rw [Array.getElem?_eq_getElem hk]; rfl⟩
  · rintro ⟨hk, hv⟩; exact ⟨hk, by rw [Array.getElem?_eq_getElem hk] at hv; exact hv⟩

section Scanned

variable {h p acc : Array Nat} {n k : Nat}

theorem Scanned.getD_push (hs : Scanned h p n acc k) (v j : Nat) :
    (acc.push v).getD j 0 = if j = n + 1 then v else acc.getD j 0 := by
  rw [Storage.getD_push, hs.size]

/-- The next vector is listed: its range is the next one. -/
theorem Scanned.taken (hs : Scanned h p n acc k) (hasc : Ascending (h.getD · 0) 0 h.size)
    (hk : h[k]? = some n) : Scanned h p (n + 1) (acc.push (p.getD (k + 1) 0)) (k + 1) := by
  obtain ⟨hlt, hkn⟩ := getElem?_eq_some_iff_getD.1 hk
  refine ⟨by simp [hs.size], ?_, ?_, hlt, fun a ha => ?_, fun a ha hsize => ?_, fun j hj => ?_⟩
  · rw [hs.getD_push, if_neg (by omega), hs.first]
  · rw [hs.getD_push, if_pos rfl]
  · rcases Nat.eq_or_lt_of_le (Nat.le_of_lt_succ ha) with rfl | hak
    · omega
    · exact Nat.lt_succ_of_lt (hs.below a hak)
  · have hlater := hasc k a (Nat.zero_le _) ha hsize
    simp only at hlater
    omega
  · rw [hs.getD_push, hs.getD_push, if_neg (by omega)]
    rcases Nat.eq_or_lt_of_le (Nat.le_of_lt_succ hj) with rfl | hjn
    · exact .inl ⟨k, hlt, hkn, hs.last, by rw [if_pos rfl]⟩
    · rw [if_neg (by omega)]
      exact hs.cut j hjn

/-- The next vector is not listed: its range is empty. -/
theorem Scanned.skipped (hs : Scanned h p n acc k) (hasc : Ascending (h.getD · 0) 0 h.size)
    (hk : h[k]? ≠ some n) : Scanned h p (n + 1) (acc.push (p.getD k 0)) k := by
  have hne : ∀ a, a < h.size → h.getD a 0 ≠ n := by
    intro a ha heq
    rcases Nat.lt_or_ge a k with hak | hka
    · have hbelow := hs.below a hak
      omega
    · have hak : a ≠ k := fun hc => hk (getElem?_eq_some_iff_getD.2 ⟨hc ▸ ha, hc ▸ heq⟩)
      have habove := hs.above k (Nat.le_refl _) (by omega)
      have hlater := hasc k a (Nat.zero_le _) (by omega) ha
      simp only at hlater
      omega
  refine ⟨by simp [hs.size], ?_, ?_, hs.le, fun a ha => ?_, fun a ha hsize => ?_, fun j hj => ?_⟩
  · rw [hs.getD_push, if_neg (by omega), hs.first]
  · rw [hs.getD_push, if_pos rfl]
  · exact Nat.lt_succ_of_lt (hs.below a ha)
  · have habove := hs.above a ha hsize
    have hnot := hne a hsize
    omega
  · rw [hs.getD_push, hs.getD_push, if_neg (by omega)]
    rcases Nat.eq_or_lt_of_le (Nat.le_of_lt_succ hj) with rfl | hjn
    · exact .inr ⟨hne, by rw [if_pos rfl, hs.last]⟩
    · rw [if_neg (by omega)]
      exact hs.cut j hjn

theorem scanned (hasc : Ascending (h.getD · 0) 0 h.size) (hp : p.getD 0 0 = 0) (n : Nat) :
    Scanned h p n (scanPointers h p n).1 (scanPointers h p n).2 := by
  induction n with
  | zero =>
    exact ⟨rfl, hp.symm, hp.symm, Nat.zero_le _, fun a ha => absurd ha (Nat.not_lt_zero _),
      fun _ _ _ => Nat.zero_le _, fun j hj => absurd hj (Nat.not_lt_zero _)⟩
  | succ n ih =>
    rw [scanPointers_succ]
    dsimp only
    by_cases hk : h[(scanPointers h p n).2]? = some n
    · rw [if_pos hk]
      exact ih.taken hasc hk
    · rw [if_neg hk]
      exact ih.skipped hasc hk

/-- A position in the range of a vector lies in the range that the list has for it. -/
theorem Scanned.range_of (hs : Scanned h p n acc k) {j pos : Nat} (hj : j < n) (h₁ : acc.getD j 0 ≤ pos)
    (h₂ : pos < acc.getD (j + 1) 0) :
    ∃ a, a < h.size ∧ h.getD a 0 = j ∧ p.getD a 0 ≤ pos ∧ pos < p.getD (a + 1) 0 := by
  rcases hs.cut j hj with ⟨a, ha, haj, hqj, hqj'⟩ | ⟨-, he⟩
  · exact ⟨a, ha, haj, hqj ▸ h₁, hqj' ▸ h₂⟩
  · omega

/-- Once the scan is past every listed vector, it has met them all. -/
theorem Scanned.all_of_lt (hs : Scanned h p n acc k) (hlt : ∀ a, a < h.size → h.getD a 0 < n) :
    k = h.size := by
  have hle := hs.le
  by_contra hne
  have habove := hs.above k (Nat.le_refl _) (by omega)
  have hbelow := hlt k (by omega)
  omega

theorem Scanned.partition (hs : Scanned h p n acc k) {size : Nat} (hp : Partition (p.getD · 0) h.size size)
    (hk : k = h.size) : Partition (acc.getD · 0) n size := by
  refine ⟨hs.first.trans hp.first, fun j hj => ?_, hs.last.trans ((congrArg (p.getD · 0) hk).trans hp.last)⟩
  rcases hs.cut j hj with ⟨a, ha, -, hqj, hqj'⟩ | ⟨-, he⟩
  · rw [hqj, hqj']
    exact hp.step a ha
  · rw [he]

end Scanned

/-- **The same slots with a pointer for every vector.** -/
theorem allPointers_lists {h p : Array Nat} {i : Array Slot} {x : Array Scalar}
    (hl : (Storage.hypersparse h p i x).Lists vlen vdim l) :
    (Storage.sparse (allPointers h p vdim) i x).Lists vlen vdim l := by
  have hx := hl.indexed
  have hpsize : p.size = h.size + 1 := hx.pointed.1
  have hcount : (Storage.hypersparse h p i x).rangeCount = h.size := show p.size - 1 = _ by omega
  have hasc : Ascending (h.getD · 0) 0 h.size := hcount ▸ hx.ascending
  obtain ⟨q, k, hq, hs⟩ : ∃ q k, allPointers h p vdim = q ∧ Scanned h p vdim q k :=
    ⟨_, _, rfl, scanned hasc hx.ranges.first vdim⟩
  rw [hq]
  have hqsize := hs.size
  have hqcount : (Storage.sparse q i x).rangeCount = vdim := show q.size - 1 = _ by omega
  have hranges : Partition (Storage.sparse q i x).start (Storage.sparse q i x).rangeCount i.size := by
    rw [hqcount]
    exact hs.partition (hcount ▸ hx.ranges) (hs.all_of_lt fun a ha => hx.vector_lt a (hcount.symm ▸ ha))
  have hindexed : (Storage.sparse q i x).Indexed vlen vdim := by
    refine ⟨hs.size, hranges, fun j hj => hqcount ▸ hj, fun a b _ hab _ => hab, hx.index_lt,
      fun j hj a b h₁ hab h₂ => ?_⟩
    rw [hqcount] at hj
    obtain ⟨a', ha', haj, ha₁, -⟩ := hs.range_of hj h₁ (Nat.lt_trans hab h₂)
    obtain ⟨b', hb', hbj, -, hb₂⟩ := hs.range_of hj (Nat.le_trans h₁ (Nat.le_of_lt hab)) h₂
    have hab' : a' = b' :=
      hasc.injective (Nat.zero_le _) ha' (Nat.zero_le _) hb' (haj.trans hbj.symm)
    subst hab'
    exact hx.distinct a' (hcount.symm ▸ ha') a b ha₁ hab hb₂
  refine ⟨rfl, hindexed, hl.size, fun pos hpos => ?_⟩
  obtain ⟨hindex, hvector, hdead⟩ := hl.slot pos hpos
  refine ⟨hindex, ?_, hdead⟩
  have hpos' : pos < i.size := hl.size.symm ▸ hpos
  obtain ⟨hr, hr₁, hr₂⟩ := hindexed.rangeOf_lt hpos'
  rw [hqcount] at hr
  obtain ⟨a, ha, haj, ha₁, ha₂⟩ := hs.range_of hr hr₁ hr₂
  rw [← hvector, hx.rangeOf_eq (hcount.symm ▸ ha) ha₁ ha₂]
  exact haj.symm

end Storage

namespace Matrix

variable {m : Matrix} {l : List IndexEntry}

/-- The values of a sparse format are those of the entries of `l`, in order, or the one they share. -/
structure Carries (m : Matrix) (l : List IndexEntry) : Prop where
  size : m.store.values.size = if m.iso then 1 else l.length
  typed : ∀ v ∈ m.store.values.toList, v.type = m.type
  value : ∀ pos (h : pos < l.length), m.valueAt pos = l[pos].value

/-- Unless one is shared, the values are listed one by one. -/
theorem carries_of_values (hi : m.iso = false) (hx : m.store.values.toList = l.map IndexEntry.value)
    (hty : ∀ e ∈ l, e.value.type = m.type) : m.Carries l := by
  refine ⟨?_, fun v hv => ?_, fun pos hpos => ?_⟩
  · rw [← Array.length_toList, hx, hi, List.length_map]; rfl
  · rw [hx] at hv
    obtain ⟨e, he, rfl⟩ := List.mem_map.1 hv
    exact hty e he
  · rw [valueAt, if_neg (by simp [hi]), Array.getD_eq_getD_getElem?, ← Array.getElem?_toList, hx,
      List.getElem?_map, List.getElem?_eq_getElem hpos]
    rfl

/-- **A matrix laid out from a list is in order**, sorted if the list is. -/
theorem laid_of_lists (hl : m.store.Lists m.vlen m.vdim l) (hc : m.Carries l) (hz : m.zombies = 0)
    (hsort : m.jumbled = false → IndexEntry.Sorted l) : m.Laid := by
  have hd := hl.sparse
  have hx := hl.indexed
  refine laid_sparse hd hx (fun hj k hk a b ha hab hb => ?_) ?_ (by rw [hl.size, hc.size]) hc.typed
  · have hbl : b < l.length := hl.size ▸ hx.lt_size hk hb
    obtain ⟨hai, haj, -⟩ := hl.slot a (Nat.lt_trans hab hbl)
    obtain ⟨hbi, hbj, -⟩ := hl.slot b hbl
    have hbefore := List.pairwise_iff_getElem.1 (hsort hj) a b (Nat.lt_trans hab hbl) hbl hab
    rw [← hai, ← haj, ← hbi, ← hbj, hx.rangeOf_eq hk ha (Nat.lt_trans hab hb),
      hx.rangeOf_eq hk (Nat.le_trans ha (Nat.le_of_lt hab)) hb] at hbefore
    rcases hbefore with h | h
    · exact absurd h (Nat.lt_irrefl _)
    · exact h.2
  · rw [hz, eq_comm, List.countP_eq_zero]
    intro pos hpos
    rw [(hl.slot pos (hl.size ▸ List.mem_range.1 hpos)).2.2]
    exact Bool.false_ne_true

/-- **Its entries are those of the list**, in the same order. -/
theorem entries_of_lists (hl : m.store.Lists m.vlen m.vdim l) (hc : m.Carries l) : m.entries = l := by
  have hd := hl.sparse
  have hpresent : ∀ pos ∈ List.range m.extent, m.present pos = true := by
    intro pos hpos
    rw [List.mem_range, extent_sparse hd] at hpos
    rw [present_sparse hd hpos, (hl.slot pos (hl.size ▸ hpos)).2.2]
    rfl
  rw [entries, List.filter_eq_self.2 hpresent]
  refine List.ext_getElem (by simp [extent_sparse hd, hl.size]) fun pos h₁ h₂ => ?_
  obtain ⟨hi, hj, -⟩ := hl.slot pos h₂
  rw [List.getElem_map, List.getElem_range, entryAt, place_sparse hd, hc.value pos h₂]
  simp only [hi, hj]

end Matrix

end Adjacency
