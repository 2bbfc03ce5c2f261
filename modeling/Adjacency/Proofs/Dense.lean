import Adjacency.Proofs.Keeps

/-!
# Laying out entries densely

A list of entries written into the bits and values of the dense formats.

* `Matrix.Fills`: the bits and values hold the entries of a list.
* `Matrix.denseArrays_fills`: so do those that are computed for the list.
* `Matrix.Fills.laid`: a matrix so laid out is in order, and has the entries of the list.
-/

namespace Adjacency

namespace Matrix

variable {m m' : Matrix} {l : List IndexEntry}

theorem vlen_mul_vdim (m : Matrix) : m.vlen * m.vdim = m.nrows * m.ncols := by
  unfold vlen vdim
  split
  · exact Nat.mul_comm _ _
  · rfl

theorem cell_lt {n d i j : Nat} (hi : i < n) (hj : j < d) : i + j * n < n * d := by
  have hmul : (j + 1) * n ≤ d * n := Nat.mul_le_mul_right _ hj
  rw [Nat.succ_mul, Nat.mul_comm d] at hmul
  omega

theorem cell_injective {n i j i' j' : Nat} (hi : i < n) (hi' : i' < n)
    (h : i + j * n = i' + j' * n) : i = i' ∧ j = j' := by
  have hmod := congrArg (· % n) h
  simp only [Nat.add_mul_mod_self_right, Nat.mod_eq_of_lt hi, Nat.mod_eq_of_lt hi'] at hmod
  subst hmod
  exact ⟨rfl, Nat.eq_of_mul_eq_mul_right (by omega) (Nat.add_left_cancel h)⟩

theorem densePos_of_lt (hcells : m.vlen * m.vdim < UInt64.size) {i j : Nat} (hi : i < m.vlen)
    (hj : j < m.vdim) : m.densePos i j = i + j * m.vlen := by
  have := cell_lt hi hj
  rw [densePos, wordOf_eq (n := j * m.vlen) (by omega), wordOf_eq (by omega)]

section Fill

variable {α ε : Type} {f : ε → Nat} {g : ε → α} {d : α}

theorem size_foldl_set (es : List ε) (x : Array α) :
    (es.foldl (fun x e => x.setIfInBounds (f e) (g e)) x).size = x.size := by
  induction es generalizing x with
  | nil => rfl
  | cons e es ih => rw [List.foldl_cons, ih, Array.size_setIfInBounds]

theorem getD_setIfInBounds_ne {x : Array α} {k pos : Nat} {v : α} (h : pos ≠ k) :
    (x.setIfInBounds pos v).getD k d = x.getD k d := by
  rw [Array.getD_eq_getD_getElem?, Array.getD_eq_getD_getElem?, Array.getElem?_setIfInBounds_ne h]

theorem getD_setIfInBounds_self {x : Array α} {pos : Nat} {v : α} (h : pos < x.size) :
    (x.setIfInBounds pos v).getD pos d = v := by
  rw [Array.getD_eq_getD_getElem?, Array.getElem?_setIfInBounds_self_of_lt h, Option.getD_some]

theorem getD_foldl_set_of_not_mem {es : List ε} {x : Array α} {k : Nat} (h : ∀ e ∈ es, f e ≠ k) :
    (es.foldl (fun x e => x.setIfInBounds (f e) (g e)) x).getD k d = x.getD k d := by
  induction es generalizing x with
  | nil => rfl
  | cons e es ih =>
    rw [List.foldl_cons, ih fun e' he' => h e' (List.mem_cons_of_mem _ he'),
      getD_setIfInBounds_ne (h e List.mem_cons_self)]

theorem getD_foldl_set_of_mem {es : List ε} {x : Array α} (hd : es.Pairwise fun a b => f a ≠ f b)
    {e : ε} (he : e ∈ es) (hlt : f e < x.size) :
    (es.foldl (fun x e => x.setIfInBounds (f e) (g e)) x).getD (f e) d = g e := by
  induction es generalizing x with
  | nil => cases he
  | cons a es ih =>
    rw [List.pairwise_cons] at hd
    rw [List.foldl_cons]
    rcases List.mem_cons.1 he with rfl | he
    · rw [getD_foldl_set_of_not_mem fun b hb => (hd.1 b hb).symm, getD_setIfInBounds_self hlt]
    · exact ih hd.2 he (by rwa [Array.size_setIfInBounds])

theorem mem_foldl_set {es : List ε} {x : Array α} {v : α}
    (h : v ∈ (es.foldl (fun x e => x.setIfInBounds (f e) (g e)) x).toList) :
    v ∈ x.toList ∨ ∃ e ∈ es, v = g e := by
  induction es generalizing x with
  | nil => exact .inl h
  | cons a es ih =>
    rw [List.foldl_cons] at h
    rcases ih h with hv | ⟨e, he, hv⟩
    · rw [Array.toList_setIfInBounds] at hv
      rcases List.mem_or_eq_of_mem_set hv with hv | rfl
      · exact .inl hv
      · exact .inr ⟨a, List.mem_cons_self, rfl⟩
    · exact .inr ⟨e, List.mem_cons_of_mem _ he, hv⟩

theorem foldl_pair {β γ : Type} {F : β → ε → β} {G : γ → ε → γ} (es : List ε) (b : β) (c : γ) :
    es.foldl (fun (s : β × γ) e => (F s.1 e, G s.2 e)) (b, c) = (es.foldl F b, es.foldl G c) := by
  induction es generalizing b c with
  | nil => rfl
  | cons e es ih => rw [List.foldl_cons, ih]; rfl

end Fill

/-- The dense arrays, bits and values apart. -/
theorem denseArrays_eq (m : Matrix) (l : List IndexEntry) : m.denseArrays l =
    (l.foldl (fun b e => b.setIfInBounds (m.densePos e.i e.j) true) (Array.replicate m.cells false),
      l.foldl (fun x e => if m.iso then x else x.setIfInBounds (m.densePos e.i e.j) e.value)
        (Array.replicate (if m.iso then 1 else m.cells) (m.sharedIfIso.getD m.type.zero))) :=
  foldl_pair (F := fun (b : Array Bool) (e : IndexEntry) => b.setIfInBounds (m.densePos e.i e.j) true)
    (G := fun (x : Array Scalar) (e : IndexEntry) =>
      if m.iso then x else x.setIfInBounds (m.densePos e.i e.j) e.value) l _ _

/-- The bits and values hold the entries of `l`. -/
structure Fills (m : Matrix) (l : List IndexEntry) (b : Array Bool) (x : Array Scalar) : Prop where
  bits : b.size = m.vlen * m.vdim
  bit : ∀ pos, pos < m.vlen * m.vdim →
    (b.getD pos false = true ↔ ∃ e ∈ l, e.i + e.j * m.vlen = pos)
  size : x.size = if m.iso then 1 else m.vlen * m.vdim
  typed : ∀ v ∈ x.toList, v.type = m.type
  value : m.iso = false → ∀ e ∈ l, x.getD (e.i + e.j * m.vlen) m.type.zero = e.value
  shared : m.iso = true → x = #[m.shared]

theorem denseArrays_fills (hcells : m.vlen * m.vdim < UInt64.size) (hd : IndexEntry.Distinct l)
    (hb : ∀ e ∈ l, e.i < m.vlen ∧ e.j < m.vdim) (hty : ∀ e ∈ l, e.value.type = m.type)
    (hsh : m.iso = true → m.shared.type = m.type) :
    m.Fills l (m.denseArrays l).1 (m.denseArrays l).2 := by
  have hpos : ∀ e ∈ l, m.densePos e.i e.j = e.i + e.j * m.vlen := fun e he =>
    densePos_of_lt hcells (hb e he).1 (hb e he).2
  have hlt : ∀ e ∈ l, e.i + e.j * m.vlen < m.vlen * m.vdim := fun e he =>
    cell_lt (hb e he).1 (hb e he).2
  have hne : l.Pairwise fun a b => m.densePos a.i a.j ≠ m.densePos b.i b.j := by
    refine hd.imp_of_mem fun {a b} ha hb' hab hc => hab ?_
    rw [hpos a ha, hpos b hb'] at hc
    exact (cell_injective (hb a ha).1 (hb b hb').1 hc).symm
  have hn : m.cells = m.vlen * m.vdim := wordOf_eq hcells
  rw [denseArrays_eq, hn]
  refine ⟨by rw [size_foldl_set, Array.size_replicate], fun pos hp => ⟨fun hbit => ?_, ?_⟩, ?_, ?_,
    fun hi e he => ?_, fun hi => ?_⟩
  · by_contra hno
    rw [getD_foldl_set_of_not_mem] at hbit
    · simp [hp] at hbit
    · exact fun e he hc => hno ⟨e, he, by rw [← hpos e he, hc]⟩
  · rintro ⟨e, he, rfl⟩
    rw [← hpos e he]
    exact getD_foldl_set_of_mem hne he (by rw [Array.size_replicate, hpos e he]; exact hp)
  · cases hi : m.iso <;> simp [size_foldl_set]
  · intro v hv
    cases hi : m.iso with
    | true =>
      simp only [hi, if_true, List.foldl_fixed, sharedIfIso, Option.getD_some] at hv
      rw [Array.toList_replicate, List.mem_replicate] at hv
      rw [hv.2, hsh hi]
    | false =>
      simp only [hi, Bool.false_eq_true, if_false, sharedIfIso, Option.getD_none] at hv
      rcases mem_foldl_set hv with hv | ⟨e, he, rfl⟩
      · rw [Array.toList_replicate, List.mem_replicate] at hv
        rw [hv.2, ScalarType.zero_type]
      · exact hty e he
  · simp only [hi, Bool.false_eq_true, if_false]
    rw [← hpos e he]
    exact getD_foldl_set_of_mem hne he (by
      rw [Array.size_replicate, hpos e he]; exact hlt e he)
  · simp [hi, sharedIfIso]

section Filled

variable {b : Array Bool} {x : Array Scalar}

/-- The cells that hold the entries of `l`. -/
theorem Fills.cells_perm (hf : m.Fills l b x) (hd : IndexEntry.Distinct l)
    (hb : ∀ e ∈ l, e.i < m.vlen ∧ e.j < m.vdim) :
    (l.map fun e => e.i + e.j * m.vlen).Perm
      ((List.range (m.vlen * m.vdim)).filter fun pos => b.getD pos false) := by
  refine (List.perm_ext_iff_of_nodup ?_ (List.nodup_range.filter _)).2 fun pos => ?_
  · refine List.pairwise_map.2 (hd.imp_of_mem fun {e e'} he he' hne hc => hne ?_)
    exact (cell_injective (hb e he).1 (hb e' he').1 hc).symm
  · rw [List.mem_map, List.mem_filter, List.mem_range]
    constructor
    · rintro ⟨e, he, rfl⟩
      have hlt := cell_lt (hb e he).1 (hb e he).2
      exact ⟨hlt, (hf.bit _ hlt).2 ⟨e, he, rfl⟩⟩
    · rintro ⟨hlt, hbit⟩
      exact (hf.bit pos hlt).1 hbit

theorem Fills.length_eq (hf : m.Fills l b x) (hd : IndexEntry.Distinct l)
    (hb : ∀ e ∈ l, e.i < m.vlen ∧ e.j < m.vdim) :
    l.length = (List.range (m.vlen * m.vdim)).countP (b.getD · false) := by
  have := (hf.cells_perm hd hb).length_eq
  rwa [List.length_map, ← List.countP_eq_length_filter] at this

/-- With as many entries as cells, every cell is taken. -/
theorem Fills.all_of_length (hf : m.Fills l b x) (hd : IndexEntry.Distinct l)
    (hb : ∀ e ∈ l, e.i < m.vlen ∧ e.j < m.vdim) (hlen : l.length = m.vlen * m.vdim) {pos : Nat}
    (hpos : pos < m.vlen * m.vdim) : b.getD pos false = true := by
  have hcount := hf.length_eq hd hb
  rw [hlen] at hcount
  have hall := List.countP_eq_length.1 (hcount.symm.trans (List.length_range (n := m.vlen * m.vdim)).symm)
  exact hall pos (List.mem_range.2 hpos)

/-- A matrix laid out densely is in order, and has the entries of the list. -/
theorem Fills.laid (hf : m.Fills l b x) (hs : m.SameShape m') (hi : m'.iso = m.iso)
    (hcells : m.vlen * m.vdim < UInt64.size) (hd : m'.store.dense = true)
    (hv : m'.store.values = x) (hdef : m'.deferred = false)
    (hbits : ∀ b x n, m'.store = .bitmap b x n →
      b.size = m'.vlen * m'.vdim ∧ n = (List.range (m'.vlen * m'.vdim)).countP (b.getD · false))
    (hpres : ∀ pos, pos < m.vlen * m.vdim → m'.cellPresent pos = b.getD pos false)
    (hb : ∀ e ∈ l, e.i < m.vlen ∧ e.j < m.vdim)
    (hsh : m.iso = true → ∀ e ∈ l, e.value = m.shared) :
    m'.Laid ∧ ∀ e, e ∈ m'.entries ↔ e ∈ l := by
  have hl' : m'.Laid := by
    refine laid_dense hd (by rw [hs.vlen, hs.vdim]; exact hcells) hbits hdef ?_ ?_
    · rw [hv, hi, hf.size, extent, if_pos hd, cells, hs.vlen, hs.vdim, wordOf_eq hcells]
    · rw [hv, hs.type]; exact hf.typed
  refine ⟨hl', ?_⟩
  have hvalue : ∀ e ∈ l, m'.valueAt (e.i + e.j * m.vlen) = e.value := by
    intro e he
    rw [valueAt, hi, Matrix.shared, hv, hs.type]
    split
    · next hiso => rw [hf.shared hiso, hsh hiso e he]; rfl
    · next hiso => exact hf.value (by simpa using hiso) e he
  rintro ⟨j, i, v⟩
  rw [hl'.mem_entries, hl'.stored_eq_some_iff]
  simp only [hl'.at_dense_iff hd, hs.vlen, hs.vdim, present_dense hd]
  constructor
  · rintro ⟨pos, ⟨hil, hjl, rfl⟩, hp, rfl⟩
    have hlt := cell_lt hil hjl
    rw [hpres _ hlt] at hp
    obtain ⟨e, he, hpos⟩ := (hf.bit _ hlt).1 hp
    obtain ⟨rfl, rfl⟩ := cell_injective (hb e he).1 hil hpos
    rwa [hvalue e he]
  · intro he
    have hlt := cell_lt (hb _ he).1 (hb _ he).2
    exact ⟨_, ⟨(hb _ he).1, (hb _ he).2, rfl⟩, by
      rw [hpres _ hlt]; exact (hf.bit _ hlt).2 ⟨_, he, rfl⟩, hvalue _ he⟩

end Filled

end Matrix

end Adjacency
