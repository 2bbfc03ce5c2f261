import Adjacency.Matrix.Commit
import Mathlib

/-!
# Lists of entries

A list of entries denotes, for every place, the values written there, in order (`valuesAt`). A commit
sorts such lists, combines the writes to a place and merges the result into the index.

* `foldOnto`: what is left at a place when values are written over it one after the other.
* `valuesAt_combined`: combining leaves the fold of the writes at each place.
* `valuesAt_merged`: merging folds the new entries onto the old live ones.
* `mergePlaces_toList`: the merge by steps is the merge by recursion.
-/

namespace Adjacency

/-- `f` combines the value at hand with a new one; the first value is taken as it is. -/
def foldOnto (f : Scalar → Scalar → Scalar) (start : Option Scalar) (vs : List Scalar) : Option Scalar :=
  vs.foldl (fun current v => some (match current with
    | some old => f old v
    | none => v)) start

section Fold

variable (f : Scalar → Scalar → Scalar)

@[simp] theorem foldOnto_nil (start : Option Scalar) : foldOnto f start [] = start := rfl

theorem foldOnto_append (start : Option Scalar) (vs ws : List Scalar) :
    foldOnto f start (vs ++ ws) = foldOnto f (foldOnto f start vs) ws := List.foldl_append ..

@[simp] theorem foldOnto_none_cons (v : Scalar) (vs : List Scalar) :
    foldOnto f none (v :: vs) = foldOnto f (some v) vs := rfl

@[simp] theorem foldOnto_some_cons (old v : Scalar) (vs : List Scalar) :
    foldOnto f (some old) (v :: vs) = foldOnto f (some (f old v)) vs := rfl

/-- What holds of every value written, and is kept by combining, holds of the outcome. -/
theorem foldOnto_all {P : Scalar → Prop} (hf : ∀ a b, P a → P b → P (f a b)) {start : Option Scalar}
    {vs : List Scalar} (hs : ∀ v, start = some v → P v) (hvs : ∀ v ∈ vs, P v) {w : Scalar}
    (hw : foldOnto f start vs = some w) : P w := by
  induction vs generalizing start with
  | nil => exact hs w hw
  | cons v vs ih =>
    have hv := hvs v List.mem_cons_self
    have hrest : ∀ v' ∈ vs, P v' := fun v' hv' => hvs v' (List.mem_cons_of_mem _ hv')
    cases start with
    | none => exact ih (fun w h => by obtain rfl := Option.some.inj h; exact hv) hrest hw
    | some old =>
      exact ih (fun w h => by obtain rfl := Option.some.inj h; exact hf _ _ (hs old rfl) hv) hrest hw

end Fold

/-! ## Places -/

/-- The first place comes before the second: by vector, then by index. -/
def Before (j i j' i' : Nat) : Prop := j < j' ∨ j = j' ∧ i < i'

theorem placeLt_iff {j i j' i' : Nat} : placeLt j i j' i' = true ↔ Before j i j' i' := by
  simp [placeLt, Before]

theorem placeLe_iff {j i j' i' : Nat} :
    placeLe j i j' i' = true ↔ Before j i j' i' ∨ j = j' ∧ i = i' := by
  simp only [placeLe, Before, Bool.or_eq_true, decide_eq_true_eq, Bool.and_eq_true, beq_iff_eq]
  omega

theorem Before.ne {j i j' i' : Nat} (h : Before j i j' i') : ¬(j = j' ∧ i = i') := by
  unfold Before at h; omega

theorem Before.trans {j i j' i' j'' i'' : Nat} (h : Before j i j' i') (h' : Before j' i' j'' i'') :
    Before j i j'' i'' := by
  unfold Before at *; omega

theorem before_of_not {j i j' i' : Nat} (h : ¬Before j i j' i') (hne : ¬(j = j' ∧ i = i')) :
    Before j' i' j i := by
  unfold Before at *; omega

/-- Two places of which neither comes first are the same. -/
theorem place_eq_of_not_before {j i j' i' : Nat} (h : ¬Before j i j' i') (h' : ¬Before j' i' j i) :
    j = j' ∧ i = i' := by
  by_contra hne
  exact h' (before_of_not h hne)

/-- A place before the first one of an ascending list comes before them all. -/
theorem Before.all {α : Type} (row col : α → Nat) {j i : Nat} {x : α} {xs : List α}
    (h : Before j i (row x) (col x))
    (hxs : (x :: xs).Pairwise fun a b => Before (row a) (col a) (row b) (col b)) :
    ∀ y ∈ x :: xs, Before j i (row y) (col y) := by
  intro y hy
  rcases List.mem_cons.1 hy with rfl | hy
  · exact h
  · exact h.trans (List.rel_of_pairwise_cons hxs hy)

/-- Strictly ascending by place. -/
def IndexEntry.Sorted (l : List IndexEntry) : Prop := l.Pairwise fun a b => Before a.j a.i b.j b.i

/-- Strictly ascending by place. -/
def Existing.Sorted (l : List Existing) : Prop := l.Pairwise fun a b => Before a.j a.i b.j b.i

/-- The values written at a place, in order. -/
def valuesAt (l : List IndexEntry) (j i : Nat) : List Scalar :=
  (l.filter fun e => e.j == j && e.i == i).map (·.value)

theorem valuesAt_cons (e : IndexEntry) (l : List IndexEntry) (j i : Nat) :
    valuesAt (e :: l) j i = if e.j = j ∧ e.i = i then e.value :: valuesAt l j i else valuesAt l j i := by
  by_cases h : e.j = j ∧ e.i = i
  · rw [if_pos h, valuesAt, List.filter_cons_of_pos (by simp [h])]; rfl
  · rw [if_neg h, valuesAt, List.filter_cons_of_neg (by simpa using h)]; rfl

@[simp] theorem valuesAt_nil (j i : Nat) : valuesAt [] j i = [] := rfl

theorem valuesAt_append (l l' : List IndexEntry) (j i : Nat) :
    valuesAt (l ++ l') j i = valuesAt l j i ++ valuesAt l' j i := by
  simp [valuesAt]

theorem mem_valuesAt {l : List IndexEntry} {j i : Nat} {v : Scalar} :
    v ∈ valuesAt l j i ↔ ⟨j, i, v⟩ ∈ l := by
  simp only [valuesAt, List.mem_map, List.mem_filter, Bool.and_eq_true, beq_iff_eq]
  constructor
  · rintro ⟨⟨j', i', v'⟩, ⟨hm, rfl, rfl⟩, rfl⟩; exact hm
  · exact fun h => ⟨⟨j, i, v⟩, ⟨h, rfl, rfl⟩, rfl⟩

theorem valuesAt_eq_nil {l : List IndexEntry} {j i : Nat} (h : ∀ e ∈ l, ¬(e.j = j ∧ e.i = i)) :
    valuesAt l j i = [] := by
  rw [List.eq_nil_iff_forall_not_mem]
  exact fun v hv => h _ (mem_valuesAt.1 hv) ⟨rfl, rfl⟩

/-- Behind a place, nothing is written at it. -/
theorem valuesAt_eq_nil_of_before {l : List IndexEntry} {j i : Nat}
    (h : ∀ e ∈ l, Before j i e.j e.i) : valuesAt l j i = [] :=
  valuesAt_eq_nil fun e he hp => (h e he).ne ⟨hp.1.symm, hp.2.symm⟩

/-- An entry behind all others keeps the order. -/
theorem IndexEntry.Sorted.snoc {l : List IndexEntry} {e : IndexEntry} (h : IndexEntry.Sorted l)
    (he : ∀ a ∈ l, Before a.j a.i e.j e.i) : IndexEntry.Sorted (l ++ [e]) := by
  refine List.pairwise_append.2 ⟨h, List.pairwise_singleton _ _, fun a ha b hb => ?_⟩
  rw [List.mem_singleton.1 hb]
  exact he a ha

/-- An entry behind all others is alone at its place. -/
theorem valuesAt_snoc {l : List IndexEntry} {e : IndexEntry} (he : ∀ a ∈ l, Before a.j a.i e.j e.i)
    (j i : Nat) : valuesAt (l ++ [e]) j i = if e.j = j ∧ e.i = i then [e.value] else valuesAt l j i := by
  rw [valuesAt_append, valuesAt_cons, valuesAt_nil]
  split
  · next hp =>
    obtain ⟨rfl, rfl⟩ := hp
    rw [valuesAt_eq_nil fun a ha => (he a ha).ne, List.nil_append]
  · rw [List.append_nil]

/-- No two entries stand at one place. -/
def IndexEntry.Distinct (l : List IndexEntry) : Prop := l.Pairwise fun a b => ¬(a.j = b.j ∧ a.i = b.i)

theorem IndexEntry.Sorted.distinct {l : List IndexEntry} (h : IndexEntry.Sorted l) :
    IndexEntry.Distinct l := h.imp Before.ne

/-- A list of distinct places writes at most once at a place. -/
theorem IndexEntry.Distinct.valuesAt_eq {l : List IndexEntry} (h : IndexEntry.Distinct l)
    {e : IndexEntry} (he : e ∈ l) : valuesAt l e.j e.i = [e.value] := by
  induction l with
  | nil => cases he
  | cons a l ih =>
    obtain ⟨ha, hl⟩ := List.pairwise_cons.1 h
    rw [valuesAt_cons]
    rcases List.mem_cons.1 he with rfl | he
    · rw [if_pos ⟨rfl, rfl⟩, valuesAt_eq_nil fun b hb hp => ha b hb ⟨hp.1.symm, hp.2.symm⟩]
    · rw [if_neg (ha e he), ih hl he]

/-- A list of distinct places holds at most one value at a place. -/
theorem IndexEntry.Distinct.toList_head? {l : List IndexEntry} (h : IndexEntry.Distinct l) (j i : Nat) :
    (valuesAt l j i).head?.toList = valuesAt l j i := by
  cases hv : valuesAt l j i with
  | nil => rfl
  | cons v vs =>
    have hm : ⟨j, i, v⟩ ∈ l := mem_valuesAt.1 (by simp [hv])
    rw [h.valuesAt_eq hm] at hv
    obtain ⟨-, rfl⟩ := List.cons.inj hv
    rfl

theorem IndexEntry.Distinct.valuesAt_eq_some_iff {l : List IndexEntry} (h : IndexEntry.Distinct l)
    {j i : Nat} {v : Scalar} : (valuesAt l j i).head? = some v ↔ ⟨j, i, v⟩ ∈ l := by
  constructor
  · exact fun hv => mem_valuesAt.1 (List.mem_of_head? hv)
  · exact fun hm => by rw [h.valuesAt_eq hm]; rfl

/-! ## Sorting by place -/

section Sorting

variable {α : Type} (j i : α → Nat)

theorem placeLe_trans (a b c : α) (hab : placeLe (j a) (i a) (j b) (i b) = true)
    (hbc : placeLe (j b) (i b) (j c) (i c) = true) : placeLe (j a) (i a) (j c) (i c) = true := by
  simp only [placeLe_iff, Before] at *; omega

theorem placeLe_total (a b : α) :
    (placeLe (j a) (i a) (j b) (i b) || placeLe (j b) (i b) (j a) (i a)) = true := by
  simp only [Bool.or_eq_true, placeLe_iff, Before]; omega

/-- Sorting by place, when no two places are the same. -/
theorem stableSort_sorted {l : List α} (h : l.Pairwise fun a b => ¬(j a = j b ∧ i a = i b)) :
    (stableSort (fun a b => placeLe (j a) (i a) (j b) (i b)) l).Pairwise fun a b =>
      Before (j a) (i a) (j b) (i b) := by
  rw [stableSort_eq_mergeSort]
  have hperm := List.mergeSort_perm l fun a b => placeLe (j a) (i a) (j b) (i b)
  have hle := List.pairwise_mergeSort (placeLe_trans j i) (placeLe_total j i) l
  have hne := hperm.symm.pairwise h fun hab hba => hab ⟨hba.1.symm, hba.2.symm⟩
  exact (hle.and hne).imp fun hab => (placeLe_iff.1 hab.1).resolve_right hab.2

theorem stableSort_perm {le : α → α → Bool} (l : List α) : (stableSort le l).Perm l := by
  rw [stableSort_eq_mergeSort]; exact List.mergeSort_perm l le

end Sorting

/-- Sorting keeps the order of the writes to a place. -/
theorem valuesAt_stableSort (l : List IndexEntry) (j i : Nat) :
    valuesAt (stableSort (fun a b => placeLe a.j a.i b.j b.i) l) j i = valuesAt l j i := by
  rw [stableSort_eq_mergeSort, valuesAt, valuesAt]
  set p : IndexEntry → Bool := fun e => e.j == j && e.i == i
  set sorted := l.mergeSort fun a b => placeLe a.j a.i b.j b.i
  have hp : (l.filter p).Pairwise fun a b => placeLe a.j a.i b.j b.i = true := by
    refine List.pairwise_of_forall_mem_list fun a ha b hb => placeLe_iff.2 (.inr ?_)
    simp only [p, List.mem_filter, Bool.and_eq_true, beq_iff_eq] at ha hb
    omega
  have hsub : (l.filter p).Sublist sorted :=
    List.sublist_mergeSort (placeLe_trans _ _) (placeLe_total _ _) hp List.filter_sublist
  have hsub' : (l.filter p).Sublist (sorted.filter p) := by
    have := hsub.filter p
    rwa [List.filter_filter, List.filter_congr (q := p) fun a _ => Bool.and_self _] at this
  have hlen : (sorted.filter p).length = (l.filter p).length :=
    ((List.mergeSort_perm l _).filter p).length_eq
  rw [hsub'.eq_of_length hlen.symm]

/-! ## Combining the writes to a place -/

/-- One more write: the entries stay sorted, and only its own place changes. -/
theorem combineRuns_step (op : DupOp) (ty : ScalarType) {acc : Array IndexEntry} {e : IndexEntry}
    (hacc : IndexEntry.Sorted acc.toList)
    (hcross : ∀ a ∈ acc.toList, placeLe a.j a.i e.j e.i = true) :
    IndexEntry.Sorted (combineRuns op ty acc e).toList ∧
      (∀ a ∈ (combineRuns op ty acc e).toList, a ∈ acc.toList ∨ a.j = e.j ∧ a.i = e.i) ∧
      ∀ j i, (valuesAt (combineRuns op ty acc e).toList j i).head? =
        foldOnto (op.apply ty) (valuesAt acc.toList j i).head? (valuesAt [e] j i) := by
  unfold combineRuns
  cases hb : acc.back? with
  | none =>
    obtain rfl : acc = #[] := Array.back?_eq_none_iff.1 hb
    refine ⟨by simp [IndexEntry.Sorted], by simp, fun j i => ?_⟩
    simp only [List.push_toArray, List.nil_append, valuesAt_cons, valuesAt_nil]
    split <;> rfl
  | some last =>
    obtain ⟨ys, rfl⟩ := Array.back?_eq_some_iff.1 hb
    simp only [Array.toList_push] at hacc hcross ⊢
    obtain ⟨hys, -, hlast⟩ := List.pairwise_append.1 hacc
    have hlast : ∀ a ∈ ys.toList, Before a.j a.i last.j last.i :=
      fun a ha => hlast a ha last (List.mem_singleton_self _)
    have hle := placeLe_iff.1 (hcross last (by simp))
    by_cases heq : last.j = e.j ∧ last.i = e.i
    · -- the write falls on the last entry, which takes it in
      rw [if_pos heq, Array.pop_push, Array.toList_push]
      refine ⟨IndexEntry.Sorted.snoc hys hlast, fun a ha => ?_, fun j i => ?_⟩
      · rcases List.mem_append.1 ha with ha | ha
        · exact .inl (List.mem_append_left _ ha)
        · rw [List.mem_singleton.1 ha]
          exact .inr heq
      · have htaken : ∀ v, valuesAt (ys.toList ++ [{ last with value := v }]) j i =
            if last.j = j ∧ last.i = i then [v] else valuesAt ys.toList j i :=
          fun v => valuesAt_snoc (e := { last with value := v }) hlast j i
        rw [htaken, htaken last.value, valuesAt_cons e, heq.1, heq.2]
        split <;> rfl
    · -- the write is behind the last entry, and so behind all of them
      rw [if_neg heq, Array.toList_push, Array.toList_push]
      have hbefore : ∀ a ∈ ys.toList ++ [last], Before a.j a.i e.j e.i := by
        intro a ha
        rcases List.mem_append.1 ha with ha | ha
        · exact (hlast a ha).trans (hle.resolve_right heq)
        · rw [List.mem_singleton.1 ha]
          exact hle.resolve_right heq
      refine ⟨hacc.snoc hbefore, fun a ha => ?_, fun j i => ?_⟩
      · rcases List.mem_append.1 ha with ha | ha
        · exact .inl ha
        · rw [List.mem_singleton.1 ha]
          exact .inr ⟨rfl, rfl⟩
      · rw [valuesAt_snoc hbefore, valuesAt_cons e, valuesAt_nil]
        split
        · next hp =>
          obtain ⟨rfl, rfl⟩ := hp
          rw [valuesAt_eq_nil fun a ha => (hbefore a ha).ne]
          rfl
        · rfl

/-- A run of combining: the entries stay sorted, and each place holds the fold of its writes. -/
theorem foldl_combineRuns (op : DupOp) (ty : ScalarType) {l : List IndexEntry} {acc : Array IndexEntry}
    (hacc : IndexEntry.Sorted acc.toList)
    (hl : l.Pairwise fun a b => placeLe a.j a.i b.j b.i = true)
    (hcross : ∀ a ∈ acc.toList, ∀ e ∈ l, placeLe a.j a.i e.j e.i = true) :
    IndexEntry.Sorted (l.foldl (combineRuns op ty) acc).toList ∧
      ∀ j i, (valuesAt (l.foldl (combineRuns op ty) acc).toList j i).head? =
        foldOnto (op.apply ty) (valuesAt acc.toList j i).head? (valuesAt l j i) := by
  induction l generalizing acc with
  | nil => exact ⟨hacc, fun j i => rfl⟩
  | cons e l ih =>
    obtain ⟨he, hl⟩ := List.pairwise_cons.1 hl
    obtain ⟨hs, hm, hv⟩ := combineRuns_step op ty hacc
      fun a ha => hcross a ha e List.mem_cons_self
    have hcross' : ∀ a ∈ (combineRuns op ty acc e).toList, ∀ b ∈ l, placeLe a.j a.i b.j b.i = true := by
      intro a ha b hb
      rcases hm a ha with ha | hp
      · exact hcross a ha b (List.mem_cons_of_mem _ hb)
      · rw [hp.1, hp.2]; exact he b hb
    obtain ⟨hs', hv'⟩ := ih hs hl hcross'
    refine ⟨hs', fun j i => ?_⟩
    rw [List.foldl_cons, hv', hv, ← foldOnto_append, ← valuesAt_append, List.singleton_append]

/-- **Combining** leaves, at each place, the fold of the writes there. -/
theorem valuesAt_combined (m : Matrix) (op : DupOp) (l : List IndexEntry) :
    IndexEntry.Sorted (m.combined op l) ∧ ∀ j i,
      valuesAt (m.combined op l) j i = (foldOnto (op.apply m.type) none (valuesAt l j i)).toList := by
  have hle := List.pairwise_mergeSort (placeLe_trans IndexEntry.j IndexEntry.i)
    (placeLe_total IndexEntry.j IndexEntry.i) l
  rw [← stableSort_eq_mergeSort] at hle
  obtain ⟨hs, hv⟩ := foldl_combineRuns op m.type
    (show IndexEntry.Sorted #[].toList by simp [IndexEntry.Sorted]) hle (by simp)
  refine ⟨hs, fun j i => ?_⟩
  rw [Matrix.combined, ← hs.distinct.toList_head?, hv, valuesAt_stableSort]
  rfl

/-! ## Merging into the index -/

/-- The entry of a slot, unless it is a tombstone. -/
def Existing.live (a : Existing) : Option IndexEntry := a.value.map (⟨a.j, a.i, ·⟩)

/-- Slots and new entries, both sorted by place, merged by recursion. -/
def merged (op : DupOp) (ty : ScalarType) : List Existing → List IndexEntry → List IndexEntry
  | [], bs => bs
  | a :: as, [] => (a :: as).filterMap Existing.live
  | a :: as, b :: bs =>
    if placeLt a.j a.i b.j b.i then a.live.toList ++ merged op ty as (b :: bs)
    else if placeLt b.j b.i a.j a.i then b :: merged op ty (a :: as) bs
    else overSlot op ty a b :: merged op ty as bs
  termination_by as bs => as.length + bs.length

theorem keepLive_toList (acc : Array IndexEntry) (a : Existing) :
    (keepLive acc a).toList = acc.toList ++ a.live.toList := by
  unfold keepLive Existing.live
  cases a.value <;> simp

theorem foldl_keepLive_toList (as : List Existing) (acc : Array IndexEntry) :
    (as.foldl keepLive acc).toList = acc.toList ++ as.filterMap Existing.live := by
  induction as generalizing acc with
  | nil => simp
  | cons a as ih =>
    rw [List.foldl_cons, ih, keepLive_toList, List.filterMap_cons]
    cases a.live <;> simp

/-- The merge by steps is the merge by recursion, given steps enough. -/
theorem mergePlaces_toList {op : DupOp} {ty : ScalarType} {n : Nat} {acc : Array IndexEntry}
    {as : List Existing} {bs : List IndexEntry} (h : as.length + bs.length < n) :
    (mergePlaces op ty n acc as bs).toList = acc.toList ++ merged op ty as bs := by
  induction n generalizing acc as bs with
  | zero => omega
  | succ n ih =>
    match as, bs with
    | [], bs => simp [mergePlaces, merged]
    | a :: as, [] =>
      rw [mergePlaces, merged, foldl_keepLive_toList]
      exact List.cons_ne_nil a as
    | a :: as, b :: bs =>
      simp only [List.length_cons] at h
      rw [mergePlaces, merged]
      split
      · rw [ih (by simp only [List.length_cons]; omega), keepLive_toList, List.append_assoc]
      · split
        · rw [ih (by simp only [List.length_cons]; omega)]; simp
        · rw [ih (by omega)]; simp

theorem mem_filterMap_live {as : List Existing} {e : IndexEntry} :
    e ∈ as.filterMap Existing.live ↔ ⟨e.j, e.i, some e.value⟩ ∈ as := by
  simp only [List.mem_filterMap, Existing.live, Option.map_eq_some_iff]
  constructor
  · rintro ⟨⟨j, i, _⟩, ha, v, rfl, rfl⟩; exact ha
  · exact fun h => ⟨_, h, e.value, rfl, rfl⟩

theorem Existing.Sorted.live {as : List Existing} (h : Existing.Sorted as) :
    IndexEntry.Sorted (as.filterMap Existing.live) := by
  refine List.pairwise_filterMap.2 (h.imp fun {a b} hab e he e' he' => ?_)
  simp only [Existing.live, Option.map_eq_some_iff] at he he'
  obtain ⟨_, -, rfl⟩ := he
  obtain ⟨_, -, rfl⟩ := he'
  exact hab

/-- A new entry over a slot stands at its own place. -/
theorem place_overSlot (op : DupOp) (ty : ScalarType) (a : Existing) (b : IndexEntry) :
    (overSlot op ty a b).j = b.j ∧ (overSlot op ty a b).i = b.i := by
  unfold overSlot
  split <;> exact ⟨rfl, rfl⟩

/-- Every merged entry stands at the place of a slot or of a new entry. -/
theorem mem_merged {op : DupOp} {ty : ScalarType} {as : List Existing} {bs : List IndexEntry}
    {e : IndexEntry} (he : e ∈ merged op ty as bs) :
    (∃ a ∈ as, a.j = e.j ∧ a.i = e.i) ∨ ∃ b ∈ bs, b.j = e.j ∧ b.i = e.i := by
  fun_induction merged op ty as bs with
  | case1 bs => exact .inr ⟨e, he, rfl, rfl⟩
  | case2 a as => exact .inl ⟨_, mem_filterMap_live.1 he, rfl, rfl⟩
  | case3 a as b bs hlt ih =>
    -- the slot comes first
    rcases List.mem_append.1 he with he | he
    · simp only [Existing.live, Option.mem_toList, Option.map_eq_some_iff] at he
      obtain ⟨v, -, rfl⟩ := he
      exact .inl ⟨a, List.mem_cons_self, rfl, rfl⟩
    · rcases ih he with ⟨a', ha', hp⟩ | h
      · exact .inl ⟨a', List.mem_cons_of_mem _ ha', hp⟩
      · exact .inr h
  | case4 a as b bs hle hlt ih =>
    -- the new entry comes first
    rcases List.mem_cons.1 he with rfl | he
    · exact .inr ⟨e, List.mem_cons_self, rfl, rfl⟩
    · rcases ih he with h | ⟨b', hb', hp⟩
      · exact .inl h
      · exact .inr ⟨b', List.mem_cons_of_mem _ hb', hp⟩
  | case5 a as b bs hle hle' ih =>
    -- both stand at one place
    rcases List.mem_cons.1 he with rfl | he
    · obtain ⟨hj, hi⟩ := place_overSlot op ty a b
      exact .inr ⟨b, List.mem_cons_self, hj.symm, hi.symm⟩
    · rcases ih he with ⟨a', ha', hp⟩ | ⟨b', hb', hp⟩
      · exact .inl ⟨a', List.mem_cons_of_mem _ ha', hp⟩
      · exact .inr ⟨b', List.mem_cons_of_mem _ hb', hp⟩

theorem merged_sorted {op : DupOp} {ty : ScalarType} {as : List Existing} {bs : List IndexEntry}
    (has : Existing.Sorted as) (hbs : IndexEntry.Sorted bs) :
    IndexEntry.Sorted (merged op ty as bs) := by
  fun_induction merged op ty as bs with
  | case1 bs => exact hbs
  | case2 a as => exact has.live
  | case3 a as b bs hlt ih =>
    rw [placeLt_iff] at hlt
    obtain ⟨ha, has'⟩ := List.pairwise_cons.1 has
    refine List.pairwise_append.2 ⟨by cases a.live <;> simp, ih has' hbs, fun x hx y hy => ?_⟩
    simp only [Existing.live, Option.mem_toList, Option.map_eq_some_iff] at hx
    obtain ⟨v, -, rfl⟩ := hx
    rcases mem_merged hy with ⟨a', ha', hp⟩ | ⟨b', hb', hp⟩
    · rw [← hp.1, ← hp.2]; exact ha a' ha'
    · rw [← hp.1, ← hp.2]; exact hlt.all IndexEntry.j IndexEntry.i hbs b' hb'
  | case4 a as b bs hle hlt ih =>
    rw [placeLt_iff] at hlt
    obtain ⟨hb, hbs'⟩ := List.pairwise_cons.1 hbs
    refine List.pairwise_cons.2 ⟨fun y hy => ?_, ih has hbs'⟩
    rcases mem_merged hy with ⟨a', ha', hp⟩ | ⟨b', hb', hp⟩
    · rw [← hp.1, ← hp.2]; exact hlt.all Existing.j Existing.i has a' ha'
    · rw [← hp.1, ← hp.2]; exact hb b' hb'
  | case5 a as b bs hle hle' ih =>
    rw [placeLt_iff] at hle hle'
    obtain ⟨ha, has'⟩ := List.pairwise_cons.1 has
    obtain ⟨hb, hbs'⟩ := List.pairwise_cons.1 hbs
    have heq := place_eq_of_not_before hle hle'
    have hplace := place_overSlot op ty a b
    refine List.pairwise_cons.2 ⟨fun y hy => ?_, ih has' hbs'⟩
    rw [hplace.1, hplace.2]
    rcases mem_merged hy with ⟨a', ha', hp⟩ | ⟨b', hb', hp⟩
    · rw [← hp.1, ← hp.2, ← heq.1, ← heq.2]; exact ha a' ha'
    · rw [← hp.1, ← hp.2]; exact hb b' hb'

/-- Behind the place of a slot, no live entry stands at it. -/
theorem valuesAt_live_eq_nil {as : List Existing} {j i : Nat} (h : ∀ a ∈ as, Before j i a.j a.i) :
    valuesAt (as.filterMap Existing.live) j i = [] :=
  valuesAt_eq_nil_of_before fun _ he => h _ (mem_filterMap_live.1 he)

theorem valuesAt_live (a : Existing) (j i : Nat) :
    valuesAt a.live.toList j i = if a.j = j ∧ a.i = i then a.value.toList else [] := by
  unfold Existing.live
  cases a.value <;> simp [valuesAt_cons]

theorem filterMap_live_cons (a : Existing) (as : List Existing) :
    (a :: as).filterMap Existing.live = a.live.toList ++ as.filterMap Existing.live := by
  rw [List.filterMap_cons]; cases a.live <;> rfl

/-- Folding the values of a sorted list onto nothing. -/
theorem IndexEntry.Sorted.foldOnto_none {l : List IndexEntry} (h : IndexEntry.Sorted l)
    (f : Scalar → Scalar → Scalar) (j i : Nat) :
    (foldOnto f none (valuesAt l j i)).toList = valuesAt l j i := by
  rw [← h.distinct.toList_head?]
  cases (valuesAt l j i).head? <;> rfl

/-- **Merging** folds the new entries onto the live old ones, place by place. -/
theorem valuesAt_merged {op : DupOp} {ty : ScalarType} {as : List Existing} {bs : List IndexEntry}
    (has : Existing.Sorted as) (hbs : IndexEntry.Sorted bs) (j i : Nat) :
    valuesAt (merged op ty as bs) j i =
      (foldOnto (op.apply ty) (valuesAt (as.filterMap Existing.live) j i).head?
        (valuesAt bs j i)).toList := by
  fun_induction merged op ty as bs with
  | case1 bs => exact (hbs.foldOnto_none _ j i).symm
  | case2 a as => exact (has.live.distinct.toList_head? j i).symm
  | case3 a as b bs hlt ih =>
    rw [placeLt_iff] at hlt
    obtain ⟨ha, has'⟩ := List.pairwise_cons.1 has
    rw [valuesAt_append, ih has' hbs, filterMap_live_cons, valuesAt_append, valuesAt_live]
    split
    · next hp =>
      -- the slot stands alone at its place
      obtain ⟨rfl, rfl⟩ := hp
      have hb := hlt.all IndexEntry.j IndexEntry.i hbs
      rw [valuesAt_live_eq_nil ha, valuesAt_eq_nil_of_before hb]
      cases a.value <;> rfl
    · rfl
  | case4 a as b bs hle hlt ih =>
    rw [placeLt_iff] at hlt
    obtain ⟨hb, hbs'⟩ := List.pairwise_cons.1 hbs
    rw [valuesAt_cons, ih has hbs', valuesAt_cons b bs]
    split
    · next hp =>
      -- the new entry stands alone at its place
      obtain ⟨rfl, rfl⟩ := hp
      have ha := hlt.all Existing.j Existing.i has
      rw [valuesAt_live_eq_nil ha, valuesAt_eq_nil_of_before hb]
      rfl
    · rfl
  | case5 a as b bs hle hle' ih =>
    rw [placeLt_iff] at hle hle'
    obtain ⟨ha, has'⟩ := List.pairwise_cons.1 has
    obtain ⟨hb, hbs'⟩ := List.pairwise_cons.1 hbs
    have heq := place_eq_of_not_before hle hle'
    have hplace := place_overSlot op ty a b
    rw [valuesAt_cons, ih has' hbs', filterMap_live_cons, valuesAt_append, valuesAt_live,
      valuesAt_cons b bs, hplace.1, hplace.2, heq.1, heq.2]
    split
    · next hp =>
      obtain ⟨rfl, rfl⟩ := hp
      have ha' : ∀ s ∈ as, Before b.j b.i s.j s.i := by
        rw [← heq.1, ← heq.2]; exact ha
      rw [valuesAt_live_eq_nil ha', valuesAt_eq_nil_of_before hb]
      unfold overSlot
      cases a.value <;> rfl
    · rfl

end Adjacency
