import Adjacency.Proofs.Emission
import Adjacency.Proofs.ValueOrder

/-!
# A bounded sort keeps the head of the stable sort

A full sort puts its records in order at the end; a bounded one keeps the best records it has met, and
tells records that compare equal by the numbers of their arrivals.

* `sorted_ranked`: the stable sort of records is the sort of the records with their arrival numbers.
* `Kept`: the heap has the best of the records read, and is full unless it has all of them.
* `Kept.pass`, `Kept.put`, `Kept.replace`: what may become of one more record.
* `Kept.absorb`, `kept_foldl`: one more record keeps this, and so do all of them.
* `Kept.finish_eq`: what is kept is the head of the stable sort.
* `Source.Serves.sort`: a sort serves what it makes of its child's records.
-/

namespace Adjacency

open Metered

/-- A comparison of images is a total preorder if the comparison is. -/
theorem transCmp_on {α β : Type} (cmp : β → β → Ordering) [Std.TransCmp cmp] (f : α → β) :
    Std.TransCmp fun a b => cmp (f a) (f b) where
  eq_swap := Std.OrientedCmp.eq_swap
  isLE_trans := Std.TransCmp.isLE_trans

variable {keys : List SortKey} {n : Nat} {rs : List Record} {r : Record} {t : Intake}

/-- The records in the order of the keys, equal ones in the order they have in the list. -/
def sortedRecords (keys : List SortKey) (rs : List Record) : List Record :=
  rs.mergeSort fun a b => compareRecords keys a b != .gt

/-- The records of a list with their places in it. -/
def ranked (rs : List Record) : List Ranked := rs.zipIdx.map fun p => ⟨p.1, p.2⟩

theorem ranked_append : ranked (rs ++ [r]) = ranked rs ++ [⟨r, rs.length⟩] := by
  simp [ranked, List.zipIdx_append]

theorem seq_lt_of_mem_ranked {a : Ranked} (h : a ∈ ranked rs) : a.seq < rs.length := by
  obtain ⟨p, hp, rfl⟩ := List.mem_map.1 h
  exact (List.mem_zipIdx' hp).1

theorem eq_of_seq_eq {a b : Ranked} (ha : a ∈ ranked rs) (hb : b ∈ ranked rs)
    (h : a.seq = b.seq) : a = b := by
  obtain ⟨⟨x, i⟩, hp, rfl⟩ := List.mem_map.1 ha
  obtain ⟨⟨y, j⟩, hq, rfl⟩ := List.mem_map.1 hb
  obtain rfl : i = j := h
  have hx := (List.mem_zipIdx' hp).2
  have hy := (List.mem_zipIdx' hq).2
  rw [hx, hy]

namespace Ranked

instance : Std.TransCmp (order keys) :=
  have := transCmp_on (compareRecords keys) record
  inferInstanceAs
    (Std.TransCmp (compareLex (fun a b => compareRecords keys a.record b.record) (compareOn seq)))

/-- No two arrivals rank equal. -/
theorem order_ne_eq {a b : Ranked} (h : a.seq ≠ b.seq) : a.order keys b ≠ .eq := by
  intro heq
  have hs : compare a.seq b.seq = .eq := by
    unfold order at heq
    cases hr : compareRecords keys a.record b.record with
    | eq => rw [hr] at heq; exact heq
    | lt => rw [hr] at heq; cases heq
    | gt => rw [hr] at heq; cases heq
  exact h (compare_eq_iff_eq.1 hs)

theorem order_lt_of_not {a b : Ranked} (hne : b.seq ≠ a.seq) (h : ¬(a.order keys b == .lt) = true) :
    b.order keys a = .lt := by
  cases hab : a.order keys b with
  | lt => rw [hab] at h; exact absurd rfl h
  | eq => exact absurd hab (order_ne_eq (Ne.symm hne))
  | gt => exact Std.OrientedCmp.lt_of_gt hab

end Ranked

/-- **The stable sort is a sort by key and arrival.** -/
theorem sorted_ranked :
    ((ranked rs).mergeSort fun a b => (a.order keys b).isLE).map Ranked.record =
      sortedRecords keys rs := by
  have hle : ∀ p ∈ rs.zipIdx, ∀ q ∈ rs.zipIdx,
      List.zipIdxLE (fun a b => compareRecords keys a b != .gt) p q =
        (Ranked.order keys ⟨p.1, p.2⟩ ⟨q.1, q.2⟩).isLE := by
    intro p _ q _
    have hswap : compareRecords keys q.1 p.1 = (compareRecords keys p.1 q.1).swap :=
      Std.OrientedCmp.eq_swap
    simp only [List.zipIdxLE, Ranked.order, hswap]
    cases compareRecords keys p.1 q.1 with
    | lt => rfl
    | gt => rfl
    | eq => exact Bool.eq_iff_iff.2 (decide_eq_true_iff.trans Nat.isLE_compare.symm)
  have hsort : sortedRecords keys rs = _ := List.mergeSort_zipIdx.symm
  unfold ranked
  rw [← List.map_mergeSort hle, List.map_map, hsort]
  rfl

/-! ## The heap -/

/-- Greatest first, as a heap is listed. -/
def Descends (keys : List SortKey) (heap : List Ranked) : Prop :=
  heap.Pairwise fun a b => b.order keys a = .lt

theorem perm_pushRanked (keys : List SortKey) (a : Ranked) (heap : List Ranked) :
    (pushRanked keys a heap).Perm (a :: heap) := by
  induction heap with
  | nil => exact .refl _
  | cons b heap ih =>
    unfold pushRanked
    split
    · exact (ih.cons b).trans (.swap a b heap)
    · exact .refl _

theorem Descends.push {a : Ranked} {heap : List Ranked} (h : Descends keys heap)
    (ha : ∀ b ∈ heap, b.seq ≠ a.seq) : Descends keys (pushRanked keys a heap) := by
  induction heap with
  | nil => exact List.pairwise_singleton _ _
  | cons b heap ih =>
    obtain ⟨hb, hheap⟩ := List.pairwise_cons.1 h
    unfold pushRanked
    split
    · next hlt =>
      refine List.pairwise_cons.2 ⟨fun c hc => ?_, ih hheap fun c hc => ha c (.tail _ hc)⟩
      rcases List.mem_cons.1 ((perm_pushRanked _ _ _).mem_iff.1 hc) with rfl | hc
      · exact eq_of_beq hlt
      · exact hb c hc
    · next hge =>
      have hba := Ranked.order_lt_of_not (ha b (.head _)) hge
      refine List.pairwise_cons.2 ⟨fun c hc => ?_, h⟩
      rcases List.mem_cons.1 hc with rfl | hc
      · exact hba
      · exact Std.TransCmp.lt_trans (hb c hc) hba

/-- A bounded sort that has read `rs`: its heap has the least of them, as many as it may keep. -/
structure Kept (keys : List SortKey) (n : Nat) (rs : List Record) (t : Intake) : Prop where
  seq_eq : t.seq = rs.length
  descends : Descends keys t.heap
  length_le : t.heap.length ≤ n
  /-- What was passed over or thrown out ranks behind what is kept. -/
  dropped : ∃ out, (t.heap ++ out).Perm (ranked rs) ∧
    (∀ a ∈ t.heap, ∀ b ∈ out, a.order keys b = .lt) ∧ (t.heap.length = n ∨ out = [])

theorem kept_empty : Kept keys n [] {} where
  seq_eq := rfl
  descends := .nil
  length_le := Nat.zero_le _
  dropped := ⟨[], .refl _, (fun _ h => nomatch h), .inr rfl⟩

/-- The new arrival and what was met before make up the arrivals so far. -/
theorem Kept.arrivals (h : Kept keys n rs t) (r : Record) :
    ∃ out, (⟨r, t.seq⟩ :: (t.heap ++ out)).Perm (ranked (rs ++ [r])) ∧
      (∀ a ∈ t.heap, ∀ b ∈ out, a.order keys b = .lt) ∧ (t.heap.length = n ∨ out = []) := by
  obtain ⟨out, hperm, hout, hfull⟩ := h.dropped
  refine ⟨out, ?_, hout, hfull⟩
  rw [ranked_append, h.seq_eq]
  exact (List.perm_append_singleton _ _).symm.trans (hperm.append_right _)

/-- The new arrival has a number of its own. -/
theorem Kept.fresh (h : Kept keys n rs t) {a : Ranked} (ha : a ∈ t.heap) : a.seq ≠ t.seq := by
  obtain ⟨out, hperm, -, -⟩ := h.dropped
  have hlt := seq_lt_of_mem_ranked (hperm.mem_iff.1 (List.mem_append_left _ ha))
  rw [h.seq_eq]
  omega

theorem Kept.seq_succ (h : Kept keys n rs t) : t.seq + 1 = (rs ++ [r]).length := by
  rw [h.seq_eq, List.length_append, List.length_singleton]

/-- A record is passed over when everything kept ranks before it. -/
theorem Kept.pass (h : Kept keys n rs t) (hn : t.heap.length = n)
    (hlt : ∀ a ∈ t.heap, a.order keys ⟨r, t.seq⟩ = .lt) :
    Kept keys n (rs ++ [r]) { t with seq := t.seq + 1 } := by
  obtain ⟨out, hperm, hout, -⟩ := h.arrivals r
  refine ⟨h.seq_succ, h.descends, h.length_le, ⟨r, t.seq⟩ :: out, List.perm_middle.trans hperm, ?_, .inl hn⟩
  intro a ha b hb
  rcases List.mem_cons.1 hb with rfl | hb
  · exact hlt a ha
  · exact hout a ha b hb

/-- A record is put in where there is room: nothing has been thrown out yet. -/
theorem Kept.put (h : Kept keys n rs t) (hroom : t.heap.length < n) :
    Kept keys n (rs ++ [r])
      { t with seq := t.seq + 1, heap := pushRanked keys ⟨r, t.seq⟩ t.heap } := by
  obtain ⟨out, hperm, -, hfull⟩ := h.arrivals r
  obtain rfl : out = [] := hfull.resolve_left (by omega)
  have hpush := perm_pushRanked keys ⟨r, t.seq⟩ t.heap
  refine ⟨h.seq_succ, h.descends.push fun a ha => h.fresh ha, ?_, [], ?_, (fun _ _ _ hb => nomatch hb),
    .inr rfl⟩
  · rw [hpush.length_eq, List.length_cons]
    omega
  · exact (hpush.append_right _).trans hperm

/-- A record takes the place of the worst one kept, which ranks behind all the others. -/
theorem Kept.replace (h : Kept keys n rs t) {worst : Ranked} {rest : List Ranked}
    (hw : t.heap = worst :: rest) (hn : t.heap.length = n)
    (hlt : Ranked.order keys ⟨r, t.seq⟩ worst = .lt) :
    Kept keys n (rs ++ [r])
      { t with seq := t.seq + 1, heap := pushRanked keys ⟨r, t.seq⟩ rest } := by
  obtain ⟨out, hperm, hout, -⟩ := h.arrivals r
  have hheap := h.descends
  rw [hw] at hperm hout hheap
  rw [hw, List.length_cons] at hn
  obtain ⟨hworst, hrest⟩ := List.pairwise_cons.1 hheap
  have hrest : Descends keys rest := hrest
  have hpush := perm_pushRanked keys ⟨r, t.seq⟩ rest
  have hlen : (pushRanked keys ⟨r, t.seq⟩ rest).length = n := by rw [hpush.length_eq, List.length_cons, hn]
  have hfresh : ∀ a ∈ rest, a.seq ≠ t.seq := fun a ha => h.fresh (hw ▸ .tail _ ha)
  have hbefore : ∀ a ∈ pushRanked keys ⟨r, t.seq⟩ rest, a.order keys worst = .lt := by
    intro a ha
    rcases List.mem_cons.1 (hpush.mem_iff.1 ha) with rfl | ha
    · exact hlt
    · exact hworst a ha
  refine ⟨h.seq_succ, hrest.push hfresh, Nat.le_of_eq hlen, worst :: out, ?_, ?_, .inl hlen⟩
  · exact (hpush.append_right _).trans ((List.perm_middle.cons _).trans hperm)
  · intro a ha b hb
    rcases List.mem_cons.1 hb with rfl | hb
    · exact hbefore a ha
    · exact Std.TransCmp.lt_trans (hbefore a ha) (hout worst (.head _) b hb)

/-- **One more record.** -/
theorem Kept.absorb (h : Kept keys n rs t) :
    Kept keys n (rs ++ [r]) (t.absorb keys (some n) r) := by
  have hlen := h.length_le
  unfold Intake.absorb
  simp only
  split
  · next hn =>
    -- nothing may be kept
    have hnil : t.heap = [] := List.eq_nil_of_length_eq_zero (by omega)
    exact h.pass (by omega) (by rw [hnil]; exact fun _ h => nomatch h)
  · next hn =>
    split
    · next hroom => exact h.put hroom
    · next hroom =>
      have hfull : t.heap.length = n := by omega
      split
      · next worst rest hw =>
        split
        · next hlt => exact h.replace hw hfull (eq_of_beq hlt)
        · next hge =>
          have hmem : worst ∈ t.heap := hw ▸ .head _
          have hlt := Ranked.order_lt_of_not (h.fresh hmem) hge
          have hheap := h.descends
          rw [hw] at hheap
          refine h.pass hfull fun a ha => ?_
          rw [hw] at ha
          rcases List.mem_cons.1 ha with rfl | ha
          · exact hlt
          · exact Std.TransCmp.lt_trans ((List.pairwise_cons.1 hheap).1 a ha) hlt
      · next hnil =>
        rw [hnil] at hroom
        exact absurd (Nat.pos_of_ne_zero hn) hroom

/-- **All the records.** -/
theorem kept_foldl {done : List Record} (h : Kept keys n done t) :
    Kept keys n (done ++ rs) (rs.foldl (Intake.absorb keys (some n)) t) := by
  induction rs generalizing done t with
  | nil => rwa [List.append_nil]
  | cons r rs ih =>
    rw [List.append_cons]
    exact ih h.absorb

/-- **What a bounded sort keeps is the head of the stable sort.** -/
theorem Kept.finish_eq (h : Kept keys n rs t) :
    t.finish keys (some n) = (sortedRecords keys rs).take n := by
  obtain ⟨out, hperm, hout, hfull⟩ := h.dropped
  let le := fun a b : Ranked => (a.order keys b).isLE
  have htrans : ∀ a b c, le a b = true → le b c = true → le a c = true :=
    fun _ _ _ => Std.TransCmp.isLE_trans
  have htotal : ∀ a b, (le a b || le b a) = true := by
    intro a b
    have hswap : b.order keys a = (a.order keys b).swap := Std.OrientedCmp.eq_swap
    simp only [le, hswap]
    cases a.order keys b <;> rfl
  have hasc : (t.heap.reverse ++ out.mergeSort le).Pairwise fun a b => le a b = true := by
    refine List.pairwise_append.2 ⟨?_, List.pairwise_mergeSort htrans htotal out, ?_⟩
    · refine List.pairwise_reverse.2 (h.descends.imp fun {a b} hba => ?_)
      simp only [le, hba, Ordering.isLE]
    · intro a ha b hb
      have hab := hout a (List.mem_reverse.1 ha) b (List.mem_mergeSort.1 hb)
      simp only [le, hab, Ordering.isLE]
  have hall : (t.heap.reverse ++ out.mergeSort le).Perm ((ranked rs).mergeSort le) :=
    ((t.heap.reverse_perm.append (List.mergeSort_perm out le)).trans hperm).trans
      (List.mergeSort_perm _ le).symm
  have heq : t.heap.reverse ++ out.mergeSort le = (ranked rs).mergeSort le := by
    refine hall.eq_of_pairwise (fun a b ha hb hab hba => ?_) hasc
      (List.pairwise_mergeSort htrans htotal _)
    -- only an arrival itself ranks both before and after it
    have ha := List.mem_mergeSort.1 (hall.mem_iff.1 ha)
    have hb := List.mem_mergeSort.1 hb
    have hcmp : a.order keys b = .eq := Std.OrientedCmp.isLE_antisymm hab hba
    by_contra hne
    exact Ranked.order_ne_eq (fun hs => hne (eq_of_seq_eq ha hb hs)) hcmp
  have htake : ((ranked rs).mergeSort le).take n = t.heap.reverse := by
    rw [← heq]
    rcases hfull with hn | hnil
    · rw [← hn, ← List.length_reverse, List.take_left]
    · rw [hnil, List.mergeSort_nil, List.append_nil,
        List.take_of_length_le (by rw [List.length_reverse]; exact h.length_le)]
  show t.heap.reverse.map Ranked.record = _
  rw [← htake, List.map_take, sorted_ranked]

theorem foldl_buffer :
    (rs.foldl (Intake.absorb keys none) t).buffer = rs.reverse ++ t.buffer := by
  induction rs generalizing t with
  | nil => rfl
  | cons r rs ih => rw [List.foldl_cons, ih]; simp [Intake.absorb]

/-- What a sort makes of the records it reads: all of them in order, or the head of that. -/
theorem finish_foldl (capacity : Option Nat) :
    (rs.foldl (Intake.absorb keys capacity) {}).finish keys capacity =
      capacity.elim (sortedRecords keys rs) fun n => (sortedRecords keys rs).take n := by
  cases capacity with
  | none =>
    simp only [Intake.finish, foldl_buffer, List.append_nil, List.reverse_reverse,
      stableSort_eq_mergeSort]
    rfl
  | some n => exact (kept_foldl kept_empty).finish_eq

/-! ## The operator -/

namespace Source

variable {σ : Type} {S : Source σ} {g : Graph} {F : GraphError → Prop} {options : ExecOptions}

/-- A sort is ready to deliver `out`, or will be once it has read its child. -/
def Sorts (S : Source σ) (g : Graph) (F : GraphError → Prop) (keys : List SortKey)
    (capacity : Option Nat) (out : List Record) (st : SortState σ) : Prop :=
  st.sorted = some out ∨ st.sorted = none ∧ ∃ rs, S.Emits g F rs st.child ∧
    (rs.foldl (Intake.absorb keys capacity) st.intake).finish keys capacity = out

theorem deliverSorted_answers {out : List Record} {st : SortState σ} (h : st.sorted = some out)
    (n : CallCounts) : ∃ u, deliverSorted (⟨st, false⟩, n) = .ok out.head? u ∧ u.1.draining = false ∧
      u.1.state.sorted = some out.tail := by
  unfold deliverSorted
  simp only [h]
  cases out with
  | nil => exact ⟨_, rfl, rfl, h⟩
  | cons r rest => exact ⟨_, rfl, rfl, rfl⟩

theorem sort_emits {bound : Option (Nat × Nat)} {out : List Record} {st : SortState σ}
    (h : S.Sorts g F keys (sortCapacity bound) out st) : (S.sort keys bound).Emits g F out st := by
  refine emits_of_step (S.Sorts g F keys (sortCapacity bound)) (fun out st h => ?_) h
  intro n
  simp only [sort]
  rcases h with hs | ⟨hs, rs, hc, rfl⟩
  · obtain ⟨u, hu, hd, ht⟩ := deliverSorted_answers hs n
    simp only [hs, hu]
    exact ⟨trivial, hd, .inl ht⟩
  · have hp := hc.ensures_pull (fun _ _ => true) (Intake.absorb keys (sortCapacity bound))
      st.intake n
    rw [taken_all fun _ => rfl] at hp
    simp only [hs, Step.onto]
    cases hq : S.pull g (fun _ _ => true) (Intake.absorb keys (sortCapacity bound))
        (⟨(st.child, st.intake), false⟩, n) with
    | error e t => rw [hq] at hp; exact hp
    | ok _ t =>
      obtain ⟨⟨⟨c, i⟩, d⟩, m⟩ := t
      rw [hq] at hp
      obtain ⟨hd, hi, -⟩ := hp
      obtain rfl : d = false := hd
      obtain rfl : i = rs.foldl (Intake.absorb keys (sortCapacity bound)) st.intake := hi
      simp only [readThrough, Step.onto]
      generalize (rs.foldl (Intake.absorb keys (sortCapacity bound)) st.intake).finish keys
        (sortCapacity bound) = out
      have hready : ({ child := c, sorted := some out } : SortState σ).sorted = some out := rfl
      obtain ⟨u, hu, hd, ht⟩ := deliverSorted_answers hready (m.bump .sort)
      rw [hu]
      exact ⟨rfl, hd, .inl ht⟩

/-- **A sort serves its child's records in order**, or the head of them that its bound leaves. -/
theorem Serves.sort {rs : List Record} (h : S.Serves options g F rs) (keys : List SortKey)
    (bound : Option (Nat × Nat)) :
    (S.sort keys bound).Serves options g F
      ((sortCapacity bound).elim (sortedRecords keys rs) fun n => (sortedRecords keys rs).take n) := by
  refine ensures_update_then ?_
  have hstart : ∀ c, S.Emits g F rs c → (S.sort keys bound).Emits g F
      ((sortCapacity bound).elim (sortedRecords keys rs) fun n => (sortedRecords keys rs).take n)
      { child := c } :=
    fun c hc => sort_emits (.inr ⟨rfl, rs, hc, finish_foldl _⟩)
  split
  · exact ensures_within h (fun _ c hc => hstart c hc) fun _ _ he => he
  · exact ensures_within h (fun _ c hc => hstart c hc) fun _ _ he => he

/-- **A bounded sort agrees with a full one on the window it is bounded for.** Over a child that serves
`rs`, it serves the head of their stable sort that skip and limit reach, their sum being held in a word;
behind a skip and limit, both sorts serve the window `[skip, skip + limit)` of the stable sort. The
bounded one can fall short only where the window passes the greatest word and there are records in
it. -/
theorem Serves.sort_window {rs : List Record} (h : S.Serves options g F rs) (keys : List SortKey)
    (skip limit : UInt64) :
    (S.sort keys (some (skip.toNat, limit.toNat))).Serves options g F
        ((sortedRecords keys rs).take
          (min rs.length (min (skip.toNat + limit.toNat) (UInt64.size - 1)))) ∧
      ((S.sort keys none).skipLimit skip.toNat (some limit.toNat)).Serves options g F
        (((sortedRecords keys rs).drop skip.toNat).take limit.toNat) ∧
      (skip.toNat + limit.toNat < UInt64.size ∨ rs.length < UInt64.size →
        ((S.sort keys (some (skip.toNat, limit.toNat))).skipLimit skip.toNat
          (some limit.toNat)).Serves options g F
            (((sortedRecords keys rs).drop skip.toNat).take limit.toNat)) := by
  have hlen : (sortedRecords keys rs).length = rs.length := List.length_mergeSort _
  have hbounded := h.sort keys (some (skip.toNat, limit.toNat))
  have hfull := h.sort keys none
  refine ⟨?_, hfull.skipLimit _ _, fun hfits => ?_⟩
  · rw [Nat.min_comm, ← hlen, ← List.take_eq_take_min]
    exact hbounded
  · have hw := hbounded.skipLimit skip.toNat limit.toNat
    convert hw using 1
    simp only [sortCapacity, Option.elim_some]
    rw [List.drop_take, List.take_take]
    rcases hfits with hsum | hshort
    · congr 1
      omega
    · by_cases hsum : skip.toNat + limit.toNat < UInt64.size
      · congr 1
        omega
      · rw [List.take_of_length_le, List.take_of_length_le] <;>
          rw [List.length_drop, hlen] <;> omega

/-- Four records, two of them equal by the key: the window begins with the second of these. -/
theorem serves_window_of_ties :
    let row (key place : Int64) : Record := ⟨#[.scalar (.int key), .scalar (.int place)]⟩
    let rows := [row 3 0, row 1 1, row 1 2, row 2 3]
    (values rows).Serves {} default (fun _ => False) rows ∧
      (((values rows).sort [⟨0, .ascending⟩] (some (1, 2))).skipLimit 1 (some 2)).Serves {} default
        (fun _ => False) [row 1 2, row 2 3] := by
  intro row rows
  have hrows : (values rows).Serves {} default (fun _ => False) rows := serves_values rows
  have hsorted : sortedRecords [⟨0, .ascending⟩] rows = [row 1 1, row 1 2, row 2 3, row 3 0] :=
    (stableSort_eq_mergeSort _ _).symm.trans (by cbv)
  have hwindow := (hrows.sort_window [⟨0, .ascending⟩] 1 2).2.2 (.inl (by decide))
  rw [hsorted] at hwindow
  exact ⟨hrows, hwindow⟩

end Source

end Adjacency
