import Adjacency.Proofs.Sorting

/-!
# Sorting by a node or an edge

A comparison reads the number of a node or an edge as a signed word. So numbers from `2^63` on count as
negative, and a sort puts them before the others; up to there it goes by the number.

* `Record.identifier`: the number of the node or the edge that a slot is bound to.
* `isLE_compareRecords_iff`: records compare by the signed readings of such numbers.
* `pairwise_sortedRecords`, `filter_sortedRecords`: a stable sort is in order, and keeps records that compare
  equal in the order in which they came.
* `Source.Serves.sort_identifiers`: **what a sort by a node or an edge delivers.**
* `Source.exists_misplaced_identifier`: the node numbered `2^63` is delivered before the one numbered `1`.
-/

namespace Adjacency

/-- The number of the node or the edge that a slot is bound to. -/
def Record.identifier? (r : Record) (slot : Nat) : Option UInt64 :=
  match r.get slot with
  | .node id => some id.word
  | .edge e => some e.id.word
  | _ => none

/-- The number in a slot; zero where there is neither a node nor an edge. -/
def Record.identifier (slot : Nat) (r : Record) : UInt64 := (r.identifier? slot).getD 0

/-- Not downwards in ascending order, and not upwards in descending order. -/
def SortDirection.Along {α : Type} [LE α] : SortDirection → α → α → Prop
  | .ascending, a, b => a ≤ b
  | .descending, a, b => b ≤ a

variable {slot : Nat} {direction : SortDirection} {keys : List SortKey} {rs : List Record} {a b : Record}

theorem Record.value_of_identifier (h : (a.identifier? slot).isSome) :
    a.value slot = .int (a.identifier slot).toInt64 := by
  unfold identifier identifier? at *
  unfold value
  cases hget : a.get slot with
  | node id => rfl
  | edge e => rfl
  | unset => rw [hget] at h; cases h
  | scalar v => rw [hget] at h; cases h

/-- **Nodes and edges compare by the signed readings** of their numbers. -/
theorem isLE_compareRecords_iff (ha : (a.identifier? slot).isSome) (hb : (b.identifier? slot).isSome) :
    (compareRecords [⟨slot, direction⟩] a b).isLE ↔
      direction.Along (a.identifier slot).toInt64.toInt (b.identifier slot).toInt64.toInt := by
  have hkey : compareRecords [⟨slot, direction⟩] a b = SortKey.order ⟨slot, direction⟩ a b :=
    Ordering.then_eq
  rw [hkey, SortKey.order, Record.value_of_identifier ha, Record.value_of_identifier hb, Value.order]
  cases direction with
  | ascending => exact Int.isLE_compare
  | descending =>
    show (compare _ _).swap.isLE ↔ _
    rw [← Std.OrientedCmp.eq_swap]
    exact Int.isLE_compare

/-- Below `2^63` a word is its signed reading. -/
theorem toInt_toInt64 {w : UInt64} (h : w.toNat < 2 ^ 63) : w.toInt64.toInt = w.toNat := by
  refine BitVec.toInt_eq_toNat_of_lt ?_
  show 2 * w.toNat < 2 ^ 64
  omega

/-! ## Stable sorting -/

theorem sortedRecords_eq (keys : List SortKey) (rs : List Record) :
    sortedRecords keys rs = rs.mergeSort fun a b => (compareRecords keys a b).isLE := by
  have hle : ∀ o : Ordering, (o != .gt) = o.isLE := by decide
  simp only [sortedRecords, hle]

theorem isLE_compareRecords_total (keys : List SortKey) (a b : Record) :
    ((compareRecords keys a b).isLE || (compareRecords keys b a).isLE) = true := by
  have hswap : compareRecords keys b a = (compareRecords keys a b).swap := Std.OrientedCmp.eq_swap
  rw [hswap]
  cases compareRecords keys a b <;> rfl

/-- **A sort is in order.** -/
theorem pairwise_sortedRecords (keys : List SortKey) (rs : List Record) :
    (sortedRecords keys rs).Pairwise fun a b => (compareRecords keys a b).isLE := by
  rw [sortedRecords_eq]
  exact List.pairwise_mergeSort (fun _ _ _ => Std.TransCmp.isLE_trans) (isLE_compareRecords_total keys) rs

/-- **Records that compare equal keep their order.** -/
theorem filter_sortedRecords (p : Record → Bool)
    (hp : ∀ a ∈ rs, ∀ b ∈ rs, p a → p b → (compareRecords keys a b).isLE) :
    (sortedRecords keys rs).filter p = rs.filter p := by
  have hperm : (sortedRecords keys rs).Perm rs := List.mergeSort_perm _ _
  have hequal : (rs.filter p).Pairwise fun a b => (compareRecords keys a b).isLE :=
    List.pairwise_of_forall_mem_list fun a ha b hb =>
      hp a (List.mem_filter.1 ha).1 b (List.mem_filter.1 hb).1 (List.mem_filter.1 ha).2 (List.mem_filter.1 hb).2
  have hkept : (rs.filter p).Sublist (sortedRecords keys rs) := by
    rw [sortedRecords_eq]
    exact List.sublist_mergeSort (fun _ _ _ => Std.TransCmp.isLE_trans) (isLE_compareRecords_total keys) hequal
      List.filter_sublist
  have hself : (rs.filter p).filter p = rs.filter p := List.filter_eq_self.2 fun _ ha => (List.mem_filter.1 ha).2
  have hsub : (rs.filter p).Sublist ((sortedRecords keys rs).filter p) := hself ▸ hkept.filter p
  exact (hsub.eq_of_length (hperm.filter p).length_eq.symm).symm

/-! ## The operator -/

namespace Source

variable {σ : Type} {S : Source σ} {g : Graph} {F : GraphError → Prop} {options : ExecOptions}

/-- **A sort by a node or an edge** delivers its child's records, or as many of the first as its bound leaves,
in the order of the signed readings of their numbers, those with the same number in the order in which they
came. Where all numbers are below `2^63`, that is the order of the numbers. -/
theorem Serves.sort_identifiers (h : S.Serves options g F rs) (direction : SortDirection)
    (hslot : ∀ r ∈ rs, (r.identifier? slot).isSome) (bound : Option (Nat × Nat)) :
    ∃ out : List Record,
      (S.sort [⟨slot, direction⟩] bound).Serves options g F ((sortCapacity bound).elim out out.take) ∧
      out.Perm rs ∧
      out.Pairwise (fun a b => direction.Along (a.identifier slot).toInt64.toInt (b.identifier slot).toInt64.toInt) ∧
      (∀ w, out.filter (fun r => r.identifier slot = w) = rs.filter fun r => r.identifier slot = w) ∧
      ((∀ r ∈ rs, (r.identifier slot).toNat < 2 ^ 63) →
        out.Pairwise fun a b => direction.Along (a.identifier slot) (b.identifier slot)) := by
  have hperm : (sortedRecords [⟨slot, direction⟩] rs).Perm rs := List.mergeSort_perm _ _
  have hsigned : (sortedRecords [⟨slot, direction⟩] rs).Pairwise fun a b =>
      direction.Along (a.identifier slot).toInt64.toInt (b.identifier slot).toInt64.toInt :=
    (pairwise_sortedRecords _ rs).imp_of_mem fun ha hb hle =>
      (isLE_compareRecords_iff (hslot _ (hperm.mem_iff.1 ha)) (hslot _ (hperm.mem_iff.1 hb))).1 hle
  refine ⟨_, h.sort _ bound, hperm, hsigned, fun w => filter_sortedRecords _ ?_, fun hsmall => ?_⟩
  · intro a ha b hb haw hbw
    rw [isLE_compareRecords_iff (hslot a ha) (hslot b hb), of_decide_eq_true haw, of_decide_eq_true hbw]
    cases direction with
    | ascending => exact le_rfl
    | descending => exact le_rfl
  · refine hsigned.imp_of_mem fun {a b} ha hb hle => ?_
    rw [toInt_toInt64 (hsmall a (hperm.mem_iff.1 ha)), toInt_toInt64 (hsmall b (hperm.mem_iff.1 hb))] at hle
    cases direction with
    | ascending => exact UInt64.le_iff_toNat_le.2 (Int.ofNat_le.1 hle)
    | descending => exact UInt64.le_iff_toNat_le.2 (Int.ofNat_le.1 hle)

/-- Two records of one node on either side of a node from the upper half, the first two of the order asked
for. -/
theorem serves_identifiers_of_both_halves :
    let row (id : UInt64) (place : Int64) : Record := ⟨#[.node ⟨id⟩, .scalar (.int place)]⟩
    let rows := [row 1 0, row 0x8000000000000000 1, row 1 2]
    (values rows).Serves {} default (fun _ => False) rows ∧ (∀ r ∈ rows, (r.identifier? 0).isSome) ∧
      ∃ out : List Record,
        ((values rows).sort [⟨0, .descending⟩] (some (0, 2))).Serves {} default (fun _ => False) (out.take 2) ∧
        out.Perm rows ∧
        out.Pairwise (fun a b => (b.identifier 0).toInt64.toInt ≤ (a.identifier 0).toInt64.toInt) ∧
        ∀ w, out.filter (fun r => r.identifier 0 = w) = rows.filter fun r => r.identifier 0 = w := by
  intro row rows
  have hrows : (values rows).Serves {} default (fun _ => False) rows := serves_values rows
  have hslot : ∀ r ∈ rows, (r.identifier? 0).isSome := by decide
  obtain ⟨out, hserves, hperm, hsigned, hties, -⟩ := hrows.sort_identifiers .descending hslot (some (0, 2))
  exact ⟨hrows, hslot, out, hserves, hperm, hsigned, hties⟩

/-- **A node that is numbered `2^63` comes before the one numbered `1`.** -/
theorem exists_misplaced_identifier : ∃ rs out : List Record,
    (∀ r ∈ rs, ∃ id, r.get 0 = .node id) ∧
    ((values rs).sort [⟨0, .ascending⟩] none).Serves {} default (fun _ => False) out ∧
    ¬out.Pairwise fun a b => a.identifier 0 ≤ b.identifier 0 := by
  let first : Record := .ofNode 0 ⟨1⟩
  let last : Record := .ofNode 0 ⟨0x8000000000000000⟩
  have hsorted : sortedRecords [⟨0, .ascending⟩] [first, last] = [last, first] :=
    (stableSort_eq_mergeSort _ _).symm.trans (by cbv)
  have hrows : (values [first, last]).Serves {} default (fun _ => False) [first, last] := serves_values _
  have hserves := hrows.sort [⟨0, .ascending⟩] none
  rw [hsorted] at hserves
  refine ⟨[first, last], [last, first], ?_, hserves, ?_⟩
  · exact List.forall_mem_cons.2 ⟨⟨⟨1⟩, rfl⟩, List.forall_mem_singleton.2 ⟨⟨0x8000000000000000⟩, rfl⟩⟩
  · decide

end Source

end Adjacency
