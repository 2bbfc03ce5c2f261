import Adjacency.Record
import Adjacency.Proofs.WholePart
import Mathlib

/-!
# Values and records are preordered

* `Value.number`: where a number stands, whichever form it has.
* `Value.order_then`: what holds of two comparisons in a row.
* The orders of values, of records by a list of keys, and of one key are total preorders: instances of
  `Std.TransCmp`.
-/

namespace Adjacency

/-- Two comparisons in a row, neither of them downwards, make up the third. -/
theorem then_of_transCmp {α : Type} (cmp : α → α → Ordering) [Std.TransCmp cmp] {a b c : α}
    (h : (cmp a b).isLE) (h' : (cmp b c).isLE) : cmp a c = (cmp a b).then (cmp b c) := by
  cases hab : cmp a b with
  | lt => exact Std.TransCmp.lt_of_lt_of_isLE hab h'
  | eq => exact Std.TransCmp.congr_left hab
  | gt => rw [hab] at h; cases h

namespace Value

/-! ## Numbers -/

/-- A number's place among the numbers: in units, and behind all of them for a NaN. -/
def number : Value → Bool × Int
  | .int v => (false, v.toInt * Binary64.unitsPerOne)
  | .float v => (v.isNaN, if v.isNaN then 0 else v.units)
  | _ => (false, 0)

/-- NaN last, the others by their units. -/
def numberOrder : Bool × Int → Bool × Int → Ordering :=
  compareLex (compareOn Prod.fst) (compareOn Prod.snd)

instance : Std.TransCmp numberOrder := inferInstanceAs (Std.TransCmp (compareLex _ _))

theorem compare_scaled {a b k : Int} (hk : 0 < k) : compare (a * k) (b * k) = compare a b := by
  rcases lt_trichotomy a b with h | h | h
  · rw [compare_lt_iff_lt.2 h, compare_lt_iff_lt.2 (Int.mul_lt_mul_of_pos_right h hk)]
  · rw [h, compare_eq_iff_eq.2 rfl, compare_eq_iff_eq.2 rfl]
  · rw [compare_gt_iff_gt.2 h, compare_gt_iff_gt.2 (Int.mul_lt_mul_of_pos_right h hk)]

theorem orderFloats_eq (a b : Binary64) :
    orderFloats a b = numberOrder (number (.float a)) (number (.float b)) := by
  simp only [orderFloats, numberOrder, number, compareLex, compareOn]
  cases ha : a.isNaN <;> cases hb : b.isNaN
  case false.false =>
    rw [order_units ha hb]
    rfl
  all_goals rfl

theorem orderIntFloat_eq (a : Int64) (b : Binary64) :
    orderIntFloat a b = numberOrder (number (.int a)) (number (.float b)) := by
  simp only [numberOrder, number, compareLex, compareOn]
  cases hb : b.isNaN
  · exact orderIntFloat_units a hb
  · rw [orderIntFloat, hb]
    rfl

/-- **Numbers compare by their places**, whichever form they have. -/
theorem order_number {a b : Value} (ha : a.rank = 2) (hb : b.rank = 2) :
    a.order b = numberOrder a.number b.number := by
  cases a with
  | int v =>
    cases b with
    | int w =>
      rw [order]
      unfold numberOrder number compareLex compareOn
      exact (compare_scaled Binary64.unitsPerOne_pos).symm
    | float w =>
      rw [order]
      exact orderIntFloat_eq v w
    | _ => cases hb
  | float v =>
    cases b with
    | int w =>
      rw [order, orderIntFloat_eq]
      exact Std.OrientedCmp.eq_swap.symm
    | float w =>
      rw [order]
      exact orderFloats_eq v w
    | _ => cases hb
  | _ => cases ha

theorem orderStrings_eq (a b : String) : orderStrings a b = compare a b := by
  unfold orderStrings
  rcases lt_trichotomy a b with h | h | h
  · rw [if_pos h, compare_lt_iff_lt.2 h]
  · rw [h, if_neg (lt_irrefl b), if_neg (lt_irrefl b), compare_eq_iff_eq.2 rfl]
  · rw [if_neg (lt_asymm h), if_pos h, compare_gt_iff_gt.2 h]

/-! ## Kinds -/

/-- Values of two kinds compare by kind. -/
theorem order_of_rank_ne {a b : Value} (h : a.rank ≠ b.rank) : a.order b = compare a.rank b.rank := by
  cases a <;> cases b <;> first | exact absurd rfl h | rfl

theorem order_of_rank_lt {a b : Value} (h : a.rank < b.rank) : a.order b = .lt := by
  rw [order_of_rank_ne (Nat.ne_of_lt h), compare_lt_iff_lt.2 h]

theorem rank_le_of_isLE {a b : Value} (h : (a.order b).isLE) : a.rank ≤ b.rank := by
  by_contra hlt
  have hlt : b.rank < a.rank := Nat.lt_of_not_le hlt
  rw [order_of_rank_ne (Nat.ne_of_gt hlt), compare_gt_iff_gt.2 hlt] at h
  cases h

/-! ## Lists -/

theorem orderLists_cons (a b : Value) (as bs : List Value) :
    orderLists (a :: as) (b :: bs) = (a.order b).then (orderLists as bs) := by
  rw [orderLists]
  cases a.order b <;> rfl

theorem swap_then (o o' : Ordering) : (o.then o').swap = o.swap.then o'.swap := by
  cases o <;> rfl

theorem order_swap_number {a : Value} (ha : a.rank = 2) (b : Value) : a.order b = (b.order a).swap := by
  by_cases hb : b.rank = 2
  · rw [order_number ha hb, order_number hb ha]
    exact Std.OrientedCmp.eq_swap
  · have hne : b.rank ≠ a.rank := fun heq => hb (heq.trans ha)
    rw [order_of_rank_ne hne.symm, order_of_rank_ne hne]
    exact Std.OrientedCmp.eq_swap

/-- **Comparing backwards gives the reverse.** -/
theorem order_swap (a : Value) : ∀ b, a.order b = (b.order a).swap := by
  refine @Value.rec (fun a => ∀ b : Value, a.order b = (b.order a).swap)
    (fun as => ∀ bs, orderLists as bs = (orderLists bs as).swap) ?null ?bool ?int ?float
    ?string ?list ?nil ?cons a
  case null => intro b; cases b <;> rfl
  case bool =>
    intro x b
    cases b with
    | bool y => rw [order, order]; exact Std.OrientedCmp.eq_swap
    | _ => rfl
  case int => exact fun x b => order_swap_number rfl b
  case float => exact fun x b => order_swap_number rfl b
  case string =>
    intro x b
    cases b with
    | string y => rw [order, order, orderStrings_eq, orderStrings_eq]; exact Std.OrientedCmp.eq_swap
    | _ => rfl
  case list =>
    intro as ih b
    cases b with
    | list bs => rw [order, order]; exact ih bs
    | _ => rfl
  case nil => intro bs; cases bs <;> rfl
  case cons =>
    intro x xs hx hxs bs
    cases bs with
    | nil => rfl
    | cons y ys => rw [orderLists_cons, orderLists_cons, hx y, hxs ys, swap_then]

/-- What `order_then` says of three values, said of any comparison. -/
def Chains {α : Type} (cmp : α → α → Ordering) (a b c : α) : Prop :=
  (cmp a b).isLE → (cmp b c).isLE → cmp a c = (cmp a b).then (cmp b c)

/-- Three values chain when they do so whenever they are of one kind. -/
theorem chains_of_same_rank {a b c : Value} (h : a.rank = b.rank → b.rank = c.rank → Chains order a b c) :
    Chains order a b c := by
  intro hab hbc
  have h₁ := rank_le_of_isLE hab
  have h₂ := rank_le_of_isLE hbc
  rcases Nat.eq_or_lt_of_le h₁ with e₁ | l₁
  · rcases Nat.eq_or_lt_of_le h₂ with e₂ | l₂
    · exact h e₁ e₂ hab hbc
    · rw [order_of_rank_lt (by omega : a.rank < c.rank), order_of_rank_lt l₂]
      cases hab' : a.order b with
      | lt => rfl
      | eq => rfl
      | gt => rw [hab'] at hab; cases hab
  · rw [order_of_rank_lt (by omega : a.rank < c.rank), order_of_rank_lt l₁]
    rfl

theorem chains_numbers {a : Value} (ha : a.rank = 2) (b c : Value) : Chains order a b c := by
  refine chains_of_same_rank fun hab hbc => ?_
  have hb : b.rank = 2 := hab.symm.trans ha
  have hc : c.rank = 2 := hbc.symm.trans hb
  unfold Chains
  rw [order_number ha hb, order_number hb hc, order_number ha hc]
  exact then_of_transCmp _

theorem chains_cons {x y z : Value} {xs ys zs : List Value} (h : Chains order x y z)
    (hs : Chains orderLists xs ys zs) : Chains orderLists (x :: xs) (y :: ys) (z :: zs) := by
  intro hab hbc
  rw [orderLists_cons] at hab hbc
  rw [orderLists_cons, orderLists_cons, orderLists_cons]
  -- the first elements decide unless both pairs of them are equal
  cases hxy : x.order y with
  | gt => rw [hxy] at hab; cases hab
  | lt =>
    cases hyz : y.order z with
    | gt => rw [hyz] at hbc; cases hbc
    | lt => rw [h (by rw [hxy]; rfl) (by rw [hyz]; rfl), hxy]; rfl
    | eq => rw [h (by rw [hxy]; rfl) (by rw [hyz]; rfl), hxy]; rfl
  | eq =>
    cases hyz : y.order z with
    | gt => rw [hyz] at hbc; cases hbc
    | lt =>
      rw [h (by rw [hxy]; rfl) (by rw [hyz]; rfl), hxy, hyz]
      rw [hxy] at hab
      have htail : (orderLists xs ys).isLE := hab
      cases hxs : orderLists xs ys with
      | gt => rw [hxs] at htail; cases htail
      | lt => rfl
      | eq => rfl
    | eq =>
      rw [hxy] at hab
      rw [hyz] at hbc
      rw [h (by rw [hxy]; rfl) (by rw [hyz]; rfl), hxy, hyz]
      exact hs hab hbc

/-- **Two comparisons in a row, neither of them downwards, make up the third.** -/
theorem order_then (a : Value) : ∀ b c, Chains order a b c := by
  refine @Value.rec (fun a => ∀ b c : Value, Chains order a b c)
    (fun as => ∀ bs cs, Chains orderLists as bs cs) ?null ?bool ?int ?float
    ?string ?list ?nil ?cons a
  case null =>
    refine fun b c => chains_of_same_rank fun hab hbc => ?_
    cases b with
    | null =>
      cases c with
      | null => exact fun _ _ => rfl
      | _ => cases hbc
    | _ => cases hab
  case bool =>
    refine fun x b c => chains_of_same_rank fun hab hbc => ?_
    cases b with
    | bool y =>
      cases c with
      | bool z => exact then_of_transCmp (compare : Bool → Bool → Ordering)
      | _ => cases hbc
    | _ => cases hab
  case int => exact fun x b c => chains_numbers rfl b c
  case float => exact fun x b c => chains_numbers rfl b c
  case string =>
    refine fun x b c => chains_of_same_rank fun hab hbc => ?_
    cases b with
    | string y =>
      cases c with
      | string z =>
        unfold Chains
        simp only [order, orderStrings_eq]
        exact then_of_transCmp _
      | _ => cases hbc
    | _ => cases hab
  case list =>
    refine fun as ih b c => chains_of_same_rank fun hab hbc => ?_
    cases b with
    | list bs =>
      cases c with
      | list cs =>
        unfold Chains
        simp only [order]
        exact ih bs cs
      | _ => cases hbc
    | _ => cases hab
  case nil =>
    intro bs cs hab hbc
    cases bs with
    | nil => cases cs <;> rfl
    | cons y ys =>
      cases cs with
      | nil => cases hbc
      | cons z zs => rfl
  case cons =>
    intro x xs hx hxs bs cs
    cases bs with
    | nil => intro hab; cases hab
    | cons y ys =>
      cases cs with
      | nil => intro _ hbc; cases hbc
      | cons z zs => exact chains_cons (hx y z) (hxs ys zs)

theorem isLE_then {o o' : Ordering} (h : o.isLE) (h' : o'.isLE) : (o.then o').isLE := by
  cases o with
  | lt => rfl
  | eq => exact h'
  | gt => cases h

/-- The order of values is a total preorder. -/
instance : Std.TransCmp order where
  eq_swap := order_swap _ _
  isLE_trans h h' := by rw [order_then _ _ _ h h']; exact isLE_then h h'

end Value

/-! ## Records -/

/-- The order by one key is a total preorder. -/
instance (k : SortKey) : Std.TransCmp k.order where
  eq_swap := by
    intro a b
    unfold SortKey.order
    cases k.direction with
    | ascending => exact Value.order_swap _ _
    | descending => exact congrArg Ordering.swap (Value.order_swap _ _)
  isLE_trans := by
    intro a b c
    unfold SortKey.order
    cases k.direction with
    | ascending => exact Std.TransCmp.isLE_trans
    | descending =>
      -- downwards the two comparisons change places
      intro h h'
      simp only [← Value.order_swap] at h h' ⊢
      exact Std.TransCmp.isLE_trans h' h

theorem compareRecords_cons (k : SortKey) (ks : List SortKey) :
    compareRecords (k :: ks) = compareLex k.order (compareRecords ks) := rfl

/-- **The order by a list of keys is a total preorder.** -/
instance compareRecords_transCmp (keys : List SortKey) : Std.TransCmp (compareRecords keys) := by
  induction keys with
  | nil => exact { eq_swap := rfl, isLE_trans := fun h _ => h }
  | cons k ks ih => rw [compareRecords_cons]; infer_instance

end Adjacency
