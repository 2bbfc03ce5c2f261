import Adjacency.Proofs.ValueOrder
import Mathlib

/-!
# Numbers on the extended line

* `Binary64.exact`: what the fields of a double stand for, an extended real number.
* `Value.point?`: where a number stands, an integer or a double; a NaN stands behind the line.
* `Value.order_point`: numbers compare as they stand on the line.
* `Value.totalPreorder_order`: the order of values and the orders of records are total preorders, and
  on numbers the former is exact.
-/

namespace Adjacency

/-! ## Doubles -/

namespace Binary64

/-- The value of a double that is not a NaN: sign, power of two and binary fraction. The least
exponent belongs to the subnormal numbers, which have no leading one; the greatest to the
infinities. -/
noncomputable def exact (x : Binary64) : EReal :=
  let sign : ℝ := if x.negative then -1 else 1
  if x.exponent = 2047 then if x.negative then ⊥ else ⊤
  else if x.exponent = 0 then ((sign * 2 ^ (-1022 : ℤ) * (x.fraction / 2 ^ 52) : ℝ) : EReal)
  else ((sign * 2 ^ ((x.exponent : ℤ) - 1023) * (1 + x.fraction / 2 ^ 52) : ℝ) : EReal)

/-- The size of an infinity in units, above every finite number. -/
def beyond : Nat := Nat.pow 2 2098

theorem beyond_pos : 0 < beyond := by
  unfold beyond
  generalize 2098 = n
  exact Nat.two_pow_pos n

/-- A number of units on the line, the ends of which begin at the size of an infinity. -/
noncomputable def reading (u : Int) : EReal :=
  if u ≤ -beyond then ⊥ else if beyond ≤ u then ⊤ else ((u / unitsPerOne : ℝ) : EReal)

theorem reading_strictMonoOn : StrictMonoOn reading (Set.Icc (-beyond : Int) beyond) := by
  intro u hu w hw huw
  obtain ⟨hu, -⟩ := hu
  obtain ⟨-, hw⟩ := hw
  have hu' : ¬(beyond : Int) ≤ u := not_le.2 (huw.trans_le hw)
  have hw' : ¬w ≤ -(beyond : Int) := not_le.2 (hu.trans_lt huw)
  rw [reading, reading, if_neg hu', if_neg hw']
  -- either of the two may still be at its own end
  split <;> split
  · exact bot_lt_top
  · exact EReal.bot_lt_coe _
  · exact EReal.coe_lt_top _
  · have hone : (0 : ℝ) < unitsPerOne := Nat.cast_pos.2 (Int.natCast_pos.1 unitsPerOne_pos)
    exact EReal.coe_lt_coe (div_lt_div_of_pos_right (Int.cast_lt.2 huw) hone)

/-- Readings compare as the numbers of units do. -/
theorem compares_reading {u w : Int} (hu : |u| ≤ beyond) (hw : |w| ≤ beyond) :
    (compare u w).Compares (reading u) (reading w) := by
  have h : (compare u w).Compares u w := (compare_iff u w).1 rfl
  exact (reading_strictMonoOn.compares (abs_le.1 hu) (abs_le.1 hw)).2 h

theorem magnitude_lt_beyond {x : Binary64} (h : x.exponent ≠ 2047) : x.magnitude < beyond := by
  obtain ⟨-, he, -⟩ := x.fields
  unfold beyond
  generalize hn : 2098 = n
  exact magnitude_lt (by omega)

theorem fraction_of_infinite {x : Binary64} (h : x.isNaN = false) (he : x.exponent = 2047) :
    x.fraction = 0 := by
  simpa [isNaN, he] using h

theorem magnitude_infinite {x : Binary64} (h : x.exponent = 2047) (hf : x.fraction = 0) :
    x.magnitude = beyond := by
  unfold magnitude beyond
  generalize hn : 2098 = n
  generalize hm : x.exponent - 1 = m
  rw [if_neg (by omega), hf, Nat.add_zero]
  exact (pow_add 2 52 m).symm.trans (congrArg _ (by omega))

theorem abs_units (x : Binary64) : |x.units| = x.magnitude := by
  rw [units]
  split
  · rw [abs_neg, Nat.abs_cast]
  · exact Nat.abs_cast _

theorem units_real (x : Binary64) :
    (x.units : ℝ) = (if x.negative then -1 else 1) * (x.magnitude : ℝ) := by
  rw [units]
  split
  · push_cast
    rw [neg_one_mul]
  · push_cast
    rw [one_mul]

theorem magnitude_real {x : Binary64} :
    (x.magnitude / unitsPerOne : ℝ) =
      if x.exponent = 0 then 2 ^ (-1022 : ℤ) * (x.fraction / 2 ^ 52 : ℝ)
      else 2 ^ ((x.exponent : ℤ) - 1023) * (1 + x.fraction / 2 ^ 52 : ℝ) := by
  unfold magnitude unitsPerOne
  -- a variable, so that nothing evaluates the power
  generalize hone : 1074 = one
  have htwo : (2 : ℝ) ≠ 0 := by norm_num
  have hsplit : (2 : ℝ) ^ one = 2 ^ (1022 : ℤ) * 2 ^ 52 := by
    rw [← zpow_natCast, ← zpow_natCast, ← zpow_add₀ htwo]
    exact congrArg _ (by omega)
  simp only [Nat.pow_eq]
  split
  case isTrue =>
    push_cast
    rw [hsplit, zpow_neg, inv_mul_eq_div, div_div, mul_comm]
  case isFalse he =>
    have hexp : (2 : ℝ) ^ ((x.exponent : ℤ) - 1023) = 2 ^ (x.exponent - 1) / 2 ^ (1022 : ℤ) := by
      rw [← zpow_natCast, ← zpow_sub₀ htwo]
      exact congrArg _ (by omega)
    push_cast
    rw [hsplit, hexp]
    generalize (2 : ℝ) ^ (1022 : ℤ) = a
    field_simp
    norm_num

/-- A double stands where its units read. -/
theorem exact_eq_reading {x : Binary64} (h : x.isNaN = false) : x.exact = reading x.units := by
  have hreal : (x.units / unitsPerOne : ℝ) =
      (if x.negative then -1 else 1) * (x.magnitude / unitsPerOne : ℝ) := by
    rw [units_real, mul_div_assoc]
  by_cases he : x.exponent = 2047
  case pos =>
    -- an infinity: its units are those of an end
    have hpos := beyond_pos
    rw [exact, if_pos he, reading, units, magnitude_infinite he (fraction_of_infinite h he)]
    cases x.negative
    · simp only [Bool.false_eq_true, if_false]
      rw [if_neg (by omega), if_pos le_rfl]
    · simp only [if_true]
      rw [if_pos le_rfl]
  case neg =>
    have hlt : |x.units| < beyond := by
      rw [abs_units]
      exact Int.ofNat_lt.2 (magnitude_lt_beyond he)
    obtain ⟨hlo, hhi⟩ := abs_lt.1 hlt
    rw [exact, if_neg he, reading, if_neg (not_le.2 hlo), if_neg (not_le.2 hhi), hreal, magnitude_real]
    split <;> rw [mul_assoc]

end Binary64

namespace Value

open Binary64

/-- Where a number stands: an integer at itself, a double at its value, every NaN at one place behind
the line. -/
noncomputable def point? : Value → Option (WithTop EReal)
  | .int v => some ((v.toInt : ℝ) : EReal)
  | .float v => some (if v.isNaN then ⊤ else v.exact)
  | _ => none

theorem int_units_lt (v : Int64) : |v.toInt * unitsPerOne| < beyond := by
  have hv : |v.toInt| ≤ 2 ^ 63 := abs_le.2 ⟨v.le_toInt, v.toInt_lt.le⟩
  unfold unitsPerOne beyond
  generalize hone : 1074 = one
  generalize hn : 2098 = n
  rw [abs_mul, Nat.abs_cast]
  simp only [Nat.pow_eq]
  push_cast
  calc |v.toInt| * 2 ^ one ≤ 2 ^ 63 * 2 ^ one := Int.mul_le_mul_of_nonneg_right hv (by positivity)
    _ = 2 ^ (63 + one) := (pow_add 2 63 one).symm
    _ < 2 ^ n := pow_lt_pow_right₀ (by decide) (by omega)

theorem int_eq_reading (v : Int64) : ((v.toInt : ℝ) : EReal) = reading (v.toInt * unitsPerOne) := by
  obtain ⟨hlo, hhi⟩ := abs_lt.1 (int_units_lt v)
  have hone : (unitsPerOne : ℝ) ≠ 0 := Nat.cast_ne_zero.2 (Int.natCast_pos.1 unitsPerOne_pos).ne'
  rw [reading, if_neg (not_le.2 hlo), if_neg (not_le.2 hhi), Int.cast_mul, Int.cast_natCast,
    mul_div_cancel_right₀ _ hone]

theorem abs_units_le {x : Binary64} (h : x.isNaN = false) : |x.units| ≤ beyond := by
  rw [abs_units]
  by_cases he : x.exponent = 2047
  · rw [magnitude_infinite he (fraction_of_infinite h he)]
  · exact Int.ofNat_le.2 (magnitude_lt_beyond he).le

/-- Where a number's place is the place of its units, or the one behind the line. -/
theorem point?_eq {a : Value} {x : WithTop EReal} (h : a.point? = some x) :
    a.rank = 2 ∧ ((a.number = (true, 0) ∧ x = ⊤) ∨
      ∃ u, a.number = (false, u) ∧ |u| ≤ beyond ∧ x = reading u) := by
  cases a with
  | int v =>
    obtain rfl := Option.some.inj h
    exact ⟨rfl, .inr ⟨_, rfl, (int_units_lt v).le, congrArg _ (int_eq_reading v)⟩⟩
  | float v =>
    obtain rfl := Option.some.inj h
    refine ⟨rfl, ?_⟩
    cases hv : v.isNaN with
    | true =>
      refine .inl ⟨?_, rfl⟩
      rw [number, hv, if_pos rfl]
    | false =>
      refine .inr ⟨v.units, ?_, abs_units_le hv, ?_⟩
      · rw [number, hv]
        rfl
      · rw [if_neg Bool.false_ne_true, exact_eq_reading hv]
  | _ => cases h

/-- **Numbers compare as they stand on the line.** -/
theorem order_point {a b : Value} {x y : WithTop EReal} (hx : a.point? = some x)
    (hy : b.point? = some y) : (a.order b).Compares x y := by
  obtain ⟨ha, hx⟩ := point?_eq hx
  obtain ⟨hb, hy⟩ := point?_eq hy
  rw [order_number ha hb]
  -- a NaN has the place behind the line to itself
  rcases hx with ⟨hax, rfl⟩ | ⟨u, hau, hu, rfl⟩ <;>
    rcases hy with ⟨hby, rfl⟩ | ⟨w, hbw, hw, rfl⟩
  · rw [hax, hby]
    exact rfl
  · rw [hax, hbw]
    exact WithTop.coe_lt_top _
  · rw [hau, hby]
    exact WithTop.coe_lt_top _
  · rw [hau, hbw]
    exact WithTop.coe_strictMono.compares.2 (compares_reading hu hw)

end Value

/-! ## Total preorders -/

/-- A comparison that puts everything into one line, with ties. -/
structure TotalPreorder {α : Type} (cmp : α → α → Ordering) : Prop where
  swap : ∀ a b, cmp b a = (cmp a b).swap
  trans : ∀ a b c, (cmp a b).isLE → (cmp b c).isLE → (cmp a c).isLE
  equivalence : Equivalence fun a b => cmp a b = .eq
  respects : ∀ a a' b b', cmp a a' = .eq → cmp b b' = .eq → cmp a b = cmp a' b'

theorem TotalPreorder.of_transCmp {α : Type} (cmp : α → α → Ordering) [Std.TransCmp cmp] :
    TotalPreorder cmp where
  swap _ _ := Std.OrientedCmp.eq_swap
  trans _ _ _ := Std.TransCmp.isLE_trans
  equivalence := ⟨fun _ => Std.ReflCmp.compare_self, Std.OrientedCmp.eq_symm, Std.TransCmp.eq_trans⟩
  respects _ _ _ _ h h' := (Std.TransCmp.congr_left h).trans (Std.TransCmp.congr_right h')

/-- **Values and records are totally preordered, and numbers exactly.** A list of keys in any
directions gives such an order of records; two numbers compare as their values do on the extended
line, with every NaN in one place behind it. -/
theorem Value.totalPreorder_order :
    TotalPreorder Value.order ∧
      (∀ (a b : Value) (x y : WithTop EReal), a.point? = some x → b.point? = some y →
        (a.order b).Compares x y) ∧
      ∀ keys : List SortKey, TotalPreorder (compareRecords keys) :=
  ⟨.of_transCmp _, fun _ _ _ _ => order_point, fun keys => .of_transCmp (compareRecords keys)⟩

/-- Above `2 ^ 53` an integer and the double next to it differ. -/
theorem Value.order_beyond_precision :
    (Value.int 9007199254740993).point? = some ((9007199254740993 : ℝ) : EReal) ∧
      (Value.float ⟨0x4340000000000000⟩).point? = some ((9007199254740992 : ℝ) : EReal) ∧
      ((Value.int 9007199254740993).order (.float ⟨0x4340000000000000⟩)).Compares
        (((9007199254740993 : ℝ) : EReal) : WithTop EReal) ((9007199254740992 : ℝ) : EReal) := by
  have hint : (Value.int 9007199254740993).point? = some ((9007199254740993 : ℝ) : EReal) := by
    have hv : (9007199254740993 : Int64).toInt = 9007199254740993 := by decide
    rw [point?, hv]
    norm_num
  have hfloat : (Value.float ⟨0x4340000000000000⟩).point? = some ((9007199254740992 : ℝ) : EReal) := by
    have he : (⟨0x4340000000000000⟩ : Binary64).exponent = 1076 := by decide
    have hf : (⟨0x4340000000000000⟩ : Binary64).fraction = 0 := by decide
    have hneg : (⟨0x4340000000000000⟩ : Binary64).negative = false := by decide
    have hnan : (⟨0x4340000000000000⟩ : Binary64).isNaN = false := by decide
    rw [point?, hnan, Binary64.exact, he, hf, hneg]
    norm_num
  -- as variables, so that nothing evaluates the comparison
  generalize Value.int 9007199254740993 = a at *
  generalize Value.float ⟨0x4340000000000000⟩ = b at *
  exact ⟨hint, hfloat, totalPreorder_order.2.1 a b _ _ hint hfloat⟩

end Adjacency
