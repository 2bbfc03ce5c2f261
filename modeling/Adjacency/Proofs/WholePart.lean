import Adjacency.Value
import Mathlib

/-!
# Whole parts and the comparison with integers

* `Binary64.trunc_units`: clearing bits leaves exactly the whole part.
* `Binary64.toInt64_toInt`: a number in the range of the signed words becomes its whole part.
* `Value.orderIntFloat_units`: the comparison by whole parts is the comparison of the exact values.
-/

namespace Adjacency

namespace Binary64

/-! ## The fields -/

theorem fields (x : Binary64) :
    x.bits.toNat = (if x.negative then 2 ^ 63 else 0) + x.exponent * 2 ^ 52 + x.fraction ∧
      x.exponent < 2 ^ 11 ∧ x.fraction < 2 ^ 52 := by
  have hx : x.bits.toNat < 2 ^ 64 := x.bits.toNat_lt
  simp only [negative, exponent, fraction, Nat.pow_eq, decide_eq_true_eq]
  split <;> omega

/-- A number is its three fields. -/
theorem fields_ofNat {neg : Bool} {e f : Nat} (he : e < 2 ^ 11) (hf : f < 2 ^ 52) :
    (⟨.ofNat ((if neg then 2 ^ 63 else 0) + e * 2 ^ 52 + f)⟩ : Binary64).negative = neg ∧
      (⟨.ofNat ((if neg then 2 ^ 63 else 0) + e * 2 ^ 52 + f)⟩ : Binary64).exponent = e ∧
      (⟨.ofNat ((if neg then 2 ^ 63 else 0) + e * 2 ^ 52 + f)⟩ : Binary64).fraction = f := by
  simp only [negative, exponent, fraction, Nat.pow_eq, UInt64.toNat_ofNat']
  cases neg
  · simp only [Bool.false_eq_true, if_false, decide_eq_false_iff_not]
    omega
  · simp only [if_true, decide_eq_true_eq]
    omega

/-- Clearing low bits of the fraction leaves the sign and the exponent alone. -/
theorem fields_trunc {x : Binary64} (h : 1023 ≤ x.exponent) :
    x.trunc.negative = x.negative ∧ x.trunc.exponent = x.exponent ∧
      x.trunc.fraction = x.fraction - x.fraction % 2 ^ (1075 - x.exponent) := by
  obtain ⟨hbits, he, hf⟩ := x.fields
  have hdvd : 2 ^ (1075 - x.exponent) ∣ 2 ^ 52 := Nat.pow_dvd_pow 2 (by omega)
  have hlow : x.bits.toNat % 2 ^ (1075 - x.exponent) = x.fraction % 2 ^ (1075 - x.exponent) := by
    rw [fraction, Nat.pow_eq, Nat.mod_mod_of_dvd _ hdvd]
  have htrunc : x.trunc = ⟨.ofNat ((if x.negative then 2 ^ 63 else 0) + x.exponent * 2 ^ 52 +
      (x.fraction - x.fraction % 2 ^ (1075 - x.exponent)))⟩ := by
    have hle := Nat.mod_le x.fraction (2 ^ (1075 - x.exponent))
    rw [trunc, if_neg (by omega), Nat.pow_eq, hlow, hbits, Nat.add_sub_assoc hle]
  rw [htrunc]
  exact fields_ofNat he (by omega)

theorem fields_trunc_small {x : Binary64} (h : x.exponent < 1023) :
    x.trunc.negative = x.negative ∧ x.trunc.exponent = 0 ∧ x.trunc.fraction = 0 := by
  have htrunc : x.trunc = ⟨.ofNat ((if x.negative then 2 ^ 63 else 0) + 0 * 2 ^ 52 + 0)⟩ := by
    rw [trunc, if_pos h, signed]
    simp only [Nat.pow_eq, Nat.zero_add, Nat.zero_mul, Nat.add_zero]
  rw [htrunc]
  exact fields_ofNat (by decide) (by decide)

theorem isNaN_trunc {x : Binary64} (h : x.isNaN = false) : x.trunc.isNaN = false := by
  rw [isNaN, Bool.and_eq_false_iff, beq_eq_false_iff_ne, bne_eq_false_iff_eq] at h ⊢
  rcases Nat.lt_or_ge x.exponent 1023 with hx | hx
  · exact .inl (by rw [(fields_trunc_small hx).2.1]; decide)
  · obtain ⟨-, he, hf⟩ := fields_trunc hx
    rw [he, hf]
    exact h.imp_right fun h => by rw [h, Nat.zero_sub]

/-! ## Whole parts -/

theorem unitsPerOne_pos : (0 : Int) < unitsPerOne := by
  unfold unitsPerOne
  generalize 1074 = k
  exact Int.natCast_pos.2 (Nat.two_pow_pos k)

/-- Rounding a multiple of `2 ^ j` down to a multiple of `2 ^ (k + j)`. -/
theorem div_mul_shifted (a k j : Nat) :
    a * 2 ^ j / 2 ^ (k + j) * 2 ^ (k + j) = (a - a % 2 ^ k) * 2 ^ j := by
  have hdiv : a * 2 ^ j / 2 ^ (k + j) = a / 2 ^ k := by
    rw [pow_add, Nat.mul_div_mul_right _ _ (Nat.two_pow_pos j)]
  rw [hdiv, pow_add, ← Nat.mul_assoc, Nat.div_mul_self_eq_mod_sub_self]

/-- A bound on the exponent field bounds the number. -/
theorem magnitude_lt {x : Binary64} {n : Nat} (h : x.exponent + 52 ≤ n) : x.magnitude < 2 ^ n := by
  obtain ⟨-, -, hf⟩ := x.fields
  simp only [magnitude, Nat.pow_eq]
  split
  · exact hf.trans_le (Nat.pow_le_pow_right (by decide) (by omega))
  · calc (2 ^ 52 + x.fraction) * 2 ^ (x.exponent - 1)
        < 2 ^ 53 * 2 ^ (x.exponent - 1) := Nat.mul_lt_mul_of_pos_right (by omega) (Nat.two_pow_pos _)
      _ = 2 ^ (53 + (x.exponent - 1)) := (pow_add 2 53 _).symm
      _ ≤ 2 ^ n := Nat.pow_le_pow_right (by decide) (by omega)

theorem trunc_magnitude (x : Binary64) :
    x.trunc.magnitude = x.magnitude / unitsPerOne * unitsPerOne := by
  unfold unitsPerOne
  generalize hone : 1074 = one
  simp only [Nat.pow_eq]
  rcases Nat.lt_or_ge x.exponent 1023 with hx | hx
  · -- less than one: nothing is left
    obtain ⟨-, he, hf⟩ := fields_trunc_small hx
    rw [Nat.div_eq_of_lt (magnitude_lt (by omega)), Nat.zero_mul, magnitude, if_pos he, hf]
  · obtain ⟨-, he, hf⟩ := fields_trunc hx
    simp only [magnitude, Nat.pow_eq]
    rw [if_neg (by omega), if_neg (by omega), he, hf]
    rcases Nat.lt_or_ge x.exponent 1075 with hlt | hge
    · have hsplit : one = (1075 - x.exponent) + (x.exponent - 1) := by omega
      have hdvd : 2 ^ (1075 - x.exponent) ∣ 2 ^ 52 := Nat.pow_dvd_pow 2 (by omega)
      have hlow : (2 ^ 52 + x.fraction) % 2 ^ (1075 - x.exponent) =
          x.fraction % 2 ^ (1075 - x.exponent) := by
        rw [Nat.add_mod, Nat.mod_eq_zero_of_dvd hdvd, Nat.zero_add, Nat.mod_mod]
      rw [hsplit, div_mul_shifted, hlow, Nat.add_sub_assoc (Nat.mod_le _ _)]
    · -- no bit stands for less than one
      have hdvd : 2 ^ one ∣ (2 ^ 52 + x.fraction) * 2 ^ (x.exponent - 1) :=
        Dvd.dvd.mul_left (Nat.pow_dvd_pow 2 (by omega)) _
      rw [Nat.div_mul_cancel hdvd, Nat.sub_eq_zero_of_le hge, Nat.pow_zero, Nat.mod_one, Nat.sub_zero]

theorem trunc_negative (x : Binary64) : x.trunc.negative = x.negative := by
  rcases Nat.lt_or_ge x.exponent 1023 with hx | hx
  · exact (fields_trunc_small hx).1
  · exact (fields_trunc hx).1

/-- **Clearing bits leaves the whole part**, toward zero. -/
theorem trunc_units (x : Binary64) : x.trunc.units = x.truncate * unitsPerOne := by
  rw [truncate, units, units, trunc_negative, trunc_magnitude, Nat.cast_mul, Int.ofNat_tdiv]
  cases x.negative
  · rfl
  · rw [if_pos rfl, if_pos rfl, Int.neg_tdiv, neg_mul]

/-- A number lies less than one away from its whole part. -/
theorem abs_sub_truncate (x : Binary64) : |x.units - x.truncate * unitsPerOne| < unitsPerOne := by
  have h : x.units - x.truncate * unitsPerOne = x.units.tmod unitsPerOne := by
    rw [truncate, Int.tmod_def, mul_comm]
  rw [h, ← Int.natCast_natAbs, Int.natAbs_tmod, Int.natAbs_natCast]
  exact Int.ofNat_lt.2 (Nat.mod_lt _ (Int.natCast_pos.1 unitsPerOne_pos))

theorem neg_truncate (x : Binary64) : -x.truncate = (-x.units).tdiv unitsPerOne :=
  (Int.neg_tdiv _ _).symm

/-- A positive number of ones above a number is above its whole part. -/
theorem truncate_lt {x : Binary64} {n : Int} (hn : 0 < n) (h : x.units < n * unitsPerOne) :
    x.truncate < n := by
  rcases le_total 0 x.units with hx | hx
  · rw [truncate, Int.tdiv_eq_ediv_of_nonneg hx]
    exact Int.ediv_lt_of_lt_mul unitsPerOne_pos h
  · have hneg : 0 ≤ -x.truncate := by
      rw [neg_truncate]
      exact Int.tdiv_nonneg (by omega) unitsPerOne_pos.le
    omega

theorem neg_le_truncate {x : Binary64} {n : Int} (hn : 0 ≤ n) (h : -n * unitsPerOne ≤ x.units) :
    -n ≤ x.truncate := by
  rcases le_total 0 x.units with hx | hx
  · exact (neg_nonpos.2 hn).trans (Int.tdiv_nonneg hx unitsPerOne_pos.le)
  · have hle : -x.truncate ≤ n := by
      rw [neg_truncate, Int.tdiv_eq_ediv_of_nonneg (by omega)]
      exact Int.ediv_le_of_le_mul unitsPerOne_pos (by rw [neg_mul] at h; omega)
    omega

theorem truncate_trunc (x : Binary64) : x.trunc.truncate = x.truncate := by
  rw [truncate, trunc_units, Int.mul_tdiv_cancel _ (ne_of_gt unitsPerOne_pos)]

/-- A number within the range of the signed words becomes its whole part. -/
theorem toInt64_toInt {x : Binary64} (hx : x.isNaN = false) (hlo : -2 ^ 63 ≤ x.truncate)
    (hhi : x.truncate < 2 ^ 63) : x.toInt64.toInt = x.truncate := by
  have hwithin : x.truncateWithin Int64.minValue.toInt Int64.maxValue.toInt = x.truncate := by
    have hmin : Int64.minValue.toInt = -2 ^ 63 := by decide
    have hmax : Int64.maxValue.toInt = 2 ^ 63 - 1 := by decide
    rw [truncateWithin, if_neg (by rw [hx]; decide), hmin, hmax]
    omega
  rw [toInt64, hwithin, Int64.toInt_ofInt_of_le hlo hhi]

end Binary64

namespace Value

open Binary64

theorem int64End_units : int64End.units = 2 ^ 63 * unitsPerOne := by decide +kernel

theorem int64Start_units : int64Start.units = -2 ^ 63 * unitsPerOne := by decide +kernel

/-- Within less than one of a whole number the whole numbers decide, unless they are equal. -/
theorem compare_whole {a q u one : Int} (h : |u - q * one| < one) :
    (match compare a q with | .eq => compare (q * one) u | unequal => unequal) =
      compare (a * one) u := by
  obtain ⟨hlo, hhi⟩ := abs_lt.1 h
  have hone : 0 ≤ one := (abs_nonneg _).trans h.le
  rcases lt_trichotomy a q with haq | rfl | haq
  · have hle : (a + 1) * one ≤ q * one := Int.mul_le_mul_of_nonneg_right haq hone
    have hlt : a * one < u := by rw [add_mul, one_mul] at hle; omega
    rw [compare_lt_iff_lt.2 haq, compare_lt_iff_lt.2 hlt]
  · rw [compare_eq_iff_eq.2 rfl]
  · have hle : (q + 1) * one ≤ a * one := Int.mul_le_mul_of_nonneg_right haq hone
    have hlt : u < a * one := by rw [add_mul, one_mul] at hle; omega
    rw [compare_gt_iff_gt.2 haq, compare_gt_iff_gt.2 hlt]

theorem order_units {x y : Binary64} (hx : x.isNaN = false) (hy : y.isNaN = false) :
    x.order y = some (compare x.units y.units) := by
  rw [Binary64.order, hx, hy]
  rfl

theorem le_eq {x y : Binary64} (hx : x.isNaN = false) (hy : y.isNaN = false) :
    x.le y = decide (x.units ≤ y.units) := by
  rw [Binary64.le, order_units hx hy]
  rcases lt_trichotomy x.units y.units with h | h | h
  · rw [compare_lt_iff_lt.2 h, decide_eq_true h.le]; rfl
  · rw [compare_eq_iff_eq.2 h, decide_eq_true h.le]; rfl
  · rw [compare_gt_iff_gt.2 h, decide_eq_false (not_le.2 h)]; rfl

theorem lt_eq {x y : Binary64} (hx : x.isNaN = false) (hy : y.isNaN = false) :
    x.lt y = decide (x.units < y.units) := by
  rw [Binary64.lt, order_units hx hy]
  rcases lt_trichotomy x.units y.units with h | h | h
  · rw [compare_lt_iff_lt.2 h, decide_eq_true h]; rfl
  · rw [compare_eq_iff_eq.2 h, decide_eq_false h.not_lt]; rfl
  · rw [compare_gt_iff_gt.2 h, decide_eq_false (not_lt.2 h.le)]; rfl

/-- **The comparison by whole parts is the comparison of the exact values.** -/
theorem orderIntFloat_units (a : Int64) {b : Binary64} (hb : b.isNaN = false) :
    orderIntFloat a b = compare (a.toInt * unitsPerOne) b.units := by
  have halo : -2 ^ 63 ≤ a.toInt := a.le_toInt
  have hahi : a.toInt < 2 ^ 63 := a.toInt_lt
  have hone := unitsPerOne_pos
  rw [orderIntFloat, hb, Bool.false_or, le_eq (by decide +kernel) hb, lt_eq hb (by decide +kernel),
    int64End_units, int64Start_units]
  simp only [decide_eq_true_eq]
  -- from the ends of the words on, no word is on the other side of `b`
  split
  case isTrue hend =>
    have hlt : a.toInt * unitsPerOne < 2 ^ 63 * unitsPerOne := Int.mul_lt_mul_of_pos_right hahi hone
    exact (compare_lt_iff_lt.2 (hlt.trans_le hend)).symm
  split
  case isTrue hstart =>
    have hle : -2 ^ 63 * unitsPerOne ≤ a.toInt * unitsPerOne :=
      Int.mul_le_mul_of_nonneg_right halo hone.le
    exact (compare_gt_iff_gt.2 (hstart.trans_le hle)).symm
  case isFalse hend hstart =>
    -- between them the whole part of `b` is a word
    have hnear := b.abs_sub_truncate
    have hnan := isNaN_trunc hb
    have hlo : -2 ^ 63 ≤ b.trunc.truncate := by
      rw [truncate_trunc]
      exact neg_le_truncate (by decide) (not_lt.1 hstart)
    have hhi : b.trunc.truncate < 2 ^ 63 := by
      rw [truncate_trunc]
      exact truncate_lt (by decide) (not_le.1 hend)
    rw [toInt64_toInt hnan hlo hhi, truncate_trunc, order_units hnan hb, trunc_units]
    exact compare_whole hnear

end Value

end Adjacency
