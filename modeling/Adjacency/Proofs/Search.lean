import Adjacency.Matrix.Cursor
import Mathlib

/-!
# Searching and counting positions

The readers of a matrix search ranges of positions: one by one, or by bisection on ascending keys.

* `firstFrom_eq_some_iff`, `firstFrom_add`: the linear search, and the search of two ranges in a row.
* `searchSorted_eq_some_iff`: bisection finds a key exactly when it is there.
* `countP_range_toggle`: a count over positions when one of them changes.
-/

namespace Adjacency

variable {test : Nat → Bool}

theorem firstFrom_eq_some_iff {n start pos : Nat} :
    firstFrom test n start = some pos ↔
      start ≤ pos ∧ pos < start + n ∧ test pos = true ∧
        ∀ q, start ≤ q → q < pos → test q = false := by
  induction n generalizing start with
  | zero => simp only [firstFrom, reduceCtorEq, false_iff]; omega
  | succ n ih =>
    rw [firstFrom]
    by_cases ht : test start = true
    · simp only [ht, if_true, Option.some.injEq]
      constructor
      · rintro rfl; exact ⟨Nat.le_refl _, by omega, ht, fun q h₁ h₂ => by omega⟩
      · rintro ⟨h₁, -, -, h₄⟩
        by_contra hne
        have := h₄ start (Nat.le_refl _) (by omega)
        simp [this] at ht
    · rw [if_neg ht, ih]
      constructor
      · rintro ⟨h₁, h₂, h₃, h₄⟩
        refine ⟨by omega, by omega, h₃, fun q hq₁ hq₂ => ?_⟩
        rcases Nat.eq_or_lt_of_le hq₁ with rfl | hq₁
        · simpa using ht
        · exact h₄ q hq₁ hq₂
      · rintro ⟨h₁, h₂, h₃, h₄⟩
        have hne : start ≠ pos := by rintro rfl; exact ht h₃
        exact ⟨by omega, by omega, h₃, fun q hq₁ hq₂ => h₄ q (by omega) hq₂⟩

/-- Searching two ranges in a row. -/
theorem firstFrom_add (a b start : Nat) :
    firstFrom test (a + b) start = (firstFrom test a start).or (firstFrom test b (start + a)) := by
  induction a generalizing start with
  | zero => simp [firstFrom]
  | succ a ih =>
    rw [Nat.succ_add_eq_add_succ, Nat.add_succ, firstFrom, firstFrom]
    split
    · rfl
    · rw [ih, Nat.succ_add_eq_add_succ]

/-- The positions that pass the test are the first one and those behind it. -/
theorem filter_range'_eq (n start : Nat) :
    (List.range' start n).filter test =
      match firstFrom test n start with
      | some pos => pos :: (List.range' (pos + 1) (start + n - (pos + 1))).filter test
      | none => [] := by
  induction n generalizing start with
  | zero => rfl
  | succ n ih =>
    rw [List.range'_succ, firstFrom]
    by_cases ht : test start = true
    · rw [List.filter_cons_of_pos ht, if_pos ht]
      simp only [Nat.add_sub_add_left, Nat.add_sub_cancel]
    · rw [List.filter_cons_of_neg ht, if_neg ht, ih]
      simp only [Nat.add_assoc, Nat.add_comm 1 n]

theorem firstFrom_isSome {n start : Nat} :
    (firstFrom test n start).isSome ↔ ∃ pos, start ≤ pos ∧ pos < start + n ∧ test pos = true := by
  have hfilter := @filter_range'_eq test n start
  cases hf : firstFrom test n start with
  | some pos =>
    obtain ⟨hge, hlt, ht, -⟩ := firstFrom_eq_some_iff.1 hf
    exact ⟨fun _ => ⟨pos, hge, hlt, ht⟩, fun _ => rfl⟩
  | none =>
    rw [hf, List.filter_eq_nil_iff] at hfilter
    refine ⟨fun h => (Bool.false_ne_true h).elim, ?_⟩
    rintro ⟨pos, hge, hlt, ht⟩
    exact absurd ht (hfilter pos (List.mem_range'_1.2 ⟨hge, hlt⟩))

/-- The keys ascend strictly on `[lo, hi)`. -/
def Ascending (key : Nat → Nat) (lo hi : Nat) : Prop :=
  ∀ a b, lo ≤ a → a < b → b < hi → key a < key b

theorem Ascending.injective {key : Nat → Nat} {lo hi a b : Nat} (h : Ascending key lo hi)
    (ha : lo ≤ a) (ha' : a < hi) (hb : lo ≤ b) (hb' : b < hi) (he : key a = key b) : a = b := by
  rcases Nat.lt_trichotomy a b with hab | hab | hab
  · have := h a b ha hab hb'; omega
  · exact hab
  · have := h b a hb hab ha'; omega

theorem bisect_bounds {key : Nat → Nat} (target : Nat) {n lo hi : Nat} (h : Ascending key lo hi)
    (hle : lo ≤ hi) (hn : hi - lo ≤ n) :
    lo ≤ bisect key target n lo hi ∧ bisect key target n lo hi ≤ hi ∧
      (∀ k, lo ≤ k → k < bisect key target n lo hi → key k < target) ∧
      ∀ k, bisect key target n lo hi ≤ k → k < hi → target ≤ key k := by
  induction n generalizing lo hi with
  | zero =>
    refine ⟨Nat.le_refl _, hle, fun k h₁ h₂ => ?_, fun k h₁ h₂ => ?_⟩
    · simp only [bisect] at h₂; omega
    · simp only [bisect] at h₁; omega
  | succ n ih =>
    rw [bisect]
    by_cases hlt : lo < hi
    · simp only [hlt, if_true]
      by_cases hk : key ((lo + hi) / 2) < target
      · simp only [hk, if_true]
        have h' : Ascending key ((lo + hi) / 2 + 1) hi := fun a b h₁ h₂ h₃ => h a b (by omega) h₂ h₃
        obtain ⟨h₁, h₂, h₃, h₄⟩ := ih h' (by omega) (by omega)
        refine ⟨by omega, h₂, fun k hk₁ hk₂ => ?_, h₄⟩
        rcases Nat.lt_or_ge ((lo + hi) / 2) k with hm | hm
        · exact h₃ k hm hk₂
        · rcases Nat.eq_or_lt_of_le hm with rfl | hm
          · exact hk
          · have := h k ((lo + hi) / 2) hk₁ hm (by omega); omega
      · simp only [hk, if_false]
        have h' : Ascending key lo ((lo + hi) / 2) := fun a b h₁ h₂ h₃ => h a b h₁ h₂ (by omega)
        obtain ⟨h₁, h₂, h₃, h₄⟩ := ih h' (by omega) (by omega)
        refine ⟨h₁, by omega, h₃, fun k hk₁ hk₂ => ?_⟩
        rcases Nat.lt_or_ge k ((lo + hi) / 2) with hm | hm
        · exact h₄ k hk₁ hm
        · rcases Nat.eq_or_lt_of_le hm with hm | hm
          · rw [← hm]; omega
          · have := h ((lo + hi) / 2) k (by omega) hm hk₂; omega
    · rw [if_neg hlt]
      exact ⟨Nat.le_refl _, hle, fun k h₁ h₂ => by omega, fun k h₁ h₂ => by omega⟩

/-- Bisection finds a key exactly when it is there. -/
theorem searchSorted_eq_some_iff {key : Nat → Nat} {target lo hi pos : Nat}
    (h : Ascending key lo hi) (hle : lo ≤ hi) :
    searchSorted key target lo hi = some pos ↔ lo ≤ pos ∧ pos < hi ∧ key pos = target := by
  obtain ⟨h₁, -, h₃, h₄⟩ := bisect_bounds target h hle (Nat.le_refl _)
  change lo ≤ lowerBound key target lo hi at h₁
  change ∀ k, lo ≤ k → k < lowerBound key target lo hi → key k < target at h₃
  change ∀ k, lowerBound key target lo hi ≤ k → k < hi → target ≤ key k at h₄
  rw [searchSorted]
  generalize lowerBound key target lo hi = r at h₁ h₃ h₄
  constructor
  · intro hs
    obtain ⟨⟨hr₁, hr₂⟩, rfl⟩ : (r < hi ∧ key r = target) ∧ r = pos := by simpa using hs
    exact ⟨h₁, hr₁, hr₂⟩
  · rintro ⟨hp₁, hp₂, hp₃⟩
    have hr : r = pos := by
      rcases Nat.lt_trichotomy r pos with hlt | heq | hgt
      · have h₅ := h₄ r (Nat.le_refl _) (by omega)
        have h₆ := h r pos h₁ hlt hp₂
        omega
      · exact heq
      · have := h₃ pos hp₁ hgt; omega
    simp [hr, hp₂, hp₃]

theorem searchSorted_eq_none_iff {key : Nat → Nat} {target lo hi : Nat}
    (h : Ascending key lo hi) (hle : lo ≤ hi) :
    searchSorted key target lo hi = none ↔ ∀ pos, lo ≤ pos → pos < hi → key pos ≠ target := by
  rw [Option.eq_none_iff_forall_ne_some]
  simp only [ne_eq, searchSorted_eq_some_iff h hle]
  exact ⟨fun hn pos h₁ h₂ h₃ => hn pos ⟨h₁, h₂, h₃⟩, fun hn pos h => hn pos h.1 h.2.1 h.2.2⟩

/-! ## Counting positions -/

theorem countP_range_congr {p q : Nat → Bool} {n : Nat} (h : ∀ k, k < n → p k = q k) :
    (List.range n).countP p = (List.range n).countP q :=
  List.countP_congr fun k hk => by rw [h k (List.mem_range.1 hk)]

/-- A count over positions when one that did not count comes to count. -/
theorem countP_range_toggle {p q : Nat → Bool} {n pos : Nat} (hpos : pos < n) (hp : p pos = false)
    (hq : q pos = true) (h : ∀ k, k ≠ pos → p k = q k) :
    (List.range n).countP q = (List.range n).countP p + 1 := by
  induction n with
  | zero => omega
  | succ n ih =>
    simp only [List.range_succ, List.countP_append, List.countP_singleton]
    rcases Nat.eq_or_lt_of_le (Nat.le_of_lt_succ hpos) with rfl | hlt
    · rw [countP_range_congr fun k hk => h k (by omega)]
      simp [hp, hq]
    · rw [ih hlt, h n (by omega)]
      omega

end Adjacency
