/-!
# Stable sorting that evaluates

A merge sort by structural recursion, so that closed terms containing it can be computed in proofs.

* `merge_eq`, `stableSort_eq_mergeSort`: it is the standard library's merge and merge sort, whose
  laws therefore apply.
-/

namespace Adjacency

variable {α : Type}

/-- Merges two lists, the first one's elements before equal ones of the second. At most `n` steps;
`acc` holds the merged part in reverse. -/
def mergeSteps (le : α → α → Bool) : (n : Nat) → (acc xs ys : List α) → List α
  | 0, acc, _, _ => acc.reverse
  | n + 1, acc, xs, ys =>
    match xs, ys with
    | [], ys => acc.reverse ++ ys
    | xs, [] => acc.reverse ++ xs
    | x :: xs, y :: ys =>
      if le x y then mergeSteps le n (x :: acc) xs (y :: ys)
      else mergeSteps le n (y :: acc) (x :: xs) ys

/-- Merges two lists, the first one's elements before equal ones of the second. -/
def merge (le : α → α → Bool) (xs ys : List α) : List α :=
  mergeSteps le (xs.length + ys.length + 1) [] xs ys

theorem mergeSteps_eq (le : α → α → Bool) {n : Nat} {acc xs ys : List α}
    (h : xs.length + ys.length < n) : mergeSteps le n acc xs ys = acc.reverse ++ xs.merge ys le := by
  induction n generalizing acc xs ys with
  | zero => omega
  | succ n ih =>
    match xs, ys with
    | [], ys => simp [mergeSteps]
    | x :: xs, [] => simp [mergeSteps]
    | x :: xs, y :: ys =>
      simp only [List.length_cons] at h
      rw [mergeSteps, List.cons_merge_cons]
      split
      · rw [ih (by simp only [List.length_cons]; omega)]; simp
      · rw [ih (by simp only [List.length_cons]; omega)]; simp

theorem merge_eq (le : α → α → Bool) (xs ys : List α) : merge le xs ys = xs.merge ys le := by
  have h := Nat.lt_succ_self (xs.length + ys.length)
  rw [merge, mergeSteps_eq le h, List.reverse_nil, List.nil_append]

/-- Merge sort with at most `n` halvings. -/
def sortHalving (le : α → α → Bool) : (n : Nat) → List α → List α
  | 0, xs => xs
  | n + 1, xs =>
    let half := (xs.length + 1) / 2
    if xs.length ≤ 1 then xs
    else merge le (sortHalving le n (xs.take half)) (sortHalving le n (xs.drop half))

/-- Sorts by `le`; elements that are equal in this order keep their order. The length bounds the
number of halvings. -/
def stableSort (le : α → α → Bool) (xs : List α) : List α := sortHalving le xs.length xs

theorem sortHalving_eq (le : α → α → Bool) {n : Nat} {xs : List α} (h : xs.length ≤ n) :
    sortHalving le n xs = xs.mergeSort le := by
  induction n generalizing xs with
  | zero =>
    have : xs = [] := by simpa using h
    simp [this, sortHalving]
  | succ n ih =>
    match xs with
    | [] => simp [sortHalving]
    | [x] => simp [sortHalving]
    | x :: y :: xs =>
      rw [sortHalving, List.mergeSort]
      simp only [List.MergeSort.Internal.splitInTwo_fst, List.MergeSort.Internal.splitInTwo_snd]
      rw [if_neg (by simp), merge_eq,
        ih (by simp only [List.length_take, List.length_cons] at *; omega),
        ih (by simp only [List.length_drop, List.length_cons] at *; omega)]

/-- The sort is the standard library's stable merge sort. -/
theorem stableSort_eq_mergeSort (le : α → α → Bool) (xs : List α) :
    stableSort le xs = xs.mergeSort le :=
  sortHalving_eq le (Nat.le_refl _)

end Adjacency
