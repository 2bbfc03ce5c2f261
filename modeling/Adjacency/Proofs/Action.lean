import Adjacency.Metered
import Mathlib

/-!
# What a metered action ensures

`Metered.Ensures act s good bad`: run on `s`, the action ends in `good` with its answer and the value left
behind, or fails in `bad` with the failure and the value left behind; the call counts do not matter.
One lemma per combinator, so that a proof about an action follows its text.

* `succeeds`: the action succeeds on a value, with counts that are given.
* `Ensures.bind`, `Ensures.mono`: sequencing and weakening.
* `ensures_reserve`: a reservation changes nothing and can only run out of memory.
* `ensures_range`, `ensures_each`, `ensures_forEach`: loops, with an invariant of what is done.
* `ensures_withinTaken`, `ensures_settle`: actions on a part, and on a value of their own.
-/

namespace Adjacency

/-- A failure for want of memory. -/
def GraphError.OfMemory (e : GraphError) : Prop := ∃ site, e = .outOfMemory site

namespace Metered

variable {σ τ α β : Type}

/-- Run on `s`, the action ends in `good` or fails in `bad`, whatever has been counted before. -/
def Ensures (act : Metered σ α) (s : σ) (good : α → σ → Prop) (bad : GraphError → σ → Prop) : Prop :=
  ∀ n, match act (s, n) with
    | .ok a t => good a t.1
    | .error e t => bad e t.1

/-- The action succeeds. -/
def succeeds (act : Metered σ α) (s : σ × CallCounts) : Bool :=
  match act s with
  | .ok .. => true
  | .error .. => false

theorem exists_ok {act : Metered σ α} {s : σ × CallCounts} (h : succeeds act s = true) :
    ∃ a t, act s = .ok a t := by
  unfold succeeds at h
  cases hr : act s with
  | ok a t => exact ⟨a, t, rfl⟩
  | error e t => rw [hr] at h; cases h

variable {s : σ} {good : α → σ → Prop} {bad : GraphError → σ → Prop}

theorem Ensures.of_ok {act : Metered σ α} (h : Ensures act s good bad) {n : CallCounts} {a : α}
    {t : σ × CallCounts} (hr : act (s, n) = .ok a t) : good a t.1 := by
  have := h n
  rwa [hr] at this

theorem Ensures.of_error {act : Metered σ α} (h : Ensures act s good bad) {n : CallCounts} {e : GraphError}
    {t : σ × CallCounts} (hr : act (s, n) = .error e t) : bad e t.1 := by
  have := h n
  rwa [hr] at this

/-- What never fails succeeds. -/
theorem Ensures.exists_ok {act : Metered σ α} (h : Ensures act s good fun _ _ => False) (n : CallCounts) :
    ∃ a t, act (s, n) = .ok a t ∧ good a t.1 := by
  have hn := h n
  cases hr : act (s, n) with
  | ok a t =>
    rw [hr] at hn
    exact ⟨a, t, rfl, hn⟩
  | error e t =>
    rw [hr] at hn
    exact hn.elim

theorem Ensures.mono {act : Metered σ α} {good' : α → σ → Prop} {bad' : GraphError → σ → Prop}
    (h : Ensures act s good bad) (hok : ∀ a t, good a t → good' a t) (hbad : ∀ e t, bad e t → bad' e t) :
    Ensures act s good' bad' := by
  intro n
  have := h n
  split at this
  · exact hok _ _ this
  · exact hbad _ _ this

/-- What holds in two ways holds in both. -/
theorem Ensures.and {act : Metered σ α} {good' : α → σ → Prop} {bad' : GraphError → σ → Prop}
    (h : Ensures act s good bad) (h' : Ensures act s good' bad') :
    Ensures act s (fun a t => good a t ∧ good' a t) (fun e t => bad e t ∧ bad' e t) := by
  intro n
  have hn := h n
  have hn' := h' n
  split at hn
  · next hr =>
    rw [hr] at hn'
    exact ⟨hn, hn'⟩
  · next hr =>
    rw [hr] at hn'
    exact ⟨hn, hn'⟩

theorem Ensures.bind {x : Metered σ α} {f : α → Metered σ β} {mid : α → σ → Prop} {good : β → σ → Prop}
    (hx : Ensures x s mid bad) (hf : ∀ a t, mid a t → Ensures (f a) t good bad) :
    Ensures (x >>= f) s good bad := by
  intro n
  have h := hx n
  simp only [Bind.bind, EStateM.bind]
  cases hr : x (s, n) with
  | ok a t => rw [hr] at h; exact hf a t.1 h t.2
  | error e t => rw [hr] at h; exact h

/-- Sequencing, when the first action fails in its own way. -/
theorem Ensures.andThen {x : Metered σ α} {k : α → Metered σ β} {mid : α → σ → Prop}
    {bad₀ : GraphError → σ → Prop} {good : β → σ → Prop} (hx : Ensures x s mid bad₀)
    (hbad : ∀ e t, bad₀ e t → bad e t) (hk : ∀ a t, mid a t → Ensures (k a) t good bad) :
    Ensures (x >>= k) s good bad :=
  (hx.mono (fun _ _ h => h) hbad).bind hk

theorem ensures_pure {a : α} (h : good a s) : Ensures (pure a) s good bad := fun _ => h

theorem ensures_throw {e : GraphError} (h : bad e s) : Ensures (throw e : Metered σ α) s good bad :=
  fun _ => h

theorem ensures_put {v : σ} {good : Unit → σ → Prop} (h : good () v) : Ensures (put v) s good bad :=
  fun _ => h

theorem ensures_update {f : σ → σ} {good : Unit → σ → Prop} (h : good () (f s)) :
    Ensures (update f) s good bad := fun _ => h

theorem ensures_tally {c : Call} {good : Unit → σ → Prop} (h : good () s) : Ensures (tally c) s good bad :=
  fun _ => h

theorem ensures_require {x : Except GraphError α} (hok : ∀ a, x = .ok a → good a s)
    (hbad : ∀ e, x = .error e → bad e s) : Ensures (require x) s good bad := by
  cases x with
  | ok a => exact ensures_pure (hok a rfl)
  | error e => exact ensures_throw (hbad e rfl)

theorem ensures_ite {c : Prop} [Decidable c] {x y : Metered σ α} (hx : c → Ensures x s good bad)
    (hy : ¬c → Ensures y s good bad) : Ensures (if c then x else y) s good bad := by
  split
  · next h => exact hx h
  · next h => exact hy h

/-! ## First steps -/

theorem ensures_subject {k : σ → Metered σ α} (h : Ensures (k s) s good bad) :
    Ensures (subject >>= k) s good bad := fun n => h n

theorem ensures_update_then {f : σ → σ} {k : Unit → Metered σ α} (h : Ensures (k ()) (f s) good bad) :
    Ensures (update f >>= k) s good bad := fun n => h n

theorem ensures_tally_then {c : Call} {k : Unit → Metered σ α} (h : Ensures (k ()) s good bad) :
    Ensures (tally c >>= k) s good bad := fun n => h (n.bump c)

theorem ensures_require_then {x : Except GraphError β} {k : β → Metered σ α}
    (hbad : ∀ e, x = .error e → bad e s) (h : ∀ a, x = .ok a → Ensures (k a) s good bad) :
    Ensures (require x >>= k) s good bad := by
  cases x with
  | ok a => exact fun n => h a rfl n
  | error e => exact fun _ => hbad e rfl

/-- A reservation fails when it reaches the limit, and is granted below it. -/
theorem ensures_reserve_cases {n : Nat} {site : MemorySite} {k : Unit → Metered σ α}
    (hbad : reservationLimit ≤ n → bad (.outOfMemory site) s)
    (h : n < reservationLimit → Ensures (k ()) s good bad) : Ensures (reserve n site >>= k) s good bad := by
  unfold reserve
  split
  · next hn => exact fun _ => hbad hn
  · next hn => exact fun c => h (Nat.not_le.1 hn) c

/-- A reservation only fails when it reaches the limit. -/
theorem ensures_reserve_large {n : Nat} {site : MemorySite} {k : Unit → Metered σ α}
    (hbad : reservationLimit ≤ n → bad (.outOfMemory site) s) (h : Ensures (k ()) s good bad) :
    Ensures (reserve n site >>= k) s good bad :=
  ensures_reserve_cases hbad fun _ => h

/-- A reservation changes nothing and can only run out of memory. -/
theorem ensures_reserve {n : Nat} {site : MemorySite} {k : Unit → Metered σ α}
    (hbad : ∀ e, e.OfMemory → bad e s) (h : Ensures (k ()) s good bad) :
    Ensures (reserve n site >>= k) s good bad :=
  ensures_reserve_large (fun _ => hbad _ ⟨site, rfl⟩) h

/-- A check that throws. -/
theorem ensures_guard {c : Prop} [Decidable c] {e : GraphError} {k : Unit → Metered σ α}
    (hbad : c → bad e s) (hk : ¬c → Ensures (k ()) s good bad) :
    Ensures (if c then (throw e : Metered σ Unit) >>= k else k ()) s good bad :=
  ensures_ite (fun h _ => hbad h) hk

/-- An action that is only taken on a condition. -/
theorem ensures_when (mid : σ → Prop) {c : Prop} [Decidable c] {x : Metered σ Unit}
    {k : Unit → Metered σ α} (hx : c → Ensures x s (fun _ t => mid t) bad) (hs : ¬c → mid s)
    (hk : ∀ t, mid t → Ensures (k ()) t good bad) :
    Ensures (if c then x >>= k else k ()) s good bad :=
  ensures_ite (fun h => (hx h).bind fun _ t ht => hk t ht) fun h => hk s (hs h)

/-! ## Loops and parts -/

theorem ensures_discard {x : Metered σ α} {good : σ → Prop} (hx : Ensures x s (fun _ t => good t) bad) :
    Ensures (discard x) s (fun _ t => good t) bad := by
  intro n
  have h := hx n
  simp only [discard, Functor.discard, Functor.mapConst, EStateM.map, Function.comp]
  cases hr : x (s, n) with
  | ok a t => rw [hr] at h; exact h
  | error e t => rw [hr] at h; exact h

/-- A loop over the first numbers, with an invariant of how many are done. -/
theorem ensures_range {f : Nat → Metered σ Unit} (inv : Nat → σ → Prop) {n : Nat} (hs : inv 0 s)
    (hf : ∀ k, k < n → ∀ t, inv k t → Ensures (f k) t (fun _ t' => inv (k + 1) t') bad) :
    Ensures ((List.range n).forM f) s (fun _ t => inv n t) bad := by
  have hfrom : ∀ m a s, a + m = n → inv a s →
      Ensures ((List.range' a m).forM f) s (fun _ t => inv n t) bad := by
    intro m
    induction m with
    | zero =>
      intro a s ha hs
      obtain rfl : a = n := by omega
      exact ensures_pure hs
    | succ m ih =>
      intro a s ha hs
      change Ensures (f a >>= fun _ => (List.range' (a + 1) m).forM f) s _ _
      refine (hf a (by omega) s hs).bind fun _ t ht => ?_
      exact ih (a + 1) t (by omega) ht
  rw [List.range_eq_range']
  exact hfrom n 0 s (Nat.zero_add n) hs

/-- A loop over a list, with an invariant of what is done. -/
theorem ensures_each {f : β → Metered σ Unit} (inv : List β → σ → Prop) {xs done : List β}
    (hs : inv done s)
    (hf : ∀ x ∈ xs, ∀ done t, inv done t → Ensures (f x) t (fun _ t' => inv (done ++ [x]) t') bad) :
    Ensures (xs.forM f) s (fun _ t => inv (done ++ xs) t) bad := by
  induction xs generalizing s done with
  | nil =>
    rw [List.append_nil]
    exact ensures_pure hs
  | cons x xs ih =>
    change Ensures (f x >>= fun _ => xs.forM f) s _ _
    refine (hf x List.mem_cons_self done s hs).bind fun _ t ht => ?_
    rw [List.append_cons]
    exact ih ht fun y hy => hf y (List.mem_cons_of_mem _ hy)

/-- A loop with an invariant that does not tell how far it is. -/
theorem ensures_forEach {f : β → Metered σ Unit} {inv : σ → Prop} {xs : List β} (hs : inv s)
    (hf : ∀ x ∈ xs, ∀ t, inv t → Ensures (f x) t (fun _ t' => inv t') bad) :
    Ensures (xs.forM f) s (fun _ t => inv t) bad :=
  @ensures_each _ _ s bad f (fun _ => inv) xs [] hs fun x hx _ t ht => hf x hx t ht

/-- An action on a part. -/
theorem ensures_within {get : σ → τ} {set : τ → σ → σ} {act : Metered τ α}
    {okPart : α → τ → Prop} {badPart : GraphError → τ → Prop} (h : Ensures act (get s) okPart badPart)
    (hok : ∀ a t, okPart a t → good a (set t s)) (hbad : ∀ e t, badPart e t → bad e (set t s)) :
    Ensures (within get set act) s good bad := by
  intro n
  have h := h n
  simp only [within]
  cases hr : act (get s, n) with
  | ok a t => rw [hr] at h; exact hok a t.1 h
  | error e t => rw [hr] at h; exact hbad e t.1 h

/-- An action on a part that is taken out meanwhile: it runs on the part itself. -/
theorem ensures_withinTaken [Inhabited τ] {get : σ → τ} {set : τ → σ → σ} {act : Metered τ α}
    {okPart : α → τ → Prop} {badPart : GraphError → τ → Prop} (h : Ensures act (get s) okPart badPart)
    (hok : ∀ a t, okPart a t → good a (set t (set default s)))
    (hbad : ∀ e t, badPart e t → bad e (set t (set default s))) :
    Ensures (withinTaken get set act) s good bad := by
  intro n
  have h := h n
  simp only [withinTaken, within]
  cases hr : act (get s, n) with
  | ok a t => rw [hr] at h; exact hok a t.1 h
  | error e t => rw [hr] at h; exact hbad e t.1 h

/-- An action on a value of its own leaves the subject alone. -/
theorem ensures_settle {start : τ} {act : Metered τ Unit} {good : τ → σ → Prop}
    {okOwn : Unit → τ → Prop} {badOwn : GraphError → τ → Prop} (h : Ensures act start okOwn badOwn)
    (hok : ∀ t, okOwn () t → good t s) (hbad : ∀ e t, badOwn e t → bad e s) :
    Ensures (settle start act) s good bad := by
  intro n
  have h := h n
  simp only [settle]
  cases hr : act (start, n) with
  | ok a t => rw [hr] at h; exact hok t.1 h
  | error e t => rw [hr] at h; exact hbad e t.1 h

/-! ## A run with its state -/

/-- What a run has answered, and the state that it has left. -/
def outcome {ε σ α : Type} : EStateM.Result ε σ α → Except ε α × σ
  | .ok a s => (.ok a, s)
  | .error e s => (.error e, s)

/-- A sequence fails in its first action, or in the second after the first has ended well. -/
theorem bind_eq_error {x : Metered σ α} {k : α → Metered σ β} {s t : σ × CallCounts} {e : GraphError}
    (h : (x >>= k) s = .error e t) :
    x s = .error e t ∨ ∃ a u, x s = .ok a u ∧ k a u = .error e t := by
  simp only [Bind.bind, EStateM.bind] at h
  cases hx : x s with
  | ok a u =>
    rw [hx] at h
    exact .inr ⟨a, u, rfl, h⟩
  | error e' u =>
    rw [hx] at h
    cases h
    exact .inl rfl

theorem eq_error_of_outcome {ε σ α : Type} {r : EStateM.Result ε σ α} {e : ε}
    (h : (outcome r).1 = .error e) : r = .error e (outcome r).2 := by
  cases r with
  | ok a s => cases h
  | error e' s => exact congrArg (EStateM.Result.error · s) (Except.error.inj h)

theorem eq_ok_of_outcome {ε σ α : Type} {r : EStateM.Result ε σ α} {a : α}
    (h : (outcome r).1.toOption = some a) : r = .ok a (outcome r).2 := by
  cases r with
  | ok b s => exact congrArg (EStateM.Result.ok · s) (Option.some.inj h)
  | error e s => cases h

end Metered

end Adjacency
