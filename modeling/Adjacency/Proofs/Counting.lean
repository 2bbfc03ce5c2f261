import Adjacency.Proofs.Write

/-!
# Counting commits

`Metered.Spends act s good bad`: run on `s`, the action ends in `good` with its answer, the value left behind
and the number of commits completed on the way, or fails in `bad` with the same. Commits add up along a
sequence.

* `Metered.Quiet`: the action completes no commit.
* `Spends.bind`, `Spends.and`: sequencing, and what is known without counting.
* `Matrix.spends_wait`: **a commit that succeeds counts once, and one that fails does not count.**
-/

namespace Adjacency

namespace Metered

variable {σ α β : Type}

/-! ## Actions without a commit -/

/-- However it ends, the action completes no commit. -/
def Quiet (act : Metered σ α) : Prop := ∀ s, (outcome (act s)).2.2.commit = s.2.commit

theorem quiet_pure (a : α) : Quiet (pure a : Metered σ α) := fun _ => rfl

theorem quiet_throw (e : GraphError) : Quiet (throw e : Metered σ α) := fun _ => rfl

theorem quiet_subject : Quiet (subject (σ := σ)) := fun _ => rfl

theorem quiet_put (v : σ) : Quiet (put v) := fun _ => rfl

theorem quiet_update (f : σ → σ) : Quiet (update f) := fun _ => rfl

theorem quiet_require (x : Except GraphError α) : Quiet (require x : Metered σ α) := by
  cases x with
  | ok a => exact quiet_pure a
  | error e => exact quiet_throw e

theorem Quiet.ite {c : Prop} [Decidable c] {x y : Metered σ α} (hx : Quiet x) (hy : Quiet y) :
    Quiet (if c then x else y) := by
  split
  · exact hx
  · exact hy

theorem quiet_reserve (n : Nat) (site : MemorySite) : Quiet (reserve n site : Metered σ Unit) :=
  (quiet_throw _).ite (quiet_pure ())

theorem Quiet.bind {x : Metered σ α} {k : α → Metered σ β} (hx : Quiet x) (hk : ∀ a, Quiet (k a)) :
    Quiet (x >>= k) := by
  intro s
  have h := hx s
  simp only [Bind.bind, EStateM.bind]
  cases hr : x s with
  | ok a t =>
    rw [hr] at h
    exact (hk a t).trans h
  | error e t =>
    rw [hr] at h
    exact h

/-- A check that throws. -/
theorem Quiet.guard {c : Prop} [Decidable c] {e : GraphError} {k : Unit → Metered σ α}
    (hk : Quiet (k ())) : Quiet (if c then (throw e : Metered σ Unit) >>= k else k ()) :=
  ((quiet_throw e).bind fun _ => hk).ite hk

/-! ## Counted actions -/

/-- Run on `s`, the action ends in `good` or fails in `bad`; both also tell how many commits it has
completed. -/
def Spends (act : Metered σ α) (s : σ) (good : α → σ → Nat → Prop) (bad : GraphError → σ → Nat → Prop) :
    Prop :=
  ∀ n, match act (s, n) with
    | .ok a t => ∃ k, t.2.commit = n.commit + k ∧ good a t.1 k
    | .error e t => ∃ k, t.2.commit = n.commit + k ∧ bad e t.1 k

variable {s : σ} {good good' : α → σ → Nat → Prop} {bad bad' : GraphError → σ → Nat → Prop}

theorem Spends.mono {act : Metered σ α} (h : Spends act s good bad)
    (hok : ∀ a t k, good a t k → good' a t k) (hbad : ∀ e t k, bad e t k → bad' e t k) :
    Spends act s good' bad' := by
  intro n
  have := h n
  split at this
  · obtain ⟨k, hk, h⟩ := this
    exact ⟨k, hk, hok _ _ _ h⟩
  · obtain ⟨k, hk, h⟩ := this
    exact ⟨k, hk, hbad _ _ _ h⟩

/-- What holds without counting holds beside the count. -/
theorem Spends.and {act : Metered σ α} {okay : α → σ → Prop} {fail : GraphError → σ → Prop}
    (h : Spends act s good bad) (h' : Ensures act s okay fail) :
    Spends act s (fun a t k => good a t k ∧ okay a t) (fun e t k => bad e t k ∧ fail e t) := by
  intro n
  have hn := h n
  have hn' := h' n
  split at hn
  · next hr =>
    rw [hr] at hn'
    obtain ⟨k, hk, h⟩ := hn
    exact ⟨k, hk, h, hn'⟩
  · next hr =>
    rw [hr] at hn'
    obtain ⟨k, hk, h⟩ := hn
    exact ⟨k, hk, h, hn'⟩

theorem Quiet.spends {act : Metered σ α} (h : Quiet act) (s : σ) :
    Spends act s (fun _ _ k => k = 0) (fun _ _ k => k = 0) := by
  intro n
  have hn := h (s, n)
  split
  · next hr =>
    rw [hr] at hn
    exact ⟨0, hn, rfl⟩
  · next hr =>
    rw [hr] at hn
    exact ⟨0, hn, rfl⟩

/-- **Commits add up along a sequence.** -/
theorem Spends.bind {x : Metered σ α} {f : α → Metered σ β} {mid : α → σ → Nat → Prop}
    {good : β → σ → Nat → Prop} {bad₀ : GraphError → σ → Nat → Prop} (hx : Spends x s mid bad₀)
    (hbad : ∀ e t k, bad₀ e t k → bad e t k)
    (hf : ∀ a t k, mid a t k →
      Spends (f a) t (fun b u l => good b u (k + l)) (fun e u l => bad e u (k + l))) :
    Spends (x >>= f) s good bad := by
  intro n
  have h := hx n
  simp only [Bind.bind, EStateM.bind]
  cases hr : x (s, n) with
  | error e t =>
    rw [hr] at h
    obtain ⟨k, hk, h⟩ := h
    exact ⟨k, hk, hbad e _ k h⟩
  | ok a t =>
    rw [hr] at h
    obtain ⟨k, hk, h⟩ := h
    have hrest := hf a t.1 k h t.2
    dsimp only
    split at hrest
    · next hr' =>
      rw [hr']
      obtain ⟨l, hl, h⟩ := hrest
      exact ⟨k + l, by rw [hl, hk, Nat.add_assoc], h⟩
    · next hr' =>
      rw [hr']
      obtain ⟨l, hl, h⟩ := hrest
      exact ⟨k + l, by rw [hl, hk, Nat.add_assoc], h⟩

theorem spends_pure {a : α} (h : good a s 0) : Spends (pure a) s good bad := fun _ => ⟨0, rfl, h⟩

theorem spends_put {v : σ} {good : Unit → σ → Nat → Prop} (h : good () v 0) :
    Spends (put v) s good bad := fun _ => ⟨0, rfl, h⟩

theorem spends_tally {good : Unit → σ → Nat → Prop} (h : good () s 1) :
    Spends (tally .commit) s good bad := fun _ => ⟨1, rfl, h⟩

theorem spends_subject {k : σ → Metered σ α} (h : Spends (k s) s good bad) :
    Spends (subject >>= k) s good bad := fun n => h n

theorem spends_update_then {f : σ → σ} {k : Unit → Metered σ α} (h : Spends (k ()) (f s) good bad) :
    Spends (update f >>= k) s good bad := fun n => h n

theorem spends_require_then {x : Except GraphError β} {a : β} {k : β → Metered σ α} (hx : x = .ok a)
    (h : Spends (k a) s good bad) : Spends (require x >>= k) s good bad := by
  rw [hx]
  exact fun n => h n

theorem spends_ite {c : Prop} [Decidable c] {x y : Metered σ α} (hx : c → Spends x s good bad)
    (hy : ¬c → Spends y s good bad) : Spends (if c then x else y) s good bad := by
  split
  · next h => exact hx h
  · next h => exact hy h

end Metered

open Metered

namespace Matrix

variable {m : Matrix}

/-! ## Commits -/

theorem quiet_buildStorage {σ : Type} (vectors : Nat) (entries : Array IndexEntry) :
    Quiet (buildStorage vectors entries : Metered σ Storage) :=
  (quiet_reserve _ _).bind fun _ => (quiet_reserve _ _).bind fun _ =>
    (quiet_reserve _ _).bind fun _ => (quiet_reserve _ _).bind fun _ => quiet_pure _

theorem quiet_assemble : Quiet assemble := by
  have hinstall (op : DupOp) (m : Matrix) (incoming : List IndexEntry) : Quiet (do
      reserve (m.existing.length + incoming.length) .commitMerge
      installSorted
        (mergePlaces op m.type (m.existing.length + incoming.length + 1) #[] m.existing incoming)
      update fun m => { m with pending := none, zombies := 0, jumbled := false }) :=
    (quiet_reserve _ _).bind fun _ =>
      ((quiet_buildStorage _ _).bind fun _ => quiet_update _).bind fun _ => quiet_update _
  refine quiet_subject.bind fun m => (quiet_reserve _ _).bind fun _ => ?_
  cases m.pending with
  | none => exact hinstall _ _ _
  | some q =>
    exact (quiet_reserve _ _).bind fun _ => (quiet_require _).bind fun _ => hinstall _ _ _

theorem quiet_convertTo (target : Format) : Quiet (convertTo target) := by
  unfold convertTo
  refine quiet_subject.bind fun m => Quiet.guard ((quiet_reserve _ _).bind fun _ => ?_)
  cases target with
  | full => exact Quiet.guard ((quiet_reserve _ _).bind fun _ => quiet_put _)
  | bitmap => exact (quiet_reserve _ _).bind fun _ => (quiet_reserve _ _).bind fun _ => quiet_put _
  | sparse =>
    refine (quiet_buildStorage _ _).bind fun store => ?_
    cases store with
    | hypersparse h p i x => exact (quiet_reserve _ _).bind fun _ => quiet_put _
    | full x => exact quiet_put _
    | bitmap b x n => exact quiet_put _
    | sparse p i x => exact quiet_put _
  | hypersparse => exact (quiet_buildStorage _ _).bind fun _ => quiet_put _

theorem quiet_conform : Quiet conform :=
  quiet_subject.bind fun _ => (quiet_convertTo _).ite (quiet_pure ())

/-- **A commit that succeeds counts once, and one that fails does not count.** -/
theorem spends_wait (h : m.Inv) : Spends wait m
    (fun _ t k => k = 1 ∧ t.Inv ∧ m.Keeps t ∧ t.deferred = false)
    (fun e t k => k = 0 ∧ e.OfMemory ∧ t.Inv ∧ m.Keeps t) := by
  have hrest (t : Matrix) : Spends (do conform; tally .commit) t (fun _ _ k => k = 1) fun _ _ k => k = 0 :=
    (quiet_conform.spends t).bind (fun _ _ _ hk => hk) fun _ _ k hk => spends_tally (by rw [hk])
  -- the commit is counted at the very end, whether or not there was anything to install
  have hcount : Spends wait m (fun _ _ k => k = 1) fun _ _ k => k = 0 := by
    refine spends_subject (spends_ite (fun _ => ?_) fun _ => hrest m)
    refine (quiet_assemble.spends m).bind (fun _ _ _ hk => hk) fun _ t k hk => ?_
    subst hk
    simpa only [Nat.zero_add] using hrest t
  exact hcount.and (ensures_wait h)

end Matrix

end Adjacency
