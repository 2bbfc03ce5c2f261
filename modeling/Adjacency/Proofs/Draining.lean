import Adjacency.Proofs.Rerun

/-!
# Draining a run

The flag cuts a run short and changes nothing else. With the flag up, values, scans and traversals deliver
nothing; the others go on with what their children still deliver, and a sort that has been filled goes on with
its records. A sort that has not been filled finds its child uncalled, and so without a record.

* `Source.KeepsFlag`: a step leaves the flag to the caller; one lemma per operator.
* `Source.Drains`: with the flag up, a call does what it does with the flag down, or delivers nothing from then
  on; one lemma per operator.
* `Source.Uncalled`: states before the first call, out of which all that is delivered depends on the flag.
* `OperatorTree.drainable`: **a tree drains at any time.**
* `Source.Drains.calls_raised`: what any number of calls answer then.
* `OperatorTree.drained_answers`: **a drained run delivers the beginning of what it would have delivered.**
-/

namespace Adjacency

open Metered

namespace Source

variable {σ α β : Type} {S : Source σ} {g : Graph}

/-! ## The flag -/

/-- The drain flag that a step leaves, however it ends. -/
def flagAfter : EStateM.Result GraphError (Run σ × CallCounts) α → Bool
  | .ok _ t | .error _ t => t.1.draining

/-- A step leaves the drain flag as it is. -/
def KeepsFlag (act : Step σ α) : Prop := ∀ s, flagAfter (act s) = s.1.draining

section

variable {act : Step σ α} {s t : Run σ × CallCounts} {a : α} {e : GraphError}

theorem KeepsFlag.of_ok (h : KeepsFlag act) (hr : act s = .ok a t) : t.1.draining = s.1.draining := by
  have hs := h s
  rwa [hr] at hs

theorem KeepsFlag.of_error (h : KeepsFlag act) (hr : act s = .error e t) : t.1.draining = s.1.draining := by
  have hs := h s
  rwa [hr] at hs

end

theorem KeepsFlag.pull (h : KeepsFlag (S.next g)) (more : β → Bool → Bool) (add : β → Record → β) :
    KeepsFlag (S.pull g more add) := by
  intro s
  fun_induction S.pull g more add s with
  | case1 s hmore e t hn => exact h.of_error hn
  | case2 s hmore t hn => exact h.of_ok hn
  | case3 s hmore r t hn ih => exact ih.trans (h.of_ok hn)
  | case4 => rfl

theorem keepsFlag_values (records : List Record) : KeepsFlag ((values records).next g) := by
  intro s
  simp only [values]
  split
  · rfl
  · split <;> rfl

theorem keepsFlag_scan (slot : Nat) (label : Option LabelId) : KeepsFlag ((scan slot label).next g) := by
  intro s
  simp only [scan]
  split
  · rfl
  · split <;> rfl

theorem KeepsFlag.project (h : KeepsFlag (S.next g)) (node : Nat) (property : String) (out : Nat) :
    KeepsFlag ((S.project node property out).next g) := by
  intro s
  simp only [Source.project]
  split
  · next hn => exact h.of_ok hn
  · next hn => exact h.of_ok hn
  · next hn => exact h.of_error hn

theorem KeepsFlag.nextBehind (h : KeepsFlag (S.next g)) (skip : Nat) : KeepsFlag (S.nextBehind g skip) := by
  intro s
  unfold Source.nextBehind
  split
  · next hp => exact (h.pull _ _).of_error hp
  · next hp =>
    have hpull := (h.pull _ _).of_ok hp
    split
    · exact hpull
    · split
      · next hn => exact (h.of_error hn).trans hpull
      · next hn => exact (h.of_ok hn).trans hpull

theorem KeepsFlag.skipLimit (h : KeepsFlag (S.next g)) (skip : Nat) (limit : Option Nat) :
    KeepsFlag ((S.skipLimit skip limit).next g) := by
  intro s
  simp only [Source.skipLimit]
  split
  · rfl
  · split
    · next hn => exact (h.nextBehind skip).of_error hn
    · next hn => exact (h.nextBehind skip).of_ok hn
    · next hn => exact (h.nextBehind skip).of_ok hn

theorem keepsFlag_deliverSorted : KeepsFlag (deliverSorted (σ := σ)) := by
  intro s
  unfold deliverSorted
  split <;> rfl

theorem KeepsFlag.sort (h : KeepsFlag (S.next g)) (keys : List SortKey) (bound : Option (Nat × Nat)) :
    KeepsFlag ((S.sort keys bound).next g) := by
  intro s
  simp only [Source.sort]
  split
  · exact keepsFlag_deliverSorted s
  · split
    · next hp => exact (h.pull _ _).of_error hp
    · next hp => exact (keepsFlag_deliverSorted _).trans ((h.pull _ _).of_ok hp)

theorem KeepsFlag.fillBatch (h : KeepsFlag (S.next g)) (p : Pattern) : KeepsFlag (S.fillBatch p g) := by
  intro s
  unfold Source.fillBatch
  split
  · next hp =>
    have hpull := (h.pull _ _).of_ok hp
    exact hpull
  · next hp =>
    have hpull := (h.pull _ _).of_error hp
    exact hpull

theorem keepsFlag_onTraversal (act : Metered Traversal α) : KeepsFlag (onTraversal (σ := σ) act) := by
  intro s
  unfold onTraversal
  split <;> rfl

theorem KeepsFlag.nextBatch (h : KeepsFlag (S.next g)) (p : Pattern) : KeepsFlag (S.nextBatch p g) := by
  intro s
  have hfill := h.fillBatch p
  fun_induction S.nextBatch p g s with
  | case1 s e t hf => exact hfill.of_error hf
  | case2 s t hf hb =>
    have hread := hfill.of_ok hf
    exact hread
  | case3 s t hf hb e u hv => exact ((keepsFlag_onTraversal _).of_error hv).trans (hfill.of_ok hf)
  | case4 s t hf hb u hv hd => exact ((keepsFlag_onTraversal _).of_ok hv).trans (hfill.of_ok hf)
  | case5 s t hf hb u hv hd e v he =>
    exact ((keepsFlag_onTraversal _).of_error he).trans
      (((keepsFlag_onTraversal _).of_ok hv).trans (hfill.of_ok hf))
  | case6 s t hf hb u hv hd r v he =>
    exact ((keepsFlag_onTraversal _).of_ok he).trans
      (((keepsFlag_onTraversal _).of_ok hv).trans (hfill.of_ok hf))
  | case7 s t hf hb u hv hd v he ih =>
    exact ih.trans (((keepsFlag_onTraversal _).of_ok he).trans
      (((keepsFlag_onTraversal _).of_ok hv).trans (hfill.of_ok hf)))

theorem KeepsFlag.traverse (h : KeepsFlag (S.next g)) (p : Pattern) : KeepsFlag ((S.traverse p).next g) := by
  intro s
  simp only [Source.traverse]
  split
  · rfl
  · split
    · rfl
    · split
      · rfl
      · rfl
      · exact h.nextBatch p s
      · split
        · next he => exact (keepsFlag_onTraversal _).of_error he
        · next he => exact (keepsFlag_onTraversal _).of_ok he
        · next he => exact (h.nextBatch p _).trans ((keepsFlag_onTraversal _).of_ok he)

/-! ## Drained calls -/

/-- With the flag up, nothing is delivered out of `P`. Out of `Q`, a call delivers nothing and leads to `P`, or
it does what it does with the flag down; and calls with the flag down stay in `Q`. -/
structure Drains (S : Source σ) (g : Graph) (P Q : σ → Prop) : Prop where
  dry : ∀ {s}, P s → ∀ n, ∃ t m, S.next g (⟨s, true⟩, n) = .ok none (⟨t, true⟩, m) ∧ P t
  cut : ∀ {s}, Q s → ∀ n,
    (∃ t m, S.next g (⟨s, true⟩, n) = .ok none (⟨t, true⟩, m) ∧ P t) ∨
    ∃ r t m, S.next g (⟨s, true⟩, n) = .ok (some r) (⟨t, true⟩, m) ∧
      S.next g (⟨s, false⟩, n) = .ok (some r) (⟨t, false⟩, m)
  kept : ∀ {s n r t}, Q s → S.next g (⟨s, false⟩, n) = .ok r t → Q t.1.state

variable {P Q : σ → Prop} {s : σ}

/-- A source that delivers nothing with the flag up. -/
theorem drains_of_silent (h : ∀ s n, S.next g (⟨s, true⟩, n) = .ok none (⟨s, true⟩, n)) :
    S.Drains g (fun _ => True) fun _ => True where
  dry _ n := ⟨_, _, h _ n, trivial⟩
  cut _ n := .inl ⟨_, _, h _ n, trivial⟩
  kept _ _ := trivial

theorem Drains.project (h : S.Drains g P Q) (node : Nat) (property : String) (out : Nat) :
    (S.project node property out).Drains g P Q where
  dry hs n := by
    obtain ⟨t, m, hn, ht⟩ := h.dry hs n
    exact ⟨t, m, by simp only [Source.project, hn], ht⟩
  cut hs n := by
    rcases h.cut hs n with ⟨t, m, hn, ht⟩ | ⟨r, t, m, hn, hfull⟩
    · exact .inl ⟨t, m, by simp only [Source.project, hn], ht⟩
    · exact .inr ⟨projected g node property out r, t, m, by simp only [Source.project, hn],
        by simp only [Source.project, hfull]⟩
  kept hs hr := by
    simp only [Source.project] at hr
    split at hr
    · next hn =>
      cases hr
      exact h.kept hs hn
    · next hn =>
      cases hr
      exact h.kept hs hn
    · cases hr

/-- A pull with the flag up reads nothing out of `P`. -/
theorem Drains.pull_dry (h : S.Drains g P Q) (hs : P s) (more : β → Bool → Bool) (add : β → Record → β) (b : β)
    (n : CallCounts) :
    ∃ t m, S.pull g more add (⟨(s, b), true⟩, n) = .ok () (⟨(t, b), true⟩, m) ∧ P t := by
  rw [pull_eq]
  split
  · obtain ⟨t, m, hn, ht⟩ := h.dry hs n
    simp only [Step.onto, hn]
    exact ⟨t, m, rfl, ht⟩
  · exact ⟨s, n, rfl, hs⟩

/-- A call with the flag down stays in `Q`. -/
theorem Drains.kept_down (h : S.Drains g P Q) {s : Run σ × CallCounts} {r : Option Record}
    {t : Run σ × CallCounts} (hdown : s.1.draining = false) (hs : Q s.1.state) (hr : S.next g s = .ok r t) :
    Q t.1.state := by
  have hstart : s = (⟨s.1.state, false⟩, s.2) := by rw [← hdown]
  exact h.kept hs (hstart ▸ hr)

/-- A pull with the flag down stays in `Q`. -/
theorem Drains.pull_kept (h : S.Drains g P Q) (hflag : KeepsFlag (S.next g)) {more : β → Bool → Bool}
    {add : β → Record → β} {s t : Run (σ × β) × CallCounts} (hdown : s.1.draining = false) (hs : Q s.1.state.1)
    (hr : S.pull g more add s = .ok () t) : Q t.1.state.1 := by
  fun_induction S.pull g more add s with
  | case1 => cases hr
  | case2 s hmore u hn =>
    cases hr
    exact h.kept_down hdown hs hn
  | case3 s hmore r u hn ih => exact ih ((hflag.of_ok hn).trans hdown) (h.kept_down hdown hs hn) hr
  | case4 =>
    cases hr
    exact hs

/-- Passing over records with the flag up: the child runs dry before enough were passed over, or they are passed
over as with the flag down. -/
theorem Drains.pull_skip (h : S.Drains g P Q) (skip : Nat) (hs : Q s) (k : Nat) (n : CallCounts) :
    (∃ t k' m, k' < skip ∧ P t ∧ S.pull g (fun k _ => decide (k < skip)) (fun k _ => k + 1) (⟨(s, k), true⟩, n) =
      .ok () (⟨(t, k'), true⟩, m)) ∨
    ∃ t k' m, skip ≤ k' ∧ Q t ∧
      S.pull g (fun k _ => decide (k < skip)) (fun k _ => k + 1) (⟨(s, k), true⟩, n) =
        .ok () (⟨(t, k'), true⟩, m) ∧
      S.pull g (fun k _ => decide (k < skip)) (fun k _ => k + 1) (⟨(s, k), false⟩, n) =
        .ok () (⟨(t, k'), false⟩, m) := by
  -- induction on how many records are still to be passed over
  induction hd : skip - k generalizing s k n with
  | zero =>
    have hnot : ¬k < skip := by omega
    refine .inr ⟨s, k, n, Nat.le_of_not_lt hnot, hs, ?_, ?_⟩ <;> rw [pull_eq, if_neg (by simpa using hnot)]
  | succ d ih =>
    have hlt : k < skip := by omega
    rcases h.cut hs n with ⟨t, m, hn, ht⟩ | ⟨r, t, m, hn, hfull⟩
    · refine .inl ⟨t, k, m, hlt, ht, ?_⟩
      rw [pull_eq, if_pos (decide_eq_true hlt)]
      simp only [Step.onto, hn]
    · have hup : S.pull g (fun k _ => decide (k < skip)) (fun k _ => k + 1) (⟨(s, k), true⟩, n) =
          S.pull g (fun k _ => decide (k < skip)) (fun k _ => k + 1) (⟨(t, k + 1), true⟩, m) := by
        rw [pull_eq, if_pos (decide_eq_true hlt)]
        simp only [Step.onto, hn]
      have hdown : S.pull g (fun k _ => decide (k < skip)) (fun k _ => k + 1) (⟨(s, k), false⟩, n) =
          S.pull g (fun k _ => decide (k < skip)) (fun k _ => k + 1) (⟨(t, k + 1), false⟩, m) := by
        rw [pull_eq, if_pos (decide_eq_true hlt)]
        simp only [Step.onto, hfull]
      rw [hup, hdown]
      exact ih (h.kept hs hfull) (k + 1) m (by omega)

theorem Drains.nextBehind_dry (h : S.Drains g P Q) (skip : Nat) (hs : P s) (k : Nat) (n : CallCounts) :
    ∃ t m, S.nextBehind g skip (⟨(s, k), true⟩, n) = .ok none (⟨(t, k), true⟩, m) ∧ P t := by
  obtain ⟨t, m, hp, ht⟩ := h.pull_dry hs (fun k _ => decide (k < skip)) (fun k _ => k + 1) k n
  simp only [nextBehind, hp]
  split
  · exact ⟨t, m, rfl, ht⟩
  · obtain ⟨u, m', hn, hu⟩ := h.dry ht m
    simp only [Step.onto, hn]
    exact ⟨u, m', rfl, hu⟩

theorem Drains.nextBehind_cut (h : S.Drains g P Q) (skip : Nat) (hs : Q s) (k : Nat) (n : CallCounts) :
    (∃ t m, S.nextBehind g skip (⟨(s, k), true⟩, n) = .ok none (⟨t, true⟩, m) ∧ P t.1) ∨
    ∃ r t m, S.nextBehind g skip (⟨(s, k), true⟩, n) = .ok (some r) (⟨t, true⟩, m) ∧
      S.nextBehind g skip (⟨(s, k), false⟩, n) = .ok (some r) (⟨t, false⟩, m) := by
  rcases h.pull_skip skip hs k n with ⟨t, k', m, hlt, ht, hp⟩ | ⟨t, k', m, hle, ht, hp, hfull⟩
  · refine .inl ⟨(t, k'), m, ?_, ht⟩
    simp only [nextBehind, hp, if_pos hlt]
  · simp only [nextBehind, hp, hfull, if_neg (Nat.not_lt.2 hle), Step.onto]
    rcases h.cut ht m with ⟨u, m', hn, hu⟩ | ⟨r, u, m', hn, hfull⟩
    · simp only [hn]
      exact .inl ⟨(u, k'), m', rfl, hu⟩
    · simp only [hn, hfull]
      exact .inr ⟨r, (u, k'), m', rfl, rfl⟩

theorem Drains.nextBehind_kept (h : S.Drains g P Q) (hflag : KeepsFlag (S.next g)) {skip k : Nat}
    {n : CallCounts} {r : Option Record} {t : Run (σ × Nat) × CallCounts} (hs : Q s)
    (hr : S.nextBehind g skip (⟨(s, k), false⟩, n) = .ok r t) : Q t.1.state.1 := by
  unfold nextBehind at hr
  split at hr
  · cases hr
  · next u hp =>
    have hu : Q u.1.state.1 := h.pull_kept hflag rfl hs hp
    have hdown : u.1.draining = false := (hflag.pull _ _).of_ok hp
    split at hr
    · cases hr
      exact hu
    · split at hr
      · cases hr
      · next hn =>
        cases hr
        exact h.kept_down hdown hu hn

/-- The limit is reached, or the child is dry. -/
def DrySkip (limit : Option Nat) (P : σ → Prop) (st : SkipState σ) : Prop :=
  (limit.any fun n => decide (n ≤ st.emitted)) = true ∨ P st.child

theorem Drains.skipLimit (h : S.Drains g P Q) (hflag : KeepsFlag (S.next g)) (skip : Nat) (limit : Option Nat) :
    (S.skipLimit skip limit).Drains g (DrySkip limit P) fun st => Q st.child where
  dry {st} hs n := by
    simp only [Source.skipLimit]
    split
    · next hlimit => exact ⟨st, n, rfl, .inl hlimit⟩
    · next hroom =>
      obtain ⟨t, m, hn, ht⟩ := h.nextBehind_dry skip (hs.resolve_left hroom) st.skipped n
      simp only [Step.onto, hn]
      exact ⟨_, m, rfl, .inr ht⟩
  cut {st} hs n := by
    simp only [Source.skipLimit]
    split
    · next hlimit => exact .inl ⟨st, n, rfl, .inl hlimit⟩
    · rcases h.nextBehind_cut skip hs st.skipped n with ⟨t, m, hn, ht⟩ | ⟨r, t, m, hn, hfull⟩
      · simp only [Step.onto, hn]
        exact .inl ⟨_, m, rfl, .inr ht⟩
      · simp only [Step.onto, hn, hfull]
        exact .inr ⟨r, _, m, rfl, rfl⟩
  kept {st n r t} hs hr := by
    simp only [Source.skipLimit] at hr
    split at hr
    · cases hr
      exact hs
    · split at hr
      · cases hr
      · next hn =>
        cases hr
        exact h.nextBehind_kept hflag hs hn
      · next hn =>
        cases hr
        exact h.nextBehind_kept hflag hs hn

/-- A sort that has not read anything, over a child that is dry. -/
def Unread (P : σ → Prop) (st : SortState σ) : Prop := st.sorted = none ∧ st.intake = {} ∧ P st.child

/-- With the flag up, a sort that has not read anything is filled with nothing. -/
theorem Drains.sort_unread (h : S.Drains g P Q) (keys : List SortKey) (bound : Option (Nat × Nat))
    {st : SortState σ} (hs : Unread P st) (n : CallCounts) :
    ∃ t m, (S.sort keys bound).next g (⟨st, true⟩, n) = .ok none (⟨t, true⟩, m) ∧ t.sorted = some [] := by
  obtain ⟨hsorted, hintake, hchild⟩ := hs
  obtain ⟨t, m, hp, -⟩ := h.pull_dry hchild (fun _ _ => true) (Intake.absorb keys (sortCapacity bound)) {} n
  have hnothing : Intake.finish keys (sortCapacity bound) {} = [] := by
    cases sortCapacity bound <;> rfl
  refine ⟨{ child := t, sorted := some [] }, m.bump .sort, ?_, rfl⟩
  simp only [Source.sort, hsorted, hintake, Step.onto, hp, readThrough, hnothing]
  rfl

/-- **A sort drains**: filled, it goes on with its records. -/
theorem Drains.sort (h : S.Drains g P Q) (keys : List SortKey) (bound : Option (Nat × Nat)) :
    (S.sort keys bound).Drains g (fun st => st.sorted = some [] ∨ Unread P st)
      fun st => st.sorted ≠ none ∨ Unread P st where
  dry {st} hs n := by
    rcases hs with hs | hs
    · refine ⟨st, n, ?_, .inl hs⟩
      simp only [Source.sort, hs, deliverSorted]
    · obtain ⟨t, m, hn, ht⟩ := h.sort_unread keys bound hs n
      exact ⟨t, m, hn, .inl ht⟩
  cut {st} hs n := by
    rcases hs with hs | hs
    · -- filled: delivering does not look at the flag
      obtain ⟨out, hout⟩ := Option.ne_none_iff_exists'.1 hs
      cases out with
      | nil =>
        refine .inl ⟨st, n, ?_, .inl hout⟩
        simp only [Source.sort, hout, deliverSorted]
      | cons r rest =>
        refine .inr ⟨r, { st with sorted := some rest }, n, ?_, ?_⟩
        · simp only [Source.sort, hout, deliverSorted, Step.onto]
        · simp only [Source.sort, hout, deliverSorted, Step.onto]
    · obtain ⟨t, m, hn, ht⟩ := h.sort_unread keys bound hs n
      exact .inl ⟨t, m, hn, .inl ht⟩
  kept {st n r t} hs hr := by
    have hdelivered : ∀ {s t : Run (SortState σ) × CallCounts}, s.1.state.sorted ≠ none →
        deliverSorted s = .ok r t → t.1.state.sorted ≠ none := by
      intro s t hs hr
      unfold deliverSorted at hr
      split at hr
      · cases hr
        exact Option.some_ne_none _
      · cases hr
        exact hs
    -- a call fills the sort, whatever it delivers
    left
    simp only [Source.sort] at hr
    split at hr
    · next hout => exact hdelivered (hout ▸ Option.some_ne_none _) hr
    · split at hr
      · cases hr
      · exact hdelivered (Option.some_ne_none _) hr

/-! ## Draining a source that has not been called -/

/-- States `R` of a source before its first call: it is new, has been made ready, or has been started over. -/
structure Uncalled (S : Source σ) (R : σ → Prop) : Prop where
  start : R S.start
  init : ∀ {s}, R s → ∀ options, Ensures (S.init options) s (fun _ t => R t) fun _ _ => True
  reset : ∀ s, Ensures S.reset s (fun _ t => R t) fun _ _ => True

variable {R : σ → Prop}

theorem uncalled_any (S : Source σ) : S.Uncalled fun _ => True where
  start := trivial
  init _ _ := fun _ => by split <;> trivial
  reset _ := fun _ => by split <;> trivial

theorem Uncalled.skipLimit (h : S.Uncalled R) (skip : Nat) (limit : Option Nat) :
    (S.skipLimit skip limit).Uncalled fun st => R st.child where
  start := h.start
  init hs options :=
    ensures_update_then (ensures_within (h.init hs options) (fun _ _ ht => ht) fun _ _ _ => trivial)
  reset st := ensures_update_then (ensures_within (h.reset st.child) (fun _ _ ht => ht) fun _ _ _ => trivial)

theorem Uncalled.sort (h : S.Uncalled R) (keys : List SortKey) (bound : Option (Nat × Nat)) :
    (S.sort keys bound).Uncalled (Unread R) where
  start := ⟨rfl, rfl, h.start⟩
  init {st} hs options := by
    obtain ⟨hsorted, hintake, hchild⟩ := hs
    -- there is no heap to clear yet
    have hcleared : clearHeap bound st = st := by
      unfold clearHeap
      rw [hintake]
      split
      · rw [← hintake]
      · rfl
    have hinit : Ensures (S.init options) (clearHeap bound st).child (fun _ t => R t) fun _ _ => True := by
      rw [clearHeap_child]
      exact h.init hchild options
    refine ensures_update_then (ensures_within hinit (fun _ t ht => ?_) fun _ _ _ => trivial)
    change Unread R { clearHeap bound st with child := t }
    rw [hcleared]
    exact ⟨hsorted, hintake, ht⟩
  reset st :=
    ensures_update_then (ensures_within (h.reset st.child) (fun _ _ ht => ⟨rfl, rfl, ht⟩) fun _ _ _ => trivial)

/-- Calls leave the flag to the caller; and whenever it is raised, a source that had not been called before drains. -/
structure Drainable (S : Source σ) (g : Graph) : Prop where
  flag : KeepsFlag (S.next g)
  states : ∃ P Q R, S.Drains g P Q ∧ S.Uncalled R ∧ ∀ {s}, R s → P s ∧ Q s

theorem drainable_of_silent (hflag : KeepsFlag (S.next g))
    (h : ∀ s n, S.next g (⟨s, true⟩, n) = .ok none (⟨s, true⟩, n)) : S.Drainable g where
  flag := hflag
  states := ⟨_, _, _, drains_of_silent h, uncalled_any S, fun _ => ⟨trivial, trivial⟩⟩

theorem drainable_values (records : List Record) (g : Graph) : (values records).Drainable g :=
  drainable_of_silent (keepsFlag_values records) fun _ _ => rfl

theorem drainable_scan (slot : Nat) (label : Option LabelId) (g : Graph) : (scan slot label).Drainable g :=
  drainable_of_silent (keepsFlag_scan slot label) fun _ _ => rfl

theorem Drainable.project (h : S.Drainable g) (node : Nat) (property : String) (out : Nat) :
    (S.project node property out).Drainable g where
  flag := h.flag.project node property out
  states :=
    let ⟨P, Q, R, hdrains, huncalled, hstates⟩ := h.states
    ⟨P, Q, R, hdrains.project node property out, ⟨huncalled.start, huncalled.init, huncalled.reset⟩, hstates⟩

theorem Drainable.skipLimit (h : S.Drainable g) (skip : Nat) (limit : Option Nat) :
    (S.skipLimit skip limit).Drainable g where
  flag := h.flag.skipLimit skip limit
  states :=
    let ⟨_, _, _, hdrains, huncalled, hstates⟩ := h.states
    ⟨_, _, _, hdrains.skipLimit h.flag skip limit, huncalled.skipLimit skip limit,
      fun hs => ⟨.inr (hstates hs).1, (hstates hs).2⟩⟩

theorem Drainable.sort (h : S.Drainable g) (keys : List SortKey) (bound : Option (Nat × Nat)) :
    (S.sort keys bound).Drainable g where
  flag := h.flag.sort keys bound
  states := by
    obtain ⟨P, Q, R, hdrains, huncalled, hstates⟩ := h.states
    refine ⟨_, _, _, hdrains.sort keys bound, huncalled.sort keys bound, fun {st} hs => ?_⟩
    have hunread : Unread P st := ⟨hs.1, hs.2.1, (hstates hs.2.2).1⟩
    exact ⟨.inr hunread, .inr hunread⟩

/-- **A traversal drains**: with the flag up, it delivers nothing. -/
theorem Drainable.traverse (h : S.Drainable g) (p : Pattern) : (S.traverse p).Drainable g :=
  drainable_of_silent (h.flag.traverse p) fun _ _ => rfl

/-! ## Rows of calls -/

/-- What `k` calls of a source answer, one after the other whatever happens, and what they leave. -/
def calls (S : Source σ) (g : Graph) (k : Nat) (s : Run σ × CallCounts) :
    List (Except GraphError (Option Record)) × (Run σ × CallCounts) :=
  match k with
  | 0 => ([], s)
  | k + 1 =>
    match S.next g s with
    | .ok r t => (.ok r :: (S.calls g k t).1, (S.calls g k t).2)
    | .error e t => (.error e :: (S.calls g k t).1, (S.calls g k t).2)

/-- The answers of calls that deliver these records. -/
def delivering (records : List Record) : List (Except GraphError (Option Record)) :=
  records.map fun r => .ok (some r)

theorem calls_ok {s t : Run σ × CallCounts} {r : Option Record} (h : S.next g s = .ok r t) (k : Nat) :
    S.calls g (k + 1) s = (.ok r :: (S.calls g k t).1, (S.calls g k t).2) := by
  simp only [calls, h]

theorem calls_error {s t : Run σ × CallCounts} {e : GraphError} (h : S.next g s = .error e t) (k : Nat) :
    S.calls g (k + 1) s = (.error e :: (S.calls g k t).1, (S.calls g k t).2) := by
  simp only [calls, h]

/-- Calls with the flag down that do not fail stay in `Q` and leave the flag down. -/
theorem Drains.calls_kept (h : S.Drains g P Q) (hflag : KeepsFlag (S.next g)) (k : Nat)
    {s : Run σ × CallCounts} (hdown : s.1.draining = false) (hs : Q s.1.state)
    (hok : ∀ e, .error e ∉ (S.calls g k s).1) :
    (S.calls g k s).2.1.draining = false ∧ Q (S.calls g k s).2.1.state := by
  induction k generalizing s with
  | zero => exact ⟨hdown, hs⟩
  | succ k ih =>
    cases hn : S.next g s with
    | ok r t =>
      rw [calls_ok hn] at hok ⊢
      exact ih ((hflag.of_ok hn).trans hdown) (h.kept_down hdown hs hn) fun e he =>
        hok e (List.mem_cons_of_mem _ he)
    | error e t =>
      rw [calls_error hn] at hok
      exact absurd List.mem_cons_self (hok e)

/-- With the flag up, calls out of `P` deliver nothing. -/
theorem Drains.calls_dry (h : S.Drains g P Q) (hs : P s) (k : Nat) (n : CallCounts) :
    (S.calls g k (⟨s, true⟩, n)).1 = List.replicate k (.ok none) := by
  induction k generalizing s n with
  | zero => rfl
  | succ k ih =>
    obtain ⟨t, m, hn, ht⟩ := h.dry hs n
    rw [calls_ok hn, List.replicate_succ, ih ht m]

/-- **With the flag up, calls out of `Q` deliver the beginning of what they deliver with the flag down, and then
nothing.** -/
theorem Drains.calls_raised (h : S.Drains g P Q) (hs : Q s) (k : Nat) (n : CallCounts) :
    ∃ records blank,
      (S.calls g k (⟨s, true⟩, n)).1 = delivering records ++ List.replicate blank (.ok none) ∧
      delivering records <+: (S.calls g k (⟨s, false⟩, n)).1 := by
  induction k generalizing s n with
  | zero => exact ⟨[], 0, rfl, List.nil_prefix⟩
  | succ k ih =>
    rcases h.cut hs n with ⟨t, m, hn, ht⟩ | ⟨r, t, m, hn, hfull⟩
    · refine ⟨[], k + 1, ?_, List.nil_prefix⟩
      rw [calls_ok hn, h.calls_dry ht k m]
      rfl
    · obtain ⟨records, blank, hraised, hprefix⟩ := ih (h.kept hs hfull) m
      refine ⟨r :: records, blank, ?_, ?_⟩
      · rw [calls_ok hn, hraised]
        rfl
      · rw [calls_ok hfull]
        exact (List.prefix_cons_inj _).2 hprefix

end Source

namespace OperatorTree

/-- No operator of the tree raises the flag. -/
def Passive : OperatorTree → Prop
  | .values _ | .scan .. => True
  | .project child .. | .skipLimit child .. | .sort child .. | .traverse child _ => child.Passive
  | .drainAfter .. => False

/-- **A tree that does not raise the flag itself drains at any time.** -/
theorem drainable (tree : OperatorTree) (h : tree.Passive) (g : Graph) : tree.source.Drainable g := by
  induction tree with
  | values records => exact Source.drainable_values records g
  | scan slot label => exact Source.drainable_scan slot label g
  | project child node property out ih => exact (ih h).project node property out
  | skipLimit child skip limit ih => exact (ih h).skipLimit skip limit
  | sort child keys bound ih => exact (ih h).sort keys bound
  | traverse child p ih => exact (ih h).traverse p
  | drainAfter child k ih => exact h.elim

/-- States of a tree that has not been called yet, or has been started over, and may have been made ready. -/
inductive Ready (tree : OperatorTree) : tree.State → Prop
  | new : Ready tree tree.source.start
  | init {options s n t m} (h : Ready tree s) (hr : tree.source.init options (s, n) = .ok () (t, m)) : Ready tree t
  | reset {s n t m} (hr : tree.source.reset (s, n) = .ok () (t, m)) : Ready tree t

theorem Ready.of_uncalled {tree : OperatorTree} {s : tree.State} {R : tree.State → Prop}
    (h : tree.source.Uncalled R) (hs : tree.Ready s) : R s := by
  induction hs with
  | new => exact h.start
  | init _ hr ih => exact (h.init ih _).of_ok hr
  | reset hr => exact (h.reset _).of_ok hr

/-- **A drained run delivers the beginning of what it would have delivered.** A tree is made ready and called a
number of times; no call fails, and the flag is down. Raised then, no later call fails: the calls deliver records
that calls with the flag down deliver in their place, and then nothing any more. -/
theorem drained_answers (tree : OperatorTree) (h : tree.Passive) (g : Graph) {s : tree.State} (hs : tree.Ready s)
    (n : CallCounts) (before : Nat) (hok : ∀ e, .error e ∉ (tree.source.calls g before (⟨s, false⟩, n)).1)
    (after : Nat) :
    let reached := (tree.source.calls g before (⟨s, false⟩, n)).2
    reached.1.draining = false ∧ ∃ records blank,
      (tree.source.calls g after ({ reached.1 with draining := true }, reached.2)).1 =
        Source.delivering records ++ List.replicate blank (.ok none) ∧
      Source.delivering records <+: (tree.source.calls g after reached).1 := by
  intro reached
  obtain ⟨hflag, P, Q, R, hdrains, huncalled, hstates⟩ := tree.drainable h g
  obtain ⟨hdown, hreached⟩ := hdrains.calls_kept hflag before rfl (hstates (hs.of_uncalled huncalled)).2 hok
  have hstart : reached = (⟨reached.1.state, false⟩, reached.2) := by rw [← hdown]
  refine ⟨hdown, ?_⟩
  obtain ⟨records, blank, hraised, hprefix⟩ := hdrains.calls_raised hreached after reached.2
  rw [hstart]
  exact ⟨records, blank, hraised, hprefix⟩

/-- The flag is raised on a sort that has delivered the first of three records. The other two still come. -/
theorem drained_answers_of_filled :
    let rows : List Record := [.ofNode 0 ⟨0⟩, .ofNode 0 ⟨1⟩, .ofNode 0 ⟨2⟩]
    let tree : OperatorTree := .sort (.values rows) [⟨0, .descending⟩] (some (0, 3))
    let s : tree.State := { child := rows }
    let reached := (tree.source.calls default 1 (⟨s, false⟩, default)).2
    tree.Passive ∧ tree.Ready s ∧ (∀ e, .error e ∉ (tree.source.calls default 1 (⟨s, false⟩, default)).1) ∧
      (tree.source.calls default 3 ({ reached.1 with draining := true }, reached.2)).1 =
        Source.delivering [.ofNode 0 ⟨1⟩, .ofNode 0 ⟨0⟩] ++ [.ok none] ∧
      reached.1.draining = false ∧ ∃ records blank,
        (tree.source.calls default 3 ({ reached.1 with draining := true }, reached.2)).1 =
          Source.delivering records ++ List.replicate blank (.ok none) ∧
        Source.delivering records <+: (tree.source.calls default 3 reached).1 := by
  intro rows tree s reached
  have hinit : tree.source.init {} (tree.source.start, default) = .ok () (s, default) := rfl
  have hs : tree.Ready s := .init .new hinit
  have hfill := Source.pull_values (g := default) rows rows (fun _ _ => true)
    (Intake.absorb [⟨0, .descending⟩] (sortCapacity (some (0, 3)))) {} default
  have hfirst : tree.source.calls default 1 (⟨s, false⟩, default) = ([.ok (some (.ofNode 0 ⟨2⟩))],
      (⟨{ child := [], sorted := some [.ofNode 0 ⟨1⟩, .ofNode 0 ⟨0⟩] }, false⟩, { sort := 1 })) := by
    change ((Source.values rows).sort [⟨0, .descending⟩] (some (0, 3))).calls default 1
      (⟨{ child := rows }, false⟩, default) = _
    unfold Source.calls
    simp only [Source.sort, Step.onto, hfill, Source.readThrough]
    rfl
  have hok : ∀ e, .error e ∉ (tree.source.calls default 1 (⟨s, false⟩, default)).1 := by
    intro e
    rw [hfirst]
    simp
  have hdrained : (tree.source.calls default 3 ({ reached.1 with draining := true }, reached.2)).1 =
      Source.delivering [.ofNode 0 ⟨1⟩, .ofNode 0 ⟨0⟩] ++ [.ok none] := by
    simp only [reached, hfirst]
    rfl
  exact ⟨trivial, hs, hok, hdrained, drained_answers tree trivial default hs default 1 hok 3⟩

end OperatorTree

end Adjacency
