import Adjacency.Query.Plan
import Adjacency.Proofs.Action

/-!
# What a source emits

* `Source.Answers`: what one call answers and where it leads.
* `Source.Emits`: the calls answer a list of records one by one, and none from then on.
* `Source.emits_of_step`, `Source.Emits.answers`: to emit a list is to take its head off with every
  call.
* `Source.Emits.ensures_pull`: what a pull makes of the records that a source emits.
* `Source.Serves`: made ready for a run, a source emits a list; `Source.Serves.ensures_execute` says
  what a plan then returns.
* `Source.serves_values`, `Source.serves_scan`, `Source.Serves.project`, `Source.Serves.skipLimit`: fixed
  records, nodes, a property for every record, and a skip and limit.
* `Record.get_set`: a slot that was bound, and the others.
-/

namespace Adjacency

/-- **Binding a slot** changes that slot only. -/
theorem Record.get_set (r : Record) (slot : Nat) (x : Entry) (i : Nat) :
    (r.set slot x).get i = if i = slot then x else r.get i := by
  have hsize : slot < (r.entries ++ Array.replicate (slot + 1 - r.entries.size) Entry.unset).size := by
    rw [Array.size_append, Array.size_replicate]
    omega
  simp only [Record.get, Record.set, Array.getD_eq_getD_getElem?, Array.getElem?_setIfInBounds, hsize,
    if_true, eq_comm (a := slot)]
  split
  · rfl
  · rw [Array.getElem?_append]
    split
    · rfl
    · next hge =>
      rw [Array.getElem?_eq_none (Nat.not_lt.1 hge), Array.getElem?_replicate]
      split <;> rfl

theorem Record.node?_set (r : Record) (slot : Nat) (x : Entry) {i : Nat} (h : i ≠ slot) :
    (r.set slot x).node? i = r.node? i := by
  rw [node?, node?, get_set, if_neg h]

theorem Record.node?_set_self (r : Record) (slot : Nat) (id : NodeId) :
    (r.set slot (.node id)).node? slot = some id := by
  rw [node?, get_set, if_pos rfl]

namespace Source

open Metered

variable {σ β : Type} {S : Source σ} {g : Graph} {F : GraphError → Prop}

/-- With the drain flag down, a call answers `r`, leaves a state in `P` and the flag down; or it
fails in `F`. -/
def Answers (S : Source σ) (g : Graph) (F : GraphError → Prop) (r : Option Record) (P : σ → Prop)
    (s : σ) : Prop :=
  Ensures (S.next g) ⟨s, false⟩ (fun r' t => r' = r ∧ t.draining = false ∧ P t.state) fun e _ => F e

/-- Every further call answers none: such calls do not leave a set of states that answer none. -/
def Dry (S : Source σ) (g : Graph) (F : GraphError → Prop) (s : σ) : Prop :=
  ∃ P : σ → Prop, P s ∧ ∀ t, P t → S.Answers g F none P t

/-- The calls answer the records of the list in order, and none from then on. -/
def Emits (S : Source σ) (g : Graph) (F : GraphError → Prop) : List Record → σ → Prop
  | [], s => S.Dry g F s
  | r :: rs, s => S.Answers g F (some r) (fun t => S.Emits g F rs t) s

/-- Made ready for a run, the source emits the records. -/
def Serves (S : Source σ) (options : ExecOptions) (g : Graph) (F : GraphError → Prop)
    (rs : List Record) : Prop :=
  Ensures (S.init options) S.start (fun _ s => S.Emits g F rs s) fun e _ => F e

theorem Answers.mono {r : Option Record} {P Q : σ → Prop} {s : σ} (h : S.Answers g F r P s)
    (hPQ : ∀ t, P t → Q t) : S.Answers g F r Q s :=
  Ensures.mono h (fun _ _ ⟨hr, hf, hP⟩ => ⟨hr, hf, hPQ _ hP⟩) fun _ _ he => he

/-- A source emits a list if every call takes the list's head off: `Q` says what is left. -/
theorem emits_of_step (Q : List Record → σ → Prop)
    (hQ : ∀ rs s, Q rs s → S.Answers g F rs.head? (Q rs.tail) s) {rs : List Record} {s : σ}
    (h : Q rs s) : S.Emits g F rs s := by
  induction rs generalizing s with
  | nil => exact ⟨Q [], h, fun t ht => hQ [] t ht⟩
  | cons r rs ih => exact Answers.mono (hQ _ s h) fun t ht => ih ht

theorem Emits.answers {rs : List Record} {s : σ} (h : S.Emits g F rs s) :
    S.Answers g F rs.head? (S.Emits g F rs.tail) s := by
  cases rs with
  | nil =>
    obtain ⟨P, hs, hP⟩ := h
    exact (hP s hs).mono fun t ht => ⟨P, ht, hP⟩
  | cons r rs => exact h

/-! ## Reading a source -/

/-- The unfolding of a pull. -/
theorem pull_eq (more : β → Bool → Bool) (add : β → Record → β) (s : Run (σ × β) × CallCounts) :
    S.pull g more add s =
      if more s.1.state.2 s.1.draining then
        match S.next g (Step.onto Prod.fst s) with
        | .error e t => .error e (Step.onto (·, s.1.state.2) t)
        | .ok none t => .ok () (Step.onto (·, s.1.state.2) t)
        | .ok (some r) t => S.pull g more add (Step.onto (·, add s.1.state.2 r) t)
      else .ok () s := by
  rw [Source.pull]
  split
  · split <;> rename_i hn <;> rw [hn]
  · rfl

/-- The unfolding of `nextBatch`. -/
theorem nextBatch_eq (p : Pattern) (s : Run (σ × Traversal) × CallCounts) :
    S.nextBatch p g s =
      match S.fillBatch p g s with
      | .error e t => .error e t
      | .ok () t =>
        if t.1.state.2.batch = #[] then
          .ok none (Step.onto (fun st => (st.1, { st.2 with phase := .exhausted })) t)
        else
          match onTraversal (Traversal.evaluateBatch p g) t with
          | .error e u => .error e u
          | .ok () u =>
            if u.1.draining then .ok none u
            else
              match onTraversal (Traversal.emit p g) u with
              | .error e v => .error e v
              | .ok (some r) v => .ok (some r) v
              | .ok none v => S.nextBatch p g v := by
  rw [nextBatch]
  split
  · next hf => rw [hf]
  · next hf =>
    rw [hf]
    dsimp only
    split
    · rfl
    · split
      · next hv => rw [hv]
      · next hv =>
        rw [hv]
        dsimp only
        split
        · rfl
        · split <;> next he => rw [he]

/-- An action on the traversal alone leaves the child and the flag alone. -/
theorem ensures_onTraversal {α : Type} {act : Metered Traversal α} {s : Run (σ × Traversal)}
    {okPart : α → Traversal → Prop} {badPart : GraphError → Traversal → Prop}
    (h : Ensures act s.state.2 okPart badPart) :
    Ensures (onTraversal act) s
      (fun a u => u.draining = s.draining ∧ u.state.1 = s.state.1 ∧ okPart a u.state.2)
      (fun e u => badPart e u.state.2) := by
  intro n
  have h := h n
  simp only [onTraversal]
  cases hr : act (s.state.2, n) with
  | ok a t => rw [hr] at h; exact ⟨rfl, rfl, h⟩
  | error e t => rw [hr] at h; exact h

/-- What a pull makes of a list of records: the accumulator, and the records that it leaves. -/
def taken (more : β → Bool → Bool) (add : β → Record → β) : β → List Record → β × List Record
  | b, [] => (b, [])
  | b, r :: rs => if more b false then taken more add (add b r) rs else (b, r :: rs)

/-- **A pull reads records off the list that its source emits.** -/
theorem Emits.ensures_pull {rs : List Record} {s : σ} (h : S.Emits g F rs s)
    (more : β → Bool → Bool) (add : β → Record → β) (b : β) :
    Ensures (S.pull g more add) ⟨(s, b), false⟩
      (fun _ t => t.draining = false ∧ t.state.2 = (taken more add b rs).1 ∧
        S.Emits g F (taken more add b rs).2 t.state.1) fun e _ => F e := by
  induction rs generalizing s b with
  | nil =>
    intro n
    rw [pull_eq]
    by_cases hb : more b false = true
    · rw [if_pos hb]
      have hn := h.answers n
      simp only [Step.onto]
      cases hr : S.next g (⟨s, false⟩, n) with
      | error e t => rw [hr] at hn; exact hn
      | ok r t =>
        rw [hr] at hn
        obtain ⟨rfl, hf, ht⟩ := hn
        exact ⟨hf, rfl, ht⟩
    · rw [if_neg hb]
      exact ⟨rfl, rfl, h⟩
  | cons r rs ih =>
    intro n
    rw [pull_eq]
    unfold taken
    by_cases hb : more b false = true
    · rw [if_pos hb, if_pos hb]
      have hn := h.answers n
      simp only [Step.onto]
      cases hr : S.next g (⟨s, false⟩, n) with
      | error e t => rw [hr] at hn; exact hn
      | ok r' t =>
        obtain ⟨⟨c, d⟩, m⟩ := t
        rw [hr] at hn
        obtain ⟨rfl, hf, ht⟩ := hn
        obtain rfl : d = false := hf
        exact ih ht (add b r) m
    · rw [if_neg hb, if_neg hb]
      exact ⟨rfl, rfl, h⟩

/-- A pull of fixed records. -/
theorem pull_values (records rs : List Record) (more : β → Bool → Bool) (add : β → Record → β) (b : β)
    (n : CallCounts) : (values records).pull g more add (⟨(rs, b), false⟩, n) =
      .ok () (⟨((taken more add b rs).2, (taken more add b rs).1), false⟩, n) := by
  induction rs generalizing b with
  | nil =>
    rw [pull_eq]
    dsimp only
    split <;> rfl
  | cons r rs ih =>
    rw [pull_eq, taken]
    dsimp only
    split
    · exact ih (add b r)
    · rfl

/-- An accumulator that always wants more gets everything. -/
theorem taken_all {more : β → Bool → Bool} {add : β → Record → β} (h : ∀ b, more b false = true)
    {b : β} {rs : List Record} : taken more add b rs = (rs.foldl add b, []) := by
  induction rs generalizing b with
  | nil => rfl
  | cons r rs ih =>
    unfold taken
    rw [if_pos (h b)]
    exact ih

/-! ## Plans -/

/-- **What a plan returns**: the records that its tree serves, and it was not drained. -/
theorem Serves.ensures_execute {tree : OperatorTree} {options : ExecOptions} {rs : List Record}
    (h : tree.source.Serves options g F rs) :
    Ensures (Plan.execute g) (Plan.new tree options)
      (fun q _ => q.records = rs ∧ q.timedOut = false) fun e _ => F e := by
  intro n
  have hi := h n
  unfold Plan.execute Plan.prepareRun
  simp only [Plan.new, Bool.false_eq_true, reduceIte]
  cases hr : tree.source.init options (tree.source.start, n) with
  | error e t => rw [hr] at hi; exact hi
  | ok a t =>
    rw [hr] at hi
    have hp := Emits.ensures_pull hi (fun _ draining => !draining) Array.push #[] t.2
    rw [taken_all fun _ => rfl] at hp
    simp only [Plan.readAll]
    cases hq : tree.source.pull g (fun _ draining => !draining) Array.push
        (⟨(t.1, #[]), false⟩, t.2) with
    | error e u => rw [hq] at hp; exact hp
    | ok _ u =>
      rw [hq] at hp
      obtain ⟨hf, hb, -⟩ := hp
      refine ⟨?_, hf⟩
      rw [hb]
      simp

/-! ## Fixed records, nodes, properties, skip and limit -/

theorem serves_values {options : ExecOptions} (rs : List Record) :
    (values rs).Serves options g F rs := by
  intro n
  show (values rs).Emits g F rs rs
  refine emits_of_step (fun left s => s = left) ?_ rfl
  rintro _ left rfl
  cases left with
  | nil => exact fun _ => ⟨rfl, rfl, rfl⟩
  | cons r rs => exact fun _ => ⟨rfl, rfl, rfl⟩

/-- A scan serves a record for each node. -/
theorem serves_scan {options : ExecOptions} (slot : Nat) (label : Option LabelId) :
    (scan slot label).Serves options g F ((g.nodeIds label).map (Record.ofNode slot)) := by
  intro n
  show (scan slot label).Emits g F _ none
  refine emits_of_step (fun left s => left = (s.getD (g.nodeIds label)).map (Record.ofNode slot)) ?_ rfl
  rintro _ s rfl n
  simp only [scan, Bool.false_eq_true, reduceIte]
  cases s.getD (g.nodeIds label) with
  | nil => exact ⟨rfl, rfl, rfl⟩
  | cons id rest => exact ⟨rfl, rfl, rfl⟩

/-- A property is added to every record that the child emits. -/
theorem Emits.project {rs : List Record} {c : σ} (h : S.Emits g F rs c) (node : Nat) (property : String)
    (out : Nat) : (S.project node property out).Emits g F (rs.map (projected g node property out)) c := by
  refine emits_of_step (fun left s => ∃ rs, S.Emits g F rs s ∧ rs.map (projected g node property out) = left)
    ?_ ⟨rs, h, rfl⟩
  rintro _ s ⟨rs, hrs, rfl⟩ n
  have hn := hrs.answers n
  simp only [Source.project]
  cases hr : S.next g (⟨s, false⟩, n) with
  | error e t => rw [hr] at hn; exact hn
  | ok r t =>
    rw [hr] at hn
    obtain ⟨rfl, hf, ht⟩ := hn
    cases rs with
    | nil => exact ⟨rfl, hf, [], ht, rfl⟩
    | cons r rs => exact ⟨rfl, hf, rs, ht, rfl⟩

/-- **A property is added to every record** that the child serves. -/
theorem Serves.project {options : ExecOptions} {rs : List Record} (h : S.Serves options g F rs)
    (node : Nat) (property : String) (out : Nat) :
    (S.project node property out).Serves options g F (rs.map (projected g node property out)) :=
  Ensures.mono h (fun _ _ hs => hs.project node property out) fun _ _ he => he

/-- A child and a count of records passed over, with `rs` to come behind the first `skip`. -/
def Behind (S : Source σ) (g : Graph) (F : GraphError → Prop) (skip : Nat) (rs : List Record)
    (s : σ × Nat) : Prop :=
  s.2 ≤ skip ∧ ∃ all, S.Emits g F all s.1 ∧ all.drop (skip - s.2) = rs

theorem taken_skip {skip k : Nat} {rs : List Record} (hk : k ≤ skip) :
    taken (fun k _ => decide (k < skip)) (fun k _ => k + 1) k rs =
      (min skip (k + rs.length), rs.drop (skip - k)) := by
  induction rs generalizing k with
  | nil => simp [taken, hk]
  | cons r rs ih =>
    unfold taken
    by_cases h : k < skip
    · have hd : skip - k = (skip - (k + 1)) + 1 := by omega
      rw [if_pos (decide_eq_true h), ih (by omega), hd, List.drop_succ_cons, List.length_cons]
      congr 2
      omega
    · obtain rfl : k = skip := by omega
      rw [if_neg (by simp), Nat.sub_self, List.drop_zero, List.length_cons,
        Nat.min_eq_left (Nat.le_add_right _ _)]

/-- The first record behind those to skip. -/
theorem Behind.ensures_next {skip : Nat} {rs : List Record} {s : σ × Nat}
    (h : S.Behind g F skip rs s) :
    Ensures (S.nextBehind g skip) ⟨s, false⟩
      (fun r t => r = rs.head? ∧ t.draining = false ∧ S.Behind g F skip rs.tail t.state)
      fun e _ => F e := by
  obtain ⟨c, k⟩ := s
  obtain ⟨hk, all, hc, rfl⟩ := h
  intro n
  have hp := hc.ensures_pull (fun k _ => decide (k < skip)) (fun k _ => k + 1) k n
  rw [taken_skip hk] at hp
  unfold nextBehind
  cases hq : S.pull g (fun k _ => decide (k < skip)) (fun k _ => k + 1) (⟨(c, k), false⟩, n) with
  | error e t => rw [hq] at hp; exact hp
  | ok _ t =>
    obtain ⟨⟨⟨c', k'⟩, d⟩, m⟩ := t
    rw [hq] at hp
    obtain ⟨hd, hk', hc'⟩ := hp
    obtain rfl : d = false := hd
    obtain rfl : k' = min skip (k + all.length) := hk'
    by_cases hshort : min skip (k + all.length) < skip
    · -- the child ran dry before `skip` records were passed over
      have hnil : all.drop (skip - k) = [] := List.drop_eq_nil_of_le (by omega)
      rw [hnil] at hc'
      simp only [if_pos hshort, hnil]
      exact ⟨rfl, trivial, Nat.min_le_left _ _, [], hc', List.drop_nil⟩
    · simp only [if_neg hshort, Step.onto]
      have hn := hc'.answers m
      cases hr : S.next g (⟨c', false⟩, m) with
      | error e u => rw [hr] at hn; exact hn
      | ok r u =>
        rw [hr] at hn
        obtain ⟨rfl, hf, hu⟩ := hn
        have hskip : min skip (k + all.length) = skip := by omega
        refine ⟨rfl, hf, Nat.min_le_left _ _, _, hu, ?_⟩
        simp only [hskip, Nat.sub_self, List.drop_zero]

/-- What is still to come behind the records passed over, up to the limit. -/
theorem Behind.emits {skip : Nat} {rest : List Record} {c : σ} {k : Nat}
    (h : S.Behind g F skip rest (c, k)) (limit emitted : Nat) :
    (S.skipLimit skip (some limit)).Emits g F (rest.take (limit - emitted)) ⟨c, k, emitted⟩ := by
  refine emits_of_step (fun out st => ∃ rest, S.Behind g F skip rest (st.child, st.skipped) ∧
    rest.take (limit - st.emitted) = out) ?_ ⟨rest, h, rfl⟩
  rintro out ⟨c, k, e⟩ ⟨rest, hrest, rfl⟩ n
  simp only [Source.skipLimit, Option.any_some, decide_eq_true_eq]
  by_cases he : limit ≤ e
  · rw [if_pos he, Nat.sub_eq_zero_of_le he]
    exact ⟨rfl, rfl, rest, hrest, by simp [Nat.sub_eq_zero_of_le he]⟩
  · rw [if_neg he]
    have hn := hrest.ensures_next n
    simp only [Step.onto]
    obtain ⟨left, hleft⟩ : ∃ left, limit - e = left + 1 := ⟨limit - e - 1, by omega⟩
    cases hr : S.nextBehind g skip (⟨(c, k), false⟩, n) with
    | error e' t => rw [hr] at hn; exact hn
    | ok r t =>
      rw [hr] at hn
      obtain ⟨rfl, hf, ht⟩ := hn
      cases rest with
      | nil => exact ⟨by simp, hf, [], ht, by simp⟩
      | cons r rest =>
        refine ⟨by rw [hleft]; rfl, hf, rest, ht, ?_⟩
        rw [hleft, List.take_succ_cons, List.tail_cons]
        congr 1
        show limit - (e + 1) = left
        omega

/-- **A skip and limit cut their window out of what the child emits.** -/
theorem Emits.skipLimit {rs : List Record} {c : σ} (h : S.Emits g F rs c) (skip limit : Nat) :
    (S.skipLimit skip (some limit)).Emits g F ((rs.drop skip).take limit) ⟨c, 0, 0⟩ :=
  Behind.emits ⟨Nat.zero_le _, rs, h, rfl⟩ limit 0

theorem Serves.skipLimit {options : ExecOptions} {rs : List Record} (h : S.Serves options g F rs)
    (skip limit : Nat) :
    (S.skipLimit skip (some limit)).Serves options g F ((rs.drop skip).take limit) :=
  ensures_update_then <| ensures_within h (fun _ _ hc => hc.skipLimit skip limit) fun _ _ he => he

end Source

end Adjacency
