import Adjacency.Proofs.EdgeBinding
import Adjacency.Proofs.Within

/-!
# Calls on a traversal that may fail

A call that fails between filling the filter and emptying it leaves marks behind, and the next batch is
evaluated under them: its rows then lead on from nodes of an earlier batch too.

* `Traversal.Stale`: the marks in the filter.
* `Traversal.Accounted`: every entry still to be delivered is a link from the record's source, or from a
  node marked in its row.
* `Bounded.ensures_evaluateBatch`, `Accounted.ensures_emit`, `Source.next_reckoned`: what a batch, a record
  and a call leave, failed or not.
* `Source.Called`: any calls after a traversal was made ready, and the marks that failed ones have left.
* `Called.delivers_links`: **a destination is linked to the source of its record, or to a node that a failed
  call has left marked.** Where no failed call has left a mark, every destination is right.
* `Source.exists_wrong_destination`: a mark left by a failed call does give a wrong destination.
-/

namespace Adjacency

open Metered

variable {p : Pattern} {g : Graph} {q q' : Nat → Nat → Prop}

/-- The pattern's expression has no filter of its own, and the matrices that it brings along are ones there
can be. Its leaves need not be registered, nor agree in shape or element type, and a transpose may have any
number of operands. -/
def Pattern.Plain (p : Pattern) : Prop :=
  p.expr.Formed (fun source => source ≠ .filter ∧ ∀ m, source = .matrix m → m.Reachable) fun _ => True

/-- The record has a node at the source slot and one at the destination slot. The second is linked to the
first, or to a node that `q` marks. -/
def Pattern.Explains (p : Pattern) (g : Graph) (q : Nat → Nat → Prop) (r : Record) : Prop :=
  ∃ s d : NodeId, r.node? p.src = some s ∧ r.node? p.dst = some d ∧
    (p.links g s.toNat d.toNat ∨ ∃ row k, q row k ∧ p.links g k d.toNat)

namespace Traversal

variable {t u : Traversal}

/-- The marks in the filter. -/
def Stale (t : Traversal) (row k : Nat) : Prop := ∃ w, t.workspace = some w ∧ w.filter.HasEntry row k

/-- The matrices are in order, the filter has no mark outside `q`, and what has been prepared gives no pair
but those of the filtered expression. -/
structure Bounded (p : Pattern) (g : Graph) (q : Nat → Nat → Prop) (t : Traversal) : Prop where
  filter : ∀ w, t.workspace = some w → w.filter.Within q
  result : ∀ w, t.workspace = some w → w.result.Inv
  prepared : ∀ e, t.prepared = some e → Expression.Confined g (Expression.filteredBy g p.expr) e

/-- The column is linked to the source of the record in the row, or to a node that `q` marks there. -/
def Led (p : Pattern) (g : Graph) (q : Nat → Nat → Prop) (batch : Array Record) (row col : Nat) : Prop :=
  Linked p g batch row col ∨ ∃ k, q row k ∧ p.links g k col

/-- Every entry still to be delivered has a link or a mark behind it. -/
structure Accounted (p : Pattern) (g : Graph) (q : Nat → Nat → Prop) (t : Traversal) : Prop extends
    Bounded p g q t where
  left : t.phase = .emitting → ∀ w, t.workspace = some w → t.cursor.Fits w.result ∧
    ∀ u ∈ w.result.rest t.cursor, u.col < maxDim ∧ Led p g q t.batch u.row u.col

theorem Bounded.mono (h : t.Bounded p g q) (hq : ∀ row k, q row k → q' row k) : t.Bounded p g q' :=
  ⟨fun w hw => (h.filter w hw).mono hq, h.result, h.prepared⟩

theorem Accounted.mono (h : t.Accounted p g q) (hq : ∀ row k, q row k → q' row k) :
    t.Accounted p g q' := by
  refine ⟨h.toBounded.mono hq, fun hphase w hw => ?_⟩
  obtain ⟨hfits, hled⟩ := h.left hphase w hw
  refine ⟨hfits, fun u hu => ?_⟩
  obtain ⟨hcol, hlinked | ⟨k, hk, hlinks⟩⟩ := hled u hu
  · exact ⟨hcol, .inl hlinked⟩
  · exact ⟨hcol, .inr ⟨k, hq u.row k hk, hlinks⟩⟩

/-- Between two batches nothing is left to be delivered. -/
theorem Bounded.accounted (h : t.Bounded p g q) (hphase : t.phase ≠ .emitting) : t.Accounted p g q :=
  ⟨h, fun heq => absurd heq hphase⟩

/-- The filter has no marks but its own. -/
theorem Bounded.stale (h : t.Bounded p g q) : t.Bounded p g t.Stale :=
  ⟨fun w hw => (h.filter w hw).inv.within.mono fun _ _ he => ⟨w, hw, he⟩, h.result, h.prepared⟩

/-! ## Evaluating a batch -/

theorem Bounded.ensures_ensureWorkspace (h : t.Bounded p g q) : Ensures (ensureWorkspace g) t
    (fun _ u => u.Bounded p g q ∧ u.batch = t.batch ∧ u.phase = t.phase ∧ ∃ w, u.workspace = some w)
    (fun _ u => u = t) := by
  unfold ensureWorkspace
  refine ensures_subject (ensures_ite (fun _ => ?_) fun hkeep => ensures_pure ⟨h, rfl, rfl, ?_⟩)
  · refine ensures_require_then (fun _ _ => rfl) fun m hm => ensures_put ⟨?_, rfl, rfl, _, rfl⟩
    obtain ⟨hrows, hcols, rfl⟩ := Matrix.withOptions_eq_ok_iff.1 hm
    have hlimit : MatrixOptions.sparseFamily.maxDenseCells < UInt64.size := by decide
    obtain ⟨hinv, hnone⟩ : (Matrix.blank .bool t.capacity g.dim true .sparseFamily).Inv ∧
        ∀ i j, (Matrix.blank .bool t.capacity g.dim true .sparseFamily).value i j = none :=
      Matrix.inv_blank hrows hcols hlimit
    refine ⟨?_, ?_, h.prepared⟩
    · rintro w ⟨⟩
      refine ⟨hinv, fun row col v hv => ?_⟩
      rw [Matrix.cell, hnone] at hv
      cases hv
    · rintro w ⟨⟩
      exact hinv
  · cases hw : t.workspace with
    | none =>
      rw [hw] at hkeep
      exact absurd rfl hkeep
    | some w => exact ⟨w, rfl⟩

theorem Bounded.ensures_ensurePrepared (hg : g.Inv) (hp : p.Plain) (h : t.Bounded p g q) :
    Ensures (ensurePrepared p g) t
      (fun e u => (u.Bounded p g q ∧ u.batch = t.batch ∧ u.phase = t.phase ∧ u.workspace = t.workspace) ∧
        Expression.Confined g (Expression.filteredBy g p.expr) e)
      (fun _ u => u = t) := by
  have hformed : p.expr.Formed (fun source => source ≠ .filter ∧ Expression.Ordered source) fun _ => True :=
    hp.mono fun source hs => ⟨hs.1, fun m hm => (hs.2 m hm).inv⟩
  unfold ensurePrepared
  refine ensures_subject ?_
  split
  · next e he => exact ensures_pure ⟨⟨h, rfl, rfl, rfl⟩, h.prepared e he⟩
  · refine (hformed.ensures_filtered_confined hg).bind ?_
    rintro e u ⟨rfl, he⟩
    refine ensures_update_then (ensures_pure ⟨⟨⟨h.filter, h.result, ?_⟩, rfl, rfl, rfl⟩, he⟩)
    rintro _ ⟨⟩
    exact he

/-- Filling the filter adds no mark but the sources of the records, in their rows. -/
theorem ensures_fillFilter_within {src : Nat} {batch : List (Record × Nat)} {f : Matrix}
    (hf : f.Within q) : Ensures (fillFilter src batch) f
      (fun _ t => t.Within fun row k => q row k ∨
        ∃ x ∈ batch, x.2 = row ∧ (x.1.node? src).map NodeId.toNat = some k)
      (fun _ t => t.Inv) := by
  -- the marks that are allowed, `q`, grow with every record
  induction batch generalizing f q with
  | nil =>
    refine Ensures.mono hf.leaves_wait (fun _ t ht => ht.mono fun _ _ h => .inl h) fun _ t ht => ht.inv
  | cons x batch ih =>
    obtain ⟨r, row⟩ := x
    unfold fillFilter
    split
    · exact ensures_throw hf.inv
    · next id hid =>
      have hset : Ensures (discard (Matrix.setElement (.bool true) row id.toNat)) f
          (fun _ t => t.Within fun i k => q i k ∨ i = row ∧ k = id.toNat) (fun _ t => t.Inv) :=
        ensures_discard ((hf.ensures_set _ row id.toNat).mono (fun _ _ h => h) fun _ _ h => h.inv)
      refine hset.bind fun _ t ht => (ih ht).mono (fun _ u hu => hu.mono fun i k hik => ?_) fun _ _ h => h
      rcases hik with (hq | ⟨rfl, rfl⟩) | ⟨x, hx, hrow, hk⟩
      · exact .inl hq
      · exact .inr ⟨_, List.mem_cons_self, rfl, by rw [hid]; rfl⟩
      · exact .inr ⟨x, List.mem_cons_of_mem _ hx, hrow, hk⟩

variable {w : Workspace}

/-- New matrices in order take the marks to be those of the new filter. -/
theorem Bounded.replace (h : t.Bounded p g q) {f m : Matrix} (hf : f.Inv) (hm : m.Inv) :
    Bounded p g (Stale { t with workspace := some ⟨f, m⟩ }) { t with workspace := some ⟨f, m⟩ } := by
  refine ⟨?_, ?_, h.prepared⟩
  · rintro w ⟨⟩
    exact hf.within.mono fun _ _ hmark => ⟨_, rfl, hmark⟩
  · rintro w ⟨⟩
    exact hm

/-- The filter is filled for the batch, on top of the marks that it has. -/
theorem Bounded.ensures_fillFilter (h : t.Bounded p g q) (hw : t.workspace = some w) :
    Ensures (onFilter (fillFilter p.src t.batch.toList.zipIdx)) t
      (fun _ u => ∃ f : Matrix, u = { t with workspace := some ⟨f, w.result⟩ } ∧ f.Within fun row k =>
        q row k ∨ (t.batch[row]?.bind (·.node? p.src)).map NodeId.toNat = some k)
      (fun _ u => u.Bounded p g u.Stale ∧ u.phase = t.phase) := by
  refine ensures_onFilter hw (ensures_fillFilter_within (h.filter w hw)) ?_ ?_
  · intro _ f hf
    refine ⟨f, rfl, hf.mono fun row k hk => ?_⟩
    rcases hk with hq | ⟨⟨r, _⟩, hx, rfl, hk⟩
    · exact .inl hq
    · rw [List.mem_zipIdx_iff_getElem?, Array.getElem?_toList] at hx
      exact .inr (by rw [hx]; exact hk)
  · intro _ f hf
    exact ⟨h.replace hf (h.result w hw), rfl⟩

/-- Evaluated under marks, the filtered expression leads on from each of them. -/
theorem Bounded.ensures_evaluateFiltered (h : t.Bounded p g q) {e : Expression}
    (he : Expression.Confined g (Expression.filteredBy g p.expr) e) {f m : Matrix}
    (hw : t.workspace = some ⟨f, m⟩) :
    Ensures (onResult (e.evalInto (Expression.filterContext g f))) t
      (fun _ u => ∃ r : Matrix, u = { t with workspace := some ⟨f, r⟩ } ∧ r.deferred = false ∧
        r.Within fun row col => ∃ k, q row k ∧ p.links g k col)
      (fun _ u => u.Bounded p g u.Stale ∧ u.phase = t.phase) := by
  have hf := h.filter _ hw
  refine ensures_onResult hw (he.ensures_evalInto hf.inv (h.result _ hw)) ?_ ?_
  · rintro _ r ⟨hr, hdef⟩
    refine ⟨r, rfl, hdef, hr.mono ?_⟩
    rintro row col ⟨k, ⟨f', hf', v, hv, -⟩, hlinks⟩
    obtain rfl : f = f' := Option.some.inj hf'
    exact ⟨k, hf.pair row k v (hf.inv.extract_eq_some_iff.1 hv), hlinks⟩
  · intro _ r hr
    exact ⟨h.replace hf.inv hr, rfl⟩

/-- **A batch is evaluated**, and its result is accounted for. When that fails the filter keeps its marks. -/
theorem Bounded.ensures_evaluateBatch (hg : g.Inv) (hp : p.Plain) (h : t.Bounded p g q) :
    Ensures (evaluateBatch p g) t (fun _ u => u.Accounted p g q ∧ u.phase = .emitting)
      (fun _ u => u.Bounded p g u.Stale ∧ u.phase = t.phase) := by
  unfold evaluateBatch
  -- a failure before the filter is filled leaves no mark that was not there
  refine h.ensures_ensureWorkspace.andThen (fun _ u hu => ?_) ?_
  · subst hu
    exact ⟨h.stale, rfl⟩
  rintro _ t₁ ⟨h₁, hb₁, hp₁, w, hw₁⟩
  refine (h₁.ensures_ensurePrepared hg hp).andThen (fun _ u hu => ?_) ?_
  · subst hu
    exact ⟨h₁.stale, hp₁⟩
  rintro e t₂ ⟨⟨h₂, -, hp₂, hw₂⟩, he⟩
  have hphase : t₂.phase = t.phase := hp₂.trans hp₁
  refine ensures_subject ((h₂.ensures_fillFilter (hw₂.trans hw₁)).andThen
    (fun _ u hu => ⟨hu.1, hu.2.trans hphase⟩) ?_)
  rintro _ _ ⟨f, rfl, hf⟩
  refine ensures_tally_then (ensures_subject ?_)
  have hfilled : Bounded p g (fun row k => q row k ∨
      (t₂.batch[row]?.bind (·.node? p.src)).map NodeId.toNat = some k)
      { t₂ with workspace := some ⟨f, w.result⟩ } := by
    refine ⟨?_, ?_, h₂.prepared⟩
    · rintro w' ⟨⟩
      exact hf
    · rintro w' ⟨⟩
      exact h₂.result w (hw₂.trans hw₁)
  -- a failure from here on leaves the sources of this batch in the filter
  refine (hfilled.ensures_evaluateFiltered he rfl).andThen (fun _ u hu => ⟨hu.1, hu.2.trans hphase⟩) ?_
  rintro _ _ ⟨m, rfl, hdef, hm⟩
  refine (ensures_clearFilter rfl).andThen (fun _ _ he => he.elim) ?_
  rintro _ _ rfl
  refine ensures_update ⟨⟨⟨?_, ?_, h₂.prepared⟩, ?_⟩, rfl⟩
  · rintro w' ⟨⟩
    exact hf.inv.within_cleared q
  · rintro w' ⟨⟩
    exact hm.inv
  · rintro - w' ⟨⟩
    refine ⟨hm.inv.laid.fits_start, fun u hu => ?_⟩
    have hcell := hm.inv.cell_of_mem_rest (Matrix.deferred_eq_false_iff.1 hdef).1 hu
    have hcol : u.col < maxDim := Nat.lt_of_lt_of_le (hm.inv.lt_of_cell hcell).2 hm.inv.ncols_le
    refine ⟨hcol, ?_⟩
    -- what led to the entry is a mark of an earlier batch or the source of its own record
    obtain ⟨k, hmark | hsource, hlinks⟩ := hm.pair u.row u.col _ hcell
    · exact .inr ⟨k, hmark, hlinks⟩
    · obtain ⟨src, hsrc, rfl⟩ := Option.map_eq_some_iff.1 hsource
      exact .inl ⟨src, hsrc, hlinks⟩

/-! ## Delivering the result -/

/-- Without an edge variable, an entry expands to the record of its row with the node of its column. -/
theorem expand_ok (hedge : p.edge = none) {batch : Array Record} {entry : Tuple} {r : Record}
    {owed : Option Owed} (h : expand p g batch entry = .ok (r, owed)) :
    ∃ origin src, batch[entry.row]? = some origin ∧ origin.node? p.src = some src ∧
      r = origin.set p.dst (.node (.ofNat entry.col)) := by
  unfold expand at h
  cases horigin : batch[entry.row]? with
  | none =>
    rw [horigin] at h
    cases h
  | some origin =>
    rw [horigin] at h
    cases hsrc : origin.node? p.src with
    | none =>
      simp only [hsrc] at h
      cases h
    | some src =>
      simp only [hsrc, hedge] at h
      cases h
      exact ⟨origin, src, rfl, hsrc, rfl⟩

/-- A record made of an entry that is accounted for has a link or a mark behind its destination. -/
theorem Led.explains (hslots : p.src ≠ p.dst) {batch : Array Record} {entry : Tuple} {origin : Record}
    {src : NodeId} (h : Led p g q batch entry.row entry.col) (hcol : entry.col < maxDim)
    (horigin : batch[entry.row]? = some origin) (hsrc : origin.node? p.src = some src) :
    p.Explains g q (origin.set p.dst (.node (.ofNat entry.col))) := by
  refine ⟨src, .ofNat entry.col, ?_, Record.node?_set_self _ _ _, ?_⟩
  · rw [Record.node?_set _ _ _ hslots, hsrc]
  · rw [NodeId.toNat_ofNat (Nat.le_of_lt hcol)]
    rcases h with ⟨src', hsrc', hlinks⟩ | ⟨k, hk, hlinks⟩
    · rw [horigin, Option.bind_some, hsrc, Option.some.injEq] at hsrc'
      exact .inl (hsrc' ▸ hlinks)
    · exact .inr ⟨entry.row, k, hk, hlinks⟩

/-- **The next record of the result** has a link or a mark behind it. -/
theorem Accounted.ensures_emit (hedge : p.edge = none) (hslots : p.src ≠ p.dst)
    (h : t.Accounted p g q) (hphase : t.phase = .emitting) : Ensures (emit p g) t
      (fun r u => u.Accounted p g q ∧ (∀ x, r = some x → p.Explains g q x) ∧ (r = none → u.phase = .filling))
      (fun _ u => u.Accounted p g q) := by
  intro n
  unfold emit
  cases hw : t.workspace with
  | none => exact h
  | some w =>
    obtain ⟨hfits, hled⟩ := h.left hphase w hw
    obtain ⟨hnext, hrest⟩ := (h.result w hw).laid.next_rest hfits
    cases hleft : w.result.rest t.cursor with
    | nil =>
      rw [hleft] at hnext
      obtain ⟨c, hc⟩ : ∃ c, t.cursor.next w.result = (none, c) := ⟨_, Prod.ext hnext rfl⟩
      simp only [hw, hc]
      have hbounded : Bounded p g q { t with cursor := c, phase := .filling } :=
        ⟨h.filter, h.result, h.prepared⟩
      rw [hw] at hbounded
      exact ⟨hbounded.accounted TraversalPhase.noConfusion, (fun x hx => by cases hx), fun _ => trivial⟩
    | cons u us =>
      rw [hleft] at hnext hrest hled
      obtain ⟨hfits', htail⟩ := hrest
      obtain ⟨c, hc⟩ : ∃ c, t.cursor.next w.result = (some u, c) := ⟨_, Prod.ext hnext rfl⟩
      rw [hc] at hfits' htail
      -- the cursor moves on even when the entry has no record to go with
      have hadvanced : ∀ owed, Accounted p g q { t with cursor := c, owed } := by
        refine fun owed => ⟨⟨h.filter, h.result, h.prepared⟩, fun _ v hv => ?_⟩
        obtain rfl : w = v := Option.some.inj (hw.symm.trans hv)
        refine ⟨hfits', fun x hx => hled x ?_⟩
        rw [htail] at hx
        exact List.mem_cons_of_mem u hx
      simp only [hw, hc]
      cases hexpand : expand p g t.batch u with
      | error e =>
        have hfailed := hadvanced t.owed
        rw [hw] at hfailed
        exact hfailed
      | ok x =>
        obtain ⟨r, owed⟩ := x
        obtain ⟨origin, src, horigin, hsrc, rfl⟩ := expand_ok hedge hexpand
        obtain ⟨hcol, hlinked⟩ := hled u List.mem_cons_self
        have hdelivered := hadvanced owed
        rw [hw] at hdelivered
        refine ⟨hdelivered, ?_, fun hnone => by cases hnone⟩
        rintro _ ⟨⟩
        exact hlinked.explains hslots hcol horigin hsrc

end Traversal

namespace Source

variable {σ : Type} {S : Source σ} {options : ExecOptions}

/-! ## Calls -/

/-- Reading a batch changes the batch alone, whatever the child does. -/
theorem fillBatch_bounded {s : Run (σ × Traversal) × CallCounts} (h : s.1.state.2.Bounded p g q)
    (hphase : s.1.state.2.phase = .filling) :
    match S.fillBatch p g s with
    | .ok _ t | .error _ t => t.1.state.2.Bounded p g q ∧ t.1.state.2.phase = .filling := by
  simp only [fillBatch]
  cases S.pull g (fun b _ => decide (b.size < s.1.state.2.capacity))
    (fun b r => if (r.node? p.src).isSome then b.push r else b) (Step.onto (fun st => (st.1, #[])) s) with
  | ok a t => exact ⟨⟨h.filter, h.result, h.prepared⟩, hphase⟩
  | error e t => exact ⟨⟨h.filter, h.result, h.prepared⟩, hphase⟩

/-- What a call leaves when it is answered, and when it fails: then the marks left in the filter are to be
reckoned with from now on. -/
def Reckoned (p : Pattern) (g : Graph) (q : Nat → Nat → Prop) :
    EStateM.Result GraphError (Run (σ × Traversal) × CallCounts) (Option Record) → Prop
  | .ok r u => u.1.state.2.Accounted p g q ∧ ∀ x, r = some x → p.Explains g q x
  | .error _ u => u.1.state.2.Accounted p g fun row k => q row k ∨ u.1.state.2.Stale row k

/-- **Reading and evaluating batches until one yields a record** gives one with a link or a mark behind it. -/
theorem nextBatch_reckoned (hg : g.Inv) (hp : p.Plain) (hedge : p.edge = none) (hslots : p.src ≠ p.dst)
    (s : Run (σ × Traversal) × CallCounts) (h : s.1.state.2.Bounded p g q)
    (hphase : s.1.state.2.phase = .filling) : Reckoned p g q (S.nextBatch p g s) := by
  have hnone : ∀ x : Record, none = some x → p.Explains g q x := fun x hx => by cases hx
  -- one batch: what reading it, evaluating it and delivering its first record leave
  have hread := fun (s : Run (σ × Traversal) × CallCounts) h hphase =>
    fillBatch_bounded (S := S) (p := p) (g := g) (q := q) (s := s) h hphase
  have hevaluate : ∀ t : Run (σ × Traversal), t.state.2.Bounded p g q → _ := fun t ht =>
    ensures_onTraversal (s := t) (ht.ensures_evaluateBatch hg hp)
  have hemit : ∀ t : Run (σ × Traversal), t.state.2.Accounted p g q → t.state.2.phase = .emitting → _ :=
    fun t ht hphase => ensures_onTraversal (s := t) (ht.ensures_emit hedge hslots hphase)
  -- the cases are the ways a round can end: reading fails, nothing was read, evaluating fails, the flag says
  -- to drain, delivering fails, there is a record, or there is none and the next round follows
  fun_induction S.nextBatch p g s with
  | case1 s e t hf =>
    -- the child fails: the matrices are as they were
    have ht := hread s h hphase
    rw [hf] at ht
    refine (ht.1.accounted ?_).mono fun _ _ hq => .inl hq
    rw [ht.2]
    exact TraversalPhase.noConfusion
  | case2 s t hf hb =>
    -- the child has nothing left, and neither has the traversal
    have ht := hread s h hphase
    rw [hf] at ht
    have hbounded : Traversal.Bounded p g q { t.1.state.2 with phase := .exhausted } :=
      ⟨ht.1.filter, ht.1.result, ht.1.prepared⟩
    exact ⟨hbounded.accounted TraversalPhase.noConfusion, hnone⟩
  | case3 s t hf hb e u hv =>
    -- the evaluation fails: this is where marks are left
    have ht := hread s h hphase
    rw [hf] at ht
    obtain ⟨hu, hphase'⟩ := (hevaluate t.1 ht.1).of_error hv
    refine (hu.accounted ?_).mono fun _ _ hq => .inr hq
    rw [hphase', ht.2]
    exact TraversalPhase.noConfusion
  | case4 s t hf hb u hv hdrain =>
    -- the flag is up: the result is kept and nothing is delivered of it
    have ht := hread s h hphase
    rw [hf] at ht
    obtain ⟨-, -, hu, -⟩ := (hevaluate t.1 ht.1).of_ok hv
    exact ⟨hu, hnone⟩
  | case5 s t hf hb u hv hdrain e v he =>
    -- a destination cannot be read out of the result
    have ht := hread s h hphase
    rw [hf] at ht
    obtain ⟨-, -, hu, huphase⟩ := (hevaluate t.1 ht.1).of_ok hv
    have hv := (hemit u.1 hu huphase).of_error he
    exact hv.mono fun _ _ hq => .inl hq
  | case6 s t hf hb u hv hdrain r v he =>
    -- the first entry makes a record, and has a link or a mark behind it
    have ht := hread s h hphase
    rw [hf] at ht
    obtain ⟨-, -, hu, huphase⟩ := (hevaluate t.1 ht.1).of_ok hv
    obtain ⟨-, -, hv, hr, -⟩ := (hemit u.1 hu huphase).of_ok he
    exact ⟨hv, hr⟩
  | case7 s t hf hb u hv hdrain v he ih =>
    -- a result without entries: on to the next batch, which is filled anew
    have ht := hread s h hphase
    rw [hf] at ht
    obtain ⟨-, -, hu, huphase⟩ := (hevaluate t.1 ht.1).of_ok hv
    obtain ⟨-, -, hv, -, hfilling⟩ := (hemit u.1 hu huphase).of_ok he
    exact ih hv.toBounded (hfilling rfl)

/-- **A call** answers a record with a link or a mark behind it, in whatever state the earlier ones left the
traversal. -/
theorem next_reckoned (hg : g.Inv) (hp : p.Plain) (hedge : p.edge = none) (hslots : p.src ≠ p.dst)
    {st : σ × Traversal} (h : st.2.Accounted p g q) (flag : Bool) (n : CallCounts) :
    Reckoned p g q ((S.traverse p).next g (⟨st, flag⟩, n)) := by
  have hnone : ∀ x : Record, none = some x → p.Explains g q x := fun x hx => by cases hx
  simp only [traverse, Traversal.popOwed_eq_none hedge]
  cases flag with
  | true => exact ⟨h, hnone⟩
  | false =>
    simp only [Bool.false_eq_true, reduceIte]
    cases hphase : st.2.phase with
    | uninitialized => exact h.mono fun _ _ hq => .inl hq
    | exhausted => exact ⟨h, hnone⟩
    | filling => exact nextBatch_reckoned hg hp hedge hslots _ h.toBounded hphase
    | emitting =>
      have hemit := ensures_onTraversal (s := ⟨st, false⟩) (h.ensures_emit hedge hslots hphase)
      cases he : onTraversal (Traversal.emit p g) (⟨st, false⟩, n) with
      | error e u => exact (hemit.of_error he).mono fun _ _ hq => .inl hq
      | ok r u =>
        obtain ⟨-, -, hu, hr, hfilling⟩ := hemit.of_ok he
        cases r with
        | some r => exact ⟨hu, hr⟩
        | none => exact nextBatch_reckoned hg hp hedge hslots _ hu.toBounded (hfilling rfl)

/-- A traversal that was made ready, and any calls on it since in one graph: nothing is asked of its child, of
the drain flag or of the calls, which may fail. The marks are those that failed calls have left in the filter
since the last reset. -/
inductive Called (S : Source σ) (p : Pattern) (g : Graph) (options : ExecOptions) :
    (Nat → Nat → Prop) → σ × Traversal → Prop
  | ready {n : CallCounts} {u : (σ × Traversal) × CallCounts}
    (h : (S.traverse p).init options ((S.traverse p).start, n) = .ok () u) :
    Called S p g options (fun _ _ => False) u.1
  | answered {marks : Nat → Nat → Prop} {st : σ × Traversal} {flag : Bool} {n : CallCounts}
    {r : Option Record} {u : Run (σ × Traversal) × CallCounts} (h : Called S p g options marks st)
    (hr : (S.traverse p).next g (⟨st, flag⟩, n) = .ok r u) : Called S p g options marks u.1.state
  | failed {marks : Nat → Nat → Prop} {st : σ × Traversal} {flag : Bool} {n : CallCounts} {e : GraphError}
    {u : Run (σ × Traversal) × CallCounts} (h : Called S p g options marks st)
    (hr : (S.traverse p).next g (⟨st, flag⟩, n) = .error e u) :
    Called S p g options (fun row k => marks row k ∨ u.1.state.2.Stale row k) u.1.state
  | reset {marks : Nat → Nat → Prop} {st : σ × Traversal} {n : CallCounts}
    {u : (σ × Traversal) × CallCounts} (h : Called S p g options marks st)
    (hr : (S.traverse p).reset (st, n) = .ok () u) : Called S p g options (fun _ _ => False) u.1

/-- A traversal that is made ready has no matrices yet. -/
theorem ensures_init_accounted (q : Nat → Nat → Prop) :
    Ensures ((S.traverse p).init options) (S.traverse p).start (fun _ st => st.2.Accounted p g q)
      (fun _ _ => True) := by
  have hchild : Ensures (Metered.within Prod.fst (fun c s => (c, s.2)) (S.init options))
      (S.start, ({} : Traversal)) (fun _ st => st.2 = {}) (fun _ _ => True) :=
    ensures_within (leaves_anything _ _) (fun _ _ _ => rfl) fun _ _ _ => trivial
  refine hchild.bind ?_
  rintro _ ⟨c, _⟩ rfl
  refine ensures_guard (fun _ => trivial) fun _ => ensures_update ?_
  refine Traversal.Bounded.accounted ⟨?_, ?_, ?_⟩ TraversalPhase.noConfusion
  · exact fun w hw => by cases hw
  · exact fun w hw => by cases hw
  · exact fun e he => by cases he

/-- A reset leaves no mark. -/
theorem ensures_reset_accounted {st : σ × Traversal} (h : st.2.Accounted p g q) (q' : Nat → Nat → Prop) :
    Ensures (S.traverse p).reset st (fun _ st => st.2.Accounted p g q') (fun _ _ => True) := by
  have hchild : Ensures (Metered.within Prod.fst (fun c s => (c, s.2)) S.reset) st
      (fun _ u => u.2 = st.2) (fun _ _ => True) :=
    ensures_within (leaves_anything _ _) (fun _ _ _ => rfl) fun _ _ _ => trivial
  refine hchild.bind ?_
  rintro _ ⟨c, _⟩ rfl
  refine ensures_update (Traversal.Bounded.accounted ⟨?_, ?_, ?_⟩ ?_)
  · intro w hw
    obtain ⟨w₀, hw₀, rfl⟩ := Option.map_eq_some_iff.1 hw
    exact (h.filter w₀ hw₀).inv.within_cleared q'
  · intro w hw
    obtain ⟨w₀, hw₀, rfl⟩ := Option.map_eq_some_iff.1 hw
    exact (h.result w₀ hw₀).cleared.1
  · exact fun e he => by cases he
  · dsimp only
    split <;> exact TraversalPhase.noConfusion

/-- Whatever calls were made, what is still to be delivered is accounted for by links and marks. -/
theorem Called.accounted (hg : g.Inv) (hp : p.Plain) (hedge : p.edge = none) (hslots : p.src ≠ p.dst)
    {marks : Nat → Nat → Prop} {st : σ × Traversal} (h : Called S p g options marks st) :
    st.2.Accounted p g marks := by
  induction h with
  | ready hr => exact (ensures_init_accounted _).of_ok hr
  | @answered marks st flag n r u _ hr ih =>
    have hnext : Reckoned p g marks ((S.traverse p).next g (⟨st, flag⟩, n)) :=
      next_reckoned hg hp hedge hslots ih flag n
    rw [hr] at hnext
    exact hnext.1
  | @failed marks st flag n e u _ hr ih =>
    have hnext : Reckoned p g marks ((S.traverse p).next g (⟨st, flag⟩, n)) :=
      next_reckoned hg hp hedge hslots ih flag n
    rw [hr] at hnext
    exact hnext
  | reset _ hr ih => exact (ensures_reset_accounted ih _).of_ok hr

/-- **A destination is linked to the source of its record, or to a node that a failed call has left marked.**
So where no failed call has left a mark in the filter, an error in one batch never makes a later one give a
wrong destination. -/
theorem Called.delivers_links {graphOptions : GraphOptions}
    (hlimit : graphOptions.matrix.maxDenseCells < UInt64.size) (hg : (Graph.new graphOptions).Runs g)
    (hp : p.Plain) (hedge : p.edge = none) (hslots : p.src ≠ p.dst) {marks : Nat → Nat → Prop}
    {st : σ × Traversal} (h : Called S p g options marks st) {flag : Bool} {n : CallCounts} {r : Record}
    {u : Run (σ × Traversal) × CallCounts}
    (hr : (S.traverse p).next g (⟨st, flag⟩, n) = .ok (some r) u) :
    ∃ s d : NodeId, r.node? p.src = some s ∧ r.node? p.dst = some d ∧
      (p.links g s.toNat d.toNat ∨ ∃ row k, marks row k ∧ p.links g k d.toNat) := by
  have hinv := (hg.inv (Graph.inv_new hlimit)).1
  have hnext : Reckoned p g marks ((S.traverse p).next g (⟨st, flag⟩, n)) :=
    next_reckoned hinv hp hedge hslots (h.accounted hinv hp hedge hslots) flag n
  rw [hr] at hnext
  exact hnext.2 r rfl

/-- A batch of fixed records. -/
theorem fillBatch_values (records rs : List Record) (t : Traversal) (n : CallCounts) :
    (values records).fillBatch p g (⟨(rs, t), false⟩, n) =
      let read := taken (fun b _ => decide (b.size < t.capacity)) p.gather #[] rs
      .ok () (⟨(read.2, { t with batch := read.1 }), false⟩, n) := by
  simp only [fillBatch, Step.onto]
  rw [pull_values]
  rfl

/-! ## A mark that is left behind -/

/-- A record of one node. -/
def oneNode (id : Nat) : Record := ⟨#[.node (.ofNat id)]⟩

/-- The successors in the first relation, two records to a batch. -/
def twoByTwo : Pattern := { expr := .relation (.ofNat 0), src := 0, dst := 1, batchSize := some 2 }

/-- A batch that names the first node, and then one that is not there. -/
def failedBatch (g : Graph) : Except GraphError Unit × Traversal × CallCounts :=
  outcome (Traversal.evaluateBatch twoByTwo g
    ({ phase := .filling, capacity := 2, batch := #[oneNode 0, oneNode 9] }, {}))

/-- The batch after it, from the second node. -/
def laterBatch (g : Graph) : Except GraphError Unit × Traversal × CallCounts :=
  outcome (Traversal.evaluateBatch twoByTwo g
    ({ (failedBatch g).2.1 with batch := #[oneNode 1] }, (failedBatch g).2.2))

/-- The record that is delivered then. -/
def laterRecord (g : Graph) : Except GraphError (Option Record) × Traversal × CallCounts :=
  outcome (Traversal.emit twoByTwo g (laterBatch g).2)

/-- Two edges lead from the first node to the second and on to the third. The first batch marks the first node
before it fails; the next starts from the second node, under that mark, and is led back to it. -/
theorem exists_stale_batch : ∃ g : Graph, (Graph.new { nodeBlock := 4 }).Runs g ∧
    g.live = [⟨.ofNat 0, .ofNat 0, .ofNat 1, .ofNat 0⟩, ⟨.ofNat 1, .ofNat 1, .ofNat 2, .ofNat 0⟩] ∧
    (failedBatch g).1 = .error (.invalidIndex .column 9 4) ∧ (failedBatch g).2.1.phase = .filling ∧
    (failedBatch g).2.1.capacity = 2 ∧ (laterBatch g).1.toOption = some () ∧
    (laterRecord g).1.toOption.join.map (fun r => (r.node? 0, r.node? 1)) =
      some (some (.ofNat 1), some (.ofNat 1)) := by
  have hadd := Graph.perform_addRelation_new { nodeBlock := 4 } (by decide) "knows" {}
  have h₀ := (Graph.Runs.start (g := .new { nodeBlock := 4 })).performed hadd (by decide)
  have h₁ := h₀.performed (r := .createNode [] []) (n := {}) rfl (Nat.lt_of_sub_eq_succ rfl)
  have h₂ := h₁.performed (r := .createNode [] []) (n := {}) rfl (Nat.lt_of_sub_eq_succ rfl)
  have h₃ := h₂.performed (r := .createNode [] []) (n := {}) rfl (Nat.lt_of_sub_eq_succ rfl)
  have h₄ := h₃.performed (r := .createEdge (.ofNat 0) (.ofNat 1) (.ofNat 0)) (n := {}) rfl
    (Nat.lt_of_sub_eq_succ rfl)
  have h₅ := h₄.performed (r := .createEdge (.ofNat 1) (.ofNat 2) (.ofNat 0)) (n := {}) rfl
    (Nat.lt_of_sub_eq_succ rfl)
  exact ⟨_, h₅, rfl, by decide +kernel⟩

theorem links_twoByTwo {g : Graph}
    (hlive : g.live = [⟨.ofNat 0, .ofNat 0, .ofNat 1, .ofNat 0⟩, ⟨.ofNat 1, .ofNat 1, .ofNat 2, .ofNat 0⟩])
    (s d : Nat) : twoByTwo.links g s d ↔ s = 0 ∧ d = 1 ∨ s = 1 ∧ d = 2 := by
  change (∃ e ∈ g.live, e.relation = .ofNat 0 ∧ e.src.toNat = s ∧ e.dst.toNat = d) ↔ _
  have hzero : (NodeId.ofNat 0).toNat = 0 := rfl
  have hone : (NodeId.ofNat 1).toNat = 1 := rfl
  have htwo : (NodeId.ofNat 2).toNat = 2 := rfl
  simp only [hlive, List.mem_cons, List.not_mem_nil, or_false, exists_eq_or_imp, exists_eq_left,
    hzero, hone, htwo, true_and, eq_comm]

/-- A failed call and the one after it, which gives the second node as its own successor. -/
theorem exists_stale_delivery :
    ∃ (g : Graph) (marks : Nat → Nat → Prop) (st : List Record × Traversal) (n : CallCounts) (r : Record)
      (u : Run (List Record × Traversal) × CallCounts),
      (Graph.new { nodeBlock := 4 }).Runs g ∧ twoByTwo.Plain ∧
      (∀ s d, twoByTwo.links g s d ↔ s = 0 ∧ d = 1 ∨ s = 1 ∧ d = 2) ∧
      Called (values [oneNode 0, oneNode 9, oneNode 1]) twoByTwo g {} marks st ∧
      ((values [oneNode 0, oneNode 9, oneNode 1]).traverse twoByTwo).next g (⟨st, false⟩, n) = .ok (some r) u ∧
      r.node? twoByTwo.src = some (.ofNat 1) ∧ r.node? twoByTwo.dst = some (.ofNat 1) := by
  obtain ⟨g, hg, hlive, hfailed, hphase, hcapacity, hlater, hrecord⟩ := exists_stale_batch
  obtain ⟨r, hr, hnodes⟩ := Option.map_eq_some_iff.1 hrecord
  obtain ⟨hsrc, hdst⟩ := Prod.mk.inj hnodes
  set S := values [oneNode 0, oneNode 9, oneNode 1]
  have hplain : twoByTwo.Plain := .operand ⟨Operand.noConfusion, fun m hm => by cases hm⟩
  have hinit : (S.traverse twoByTwo).init {} ((S.traverse twoByTwo).start, {}) =
      .ok () (([oneNode 0, oneNode 9, oneNode 1], { phase := .filling, capacity := 2 }), {}) := rfl
  have hfirst : (S.traverse twoByTwo).next g
      (⟨([oneNode 0, oneNode 9, oneNode 1], { phase := .filling, capacity := 2 }), false⟩, {}) =
      .error (.invalidIndex .column 9 4) (⟨([oneNode 1], (failedBatch g).2.1), false⟩, (failedBatch g).2.2) := by
    have hfill := fillBatch_values (p := twoByTwo) (g := g) [oneNode 0, oneNode 9, oneNode 1]
      [oneNode 0, oneNode 9, oneNode 1] { phase := .filling, capacity := 2 } {}
    have hread : taken (fun b _ => decide (b.size < 2)) twoByTwo.gather #[] [oneNode 0, oneNode 9, oneNode 1] =
        (#[oneNode 0, oneNode 9], [oneNode 1]) := rfl
    simp only [hread] at hfill
    rw [next_of_filled rfl rfl hfill (by simp), onTraversal, eq_error_of_outcome hfailed]
    rfl
  have hsecond : (S.traverse twoByTwo).next g (⟨([oneNode 1], (failedBatch g).2.1), false⟩, (failedBatch g).2.2) =
      .ok (some r) (⟨([], (laterRecord g).2.1), false⟩, (laterRecord g).2.2) := by
    have hfill := fillBatch_values (p := twoByTwo) (g := g) [oneNode 0, oneNode 9, oneNode 1]
      [oneNode 1] (failedBatch g).2.1 (failedBatch g).2.2
    have hread : taken (fun b _ => decide (b.size < (failedBatch g).2.1.capacity)) twoByTwo.gather #[]
        [oneNode 1] = (#[oneNode 1], []) := by
      rw [hcapacity]
      rfl
    simp only [hread] at hfill
    have heval : Traversal.evaluateBatch twoByTwo g
        ({ (failedBatch g).2.1 with batch := #[oneNode 1] }, (failedBatch g).2.2) = .ok () (laterBatch g).2 :=
      eq_ok_of_outcome hlater
    have hemit : Traversal.emit twoByTwo g (laterBatch g).2 = .ok (some r) (laterRecord g).2 :=
      eq_ok_of_outcome (Option.join_eq_some_iff.1 hr)
    rw [next_of_filled rfl hphase hfill (by simp), onTraversal, heval]
    simp only [emitOrRead, onTraversal, Bool.false_eq_true, reduceIte, hemit]
  exact ⟨g, _, _, (failedBatch g).2.2, r, _, hg, hplain, links_twoByTwo hlive, .failed (.ready hinit) hfirst,
    hsecond, hsrc, hdst⟩

/-- The wrong destination comes from a mark. -/
theorem delivers_links_under_mark :
    let row (id : Nat) : Record := ⟨#[.node (.ofNat id)]⟩
    let p : Pattern := { expr := .relation (.ofNat 0), src := 0, dst := 1, batchSize := some 2 }
    ∃ (g : Graph) (marks : Nat → Nat → Prop) (st : List Record × Traversal),
      Called (values [row 0, row 9, row 1]) p g {} marks st ∧ ∃ i k, marks i k ∧ p.links g k 1 := by
  intro row p
  obtain ⟨g, marks, st, n, r, u, hg, hplain, hlinks, hcalled, hr, hsrc, hdst⟩ := exists_stale_delivery
  have hlimit : ({} : MatrixOptions).maxDenseCells < UInt64.size := by decide
  have hslots : p.src ≠ p.dst := by decide
  obtain ⟨s, d, hs, hd, hlinked | ⟨i, k, hmark, hlinked⟩⟩ :=
    hcalled.delivers_links hlimit hg hplain rfl hslots hr
  · obtain rfl : NodeId.ofNat 1 = s := Option.some.inj (hsrc.symm.trans hs)
    obtain rfl : NodeId.ofNat 1 = d := Option.some.inj (hdst.symm.trans hd)
    have hnot := (hlinks 1 1).1 hlinked
    omega
  · obtain rfl : NodeId.ofNat 1 = d := Option.some.inj (hdst.symm.trans hd)
    exact ⟨g, marks, st, hcalled, i, k, hmark, hlinked⟩

/-- **After a failed call a destination may be wrong**: here the second node is given as its own successor. -/
theorem exists_wrong_destination :
    ∃ (S : Source (List Record)) (p : Pattern) (g : Graph) (marks : Nat → Nat → Prop)
      (st : List Record × Traversal) (n : CallCounts) (r : Record)
      (u : Run (List Record × Traversal) × CallCounts),
      (Graph.new { nodeBlock := 4 }).Runs g ∧ p.Plain ∧ p.edge = none ∧ p.src ≠ p.dst ∧
      Called S p g {} marks st ∧ (S.traverse p).next g (⟨st, false⟩, n) = .ok (some r) u ∧
      ∃ s d, r.node? p.src = some s ∧ r.node? p.dst = some d ∧ ¬p.links g s.toNat d.toNat := by
  obtain ⟨g, marks, st, n, r, u, hg, hplain, hlinks, hcalled, hr, hsrc, hdst⟩ := exists_stale_delivery
  refine ⟨_, _, g, marks, st, n, r, u, hg, hplain, rfl, by decide, hcalled, hr, _, _, hsrc, hdst, ?_⟩
  intro hlinked
  have hnot := (hlinks 1 1).1 hlinked
  omega

end Source

end Adjacency
