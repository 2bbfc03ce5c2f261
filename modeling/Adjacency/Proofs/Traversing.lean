import Adjacency.Proofs.Batch
import Adjacency.Proofs.Emission

/-!
# A traversal emits the expansion of its child's records

* `Pattern.Gathered`, `gathered`: a batch and the records left behind it, out of the records to come.
* `Source.Traversing`: where a traversal stands, and the records to come from it.
* `ensures_nextBatch`: batches are read until one yields a record.
* `Traversing.answers`: one call takes the head off the records to come.
* `Source.Serves.traverse_expansions`: **a traversal serves the expansions of its child's records, in order**, whatever
  the size of its batches.
-/

namespace Adjacency

open Metered

variable {p : Pattern} {g : Graph} {capacity : Nat} {rs : List Record}

namespace Pattern

/-- Every record that has a source node has one of the graph's dimension. -/
def Bounds (p : Pattern) (g : Graph) (rs : List Record) : Prop :=
  ∀ r ∈ rs, ∀ src, r.node? p.src = some src → src.toNat < g.dim

/-! ## Reading a batch -/

/-- A batch begun with `b` takes further records of `rs` in, drops those without a source, and leaves
`left`. -/
structure Gathered (p : Pattern) (g : Graph) (capacity : Nat) (b : Array Record) (rs : List Record)
    (batch : Array Record) (left : List Record) : Prop where
  expansion : batch.toList.flatMap (p.expansion g) ++ left.flatMap (p.expansion g) =
    b.toList.flatMap (p.expansion g) ++ rs.flatMap (p.expansion g)
  size_le : b.size ≤ capacity → batch.size ≤ capacity
  mem : ∀ r ∈ batch, r ∈ b ∨ r ∈ rs ∧ (r.node? p.src).isSome
  left_mem : ∀ r ∈ left, r ∈ rs
  /-- A batch that is not full has taken everything in. -/
  left_nil : batch.size < capacity → left = []

theorem Gathered.bounds {b batch : Array Record} {left : List Record}
    (h : p.Gathered g capacity b rs batch left) (hrs : p.Bounds g rs) : p.Bounds g left :=
  fun r hr => hrs r (h.left_mem r hr)

/-- A record joins the batch if it has a source. -/
def gather (p : Pattern) (b : Array Record) (r : Record) : Array Record :=
  if (r.node? p.src).isSome then b.push r else b

theorem flatMap_gather (b : Array Record) (r : Record) :
    (p.gather b r).toList.flatMap (p.expansion g) =
      b.toList.flatMap (p.expansion g) ++ p.expansion g r := by
  unfold gather
  split
  · simp
  · next hnone =>
    have : r.node? p.src = none := by simpa using hnone
    simp [expansion, this]

theorem gathered (b : Array Record) :
    p.Gathered g capacity b rs
      (Source.taken (fun b _ => decide (b.size < capacity)) p.gather b rs).1
      (Source.taken (fun b _ => decide (b.size < capacity)) p.gather b rs).2 := by
  induction rs generalizing b with
  | nil => exact ⟨rfl, id, fun r hr => .inl hr, (fun r hr => nomatch hr), fun _ => rfl⟩
  | cons r rs ih =>
    unfold Source.taken
    split
    · next hroom =>
      have hroom : b.size < capacity := of_decide_eq_true hroom
      have h := ih (p.gather b r)
      refine ⟨?_, fun _ => h.size_le ?_, fun x hx => ?_, fun x hx => .tail r (h.left_mem x hx), h.left_nil⟩
      · rw [h.expansion, flatMap_gather, List.flatMap_cons, List.append_assoc]
      · unfold gather
        split
        · rw [Array.size_push]
          exact hroom
        · exact Nat.le_of_lt hroom
      · rcases h.mem x hx with hb | ⟨hin, hsome⟩
        · unfold gather at hb
          split at hb
          · next hr =>
            rcases Array.mem_push.1 hb with hb | rfl
            · exact .inl hb
            · exact .inr ⟨.head rs, hr⟩
          · exact .inl hb
        · exact .inr ⟨.tail r hin, hsome⟩
    · next hfull =>
      have hfull : ¬b.size < capacity := fun hlt => hfull (decide_eq_true hlt)
      exact ⟨rfl, id, fun x hx => .inl hx, fun x hx => hx, fun hlt => absurd hlt hfull⟩

end Pattern

namespace Source

variable {σ : Type} {S : Source σ} {F : GraphError → Prop} {options : ExecOptions}

/-- Where a traversal stands, and the records to come from it. -/
inductive Traversing (S : Source σ) (g : Graph) (F : GraphError → Prop) (p : Pattern) (capacity : Nat) :
    List Record → σ × Traversal → Prop
  /-- A batch is due, out of what the child has still to emit. -/
  | filling {c : σ} {t : Traversal} {rs : List Record} (phase : t.phase = .filling)
    (fit : t.Fit p g capacity) (child : S.Emits g F rs c) (bounds : p.Bounds g rs) :
    Traversing S g F p capacity (rs.flatMap (p.expansion g)) (c, t)
  /-- A result is being delivered; further batches come behind it. -/
  | emitting {c : σ} {t : Traversal} {out rs : List Record} (holds : t.Holds p g capacity out)
    (child : S.Emits g F rs c) (bounds : p.Bounds g rs) :
    Traversing S g F p capacity (out ++ rs.flatMap (p.expansion g)) (c, t)
  | exhausted {c : σ} {t : Traversal} (phase : t.phase = .exhausted) :
    Traversing S g F p capacity [] (c, t)

/-- **A batch is read**, and the child has the rest to emit. -/
theorem ensures_fillBatch {s : Run (σ × Traversal)} (hflag : s.draining = false)
    (hfit : s.state.2.Fit p g capacity) (hchild : S.Emits g F rs s.state.1) :
    Ensures (S.fillBatch p g) s
      (fun _ u => u.draining = false ∧ u.state.2.Fit p g capacity ∧
        ∃ left, p.Gathered g capacity #[] rs u.state.2.batch left ∧ S.Emits g F left u.state.1)
      (fun e _ => F e) := by
  obtain ⟨⟨c, t⟩, d⟩ := s
  obtain rfl : d = false := hflag
  obtain rfl : t.capacity = capacity := hfit.capacity_eq
  intro n
  have hp := hchild.ensures_pull (fun b _ => decide (b.size < t.capacity))
    (fun b r => if (r.node? p.src).isSome then b.push r else b) #[] n
  simp only [fillBatch, Step.onto]
  cases hq : S.pull g (fun b _ => decide (b.size < t.capacity))
      (fun b r => if (r.node? p.src).isSome then b.push r else b) (⟨(c, #[]), false⟩, n) with
  | error e u => rw [hq] at hp; exact hp
  | ok _ u =>
    rw [hq] at hp
    obtain ⟨hd, hb, hleft⟩ := hp
    refine ⟨hd, ⟨rfl, hfit.workspace, hfit.prepared⟩, _, ?_, hleft⟩
    rw [hb]
    exact Pattern.gathered #[]

/-- A batch that was read is evaluated, and its expansion is to come. -/
theorem ensures_evaluateRead (hp : p.Sound g) (hmax : capacity ≤ maxDim) {s : Run (σ × Traversal)}
    {left : List Record} (hfit : s.state.2.Fit p g capacity) (hbounds : p.Bounds g rs)
    (hgathered : p.Gathered g capacity #[] rs s.state.2.batch left) :
    Ensures (onTraversal (Traversal.evaluateBatch p g)) s
      (fun _ u => u.draining = s.draining ∧ u.state.1 = s.state.1 ∧
        u.state.2.Holds p g capacity (s.state.2.batch.toList.flatMap (p.expansion g)))
      (fun e _ => e.OfMemory) := by
  have hbinds : ∀ r ∈ s.state.2.batch, p.Binds g r := by
    intro r hr
    obtain ⟨hin, hsome⟩ := (hgathered.mem r hr).resolve_left (Array.not_mem_empty r)
    obtain ⟨src, hsrc⟩ := Option.isSome_iff_exists.1 hsome
    exact ⟨src, hsrc, hbounds r hin src hsrc⟩
  have hsize := hgathered.size_le (Nat.zero_le capacity)
  refine (ensures_onTraversal (hfit.ensures_evaluateBatch hp hmax hsize hbinds)).mono ?_ fun _ _ he => he
  rintro _ u ⟨hd, hc, hfit', hbatch, hphase, hcursor, w, hw, hdef, hcell⟩
  rw [← hbatch] at hbinds hcell ⊢
  exact ⟨hd, hc, Traversal.holds_of_evaluated hfit' hphase hcursor hbinds hw hdef hcell⟩

/-- A result that is being delivered gives the next record to come, or is used up. -/
theorem ensures_emitHeld (hedge : p.edge = none) {s : Run (σ × Traversal)} {out left : List Record}
    (hflag : s.draining = false) (hholds : s.state.2.Holds p g capacity out)
    (hchild : S.Emits g F left s.state.1) (hbounds : p.Bounds g left) :
    Ensures (onTraversal (Traversal.emit p g)) s
      (fun r u => u.draining = false ∧
        (r = none → out = [] ∧ u.state.2.Fit p g capacity ∧ u.state.2.phase = .filling ∧
          S.Emits g F left u.state.1) ∧
        (r ≠ none → r = (out ++ left.flatMap (p.expansion g)).head? ∧
          Traversing S g F p capacity (out ++ left.flatMap (p.expansion g)).tail u.state))
      (fun _ _ => False) := by
  refine (ensures_onTraversal (hholds.ensures_emit hedge)).mono ?_ fun _ _ he => he
  rintro r u ⟨hd, hc, rfl, hdue, hnext⟩
  have hchild : S.Emits g F left u.state.1 := by
    rw [hc]
    exact hchild
  refine ⟨hd.trans hflag, fun hnone => ?_, fun hsome => ?_⟩
  · have hnil := List.head?_eq_none_iff.1 hnone
    exact ⟨hnil, (hdue hnil).1, (hdue hnil).2, hchild⟩
  · have hne : out ≠ [] := fun hnil => hsome (by rw [hnil]; rfl)
    rw [List.head?_append_of_ne_nil _ hne, List.tail_append_of_ne_nil hne]
    exact ⟨rfl, .emitting (hnext hne) hchild hbounds⟩

/-- A batch that was read and evaluated is ready to be delivered, and the child has the rest to emit. -/
theorem holds_of_read (hp : p.Sound g) (hmax : capacity ≤ maxDim)
    {s t u : Run (σ × Traversal) × CallCounts} (hflag : s.1.draining = false)
    (hfit : s.1.state.2.Fit p g capacity) (hchild : S.Emits g F rs s.1.state.1) (hbounds : p.Bounds g rs)
    (hf : S.fillBatch p g s = .ok () t)
    (hv : onTraversal (Traversal.evaluateBatch p g) t = .ok () u) :
    u.1.draining = false ∧ ∃ out left, rs.flatMap (p.expansion g) = out ++ left.flatMap (p.expansion g) ∧
      u.1.state.2.Holds p g capacity out ∧ S.Emits g F left u.1.state.1 ∧ p.Bounds g left := by
  obtain ⟨hd, hfit, left, hgathered, hleft⟩ := (ensures_fillBatch hflag hfit hchild).of_ok hf
  obtain ⟨hd', hc, hholds⟩ := (ensures_evaluateRead hp hmax hfit hbounds hgathered).of_ok hv
  exact ⟨hd'.trans hd, _, left, hgathered.expansion.symm, hholds, hc ▸ hleft, hgathered.bounds hbounds⟩

/-- What reading and evaluating batches ends in, by recursion on what the child has left. -/
theorem nextBatch_ends (hp : p.Sound g) (hedge : p.edge = none) (hpos : 0 < capacity)
    (hmax : capacity ≤ maxDim) {s : Run (σ × Traversal) × CallCounts} (hflag : s.1.draining = false)
    (hfit : s.1.state.2.Fit p g capacity) (hchild : S.Emits g F rs s.1.state.1)
    (hbounds : p.Bounds g rs) :
    match S.nextBatch p g s with
    | .ok r u => r = (rs.flatMap (p.expansion g)).head? ∧ u.1.draining = false ∧
        Traversing S g F p capacity (rs.flatMap (p.expansion g)).tail u.1.state
    | .error e _ => F e ∨ e.OfMemory := by
  fun_induction S.nextBatch p g s generalizing rs with
  | case1 s e t hf => exact .inl ((ensures_fillBatch hflag hfit hchild).of_error hf)
  | case2 s t hf hb =>
    obtain ⟨hd, -, left, hgathered, -⟩ := (ensures_fillBatch hflag hfit hchild).of_ok hf
    rw [hb] at hgathered
    -- nothing was gathered, so that no record of the child has a source
    obtain rfl : left = [] := hgathered.left_nil hpos
    have hnil : rs.flatMap (p.expansion g) = [] := hgathered.expansion.symm
    rw [hnil]
    exact ⟨rfl, hd, .exhausted rfl⟩
  | case3 s t hf hb e u hv =>
    -- an evaluation fails only for want of memory
    obtain ⟨-, hfit, left, hgathered, -⟩ := (ensures_fillBatch hflag hfit hchild).of_ok hf
    exact .inr ((ensures_evaluateRead hp hmax hfit hbounds hgathered).of_error hv)
  | case4 s t hf hb u hv hdrain =>
    -- the flag was down before the evaluation and is still
    rw [(holds_of_read hp hmax hflag hfit hchild hbounds hf hv).1] at hdrain
    cases hdrain
  | case5 s t hf hb u hv hdrain e v he =>
    -- an entry of the result always makes a record
    obtain ⟨hd, out, left, -, hholds, hleft, hbounds⟩ :=
      holds_of_read hp hmax hflag hfit hchild hbounds hf hv
    exact ((ensures_emitHeld hedge hd hholds hleft hbounds).of_error he).elim
  | case6 s t hf hb u hv hdrain r v he =>
    -- the batch yields its first record
    obtain ⟨hd, out, left, hsplit, hholds, hleft, hbounds⟩ :=
      holds_of_read hp hmax hflag hfit hchild hbounds hf hv
    obtain ⟨hd', -, hsome⟩ := (ensures_emitHeld hedge hd hholds hleft hbounds).of_ok he
    obtain ⟨hr, hnext⟩ := hsome (Option.some_ne_none r)
    rw [hsplit]
    exact ⟨hr, hd', hnext⟩
  | case7 s t hf hb u hv hdrain v he ih =>
    obtain ⟨hd, out, left, hsplit, hholds, hleft, hbounds⟩ :=
      holds_of_read hp hmax hflag hfit hchild hbounds hf hv
    obtain ⟨hd', hnone, -⟩ := (ensures_emitHeld hedge hd hholds hleft hbounds).of_ok he
    obtain ⟨hnil, hfit', -, hchild'⟩ := hnone rfl
    -- the batch has no records to come, so that they are those of the rest
    rw [hsplit, hnil]
    exact ih hd' hfit' hchild' hbounds

/-- **Batches are read and evaluated until one yields a record**, or until the child has no more. -/
theorem ensures_nextBatch (hp : p.Sound g) (hedge : p.edge = none) (hpos : 0 < capacity)
    (hmax : capacity ≤ maxDim) {s : Run (σ × Traversal)} (hflag : s.draining = false)
    (hfit : s.state.2.Fit p g capacity) (hchild : S.Emits g F rs s.state.1) (hbounds : p.Bounds g rs) :
    Ensures (S.nextBatch p g) s
      (fun r u => r = (rs.flatMap (p.expansion g)).head? ∧ u.draining = false ∧
        Traversing S g F p capacity (rs.flatMap (p.expansion g)).tail u.state)
      (fun e _ => F e ∨ e.OfMemory) := by
  intro n
  have hends := nextBatch_ends (s := (s, n)) hp hedge hpos hmax hflag hfit hchild hbounds
  cases hr : S.nextBatch p g (s, n) with
  | ok r u => rw [hr] at hends; exact hends
  | error e u => rw [hr] at hends; exact hends

/-- The next record of a result, or of the next batch when the result is used up. -/
def emitOrRead (S : Source σ) (p : Pattern) (g : Graph) : Step (σ × Traversal) (Option Record) := fun s =>
  match onTraversal (Traversal.emit p g) s with
  | .error e t => .error e t
  | .ok (some r) t => .ok (some r) t
  | .ok none t => S.nextBatch p g t

/-- A call with nothing evaluated reads a batch and goes on with its result. -/
theorem next_of_filled (hedge : p.edge = none) {st : σ × Traversal} {n : CallCounts}
    {t : Run (σ × Traversal) × CallCounts} (hphase : st.2.phase = .filling)
    (hfill : S.fillBatch p g (⟨st, false⟩, n) = .ok () t) (hsome : t.1.state.2.batch ≠ #[]) :
    (S.traverse p).next g (⟨st, false⟩, n) =
      match onTraversal (Traversal.evaluateBatch p g) t with
      | .error e u => .error e u
      | .ok () u => if u.1.draining then .ok none u else S.emitOrRead p g u := by
  simp only [traverse, Bool.false_eq_true, reduceIte, Traversal.popOwed_eq_none hedge, hphase]
  rw [nextBatch_eq, hfill]
  simp only [if_neg hsome]
  rfl

/-- **One call takes the head off the records to come.** -/
theorem Traversing.answers (hp : p.Sound g) (hedge : p.edge = none) (hpos : 0 < capacity)
    (hmax : capacity ≤ maxDim) {out : List Record} {st : σ × Traversal}
    (h : Traversing S g F p capacity out st) :
    (S.traverse p).Answers g (fun e => F e ∨ e.OfMemory) out.head?
      (Traversing S g F p capacity out.tail) st := by
  intro n
  simp only [traverse, Bool.false_eq_true, reduceIte, Traversal.popOwed_eq_none hedge]
  cases h with
  | @filling c t rs hphase hfit hchild hbounds =>
    simp only [hphase]
    exact ensures_nextBatch hp hedge hpos hmax rfl hfit hchild hbounds n
  | @exhausted c t hphase =>
    simp only [hphase]
    exact ⟨rfl, trivial, .exhausted hphase⟩
  | @emitting c t out rs hholds hchild hbounds =>
    simp only [hholds.phase]
    have hemit := ensures_emitHeld (s := ⟨(c, t), false⟩) hedge rfl hholds hchild hbounds n
    cases hr : onTraversal (Traversal.emit p g) (⟨(c, t), false⟩, n) with
    | error e u =>
      rw [hr] at hemit
      exact hemit.elim
    | ok r u =>
      rw [hr] at hemit
      obtain ⟨hd, hnone, hsome⟩ := hemit
      cases r with
      | some r =>
        obtain ⟨hr, hnext⟩ := hsome (Option.some_ne_none r)
        exact ⟨hr, hd, hnext⟩
      | none =>
        obtain ⟨rfl, hfit, -, hchild⟩ := hnone rfl
        exact ensures_nextBatch hp hedge hpos hmax hd hfit hchild hbounds u.2

/-- A traversal made ready serves the expansions of its child's records. -/
theorem serves_traverse (hp : p.Sound g) (hedge : p.edge = none)
    (hpos : 0 < p.batchSize.getD options.batchSize) (hmax : p.batchSize.getD options.batchSize ≤ maxDim)
    (h : S.Serves options g F rs) (hbounds : p.Bounds g rs) :
    (S.traverse p).Serves options g (fun e => F e ∨ e.OfMemory) (rs.flatMap (p.expansion g)) := by
  have hinit : Ensures (Metered.within Prod.fst (fun c s => (c, s.2)) (S.init options))
      (S.start, ({} : Traversal)) (fun _ st => S.Emits g F rs st.1 ∧ st.2 = {})
      (fun e _ => F e ∨ e.OfMemory) :=
    ensures_within h (fun _ c hc => ⟨hc, rfl⟩) fun _ _ he => .inl he
  refine hinit.bind ?_
  rintro _ ⟨c, _⟩ ⟨hc, rfl⟩
  refine ensures_guard (fun hzero => absurd hzero (Nat.ne_of_gt hpos)) fun _ => ensures_update ?_
  refine emits_of_step (Traversing S g F p _)
    (fun out st hst => hst.answers hp hedge hpos hmax) ?_
  exact .filling rfl ⟨rfl, (fun w hw => by cases hw), fun e he => by cases he⟩ hc hbounds

/-- **A traversal emits, for each record in order, its copies for the nodes that its source is linked to,
in ascending order**; it fails only as its child does or for want of memory. The graph is one that calls
lead to, whatever they have left deferred. What is emitted does not depend on the size of the batches. -/
theorem Serves.traverse_expansions {graphOptions : GraphOptions}
    (hlimit : graphOptions.matrix.maxDenseCells < UInt64.size) (hg : (Graph.new graphOptions).Runs g)
    (hexpr : p.expr.Formed (Operand.Square g) (· = 1)) (hedge : p.edge = none)
    (hpos : 1 ≤ p.batchSize.getD options.batchSize) (hmax : p.batchSize.getD options.batchSize ≤ maxDim)
    (h : S.Serves options g F rs) (hbounds : p.Bounds g rs) :
    (S.traverse p).Serves options g (fun e => F e ∨ e.OfMemory) (rs.flatMap (p.expansion g)) :=
  serves_traverse ⟨(hg.inv (Graph.inv_new hlimit)).1.mirrored, hexpr⟩ hedge hpos hmax h hbounds

/-- Two records with the same source, one without, and one whose source is linked to nothing, in batches
of one; the entry that links is still queued. -/
theorem serves_traverse_queued : ∃ m : Matrix, m.deferred = true ∧
    let row (id : Nat) : Record := ⟨#[.node (.ofNat id)]⟩
    ((values [row 1, ⟨#[]⟩, row 1, row 0]).traverse
      { expr := .matrix m, src := 0, dst := 1, batchSize := some 1 }).Serves {}
        (Graph.new { nodeBlock := 4 }) (fun e => False ∨ e.OfMemory)
        [⟨#[.node (.ofNat 1), .node (.ofNat 2)]⟩, ⟨#[.node (.ofNat 1), .node (.ofNat 2)]⟩] := by
  have hlimit : ({} : MatrixOptions).maxDenseCells < UInt64.size := by decide
  have hnew : Matrix.withOptions .bool 4 4 {} = .ok (Matrix.blank .bool 4 4 true {}) := rfl
  set m : Matrix := { Matrix.blank .bool 4 4 true {} with
    store := .hypersparse #[] #[0] #[] #[.bool true]
    iso := true
    pending := some { tuples := #[⟨2, 1, none⟩], type := .bool, op := .second } } with hdef
  have hm : m.Reachable := (Matrix.Reachable.created hlimit hnew).requested
    (r := .set (.bool true) 1 2) (n := {}) (s := (m, {})) trivial rfl
  have hread : ∀ row < 2, ∀ col < 4, m.extract row col =
      .ok (if row = 1 ∧ col = 2 then some (.bool true) else none) := by
    clear_value m
    subst hdef
    decide +kernel
  refine ⟨m, rfl, ?_⟩
  intro row
  set g := Graph.new { nodeBlock := 4 }
  set p : Pattern := { expr := .matrix m, src := 0, dst := 1, batchSize := some 1 }
  have hsquare : Operand.Square g (.matrix m) := ⟨trivial, ⟨hm, fun _ => ScalarType.noConfusion⟩, rfl⟩
  have hbounds : p.Bounds g [row 1, ⟨#[]⟩, row 1, row 0] := by
    intro r hr src hsrc
    simp only [List.mem_cons, List.not_mem_nil, or_false] at hr
    rcases hr with rfl | rfl | rfl | rfl
    · cases hsrc; decide
    · cases hsrc
    · cases hsrc; decide
    · cases hsrc; decide
  have hserves : ((values [row 1, ⟨#[]⟩, row 1, row 0]).traverse p).Serves {} g
      (fun e => False ∨ e.OfMemory) _ :=
    (serves_values _).traverse_expansions hlimit .start (.operand hsquare) rfl (by decide) (by decide)
      hbounds
  have hlinks : ∀ src < 2, ∀ d < 4, p.links g src d ↔ src = 1 ∧ d = 2 := by
    intro src hsrc d hd
    change m.Shows .presence src d ↔ _
    unfold Matrix.Shows
    rw [hread src hsrc d hd]
    constructor
    · rintro ⟨v, hv, -⟩
      by_contra hne
      rw [if_neg hne] at hv
      cases hv
    · intro heq
      rw [if_pos heq]
      exact ⟨_, rfl, trivial⟩
  have hdestinations : ∀ src : NodeId, src.toNat < 2 →
      p.destinations g src = (List.range 4).filter fun d => decide (src.toNat = 1 ∧ d = 2) :=
    fun src hsrc => List.filter_congr fun d hd => by
      simp only [hlinks src.toNat hsrc d (List.mem_range.1 hd)]
  have hone : p.expansion g (row 1) = [⟨#[.node (.ofNat 1), .node (.ofNat 2)]⟩] := by
    change (p.destinations g (.ofNat 1)).map _ = _
    rw [hdestinations _ (by decide)]
    rfl
  have hzero : p.expansion g (row 0) = [] := by
    change (p.destinations g (.ofNat 0)).map _ = _
    rw [hdestinations _ (by decide)]
    rfl
  have hnone : p.expansion g ⟨#[]⟩ = [] := rfl
  simpa only [List.flatMap_cons, List.flatMap_nil, hone, hzero, hnone, List.nil_append,
    List.append_nil, List.cons_append] using hserves

end Source

end Adjacency
