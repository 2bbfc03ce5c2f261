import Adjacency.Proofs.Frame
import Adjacency.Proofs.Incident
import Adjacency.Proofs.Traversing

/-!
# Binding edges

A traversal that binds edges goes through the same batches as without its edge variable. Each record that
it would deliver then comes once for every edge that connects the record's two nodes.

* `Source.Bound`: what a call answers with the edge variable, given what it answers without.
* `Owing.answers`: the edges owed come before further records.
* `Source.Serves.traverse_edges`: **a traversal along a relation serves one record per edge at the source of
  each record**, in order.
-/

namespace Adjacency

open Metered

variable {p : Pattern} {b : EdgeBinding} {g : Graph}

/-- The pattern without its edge variable. -/
def Pattern.plain (p : Pattern) : Pattern := { p with edge := none }

/-- The edges that connect the two nodes of a record. -/
def Pattern.connecting (p : Pattern) (b : EdgeBinding) (g : Graph) (r : Record) : List Edge :=
  match r.node? p.src, r.node? p.dst with
  | some s, some d => b.edges g s d
  | _, _ => []

/-- A record, once with each edge. -/
def EdgeBinding.withEach (b : EdgeBinding) (r : Record) (es : List Edge) : List Record :=
  es.map fun e => r.set b.slot (.edge e)

/-- What is owed when a record has still to come with the edges. -/
def Owed.over (r : Record) (es : List Edge) : Option Owed := if es.isEmpty then none else some ⟨r, es⟩

/-- The record of an entry connects the source and the destination. -/
theorem Pattern.connecting_record (hslots : p.src ≠ p.dst) {origin : Record} {s : NodeId}
    (hs : origin.node? p.src = some s) (d : NodeId) :
    p.connecting b g (origin.set p.dst (.node d)) = b.edges g s d := by
  unfold connecting
  rw [Record.node?_set _ _ _ hslots, hs, Record.node?_set_self]

namespace Source

variable {σ : Type} {S : Source σ} {F : GraphError → Prop} {options : ExecOptions}

/-- What a call answers with an edge variable, given what it answers without: a record comes with the first
of its edges, and the others are owed. Nothing is said of a record without edges. -/
def Bound (p : Pattern) (b : EdgeBinding) (g : Graph) :
    EStateM.Result GraphError (Run (σ × Traversal) × CallCounts) (Option Record) →
    EStateM.Result GraphError (Run (σ × Traversal) × CallCounts) (Option Record) → Prop
  | .ok (some r) t, y => t.1.state.2.owed = none ∧ ∀ e es, p.connecting b g r = e :: es →
      y = .ok (some (r.set b.slot (.edge e)))
        (Step.onto (fun st => (st.1, { st.2 with owed := Owed.over r es })) t)
  | .ok none t, y => t.1.state.2.owed = none ∧ y = .ok none t
  | .error e t, y => y = .error e t

/-! ## One call with and without the edge variable -/

theorem bound_emit (hedge : p.edge = some b) (hslots : p.src ≠ p.dst)
    {s : Run (σ × Traversal) × CallCounts} (howed : s.1.state.2.owed = none) :
    Bound p b g (onTraversal (Traversal.emit p.plain g) s) (onTraversal (Traversal.emit p g) s) := by
  simp only [onTraversal, Traversal.emit]
  cases s.1.state.2.workspace with
  | none => rfl
  | some w =>
    dsimp only
    rcases s.1.state.2.cursor.next w.result with ⟨entry, c⟩
    cases entry with
    | none => exact ⟨howed, rfl⟩
    | some entry =>
      dsimp only
      cases horigin : s.1.state.2.batch[entry.row]? with
      | none => simp only [Traversal.expand, horigin, Bound]
      | some origin =>
        cases hs : origin.node? p.src with
        | none => simp only [Traversal.expand, horigin, Pattern.plain, hs, Bound]
        | some src =>
          simp only [Traversal.expand, horigin, Pattern.plain, hs, hedge, Bound, true_and]
          intro e es hes
          rw [Pattern.connecting_record hslots hs] at hes
          rw [hes]
          cases es with
          | nil => rfl
          | cons e' es => rfl

theorem fillBatch_owed {s t : Run (σ × Traversal) × CallCounts} (h : S.fillBatch p g s = .ok () t) :
    t.1.state.2.owed = s.1.state.2.owed := by
  unfold fillBatch at h
  split at h
  · cases h
    rfl
  · cases h

theorem evaluateBatch_owed {s t : Run (σ × Traversal) × CallCounts}
    (h : onTraversal (Traversal.evaluateBatch p g) s = .ok () t) :
    t.1.state.2.owed = s.1.state.2.owed :=
  ((ensures_onTraversal (Traversal.leaves_evaluateBatch p g s.1.state.2)).of_ok h).2.2.owed

theorem bound_nextBatch (hedge : p.edge = some b) (hslots : p.src ≠ p.dst)
    {s : Run (σ × Traversal) × CallCounts} (howed : s.1.state.2.owed = none) :
    Bound p b g (S.nextBatch p.plain g s) (S.nextBatch p g s) := by
  fun_induction S.nextBatch p.plain g s with
  | case1 s e t hf =>
    -- the batch cannot be filled
    have hf : S.fillBatch p g s = .error e t := hf
    rw [nextBatch_eq, hf]
    rfl
  | case2 s t hf hb =>
    -- the child has nothing left
    have hf : S.fillBatch p g s = .ok () t := hf
    rw [nextBatch_eq, hf]
    simp only [hb, if_true]
    exact ⟨(fillBatch_owed hf).trans howed, rfl⟩
  | case3 s t hf hb e u hv =>
    -- the batch cannot be evaluated
    have hf : S.fillBatch p g s = .ok () t := hf
    have hv : onTraversal (Traversal.evaluateBatch p g) t = .error e u := hv
    rw [nextBatch_eq, hf]
    simp only [hb, if_false, hv]
    rfl
  | case4 s t hf hb u hv hdrain =>
    -- the flag is up: nothing is delivered of the batch
    have hf : S.fillBatch p g s = .ok () t := hf
    have hv : onTraversal (Traversal.evaluateBatch p g) t = .ok () u := hv
    rw [nextBatch_eq, hf]
    simp only [hb, if_false, hv, hdrain, if_true]
    exact ⟨(evaluateBatch_owed hv).trans ((fillBatch_owed hf).trans howed), rfl⟩
  | case5 s t hf hb u hv hdrain e v he =>
    -- the first entry of the result cannot be made into a record
    have hf : S.fillBatch p g s = .ok () t := hf
    have hv : onTraversal (Traversal.evaluateBatch p g) t = .ok () u := hv
    have hemit := bound_emit (g := g) hedge hslots
      ((evaluateBatch_owed hv).trans ((fillBatch_owed hf).trans howed))
    rw [he] at hemit
    rw [nextBatch_eq, hf]
    simp only [hb, if_false, hv, hdrain]
    rw [show onTraversal (Traversal.emit p g) u = .error e v from hemit]
    rfl
  | case6 s t hf hb u hv hdrain r v he =>
    -- the first entry of the result makes a record
    have hf : S.fillBatch p g s = .ok () t := hf
    have hv : onTraversal (Traversal.evaluateBatch p g) t = .ok () u := hv
    have hemit := bound_emit (g := g) hedge hslots
      ((evaluateBatch_owed hv).trans ((fillBatch_owed hf).trans howed))
    rw [he] at hemit
    rw [nextBatch_eq, hf]
    simp only [hb, if_false, hv, hdrain]
    refine ⟨hemit.1, fun e es hes => ?_⟩
    rw [hemit.2 e es hes]
    rfl
  | case7 s t hf hb u hv hdrain v he ih =>
    -- a result without entries: on to the next batch
    have hf : S.fillBatch p g s = .ok () t := hf
    have hv : onTraversal (Traversal.evaluateBatch p g) t = .ok () u := hv
    have hemit := bound_emit (g := g) hedge hslots
      ((evaluateBatch_owed hv).trans ((fillBatch_owed hf).trans howed))
    rw [he] at hemit
    rw [nextBatch_eq (p := p), hf]
    simp only [hb, if_false, hv, hdrain]
    rw [hemit.2]
    exact ih hemit.1

/-- **One call**, with nothing owed. -/
theorem bound_next (hedge : p.edge = some b) (hslots : p.src ≠ p.dst)
    {s : Run (σ × Traversal) × CallCounts} (howed : s.1.state.2.owed = none) :
    Bound p b g ((S.traverse p.plain).next g s) ((S.traverse p).next g s) := by
  have hpop : Traversal.popOwed p s.1.state.2 = none := by
    unfold Traversal.popOwed
    rw [hedge, howed]
  have hpop' : Traversal.popOwed p.plain s.1.state.2 = none := Traversal.popOwed_eq_none rfl _
  simp only [traverse, hpop, hpop']
  split
  · exact ⟨howed, rfl⟩
  · split
    · rfl
    · exact ⟨howed, rfl⟩
    · exact bound_nextBatch hedge hslots howed
    · have hemit := bound_emit (g := g) hedge hslots howed
      split
      · next he =>
        rw [he] at hemit
        rw [show onTraversal (Traversal.emit p g) s = _ from hemit]
        rfl
      · next he =>
        rw [he] at hemit
        refine ⟨hemit.1, fun e es hes => ?_⟩
        rw [hemit.2 e es hes]
      · next he =>
        rw [he] at hemit
        rw [hemit.2]
        exact bound_nextBatch hedge hslots hemit.1

/-! ## All calls -/

/-- A traversal that owes edges of a record, and then delivers what it would deliver without its edge
variable, each record once per connecting edge. -/
structure Owing (S : Source σ) (g : Graph) (F : GraphError → Prop) (p : Pattern) (b : EdgeBinding)
    (out : List Record) (st : σ × Traversal) : Prop where
  owes : ∀ o, st.2.owed = some o → o.edges ≠ []
  delivers : ∃ plain, (S.traverse p.plain).Emits g F plain (st.1, { st.2 with owed := none }) ∧
    (∀ r ∈ plain, p.connecting b g r ≠ []) ∧
    out = (st.2.owed.elim [] fun o => b.withEach o.record o.edges) ++
      plain.flatMap fun r => b.withEach r (p.connecting b g r)

theorem elim_over (b : EdgeBinding) (r : Record) (es : List Edge) :
    ((Owed.over r es).elim [] fun o => b.withEach o.record o.edges) = b.withEach r es := by
  cases es <;> rfl

theorem over_edges {r : Record} {es : List Edge} {o : Owed} (h : Owed.over r es = some o) :
    o.edges ≠ [] := by
  cases es with
  | nil => cases h
  | cons e es =>
    cases h
    exact List.cons_ne_nil e es

/-- An edge that is owed comes before the next record. -/
theorem Owing.answers_owed (hedge : p.edge = some b) {out : List Record} {c : σ} {t : Traversal} {o : Owed}
    (h : Owing S g F p b out (c, t)) (howed : t.owed = some o) :
    (S.traverse p).Answers g F out.head? (Owing S g F p b out.tail) (c, t) := by
  obtain ⟨howes, plain, hplain, hconnected, rfl⟩ := h
  obtain ⟨r, es⟩ := o
  obtain ⟨e, es, rfl⟩ := List.exists_cons_of_ne_nil (howes _ howed)
  have hpop : Traversal.popOwed p t =
      some (r.set b.slot (.edge e), { t with owed := Owed.over r es }) := by
    unfold Traversal.popOwed
    rw [hedge, howed]
    rfl
  intro n
  rw [howed]
  simp only [traverse, Bool.false_eq_true, if_false, hpop]
  refine ⟨rfl, rfl, fun o ho => over_edges ho, plain, hplain, hconnected, ?_⟩
  simp only [Step.onto, elim_over]
  rfl

/-- With nothing owed, the next record comes with the first of its edges. -/
theorem Owing.answers_free (hedge : p.edge = some b) (hslots : p.src ≠ p.dst) {out : List Record} {c : σ}
    {t : Traversal} (h : Owing S g F p b out (c, t)) (howed : t.owed = none) :
    (S.traverse p).Answers g F out.head? (Owing S g F p b out.tail) (c, t) := by
  obtain ⟨-, plain, hplain, hconnected, rfl⟩ := h
  have hsame : { t with owed := none } = t := by rw [← howed]
  rw [hsame] at hplain
  intro n
  have hn := hplain.answers n
  have hbound := bound_next (S := S) (g := g) hedge hslots (s := (⟨(c, t), false⟩, n)) howed
  rw [howed]
  cases hr : (S.traverse p.plain).next g (⟨(c, t), false⟩, n) with
  | error e u =>
    rw [hr] at hn hbound
    rw [show (S.traverse p).next g (⟨(c, t), false⟩, n) = .error e u from hbound]
    exact hn
  | ok x u =>
    rw [hr] at hn hbound
    obtain ⟨rfl, hflag, hleft⟩ := hn
    have hkeeps : ∀ {u : Run (σ × Traversal) × CallCounts}, u.1.state.2.owed = none →
        (u.1.state.1, { u.1.state.2 with owed := none }) = u.1.state := by
      intro u hu
      rw [← hu]
    cases plain with
    | nil =>
      obtain ⟨hnone, hnext⟩ := hbound
      rw [hnext]
      refine ⟨rfl, hflag, (fun o ho => by rw [hnone] at ho; cases ho), [], ?_, hconnected, ?_⟩
      · rw [hkeeps hnone]
        exact hleft
      · rw [hnone]
        rfl
    | cons r plain =>
      obtain ⟨hr', hconnected⟩ := List.forall_mem_cons.1 hconnected
      obtain ⟨e, es, hes⟩ := List.exists_cons_of_ne_nil hr'
      obtain ⟨hnone, hnext⟩ := hbound
      rw [hnext e es hes, List.flatMap_cons, hes]
      refine ⟨rfl, hflag, fun o ho => over_edges ho, plain, ?_, hconnected, ?_⟩
      · change (S.traverse p.plain).Emits g F plain (u.1.state.1, { u.1.state.2 with owed := none })
        rw [hkeeps hnone]
        exact hleft
      · simp only [Step.onto, elim_over]
        rfl

/-- **One call takes the head off**: an edge that is owed, or else the first edge of a further record. -/
theorem Owing.answers (hedge : p.edge = some b) (hslots : p.src ≠ p.dst) {out : List Record}
    {st : σ × Traversal} (h : Owing S g F p b out st) :
    (S.traverse p).Answers g F out.head? (Owing S g F p b out.tail) st := by
  cases howed : st.2.owed with
  | some o => exact h.answers_owed hedge howed
  | none => exact h.answers_free hedge hslots howed

/-- **A traversal with an edge variable serves what it serves without one, each record once per connecting
edge.** -/
theorem Serves.with_edges (hedge : p.edge = some b) (hslots : p.src ≠ p.dst) {plain : List Record}
    (h : (S.traverse p.plain).Serves options g F plain)
    (hconnected : ∀ r ∈ plain, p.connecting b g r ≠ []) :
    (S.traverse p).Serves options g F
      (plain.flatMap fun r => b.withEach r (p.connecting b g r)) := by
  -- a traversal that has just been made ready owes nothing
  have howed : Ensures ((S.traverse p).init options) (S.traverse p).start
      (fun _ st => st.2.owed = none) (fun _ _ => True) := by
    have hchild : Ensures (Metered.within Prod.fst (fun c s => (c, s.2)) (S.init options))
        (S.start, ({} : Traversal)) (fun _ st => st.2.owed = none) (fun _ _ => True) :=
      ensures_within (leaves_anything _ _) (fun _ _ _ => rfl) fun _ _ _ => trivial
    refine hchild.bind fun _ st hst => ?_
    exact ensures_guard (fun _ => trivial) fun _ => ensures_update hst
  refine Ensures.mono (Ensures.and h howed) ?_ fun _ _ he => he.1
  rintro _ ⟨c, t⟩ ⟨hplain, hnone⟩
  have hnone : t.owed = none := hnone
  have hsame : { t with owed := none } = t := by rw [← hnone]
  refine emits_of_step (Owing S g F p b) (fun out st hst => hst.answers hedge hslots) ?_
  refine ⟨fun o ho => ?_, plain, ?_, hconnected, ?_⟩
  · rw [show t.owed = some o from ho] at hnone
    cases hnone
  · rw [hsame]
    exact hplain
  · rw [hnone]
    rfl

end Source

/-! ## Along a relation -/

namespace Pattern

/-- A record with an edge at its source and the node that the edge leads to. -/
def across (p : Pattern) (b : EdgeBinding) (s : NodeId) (r : Record) (e : Edge) : Record :=
  (r.set p.dst (.node (e.otherEnd s))).set b.slot (.edge e)

/-- What a traversal with an edge variable makes of a record: a copy for each edge at its source. -/
def crossings (p : Pattern) (b : EdgeBinding) (g : Graph) (r : Record) : List Record :=
  match r.node? p.src with
  | none => []
  | some s => (b.incident g s).map (p.across b s r)

theorem across_get_edge (p : Pattern) (b : EdgeBinding) (s : NodeId) (r : Record) (e : Edge) :
    (p.across b s r e).get b.slot = .edge e := by
  rw [across, Record.get_set, if_pos rfl]

theorem across_get_dst (hslots : p.dst ≠ b.slot) (s : NodeId) (r : Record) (e : Edge) :
    (p.across b s r e).get p.dst = .node (e.otherEnd s) := by
  rw [across, Record.get_set, if_neg hslots, Record.get_set, if_pos rfl]

theorem across_get_other {i : Nat} (hdst : i ≠ p.dst) (hedge : i ≠ b.slot) (s : NodeId) (r : Record)
    (e : Edge) : (p.across b s r e).get i = r.get i := by
  rw [across, Record.get_set, if_neg hedge, Record.get_set, if_neg hdst]

variable {k : RelationId}

/-- What gives nothing may be left out. -/
theorem flatMap_filter_eq {α β : Type} {test : α → Bool} {f : α → List β} {l : List α}
    (h : ∀ a ∈ l, test a = false → f a = []) : (l.filter test).flatMap f = l.flatMap f := by
  induction l with
  | nil => rfl
  | cons a l ih =>
    obtain ⟨ha, hl⟩ := List.forall_mem_cons.1 h
    cases htest : test a with
    | false => rw [List.filter_cons_of_neg (by simp [htest]), ih hl, List.flatMap_cons, ha htest, List.nil_append]
    | true => rw [List.filter_cons_of_pos htest, List.flatMap_cons, List.flatMap_cons, ih hl]

/-- A record of the expansion has a connecting edge. -/
theorem connecting_ne_nil (h : g.Inv) (hdim : g.dim ≤ maxDim) (hrelation : b.relations = [k])
    (hfollows : Expression.Follows k b.direction p.expr) (hslots : p.src ≠ p.dst) {r x : Record}
    (hx : x ∈ p.plain.expansion g r) : p.connecting b g x ≠ [] := by
  classical
  unfold expansion at hx
  split at hx
  · exact absurd hx List.not_mem_nil
  · next s hs =>
    obtain ⟨d, hd, rfl⟩ := List.mem_map.1 hx
    obtain ⟨hlt, hlinks⟩ := List.mem_filter.1 hd
    have hle : d ≤ maxDim := Nat.le_of_lt (Nat.lt_of_lt_of_le (List.mem_range.1 hlt) hdim)
    have hlinks := of_decide_eq_true hlinks
    rw [← NodeId.toNat_ofNat hle] at hlinks
    obtain ⟨e, he⟩ := (hfollows.links_iff s (.ofNat d)).1 hlinks
    rw [show p.plain.dst = p.dst from rfl, connecting_record hslots hs]
    exact List.ne_nil_of_mem ((EdgeBinding.mem_edges h hrelation).2 he)

/-- **Each record of the expansion, once per connecting edge, makes up the crossings.** -/
theorem flatMap_expansion (h : g.Inv) (hdim : g.dim ≤ maxDim) (hrelation : b.relations = [k])
    (hfollows : Expression.Follows k b.direction p.expr) (hslots : p.src ≠ p.dst) (r : Record) :
    ((p.plain.expansion g r).flatMap fun x => b.withEach x (p.connecting b g x)) =
      p.crossings b g r := by
  classical
  unfold expansion crossings
  rw [show p.plain.src = p.src from rfl]
  cases hs : r.node? p.src with
  | none => rfl
  | some s =>
    -- a node that is not linked has no edges here
    have hunlinked : ∀ d < g.dim, ¬p.links g s.toNat d → b.edges g s (.ofNat d) = [] := by
      intro d hd hnot
      refine List.eq_nil_iff_forall_not_mem.2 fun e he => hnot ?_
      have hlinks := (hfollows.links_iff s (.ofNat d)).2 ⟨e, (EdgeBinding.mem_edges h hrelation).1 he⟩
      rwa [NodeId.toNat_ofNat (Nat.le_of_lt (Nat.lt_of_lt_of_le hd hdim))] at hlinks
    have hpair : ∀ d, b.withEach (r.set p.dst (.node (.ofNat d)))
        (p.connecting b g (r.set p.dst (.node (.ofNat d)))) =
          (b.edges g s (.ofNat d)).map (p.across b s r) := by
      intro d
      rw [connecting_record hslots hs, EdgeBinding.withEach]
      refine List.map_congr_left fun e he => ?_
      rw [across, ((EdgeBinding.mem_edges h hrelation).1 he).2.2.2]
    calc (((p.plain.destinations g s).map fun d => r.set p.plain.dst (.node (.ofNat d))).flatMap
            fun x => b.withEach x (p.connecting b g x))
        = (p.plain.destinations g s).flatMap fun d =>
            (b.edges g s (.ofNat d)).map (p.across b s r) := by
          rw [List.flatMap_map]
          exact List.flatMap_congr fun d _ => hpair d
      _ = (List.range g.dim).flatMap fun d => (b.edges g s (.ofNat d)).map (p.across b s r) := by
          refine flatMap_filter_eq fun d hd hnot => ?_
          rw [hunlinked d (List.mem_range.1 hd) (of_decide_eq_false hnot), List.map_nil]
      _ = (b.incident g s).map (p.across b s r) := by
          rw [EdgeBinding.incident, List.map_flatMap]

end Pattern

namespace Source

variable {σ : Type} {S : Source σ} {F : GraphError → Prop} {options : ExecOptions} {rs : List Record}
  {k : RelationId}

/-- **A traversal along a relation that binds edges serves, for each record in order, one copy for each live
edge that its direction asks for at the record's source**, a self-loop once; it fails only as its child does
or for want of memory. The copies come by destination, edges stored from the source before those stored
towards it, and then by age. Each has its edge and the edge's other end in their slots and is otherwise the
record. The graph is one that calls lead to; what is served does not depend on the size of the batches. -/
theorem Serves.traverse_edges {graphOptions : GraphOptions}
    (hlimit : graphOptions.matrix.maxDenseCells < UInt64.size) (hg : (Graph.new graphOptions).Runs g)
    (hk : k.toNat < g.relations.size) (hedge : p.edge = some b) (hrelation : b.relations = [k])
    (hfollows : Expression.Follows k b.direction p.expr) (hsrc : p.src ≠ p.dst) (hdst : p.dst ≠ b.slot)
    (hpos : 1 ≤ p.batchSize.getD options.batchSize) (hmax : p.batchSize.getD options.batchSize ≤ maxDim)
    (h : S.Serves options g F rs) (hbounds : p.Bounds g rs) :
    (S.traverse p).Serves options g (fun e => F e ∨ e.OfMemory) (rs.flatMap (p.crossings b g)) ∧
      ∀ r : Record,
        (r.node? p.src = none → p.crossings b g r = []) ∧
        ∀ s, r.node? p.src = some s → ∃ es : List Edge,
          es.Perm (g.live.filter fun e => e.relation = k ∧ b.direction.Meets s e) ∧
          es.Pairwise (Edge.Before s) ∧
          p.crossings b g r = es.map (p.across b s r) ∧
          ∀ e, (p.across b s r e).get b.slot = .edge e ∧
            (p.across b s r e).get p.dst = .node (e.otherEnd s) ∧
            ∀ i, i ≠ p.dst → i ≠ b.slot → (p.across b s r e).get i = r.get i := by
  have hinv := (hg.inv (Graph.inv_new hlimit)).1
  have hsound : p.plain.Sound g := ⟨hinv.mirrored, hfollows.formed hk⟩
  have hdim := hsound.dim_le
  constructor
  · have hplain : (S.traverse p.plain).Serves options g (fun e => F e ∨ e.OfMemory)
        (rs.flatMap (p.plain.expansion g)) := serves_traverse hsound rfl hpos hmax h hbounds
    have hserves := hplain.with_edges hedge hsrc fun x hx => by
      obtain ⟨r, -, hxr⟩ := List.mem_flatMap.1 hx
      exact Pattern.connecting_ne_nil hinv hdim hrelation hfollows hsrc hxr
    rw [List.flatMap_assoc] at hserves
    simpa only [Pattern.flatMap_expansion hinv hdim hrelation hfollows hsrc] using hserves
  · refine fun r => ⟨fun hnone => ?_, fun s hs => ?_⟩
    · unfold Pattern.crossings
      rw [hnone]
    · refine ⟨b.incident g s, EdgeBinding.incident_perm hinv hdim hrelation s,
        EdgeBinding.incident_ordered hinv hdim hrelation s, ?_, fun e => ?_⟩
      · unfold Pattern.crossings
        rw [hs]
      · exact ⟨Pattern.across_get_edge p b s r e, Pattern.across_get_dst hdst s r e,
          fun i hi hi' => Pattern.across_get_other hi hi' s r e⟩

/-- A node with an edge to itself, one to another node and one back, followed either way: the loop comes
once, and the edge that leaves before the edge that enters, although that one is older. -/
theorem serves_edges_of_loop : ∃ g : Graph, g.edgeCount = 3 ∧
    let row (dst id src' dst' : Nat) : Record :=
      ⟨#[.node (.ofNat 0), .node (.ofNat dst), .edge ⟨.ofNat id, .ofNat src', .ofNat dst', .ofNat 0⟩]⟩
    ((values [⟨#[.node (.ofNat 0)]⟩]).traverse
      { expr := .add [.relation (.ofNat 0), .transpose (.relation (.ofNat 0))], src := 0, dst := 1,
        edge := some ⟨2, [.ofNat 0], .both⟩, batchSize := some 1 }).Serves {} g
        (fun e => False ∨ e.OfMemory) [row 0 1 0 0, row 1 2 0 1, row 1 0 1 0] := by
  have hlimit : ({} : MatrixOptions).maxDenseCells < UInt64.size := by decide
  have hadd := Graph.perform_addRelation_new { nodeBlock := 4 } (by decide) "knows" {}
  obtain ⟨g, hg, hsize, hdim, hcount, hlist⟩ : ∃ g : Graph, (Graph.new { nodeBlock := 4 }).Runs g ∧
      g.relations.size = 1 ∧ g.dim = 4 ∧ g.edgeCount = 3 ∧
      EdgeBinding.incident ⟨2, [.ofNat 0], .both⟩ g (.ofNat 0) =
        [⟨.ofNat 1, .ofNat 0, .ofNat 0, .ofNat 0⟩, ⟨.ofNat 2, .ofNat 0, .ofNat 1, .ofNat 0⟩,
          ⟨.ofNat 0, .ofNat 1, .ofNat 0, .ofNat 0⟩] := by
    have h₀ := (Graph.Runs.start (g := .new { nodeBlock := 4 })).performed hadd (by decide)
    have h₁ := h₀.performed (r := .createNode [] []) (n := {}) rfl (Nat.lt_of_sub_eq_succ rfl)
    have h₂ := h₁.performed (r := .createNode [] []) (n := {}) rfl (Nat.lt_of_sub_eq_succ rfl)
    have h₃ := h₂.performed (r := .createEdge (.ofNat 1) (.ofNat 0) (.ofNat 0)) (n := {}) rfl
      (Nat.lt_of_sub_eq_succ rfl)
    have h₄ := h₃.performed (r := .createEdge (.ofNat 0) (.ofNat 0) (.ofNat 0)) (n := {}) rfl
      (Nat.lt_of_sub_eq_succ rfl)
    have h₅ := h₄.performed (r := .createEdge (.ofNat 0) (.ofNat 1) (.ofNat 0)) (n := {}) rfl
      (Nat.lt_of_sub_eq_succ rfl)
    exact ⟨_, h₅, rfl, rfl, rfl, rfl⟩
  refine ⟨g, hcount, ?_⟩
  intro row
  set b : EdgeBinding := ⟨2, [.ofNat 0], .both⟩
  set p : Pattern := {
    expr := .add [.relation (.ofNat 0), .transpose (.relation (.ofNat 0))]
    src := 0, dst := 1, edge := some b, batchSize := some 1 }
  have hbounds : p.Bounds g [⟨#[.node (.ofNat 0)]⟩] := by
    intro r hr src hsrc
    rw [List.mem_singleton.1 hr] at hsrc
    cases hsrc
    rw [hdim]
    decide
  have hregistered : (RelationId.ofNat 0).toNat < g.relations.size := by
    rw [hsize]
    decide
  have hserves : ((values [⟨#[.node (.ofNat 0)]⟩]).traverse p).Serves {} g
      (fun e => False ∨ e.OfMemory) _ :=
    (Serves.traverse_edges hlimit hg hregistered rfl rfl .both (by decide) (by decide) (by decide)
      (by decide) (serves_values _) hbounds).1
  have hcrossings : p.crossings b g ⟨#[.node (.ofNat 0)]⟩ = [row 0 1 0 0, row 1 2 0 1, row 1 0 1 0] := by
    have hacross : ∀ e : Edge, p.across b (.ofNat 0) ⟨#[.node (.ofNat 0)]⟩ e =
        ⟨#[.node (.ofNat 0), .node (e.otherEnd (.ofNat 0)), .edge e]⟩ := by
      intro e
      have hdst : p.dst = 1 := rfl
      have hslot : b.slot = 2 := rfl
      rw [Pattern.across, hdst, hslot]
      rfl
    have hloop : Edge.otherEnd ⟨.ofNat 1, .ofNat 0, .ofNat 0, .ofNat 0⟩ (.ofNat 0) = .ofNat 0 := by decide
    have hout : Edge.otherEnd ⟨.ofNat 2, .ofNat 0, .ofNat 1, .ofNat 0⟩ (.ofNat 0) = .ofNat 1 := by decide
    have hin : Edge.otherEnd ⟨.ofNat 0, .ofNat 1, .ofNat 0, .ofNat 0⟩ (.ofNat 0) = .ofNat 1 := by decide
    change (b.incident g (.ofNat 0)).map (p.across b (.ofNat 0) ⟨#[.node (.ofNat 0)]⟩) = _
    simp only [hlist, List.map_cons, List.map_nil, hacross, hloop, hout, hin]
    rfl
  rwa [List.flatMap_singleton, hcrossings] at hserves

end Source

end Adjacency
