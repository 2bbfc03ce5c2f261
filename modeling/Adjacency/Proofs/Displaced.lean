import Adjacency.Proofs.Counting
import Adjacency.Proofs.Kernels

/-!
# A write that the queue does not take

Queued tuples have one type and one operator. A write of another kind is only queued once the old tuples are
in the index, which takes a single commit.

* `Matrix.MakesRoom`: what making room for a write does to the queue.
* `Matrix.spends_accumulate`: a write that the queue does not take commits at most once.
* `Matrix.Reachable.displaces_queue`: **if it is queued, it is queued alone**, over an index that lists what was
  queued before.
-/

namespace Adjacency

open Metered

namespace Matrix

variable {m u : Matrix} {i j : Nat} {raw v : Scalar} {op : DupOp} {q : Pending}

/-! ## Making room -/

/-- What making room for a write does to the queue, by the number of commits: it stays, or it goes. -/
inductive MakesRoom (m u : Matrix) : Nat → Prop
  | kept (hp : u.pending = m.pending) (hdef : m.deferred = false → u.deferred = false) : MakesRoom m u 0
  | committed (hp : m.pending ≠ none) (hdef : u.deferred = false) : MakesRoom m u 1

/-- How there may be no room for a write, by the number of commits: what is queued cannot be committed, or
the values do not fit. -/
inductive LacksRoom (m : Matrix) (e : GraphError) : Nat → Prop
  | commit (hp : m.pending ≠ none) (he : e.OfMemory) : LacksRoom m e 0
  | values (he : e = .outOfMemory .isoExpansion) : LacksRoom m e 0
  | committed (hp : m.pending ≠ none) (he : e = .outOfMemory .isoExpansion) : LacksRoom m e 1

theorem MakesRoom.settled {k : Nat} (h : m.MakesRoom u k) (hdef : m.deferred = false) :
    k = 0 ∧ u.deferred = false := by
  cases h with
  | kept hp hcalm => exact ⟨rfl, hcalm hdef⟩
  | committed hp => exact absurd (deferred_eq_false_iff.1 hdef).1 hp

theorem LacksRoom.settled {k : Nat} {e : GraphError} (h : m.LacksRoom e k) (hdef : m.deferred = false) :
    k = 0 ∧ e = .outOfMemory .isoExpansion := by
  cases h with
  | commit hp => exact absurd (deferred_eq_false_iff.1 hdef).1 hp
  | values he => exact ⟨rfl, he⟩
  | committed hp => exact absurd (deferred_eq_false_iff.1 hdef).1 hp

theorem LacksRoom.ofMemory {k : Nat} {e : GraphError} (h : m.LacksRoom e k) : e.OfMemory := by
  cases h with
  | commit hp he => exact he
  | values he => exact ⟨_, he⟩
  | committed hp he => exact ⟨_, he⟩

/-- Giving each entry a value of its own commits nothing. -/
theorem spends_expandIso (m : Matrix) : Spends expandIso m
    (fun _ t k => k = 0 ∧ t.pending = m.pending ∧ t.deferred = m.deferred)
    (fun e _ k => k = 0 ∧ e = .outOfMemory .isoExpansion) := by
  have hquiet : Quiet expandIso :=
    quiet_subject.bind fun _ => ((quiet_reserve _ _).bind fun _ => quiet_put _).ite (quiet_pure ())
  refine (hquiet.spends m).and ?_
  unfold expandIso
  refine ensures_subject (ensures_ite (fun _ => ?_) fun _ => ensures_pure ⟨rfl, rfl⟩)
  exact ensures_reserve_large (fun _ => rfl) (ensures_put ⟨rfl, rfl⟩)

/-- **Making room for a write** commits at most once, and only what is queued. -/
theorem spends_prepareWrite (h : m.Inv) (hv : v.type = m.type) (op : DupOp) : Spends (prepareWrite v op) m
    (fun _ u k => m.MakesRoom u k ∧ u.Inv ∧ m.Keeps u) (fun e _ k => m.LacksRoom e k) := by
  have hroom : Spends (prepareWrite v op) m (fun _ u k => m.MakesRoom u k) (fun e _ k => m.LacksRoom e k) := by
    unfold prepareWrite
    refine spends_update_then ?_
    obtain ⟨hinv, -, -, hpend⟩ := h.ordered
    have hcalm : m.deferred = false → (if m.jumbled then m.unjumbled else m).deferred = false := fun hdef => by
      rwa [if_neg (by simp [(deferred_eq_false_iff.1 hdef).2.2])]
    generalize (if m.jumbled then m.unjumbled else m) = s at hinv hpend hcalm
    refine spends_subject (spends_ite (fun _ => ?_) fun _ => ?_)
    · refine spends_ite (fun _ => spends_ite (fun hp => ?_) fun hp => ?_) fun _ =>
        spends_pure (.kept hpend hcalm)
      · -- what relies on the shared value is committed before it goes
        have hne : m.pending ≠ none := by
          rw [← hpend]
          exact Option.isSome_iff_ne_none.1 hp
        refine (spends_wait hinv).bind (fun e t k hk => hk.1 ▸ .commit hne hk.2.1) ?_
        rintro _ t _ ⟨rfl, -, -, hdef⟩
        refine (spends_expandIso t).mono ?_ ?_
        · rintro _ u _ ⟨rfl, -, hdef'⟩
          exact .committed hne (hdef'.trans hdef)
        · rintro e _ _ ⟨rfl, he⟩
          exact .committed hne he
      · refine (spends_expandIso s).mono ?_ ?_
        · rintro _ u _ ⟨rfl, hp', hdef⟩
          exact .kept (hp'.trans hpend) fun hm => hdef.trans (hcalm hm)
        · rintro e _ _ ⟨rfl, he⟩
          exact .values he
    · exact spends_ite (fun _ => spends_put (.kept hpend hcalm)) fun _ => spends_pure (.kept hpend hcalm)
  exact (hroom.and (ensures_prepareWrite h hv op)).mono
    (fun _ _ _ hu => ⟨hu.1, hu.2.1, hu.2.2.1⟩) fun _ _ _ he => he.1

/-! ## The write -/

/-- The tuple that a write queues over `u`. -/
def queuing (u : Matrix) (raw : Scalar) (i j : Nat) : QueuedTuple := ⟨i, j, if u.iso then none else some raw⟩

theorem dense_of_absent (ha : m.locate i j = .absent) : m.store.dense = false := by
  by_contra hd
  rw [locate, if_pos (by simpa using hd)] at ha
  cases ha

/-- What a write queues stands alone behind `u`, into which everything that `m` had deferred has gone. -/
structure QueuesAlone (m t : Matrix) (raw : Scalar) (i j : Nat) (op : DupOp) (u : Matrix) : Prop where
  inv : u.Inv
  keeps : m.Keeps u
  settled : u.deferred = false
  sparse : u.store.dense = false
  enqueued : t = u.enqueue (u.queuing raw i j) raw.type op

/-- **One attempt at a write.** It is put off, or queues a tuple, only as the queue that is left to it
allows. -/
theorem spends_tryWrite (h : m.Inv) (hv : raw.cast m.type = some v) (i j : Nat) (op : DupOp) :
    Spends (tryWrite raw v i j op) m
      (fun done t k => ∃ u, m.MakesRoom u k ∧ u.Inv ∧ m.Keeps u ∧ match done with
        | none => t = u ∧ u.queueAccepts raw.type op = false
        | some (.queued _) => u.queueAccepts raw.type op = true ∧ u.store.dense = false ∧
          t = u.enqueue (u.queuing raw i j) raw.type op
        | some _ => True)
      (fun e _ k => m.LacksRoom e k) := by
  unfold tryWrite
  refine (spends_prepareWrite h (Scalar.cast_eq_some hv).1 op).bind (fun _ _ _ he => he) ?_
  rintro _ u k ⟨hroom, hinv, hkeeps⟩
  refine spends_subject ?_
  cases hl : u.locate i j with
  | cell pos => exact spends_update_then (spends_pure ⟨u, hroom, hinv, hkeeps, trivial⟩)
  | live pos => exact spends_update_then (spends_pure ⟨u, hroom, hinv, hkeeps, trivial⟩)
  | zombie pos => exact spends_update_then (spends_pure ⟨u, hroom, hinv, hkeeps, trivial⟩)
  | absent =>
    refine spends_ite (fun hq => ?_) fun hq => spends_pure ⟨u, hroom, hinv, hkeeps, rfl, by simpa using hq⟩
    exact spends_update_then (spends_subject (spends_pure
      ⟨u, hroom, hinv, hkeeps, hq, dense_of_absent hl, rfl⟩))

theorem queueAccepts_of_settled (hdef : u.deferred = false) (type : ScalarType) (op : DupOp) :
    u.queueAccepts type op = true := by
  rw [queueAccepts, (deferred_eq_false_iff.1 hdef).1]

/-- From a matrix with nothing deferred, one attempt is enough, and it commits nothing. -/
theorem spends_tryWrite_settled (h : m.Inv) (hdef : m.deferred = false) (hv : raw.cast m.type = some v)
    (i j : Nat) (op : DupOp) : Spends (tryWrite raw v i j op) m
      (fun done t k => k = 0 ∧ done.isSome = true ∧
        ∀ advised, done = some (.queued advised) → ∃ u, m.QueuesAlone t raw i j op u)
      (fun e _ k => k = 0 ∧ e = .outOfMemory .isoExpansion) := by
  refine (spends_tryWrite h hv i j op).mono ?_ fun e _ k he => he.settled hdef
  rintro done t k ⟨u, hroom, hinv, hkeeps, hdone⟩
  obtain ⟨rfl, hcalm⟩ := hroom.settled hdef
  refine ⟨rfl, ?_, ?_⟩
  · cases done with
    | none =>
      have := hdone.2
      rw [queueAccepts_of_settled hcalm] at this
      cases this
    | some done => rfl
  · rintro advised rfl
    exact ⟨u, hinv, hkeeps, hcalm, hdone.2.1, hdone.2.2⟩

/-- **A write that the queue does not take** commits at most once; once it has, it only fails for the values
of a matrix that shares one. If it is queued, it is queued alone. -/
theorem spends_accumulate (h : m.Inv) (hrefused : m.queueAccepts raw.type op = false) {row col : Nat}
    (hrow : row < m.nrows) (hcol : col < m.ncols) (hcast : raw.cast m.type = some v) :
    Spends (accumulate raw row col op) m
      (fun done t k => k ≤ 1 ∧ ∀ advised, done = .queued advised →
        ∃ u, m.QueuesAlone t raw (m.toVector row col).1 (m.toVector row col).2 op u)
      (fun e _ k => e.OfMemory ∧ (k = 0 ∨ k = 1 ∧ e = .outOfMemory .isoExpansion)) := by
  unfold accumulate
  refine spends_subject (spends_require_then (checkBounds_eq_ok hrow hcol)
    (spends_require_then (castIn_eq_ok_iff.2 hcast) ?_))
  dsimp only
  refine (spends_tryWrite h hcast _ _ op).bind (fun e t k he => ⟨he.ofMemory, ?_⟩) ?_
  · cases he with
    | commit | values => exact .inl rfl
    | committed hp he => exact .inr ⟨rfl, he⟩
  rintro done t k ⟨u, hroom, hinv, hkeeps, hdone⟩
  cases hroom with
  | kept hp hcalm =>
    -- the old queue is still there, so an absent cell puts the write off
    have hno : u.queueAccepts raw.type op = false := by
      rw [queueAccepts, hp]
      exact hrefused
    cases done with
    | none =>
      -- the queue is as it was, and is committed for the second attempt
      obtain ⟨rfl, -⟩ := hdone
      refine (spends_wait hinv).bind (fun e w k he => ⟨he.2.1, .inl (by rw [he.1])⟩) ?_
      rintro _ w _ ⟨rfl, hwinv, hwkeeps, hdef⟩
      have hk := hkeeps.trans hwkeeps
      refine (spends_tryWrite_settled hwinv hdef (hk.type.symm ▸ hcast) _ _ op).bind ?_ ?_
      · rintro e _ _ ⟨rfl, he⟩
        exact ⟨⟨_, he⟩, .inr ⟨rfl, he⟩⟩
      · rintro (_ | done) x _ ⟨rfl, hsome, hqueued⟩
        · cases hsome
        · refine spends_pure ⟨Nat.le_refl 1, fun advised hd => ?_⟩
          obtain ⟨y, hy⟩ := hqueued advised (congrArg some hd)
          exact ⟨y, hy.inv, hk.trans hy.keeps, hy.settled, hy.sparse, hy.enqueued⟩
    | some done =>
      refine spends_pure ⟨Nat.zero_le 1, ?_⟩
      rintro advised rfl
      rw [hno] at hdone
      cases hdone.1
  | committed hp hdef =>
    -- the queue is empty by now, and takes anything
    cases done with
    | none =>
      have := hdone.2
      rw [queueAccepts_of_settled hdef] at this
      cases this
    | some done =>
      refine spends_pure ⟨Nat.le_refl 1, ?_⟩
      rintro advised rfl
      exact ⟨u, hinv, hkeeps, hdef, hdone.2.1, hdone.2.2⟩

/-! ## The old queue -/

theorem foldOnto_of_ne_nil {f : Scalar → Scalar → Scalar} {start : Option Scalar} {vs : List Scalar}
    (hne : vs ≠ []) : ∃ w, foldOnto f start vs = some w := by
  rcases vs.eq_nil_or_concat with rfl | ⟨ws, v, rfl⟩
  · exact absurd rfl hne
  · rw [List.concat_eq_append, foldOnto_append, foldOnto_singleton]
    exact ⟨_, rfl⟩

/-- There is a value where a tuple is queued. -/
theorem value_of_queued {τ : QueuedTuple} (hτ : τ ∈ m.queue) : ∃ v, m.value τ.i τ.j = some v := by
  refine foldOnto_of_ne_nil fun hnil => ?_
  have hmem : m.written τ ∈ m.queuedAt τ.i τ.j :=
    List.mem_map.2 ⟨τ, List.mem_filter.2 ⟨hτ, by simp⟩, rfl⟩
  rw [hnil] at hmem
  cases hmem

/-- A stored value of a sparse format stands in a live slot. -/
theorem Laid.locate_of_stored (h : m.Laid) (hd : m.store.dense = false) (hv : m.stored i j = some v) :
    ∃ pos, m.locate i j = .live pos := by
  by_cases hb : i < m.vlen ∧ j < m.vdim
  · have hloc := h.locate_cases hb.1 hb.2
    rw [stored, if_pos hb, committed] at hv
    cases hl : m.locate i j with
    | cell pos =>
      rw [hl, hd] at hloc
      cases hloc.1
    | live pos => exact ⟨pos, rfl⟩
    | zombie pos => rw [hl] at hv; cases hv
    | absent => rw [hl] at hv; cases hv
  · rw [stored, if_neg hb] at hv
    cases hv

/-- What is queued does not show in the listing. -/
theorem tuples_enqueue {τ : QueuedTuple} {type : ScalarType} (h : u.Laid)
    (h' : (u.enqueue τ type op).Laid) : (u.enqueue τ type op).tuples.toList = u.tuples.toList := by
  rw [h'.tuples_eq, h.tuples_eq]
  rfl

/-- `t` queues one tuple alone, and lists what `m` had queued in `q`. -/
structure Displaces (m t : Matrix) (q : Pending) (new : QueuedTuple) (type : ScalarType) (op : DupOp) :
    Prop where
  queue : t.pending = some { tuples := #[new], type, op }
  count : t.pendingCount = 1
  zombies : t.zombies = 0
  lists : ∀ τ ∈ q.tuples.toList, (∃ pos, t.locate τ.i τ.j = .live pos) ∧
    ∃ v, m.extract (m.toCell τ.i τ.j).1 (m.toCell τ.i τ.j).2 = .ok (some v) ∧
      ⟨(m.toCell τ.i τ.j).1, (m.toCell τ.i τ.j).2, v⟩ ∈ t.tuples.toList

theorem QueuesAlone.displaces {t : Matrix} (hu : m.QueuesAlone t raw i j op u) (h : m.Inv) (ht : t.Inv)
    (hq : m.pending = some q) :
    m.Displaces t q ⟨i, j, if t.iso then none else some raw⟩ raw.type op := by
  obtain ⟨hinv, hkeeps, hdef, hd, rfl⟩ := hu
  obtain ⟨hp, hz, -⟩ := deferred_eq_false_iff.1 hdef
  have hpending : (u.enqueue (u.queuing raw i j) raw.type op).pending =
      some { tuples := #[u.queuing raw i j], type := raw.type, op } := by
    rw [enqueue, hp]
    rfl
  refine ⟨hpending, by rw [pendingCount, hpending]; rfl, hz, fun τ hτ => ?_⟩
  have hqueue : m.queue = q.tuples.toList := by rw [Matrix.queue, hq]
  obtain ⟨v, hv⟩ := value_of_queued (hqueue.symm ▸ hτ)
  have hstored : u.stored τ.i τ.j = some v := by rw [← value_of_settled hp, hkeeps.value, hv]
  have hcell : m.cell (m.toCell τ.i τ.j).1 (m.toCell τ.i τ.j).2 = some v := by
    rw [Matrix.cell, toVector_toCell, hv]
  refine ⟨hinv.laid.locate_of_stored hd hstored, v, h.extract_eq_some_iff.2 hcell, ?_⟩
  rw [tuples_enqueue hinv.laid ht.laid, hinv.mem_tuples hp, hkeeps.cell, hcell]

/-- **A write that the queue does not take** commits at most once, and so it ends. If it is queued, it is
alone, and everything that was queued before is in the index and listed with the value that it had. A write
that replaces is one with the operator `second`. -/
theorem Reachable.displaces_queue (h : m.Reachable) (hq : m.pending = some q)
    (hdiff : q.type ≠ raw.type ∨ q.op ≠ op) {row col : Nat} (hrow : row < m.nrows) (hcol : col < m.ncols)
    (hcast : (raw.cast m.type).isSome = true) (n : CallCounts) :
    match accumulate raw row col op (m, n) with
    | .ok done s => s.2.commit ≤ n.commit + 1 ∧ ∀ advised, done = .queued advised →
      m.Displaces s.1 q ⟨(m.toVector row col).1, (m.toVector row col).2,
        if s.1.iso then none else some raw⟩ raw.type op
    | .error e s => e.OfMemory ∧
      (s.2.commit = n.commit ∨ s.2.commit = n.commit + 1 ∧ e = .outOfMemory .isoExpansion) := by
  obtain ⟨v, hv⟩ := Option.isSome_iff_exists.1 hcast
  have hrefused : m.queueAccepts raw.type op = false := by
    rw [queueAccepts, hq]
    simpa [Pending.accepts, Decidable.imp_iff_not_or] using hdiff
  have hspends := spends_accumulate h.inv hrefused hrow hcol hv n
  cases hs : accumulate raw row col op (m, n) with
  | ok done s =>
    rw [hs] at hspends
    obtain ⟨k, hk, hle, hqueued⟩ := hspends
    refine ⟨by omega, fun advised hdone => ?_⟩
    obtain ⟨u, hu⟩ := hqueued advised hdone
    exact hu.displaces h.inv ((ensures_accumulate h.inv raw row col op).of_ok hs).1 hq
  | error e s =>
    rw [hs] at hspends
    obtain ⟨k, hk, he, rfl | ⟨rfl, hexp⟩⟩ := hspends
    · exact ⟨he, .inl hk⟩
    · exact ⟨he, .inr ⟨hk, hexp⟩⟩

/-- A truth value among queued integers, equal to all of them once it is cast: only its type sets it apart. -/
theorem displaces_integers : ∃ (m : Matrix) (q : Pending) (s : Matrix × CallCounts), m.pending = some q ∧
    accumulate (.bool true) 1 0 .second (m, {}) = .ok (.queued false) s ∧ s.2.commit = 1 ∧
    m.Displaces s.1 q ⟨0, 1, none⟩ .bool .second := by
  have hlimit : ({} : MatrixOptions).maxDenseCells < UInt64.size := by decide
  have hnew : Reachable (blank .int64 2 3 true {}) :=
    .created hlimit (show withOptions .int64 2 3 {} = .ok _ from rfl)
  have hm : Reachable (waiting (.int64 1) 2 3 #[⟨1, 0, none⟩]) :=
    hnew.requested (r := .set (.int64 1) 0 1) (a := .done) (n := {}) (s := (_, {})) trivial rfl
  set run := accumulate (.bool true) 1 0 .second (waiting (.int64 1) 2 3 #[⟨1, 0, none⟩], {}) with hrun
  have hok : (outcome run).1.toOption = some (.queued false) := by decide +kernel
  have hiso : (outcome run).2.1.iso = true := by decide +kernel
  have hcommits : (outcome run).2.2.commit = 1 := by decide +kernel
  have hs := eq_ok_of_outcome hok
  have h := @Reachable.displaces_queue _ (.bool true) .second _ hm rfl (.inl (by decide)) 1 0 (by decide)
    (by decide) rfl {}
  rw [← hrun, hs] at h
  have hdisplaces := h.2 false rfl
  rw [hiso] at hdisplaces
  exact ⟨_, _, _, rfl, hs, hcommits, hdisplaces⟩

end Matrix

end Adjacency
