import Adjacency.Proofs.Resize

/-!
# Building and copying

A matrix built from tuples holds, at each cell, the fold of what was written there. Copies go through the
tuples of a committed matrix.

* `Matrix.ensures_ofTuples`: **the fold of the tuples at every cell, or the fault of the first bad
  tuple.**
* `Matrix.ensures_reoriented`: the same content in another orientation.
* `Matrix.ensures_assignFrom`: the content of another matrix, cast.
-/

namespace Adjacency

open Metered

namespace Matrix

variable {m m' : Matrix}

/-! ## Checking tuples -/

/-- The failure of the first tuple that is out of bounds or cannot be cast. -/
def tupleFault (m : Matrix) : List Tuple → Option GraphError
  | [] => none
  | t :: ts =>
    match m.checkBounds t.row t.col, m.castIn t.value with
    | .error e, _ => some e
    | .ok _, .error e => some e
    | .ok _, .ok _ => tupleFault m ts

/-- The values that tuples write at a place, in order. -/
def landed (m : Matrix) (ts : List Tuple) (i j : Nat) : List Scalar :=
  (ts.filter fun t => m.toVector t.row t.col == (i, j)).filterMap (·.value.cast m.type)

theorem landed_cons {t : Tuple} {ts : List Tuple} {v : Scalar} (hv : t.value.cast m.type = some v)
    (i j : Nat) : m.landed (t :: ts) i j =
      (if (m.toVector t.row t.col).1 = i ∧ (m.toVector t.row t.col).2 = j then [v] else []) ++
        m.landed ts i j := by
  unfold landed
  by_cases hp : m.toVector t.row t.col = (i, j)
  · rw [List.filter_cons_of_pos (by simp [hp]), List.filterMap_cons, hv, hp, if_pos ⟨rfl, rfl⟩]
    rfl
  · rw [List.filter_cons_of_neg (by simpa using hp), if_neg fun hc => hp (Prod.ext hc.1 hc.2)]
    rfl

theorem landed_append (m : Matrix) (ts us : List Tuple) (i j : Nat) :
    m.landed (ts ++ us) i j = m.landed ts i j ++ m.landed us i j := by
  rw [landed, List.filter_append, List.filterMap_append]
  rfl

theorem tupleFault_congr (hs : m.SameShape m') (ts : List Tuple) :
    m'.tupleFault ts = m.tupleFault ts := by
  induction ts with
  | nil => rfl
  | cons t ts ih =>
    rw [tupleFault, tupleFault, ih, checkBounds, checkBounds, castIn, castIn, hs.nrows, hs.ncols, hs.type]

theorem landed_congr (hs : m.SameShape m') (ts : List Tuple) : m'.landed ts = m.landed ts := by
  funext i j
  unfold landed toVector
  rw [hs.byRow, hs.type]

theorem tupleFault_eq_none_iff {ts : List Tuple} : m.tupleFault ts = none ↔
    ∀ t ∈ ts, t.row < m.nrows ∧ t.col < m.ncols ∧ (t.value.cast m.type).isSome := by
  induction ts with
  | nil => simp [tupleFault]
  | cons t ts ih =>
    rw [tupleFault, List.forall_mem_cons, ← ih]
    cases hb : m.checkBounds t.row t.col with
    | error e =>
      have : ¬(t.row < m.nrows ∧ t.col < m.ncols) := fun hc => by
        rw [checkBounds_eq_ok hc.1 hc.2] at hb; cases hb
      simp only [reduceCtorEq, false_iff]
      exact fun hc => this ⟨hc.1.1, hc.1.2.1⟩
    | ok u =>
      obtain ⟨hr, hc⟩ := checkBounds_ok hb
      cases hv : m.castIn t.value with
      | error e =>
        unfold castIn at hv
        cases hw : t.value.cast m.type with
        | none => simp
        | some w => rw [hw] at hv; cases hv
      | ok w => simp [hr, hc, castIn_eq_ok_iff.1 hv]

/-- Tuples in bounds and of one type can only fail to be cast. -/
theorem tupleFault_of_type {ts : List Tuple} {type : ScalarType} {e : GraphError}
    (hts : ∀ t ∈ ts, t.row < m.nrows ∧ t.col < m.ncols ∧ t.value.type = type)
    (he : m.tupleFault ts = some e) :
    e = .domainMismatch type m.type ∧ type.castable m.type = false := by
  induction ts with
  | nil => cases he
  | cons t ts ih =>
    obtain ⟨⟨hr, hc, hty⟩, hts⟩ := List.forall_mem_cons.1 hts
    rw [tupleFault, checkBounds_eq_ok hr hc] at he
    cases hv : m.castIn t.value with
    | ok w => rw [hv] at he; exact ih hts he
    | error e' =>
      rw [hv] at he
      cases he
      unfold castIn at hv
      cases hw : t.value.cast m.type with
      | some w => rw [hw] at hv; cases hv
      | none =>
        rw [hw] at hv
        cases hv
        refine ⟨by rw [hty], ?_⟩
        by_contra hcast
        obtain ⟨w, hw'⟩ := Scalar.cast_isSome (show t.value.type.castable m.type = true by
          rw [hty]; simpa using hcast)
        rw [hw] at hw'
        cases hw'

/-! ## Queueing tuples -/

theorem not_at_of_empty (hst : m.store = .empty) (i j pos : Nat) : ¬m.At i j pos := by
  intro hat
  have hlt := hat.1
  rw [extent, hst] at hlt
  exact absurd hlt (Nat.not_lt_zero _)

theorem queueAccepts_enqueue {t : QueuedTuple} {type : ScalarType} {op : DupOp}
    (h : m.queueAccepts type op = true) : (m.enqueue t type op).queueAccepts type op = true := by
  unfold enqueue queueAccepts Pending.accepts at *
  cases hp : m.pending with
  | none => simp
  | some q => rw [hp] at h; simpa using h

/-- Queued over an empty index, tuples combine in their order. -/
theorem ensures_queueTuples (op : DupOp) {ts : List Tuple} (h : m.Inv) (hst : m.store = .empty)
    (hi : m.iso = false) (hacc : m.queueAccepts m.type op = true) : Ensures (queueTuples op ts) m
      (fun _ t => t.Inv ∧ m.SameShape t ∧ m.tupleFault ts = none ∧
        ∀ i j, t.value i j = foldOnto (op.apply m.type) (m.value i j) (m.landed ts i j))
      (fun e _ => m.tupleFault ts = some e) := by
  induction ts generalizing m with
  | nil => exact ensures_pure ⟨h, SameShape.refl m, rfl, fun _ _ => rfl⟩
  | cons t ts ih =>
    unfold queueTuples
    refine ensures_subject (ensures_require_then (fun e he => by rw [tupleFault, he])
      fun _ hb => ensures_require_then (fun e he => by rw [tupleFault, hb, he]) fun v hv => ?_)
    obtain ⟨hr, hc⟩ := checkBounds_ok hb
    obtain ⟨hil, hjl⟩ := toVector_lt hr hc
    have hcast := castIn_eq_ok_iff.1 hv
    have hvt := (Scalar.cast_eq_some hcast).1
    dsimp only
    generalize hplace : m.toVector t.row t.col = place at hil hjl
    obtain ⟨i₀, j₀⟩ := place
    dsimp only at hil hjl ⊢
    refine ensures_update_then ?_
    set q : QueuedTuple := ⟨i₀, j₀, some v⟩ with hq
    have hawaits : m.Awaits m.type q := ⟨hil, hjl, not_at_of_empty hst _ _, hi, hvt⟩
    obtain ⟨hinv, hputs⟩ := h.enqueue hacc m.type.castable_self hawaits
    have hself : v.cast m.type = some v := by rw [← hvt]; exact v.cast_self
    have hwritten : m.written q = v := by
      simp only [written, hq, Option.some_or, Option.bind_some, hself, Option.getD_some]
    rw [hwritten] at hputs
    have hs := hputs.toSameShape
    refine (ih hinv hst hi (queueAccepts_enqueue hacc)).mono ?_ fun e _ he => ?_
    · rintro _ s ⟨hsinv, hsshape, hfault, hvalue⟩
      refine ⟨hsinv, hs.trans hsshape, ?_, fun i j => ?_⟩
      · rw [tupleFault, hb, hv, ← tupleFault_congr hs]; exact hfault
      · rw [hvalue, landed_congr hs, landed_cons hcast, foldOnto_append, hplace]
        change foldOnto (op.apply m.type) _ _ = _
        congr 1
        by_cases hp : i₀ = i ∧ j₀ = j
        · obtain ⟨rfl, rfl⟩ := hp
          rw [if_pos ⟨rfl, rfl⟩]
          exact hputs.here
        · rw [if_neg hp]
          exact hputs.elsewhere i j fun hc => hp ⟨hc.1.symm, hc.2.symm⟩
    · rw [tupleFault, hb, hv, ← tupleFault_congr hs]; exact he

/-! ## Building -/

/-- A matrix without content. -/
def blank (type : ScalarType) (nrows ncols : Nat) (byRow : Bool) (options : MatrixOptions) : Matrix :=
  { type, nrows, ncols, byRow, options }

variable {type : ScalarType} {nrows ncols : Nat} {byRow : Bool} {options : MatrixOptions}

/-- A matrix without content has no values. -/
theorem inv_blank (hr : nrows ≤ maxDim) (hc : ncols ≤ maxDim)
    (hlimit : options.maxDenseCells < UInt64.size) : (blank type nrows ncols byRow options).Inv ∧
      ∀ i j, (blank type nrows ncols byRow options).value i j = none :=
  inv_of_empty rfl rfl rfl rfl hr hc hlimit

theorem withOptions_eq_ok_iff : withOptions type nrows ncols options = .ok m ↔
    nrows ≤ maxDim ∧ ncols ≤ maxDim ∧ m = blank type nrows ncols true options := by
  unfold withOptions
  split
  · next h => simp only [reduceCtorEq, false_iff]; omega
  · next h =>
    rw [Except.ok.injEq]
    exact ⟨fun hm => ⟨by omega, by omega, hm.symm⟩, fun hm => hm.2.2.symm⟩

/-- **A matrix of tuples** holds at each place the fold of what was written there, with nothing deferred.
If it cannot be built, it is for its dimensions, for its first bad tuple or for want of memory. -/
theorem ensures_ofTuples {σ : Type} {s : σ} (ts : List Tuple) (op : DupOp)
    (hlimit : options.maxDenseCells < UInt64.size) :
    Ensures (ofTuples type nrows ncols byRow ts op options) s
      (fun r t => t = s ∧ r.Inv ∧ (blank type nrows ncols byRow options).SameShape r ∧
        r.deferred = false ∧ (blank type nrows ncols byRow options).tupleFault ts = none ∧
        ∀ i j, r.value i j =
          foldOnto (op.apply type) none ((blank type nrows ncols byRow options).landed ts i j))
      (fun e t => t = s ∧
        (e.OfMemory ∧ (blank type nrows ncols byRow options).tupleFault ts = none ∨
        (maxDim < nrows ∨ maxDim < ncols) ∧ e = .invalid .dimensionTooLarge ∨
        (blank type nrows ncols byRow options).tupleFault ts = some e)) := by
  unfold ofTuples
  refine ensures_require_then (fun e he => ⟨rfl, .inr (.inl ?_)⟩) fun m hm => ?_
  · unfold withOptions at he
    split at he
    · next h => exact ⟨h, (Except.error.inj he).symm⟩
    · cases he
  obtain ⟨hr, hc, rfl⟩ := withOptions_eq_ok_iff.1 hm
  change Ensures (settle (blank type nrows ncols byRow options) _) s _ _
  obtain ⟨hinv, hnone⟩ : (blank type nrows ncols byRow options).Inv ∧
    ∀ i j, (blank type nrows ncols byRow options).value i j = none := inv_blank hr hc hlimit
  set b := blank type nrows ncols byRow options
  have hbuild : Ensures (do queueTuples op ts; wait) b
      (fun _ r => r.Inv ∧ b.SameShape r ∧ r.deferred = false ∧ b.tupleFault ts = none ∧
        ∀ i j, r.value i j = foldOnto (op.apply type) none (b.landed ts i j))
      (fun e _ => e.OfMemory ∧ b.tupleFault ts = none ∨ b.tupleFault ts = some e) := by
    refine (ensures_queueTuples op hinv rfl rfl rfl).andThen (fun e _ he => .inr he) ?_
    rintro _ q ⟨hqinv, hqs, hfault, hvalue⟩
    refine (ensures_wait hqinv).mono (fun _ r hr => ?_) fun e _ he => .inl ⟨he.1, hfault⟩
    obtain ⟨hrinv, hkeeps, hdef⟩ := hr
    refine ⟨hrinv, hqs.trans hkeeps.toSameShape, hdef, hfault, fun i j => ?_⟩
    rw [hkeeps.value, hvalue, hnone]
    rfl
  refine ensures_settle hbuild (fun r hr => ⟨rfl, hr⟩) fun e _ he => ⟨rfl, ?_⟩
  rcases he with he | he
  · exact .inl he
  · exact .inr (.inr he)

/-! ## Copying -/

/-- The tuples of a matrix lie in it and have its type. -/
theorem Laid.tuples_spec (h : m.Laid) {t : Tuple} (ht : t ∈ m.tuples.toList) :
    t.row < m.nrows ∧ t.col < m.ncols ∧ t.value.type = m.type := by
  rw [h.tuples_eq] at ht
  obtain ⟨e, he, rfl⟩ := List.mem_map.1 ht
  have hlt := h.entry_lt he
  have hty := h.entry_type he
  unfold tupleOf toCell
  unfold vlen vdim at hlt
  cases hb : m.byRow <;> rw [hb] at hlt
  · exact ⟨hlt.1, hlt.2, hty⟩
  · exact ⟨hlt.2, hlt.1, hty⟩

/-- The tuples of a matrix are its entries, by row and column. -/
theorem Laid.mem_tuples (h : m.Laid) {t : Tuple} : t ∈ m.tuples.toList ↔ m.entryOf t ∈ m.entries := by
  rw [h.tuples_eq, List.mem_map]
  constructor
  · rintro ⟨e, he, rfl⟩
    rwa [entryOf_tupleOf]
  · exact fun he => ⟨_, he, by rw [tupleOf, entryOf, toCell_toVector]⟩

/-- The tuples of a committed matrix are the values of its cells. -/
theorem Inv.mem_tuples (h : m.Inv) (hp : m.pending = none) {t : Tuple} :
    t ∈ m.tuples.toList ↔ m.cell t.row t.col = some t.value := by
  rw [h.laid.mem_tuples, h.laid.mem_entries, cell, value_of_settled hp]
  rfl

/-- The tuples of a committed matrix, written to a matrix of any orientation, land in their cells. -/
theorem Inv.landed_tuples (h : m.Inv) (hp : m.pending = none) (b : Matrix) (row col : Nat) :
    b.landed m.tuples.toList (b.toVector row col).1 (b.toVector row col).2 =
      ((m.cell row col).bind (·.cast b.type)).toList := by
  have hplace : ∀ e : IndexEntry, (b.toVector (m.tupleOf e).row (m.tupleOf e).col ==
      ((b.toVector row col).1, (b.toVector row col).2)) =
      (e.j == (m.toVector row col).2 && e.i == (m.toVector row col).1) := by
    intro e
    rw [Bool.eq_iff_iff]
    simp only [beq_iff_eq, Bool.and_eq_true, tupleOf, toVector, toCell]
    cases b.byRow <;> cases m.byRow <;> simp [Prod.ext_iff, and_comm]
  have hvalues := h.laid.valuesAt_entries (m.toVector row col).1 (m.toVector row col).2
  unfold valuesAt at hvalues
  rw [landed, h.laid.tuples_eq, List.filter_map, List.filterMap_map,
    show ((fun t : Tuple => b.toVector t.row t.col ==
      ((b.toVector row col).1, (b.toVector row col).2)) ∘ m.tupleOf) =
      fun e => e.j == (m.toVector row col).2 && e.i == (m.toVector row col).1 from funext hplace,
    show ((fun t : Tuple => t.value.cast b.type) ∘ m.tupleOf) =
      (·.cast b.type) ∘ IndexEntry.value from rfl, ← List.filterMap_map, hvalues, cell,
    value_of_settled hp]
  cases m.stored (m.toVector row col).1 (m.toVector row col).2 with
  | none => rfl
  | some v => cases hv : v.cast b.type <;> simp [hv]

theorem foldOnto_toList (f : Scalar → Scalar → Scalar) (o : Option Scalar) :
    foldOnto f none o.toList = o := by
  cases o <;> rfl

/-- Where the tuples of a matrix are accepted, its values can be cast. -/
theorem Inv.cast_of_noFault (h : m.Inv) (hp : m.pending = none) {b : Matrix}
    (hfault : b.tupleFault m.tuples.toList = none) {row col : Nat} {v : Scalar}
    (hv : m.cell row col = some v) : (v.cast b.type).isSome :=
  (tupleFault_eq_none_iff.1 hfault ⟨row, col, v⟩ ((h.mem_tuples hp).2 hv)).2.2

/-- **A matrix built from the tuples of another** holds its content, cast. -/
theorem ensures_rebuilt {σ : Type} {s : σ} (h : m.Inv) (hp : m.pending = none) (type : ScalarType)
    (byRow : Bool) (op : DupOp) (hlimit : options.maxDenseCells < UInt64.size) :
    Ensures (ofTuples type m.nrows m.ncols byRow m.tuples.toList op options) s
      (fun r t => t = s ∧ r.Inv ∧ (blank type m.nrows m.ncols byRow options).SameShape r ∧
        r.deferred = false ∧ (∀ row col, r.cell row col = (m.cell row col).bind (·.cast type)) ∧
        ∀ row col v, m.cell row col = some v → (v.cast type).isSome)
      (fun e t => t = s ∧ (e.OfMemory ∨ e = .domainMismatch m.type type ∧
        m.type.castable type = false ∧ ∃ row col v, m.cell row col = some v)) := by
  refine (ensures_ofTuples m.tuples.toList op hlimit).mono ?_ ?_
  · rintro r _ ⟨rfl, hinv, hs, hdef, hfault, hvalue⟩
    refine ⟨rfl, hinv, hs, hdef, fun row col => ?_, fun row col v hv => ?_⟩
    · have hplace : r.toVector row col =
          (blank type m.nrows m.ncols byRow options).toVector row col := by
        rw [toVector, toVector, hs.byRow]
      rw [cell, hplace, hvalue, h.landed_tuples hp, foldOnto_toList]
      rfl
    · exact h.cast_of_noFault hp hfault hv
  · rintro e _ ⟨rfl, he⟩
    refine ⟨rfl, ?_⟩
    rcases he with ⟨he, -⟩ | ⟨hdim, -⟩ | he
    · exact .inl he
    · have := h.nrows_le
      have := h.ncols_le
      omega
    · have hts : ∀ t ∈ m.tuples.toList, t.row < m.nrows ∧ t.col < m.ncols ∧ t.value.type = m.type :=
        fun t ht => h.laid.tuples_spec ht
      obtain ⟨hmismatch, hcast⟩ :=
        tupleFault_of_type (m := blank type m.nrows m.ncols byRow options) hts he
      refine .inr ⟨hmismatch, hcast, ?_⟩
      cases hl : m.tuples.toList with
      | nil => rw [hl] at he; cases he
      | cons u us => exact ⟨u.row, u.col, u.value, (h.mem_tuples hp).1 (hl ▸ List.mem_cons_self)⟩

/-- A committed copy. -/
theorem ensures_committed {σ : Type} {s : σ} (h : m.Inv) : Ensures (settle m wait) s
    (fun r t => t = s ∧ r.Inv ∧ m.Keeps r ∧ r.deferred = false) (fun e t => t = s ∧ e.OfMemory) :=
  ensures_settle (ensures_wait h) (fun _ hr => ⟨rfl, hr⟩) fun _ _ he => ⟨rfl, he.1⟩

/-- A value is its own cast to the type of its matrix. -/
theorem Inv.cast_cell (h : m.Inv) (row col : Nat) :
    (m.cell row col).bind (·.cast m.type) = m.cell row col := by
  cases hv : m.cell row col with
  | none => rfl
  | some v =>
    have hty : v.type = m.type := h.value_type hv
    rw [Option.bind_some, ← hty, v.cast_self]

/-- **The other orientation** holds the same content. -/
theorem ensures_reoriented {σ : Type} {s : σ} (h : m.Inv) (byRow : Bool) :
    Ensures (m.reoriented byRow) s
      (fun r t => t = s ∧ r.Inv ∧ r.type = m.type ∧ r.nrows = m.nrows ∧ r.ncols = m.ncols ∧
        r.byRow = byRow ∧ r.options = m.options ∧ r.cell = m.cell ∧
        (byRow ≠ m.byRow → r.deferred = false))
      (fun e t => t = s ∧ e.OfMemory) := by
  unfold reoriented
  refine ensures_ite (fun hb => ensures_pure
    ⟨rfl, h, rfl, rfl, rfl, hb.symm, rfl, rfl, fun hne => absurd hb hne⟩) fun _ => ?_
  refine (ensures_committed h).bind ?_
  rintro src _ ⟨rfl, hinv, hkeeps, hdef⟩
  rw [← hkeeps.nrows, ← hkeeps.ncols]
  refine (ensures_rebuilt hinv (deferred_eq_false_iff.1 hdef).1 _ _ .second h.denseLimit).mono ?_ ?_
  · rintro r _ ⟨rfl, hrinv, hs, hrdef, hcell, -⟩
    refine ⟨rfl, hrinv, hs.type, hs.nrows, hs.ncols, hs.byRow, hs.options, ?_, fun _ => hrdef⟩
    funext row col
    rw [hcell, ← hkeeps.type, hinv.cast_cell, hkeeps.cell]
  · rintro e _ ⟨rfl, he | ⟨-, hcast, -⟩⟩
    · exact ⟨rfl, he⟩
    · rw [hkeeps.type, m.type.castable_self] at hcast
      cases hcast

/-- Why an assignment from `src` may be refused: its shape, or values that cannot be cast. -/
def AssignFault (m src : Matrix) (e : GraphError) : Prop :=
  (src.nrows ≠ m.nrows ∨ src.ncols ≠ m.ncols) ∧
      e = .dimensionMismatch .assign (m.nrows, m.ncols) (src.nrows, src.ncols) ∨
    (src.type.castable m.type = false ∧ ∃ row col v, src.cell row col = some v) ∧
      e = .domainMismatch src.type m.type

/-- Taking over index and queue of a matrix of the same shape. -/
theorem Inv.adopted {src : Matrix} (h : m.Inv) (hs : src.Inv) (htype : src.type = m.type)
    (hbyRow : src.byRow = m.byRow) (hr : src.nrows = m.nrows) (hc : src.ncols = m.ncols) :
    ({ m with
      store := src.store, iso := src.iso, pending := src.pending, zombies := src.zombies
      jumbled := src.jumbled } : Matrix).Inv ∧
    ({ m with
      store := src.store, iso := src.iso, pending := src.pending, zombies := src.zombies
      jumbled := src.jumbled } : Matrix).cell = src.cell := by
  obtain ⟨hl, -, -, -, hq⟩ := hs
  obtain ⟨-, hnr, hnc, hlimit, -⟩ := h
  obtain ⟨type, nrows, ncols, byRow, store, iso, pending, zombies, jumbled, options⟩ := m
  dsimp only at *
  subst htype hbyRow hr hc
  refine ⟨⟨⟨hl.cells_lt, hl.bits, hl.indexed, hl.sorted, hl.zombies, hl.calm, hl.values, hl.typed⟩,
    hnr, hnc, hlimit, fun q hp => ?_⟩, rfl⟩
  obtain ⟨hne, hcast, hall⟩ := hq q hp
  exact ⟨hne, hcast, fun t ht =>
    ⟨(hall t ht).index_lt, (hall t ht).vector_lt, (hall t ht).missing, (hall t ht).carries⟩⟩

/-- **An assignment** replaces the content by that of another matrix, cast. If it fails, it is for the
dimensions, for the type or for want of memory, and nothing has changed. -/
theorem ensures_assignFrom {src : Matrix} (h : m.Inv) (hs : src.Inv) : Ensures (assignFrom src) m
    (fun _ t => t.Inv ∧ m.SameShape t ∧ src.nrows = m.nrows ∧ src.ncols = m.ncols ∧
      (∀ row col, t.cell row col = (src.cell row col).bind (·.cast m.type)) ∧
      ∀ row col v, src.cell row col = some v → (v.cast m.type).isSome)
    (fun e t => t = m ∧ (e.OfMemory ∨ m.AssignFault src e)) := by
  unfold assignFrom
  refine ensures_subject (ensures_guard (fun hne => ⟨rfl, .inr (.inl ⟨hne, rfl⟩)⟩) fun heq => ?_)
  have hr : src.nrows = m.nrows := by
    by_contra hne; exact heq (.inl hne)
  have hc : src.ncols = m.ncols := by
    by_contra hne; exact heq (.inr hne)
  have hput : ∀ {copy : Matrix}, copy.Inv → copy.type = m.type → copy.byRow = m.byRow →
      copy.nrows = m.nrows → copy.ncols = m.ncols →
      (∀ row col, copy.cell row col = (src.cell row col).bind (·.cast m.type)) →
      (∀ row col v, src.cell row col = some v → (v.cast m.type).isSome) →
      Ensures (put { m with
        store := copy.store, iso := copy.iso, pending := copy.pending, zombies := copy.zombies
        jumbled := copy.jumbled }) m
        (fun _ t => t.Inv ∧ m.SameShape t ∧ src.nrows = m.nrows ∧ src.ncols = m.ncols ∧
          (∀ row col, t.cell row col = (src.cell row col).bind (·.cast m.type)) ∧
          ∀ row col v, src.cell row col = some v → (v.cast m.type).isSome)
        (fun e t => t = m ∧ (e.OfMemory ∨ m.AssignFault src e)) := by
    intro copy hinv htype hbyRow hcr hcc hcell hall
    obtain ⟨hinv', hcell'⟩ := h.adopted hinv htype hbyRow hcr hcc
    exact ensures_put ⟨hinv', ⟨rfl, rfl, rfl, rfl, rfl⟩, hr, hc, fun row col => by
      rw [hcell', hcell], hall⟩
  dsimp only
  refine ensures_ite (fun _ => ?_) fun hsame => ?_
  · refine (ensures_committed hs).andThen (fun e _ he => ⟨he.1, .inl he.2⟩) ?_
    rintro copy t ⟨ht, hinv, hkeeps, hdef⟩
    have hbuild := ensures_rebuilt (s := t) hinv (deferred_eq_false_iff.1 hdef).1 m.type m.byRow .second
      h.denseLimit
    subst ht
    rw [hkeeps.nrows, hkeeps.ncols, hr, hc] at hbuild
    refine hbuild.andThen ?_ ?_
    · rintro e _ ⟨rfl, he | ⟨he, hcast⟩⟩
      · exact ⟨rfl, .inl he⟩
      · rw [hkeeps.type] at he hcast
        rw [hkeeps.cell] at hcast
        exact ⟨rfl, .inr (.inr ⟨hcast, he⟩)⟩
    · rintro r _ ⟨rfl, hrinv, hshape, -, hcell, hall⟩
      rw [hkeeps.cell] at hcell hall
      exact hput hrinv hshape.type hshape.byRow hshape.nrows hshape.ncols hcell hall
  · simp only [pure_bind]
    rw [not_or, not_not, not_not] at hsame
    refine hput hs hsame.2 hsame.1 hr hc (fun row col => ?_) fun row col v hv => ?_
    · rw [← hsame.2, hs.cast_cell]
    · have hty : v.type = m.type := (hs.value_type hv).trans hsame.2
      rw [← hty, v.cast_self]
      rfl

end Matrix

end Adjacency
