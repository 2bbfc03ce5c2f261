import Adjacency.Proofs.GuardedWriting
import Adjacency.Proofs.Reachable

/-!
# No call meets a fault

Copies and kernels, guarded like the other calls, and what follows for every matrix there can be.

* `Guarded.reoriented`, `Guarded.assignFrom`, `Guarded.product`, `Guarded.union`: the guarded calls on whole
  matrices.
* `Matrix.SafeWith`: every call on a matrix is safe.
* `Matrix.Reachable.safeWith`: **so it is, whatever calls led to the matrix, those that failed included.**
-/

namespace Adjacency

namespace Guarded

variable {σ : Type}

/-- A committed matrix of the given tuples. Queueing them only appends. -/
def ofTuples (w : Words) (type : ScalarType) (nrows ncols : Nat) (byRow : Bool) (tuples : List Tuple)
    (op : DupOp) (options : MatrixOptions) : Guarded σ Matrix := do
  let m ← require (Matrix.withOptions type nrows ncols options)
  settle { m with byRow } do
    lift (Matrix.queueTuples op tuples)
    wait w

/-- The same content in the given orientation. -/
def reoriented (w : Words) (m : Matrix) (byRow : Bool) : Guarded σ Matrix := do
  if byRow = m.byRow then return m
  else
    let src ← settle m (wait w)
    let entries ← access (tuples w src)
    ofTuples w m.type m.nrows m.ncols byRow entries.toList .second m.options

/-- Replaces the content by that of `src`, cast and reoriented as needed. -/
def assignFrom (w : Words) (src : Matrix) : Guarded Matrix Unit := do
  let m ← subject
  if src.nrows ≠ m.nrows ∨ src.ncols ≠ m.ncols then
    refuse (.dimensionMismatch .assign (m.nrows, m.ncols) (src.nrows, src.ncols))
  let src ←
    if src.byRow ≠ m.byRow ∨ src.type ≠ m.type then do
      let src ← settle src (wait w)
      let entries ← access (tuples w src)
      ofTuples w m.type m.nrows m.ncols m.byRow entries.toList .second m.options
    else pure src
  put { m with
    store := src.store, iso := src.iso, pending := src.pending, zombies := src.zombies
    jumbled := src.jumbled }

/-- A committed by-row matrix with the content of `m`. -/
def committedRows (w : Words) (m : Matrix) : Guarded σ Matrix :=
  if !m.byRow then reoriented w m true
  else if m.deferred then settle m (wait w)
  else pure m

/-- Adds a product at a column: to the sum there, or as a new last column. -/
def addProduct (s : Semiring) (ty : ScalarType) (out : Array (Nat × Scalar)) (col : Nat) (v : Scalar) :
    Except Failure (Array (Nat × Scalar)) := do
  match out.findIdx? fun e => e.1 == col with
  | some k =>
    let (c, sum) ← read out k
    write out k (c, s.add ty sum v)
  | none => return out.push (col, v)

/-- One row of a product: for each entry of the left row, the right operand's row that it names. -/
def productRow (w : Words) (s : Semiring) (ty : ScalarType) (b : Matrix) (left : Array (Nat × Scalar)) :
    Except Failure (Array (Nat × Scalar)) :=
  left.toList.foldlM (fun out (k, av) => do
    (← vectorEntries w b k).foldlM (fun out (col, bv) => addProduct s ty out col (s.multiply ty av bv))
      out) #[]

/-- The entries of a product, row by row. -/
def productEntries (w : Words) (s : Semiring) (ty : ScalarType) (b : Matrix)
    (rows : Array (Nat × Array (Nat × Scalar))) : Except Failure (Array IndexEntry) := do
  let products ← rows.toList.mapM fun (row, left) => do
    return (← productRow w s ty b left).map fun (col, v) => (⟨row, col, v⟩ : IndexEntry)
  return products.toArray.flatten

/-- The product of two matrices. -/
def product (w : Words) (a b : Matrix) (s : Semiring) (options : MatrixOptions) : Guarded σ Matrix := do
  if a.ncols ≠ b.nrows then
    refuse (.dimensionMismatch .product (a.nrows, a.ncols) (b.nrows, b.ncols))
  let ty := s.outputType a.type
  let a ← committedRows w a
  let b ← committedRows w b
  let rows := Matrix.groupRows (← access (tuples w a))
  let entries ← access (productEntries w s ty b rows)
  let m ← require (Matrix.withOptions ty a.nrows b.ncols options)
  let store ← lift (Matrix.buildStorage rows.size entries)
  tally .product
  return { m with store, jumbled := Matrix.outOfOrder entries }

/-- The union of two matrices; where both have an entry, `op` combines them. -/
def union (w : Words) (a b : Matrix) (op : DupOp) (options : MatrixOptions) : Guarded σ Matrix := do
  if a.nrows ≠ b.nrows ∨ a.ncols ≠ b.ncols then
    refuse (.dimensionMismatch .union (a.nrows, a.ncols) (b.nrows, b.ncols))
  let a ← committedRows w a
  let b ← committedRows w b
  let left ← access (tuples w a)
  let right ← access (tuples w b)
  ofTuples w a.type a.nrows a.ncols true (left ++ right).toList op options

end Guarded

namespace Matrix

open Guarded

variable {m : Matrix} {w : Words}

section Copies

variable {σ : Type} {type : ScalarType} {nrows ncols : Nat} {byRow : Bool} {options : MatrixOptions}

/-- Building a matrix of tuples meets no fault. -/
theorem faultless_ofTuples (hcount : Counted w nrows ncols) (ts : List Tuple) (op : DupOp)
    (hlimit : options.maxDenseCells < UInt64.size) (s : σ) :
    Faultless (Guarded.ofTuples w type nrows ncols byRow ts op options)
      (ofTuples type nrows ncols byRow ts op options) s := by
  unfold Guarded.ofTuples ofTuples
  refine faultless_require fun b hb => ?_
  obtain ⟨hr, hc, rfl⟩ := withOptions_eq_ok_iff.1 hb
  obtain ⟨hinv, -⟩ : (blank type nrows ncols byRow options).Inv ∧
    ∀ i j, (blank type nrows ncols byRow options).value i j = none := inv_blank hr hc hlimit
  refine faultless_settle ?_ s
  refine (faultless_lift _ _).bind (ensures_queueTuples op hinv rfl rfl rfl) ?_
  rintro - t ⟨htinv, hshape, -, -⟩
  exact htinv.faultless_wait (Counted.of_sameShape hcount hshape)

/-- Nor does building one of the tuples of a committed copy. -/
theorem Inv.faultless_rebuilt (h : m.Inv) (hsrc : Counted w m.nrows m.ncols) (type : ScalarType)
    (hcount : Counted w nrows ncols) (byRow : Bool) (hlimit : options.maxDenseCells < UInt64.size)
    (s : σ) :
    Faultless (do
        let src ← Guarded.settle m (Guarded.wait w)
        let entries ← access (Guarded.tuples w src)
        Guarded.ofTuples w type nrows ncols byRow entries.toList .second options)
      (do
        let src ← Metered.settle m wait
        ofTuples type nrows ncols byRow src.tuples.toList .second options) s := by
  refine (faultless_settle (h.faultless_wait hsrc) s).bind (ensures_committed h) ?_
  rintro src _ ⟨rfl, hinv, -⟩
  exact faultless_access hinv.laid.guarded_tuples (faultless_ofTuples hcount _ _ hlimit _)

/-- **The other orientation** is built without a fault. -/
theorem Inv.faultless_reoriented (h : m.Inv) (hcount : Counted w m.nrows m.ncols) (byRow : Bool) (s : σ) :
    Faultless (Guarded.reoriented w m byRow) (m.reoriented byRow) s := by
  unfold Guarded.reoriented reoriented
  refine faultless_ite (fun _ => faultless_pure _ _) fun _ => ?_
  exact h.faultless_rebuilt hcount _ hcount _ h.denseLimit s

theorem Inv.faultless_committedRows (h : m.Inv) (hcount : Counted w m.nrows m.ncols) (s : σ) :
    Faultless (Guarded.committedRows w m) m.committedRows s := by
  unfold Guarded.committedRows committedRows
  refine faultless_ite (fun _ => h.faultless_reoriented hcount true s) fun _ => ?_
  exact faultless_ite (fun _ => faultless_settle (h.faultless_wait hcount) s) fun _ => faultless_pure _ _

/-- **An assignment** meets no fault. -/
theorem Inv.faultless_assignFrom {src : Matrix} (h : m.Inv) (hs : src.Inv)
    (hcount : Counted w m.nrows m.ncols) (hsrc : Counted w src.nrows src.ncols) :
    Faultless (Guarded.assignFrom w src) (assignFrom src) m := by
  unfold Guarded.assignFrom assignFrom
  refine faultless_subject (faultless_ite (fun _ => faultless_refuse _ _) fun _ => ?_)
  dsimp only
  refine faultless_ite (fun _ => ?_) fun _ => ?_
  · have hinstall : ∀ (c t : Matrix), Faultless (put { m with
        store := c.store, iso := c.iso, pending := c.pending, zombies := c.zombies, jumbled := c.jumbled })
        (Metered.put { m with
          store := c.store, iso := c.iso, pending := c.pending, zombies := c.zombies
          jumbled := c.jumbled }) t := fun _ _ => faultless_lift _ _
    have hcopied := (hs.faultless_rebuilt hsrc m.type hcount m.byRow h.denseLimit m).andThen hinstall
    simpa only [bind_assoc] using hcopied
  · simp only [pure_bind]
    exact faultless_lift _ _

end Copies

/-! ## Kernels -/

section Kernels

variable {σ : Type} {a b : Matrix}

theorem guarded_addProduct (s : Semiring) (ty : ScalarType) (out : Array (Nat × Scalar)) (col : Nat)
    (v : Scalar) : Guarded.addProduct s ty out col v = .ok (addProduct s ty out col v) := by
  unfold Guarded.addProduct addProduct
  cases hf : out.findIdx? fun e => e.1 == col with
  | none => rfl
  | some k =>
    have hlt : k < out.size := (Array.findIdx?_eq_some_iff_getElem.1 hf).1
    simp only [bind, Except.bind, read_of_lt default hlt, write_of_lt hlt]
    rw [modify_eq_setIfInBounds default _ hlt]

theorem Laid.guarded_productRow (h : b.Laid) (s : Semiring) (ty : ScalarType)
    (left : Array (Nat × Scalar)) :
    Guarded.productRow w s ty b left = .ok (productRow s ty b left) := by
  unfold Guarded.productRow productRow
  rw [← Array.foldl_toList]
  refine foldlM_eq_ok (fun _ => True) trivial fun ⟨k, av⟩ _ out _ => ⟨?_, trivial⟩
  dsimp only
  rw [h.guarded_vectorEntries k]
  exact foldlM_eq_ok (fun _ => True) trivial fun ⟨col, bv⟩ _ out _ =>
    ⟨guarded_addProduct s ty out col _, trivial⟩

theorem Laid.guarded_productEntries (h : b.Laid) (s : Semiring) (ty : ScalarType)
    (rows : Array (Nat × Array (Nat × Scalar))) :
    Guarded.productEntries w s ty b rows = .ok (productEntries s ty b rows) := by
  -- each row is a product row of its own; the rows are then put one behind the other
  have hrows : ∀ r ∈ rows.toList, (do
      return (← Guarded.productRow w s ty b r.2).map fun (col, v) => (⟨r.1, col, v⟩ : IndexEntry)) =
      Except.ok ((productRow s ty b r.2).map fun (col, v) => (⟨r.1, col, v⟩ : IndexEntry)) := by
    intro r _
    rw [h.guarded_productRow]
    rfl
  unfold Guarded.productEntries
  rw [mapM_eq_ok hrows]
  refine congrArg Except.ok (Array.toList_inj.1 ?_)
  rw [productEntries, Array.toList_flatMap, List.flatMap_def]
  simp only [Array.toList_flatten, List.map_map]
  rfl

/-- **A product** meets no fault. -/
theorem Inv.faultless_product (ha : a.Inv) (hb : b.Inv) (hacount : Counted w a.nrows a.ncols)
    (hbcount : Counted w b.nrows b.ncols) (s : Semiring) (options : MatrixOptions) (t : σ) :
    Faultless (Guarded.product w a b s options) (a.product b s options) t := by
  unfold Guarded.product product
  refine faultless_ite (fun _ => faultless_refuse _ _) fun _ => ?_
  refine (ha.faultless_committedRows hacount t).bind (ensures_committedRows ha) ?_
  rintro a' _ ⟨rfl, hac⟩
  refine (hb.faultless_committedRows hbcount _).bind (ensures_committedRows hb) ?_
  rintro b' _ ⟨rfl, hbc⟩
  refine faultless_access hac.inv.laid.guarded_tuples ?_
  refine faultless_access (hbc.inv.laid.guarded_productEntries s _ _) ?_
  refine faultless_require fun _ _ => ?_
  exact (faultless_lift _ _).andThen fun _ _ => (faultless_lift _ _).andThen fun _ _ => faultless_pure _ _

/-- **A union** meets no fault. -/
theorem Inv.faultless_union (ha : a.Inv) (hb : b.Inv) (hacount : Counted w a.nrows a.ncols)
    (hbcount : Counted w b.nrows b.ncols) (op : DupOp) {options : MatrixOptions}
    (hlimit : options.maxDenseCells < UInt64.size) (t : σ) :
    Faultless (Guarded.union w a b op options) (a.union b op options) t := by
  unfold Guarded.union union
  refine faultless_ite (fun _ => faultless_refuse _ _) fun _ => ?_
  refine (ha.faultless_committedRows hacount t).bind (ensures_committedRows ha) ?_
  rintro a' _ ⟨rfl, hac⟩
  refine (hb.faultless_committedRows hbcount _).bind (ensures_committedRows hb) ?_
  rintro b' _ ⟨rfl, hbc⟩
  refine faultless_access hac.inv.laid.guarded_tuples (faultless_access hbc.inv.laid.guarded_tuples ?_)
  exact faultless_ofTuples (by rwa [hac.nrows, hac.ncols]) _ _ hlimit _

end Kernels

/-! ## Failures that show no broken rule -/

theorem not_fatal_of_memory {e : GraphError} (h : e.OfMemory) : e.fatal = false := by
  obtain ⟨site, rfl⟩ := h
  rfl

theorem not_fatal_of_checkBounds {e : GraphError} {row col : Nat} (h : m.checkBounds row col = .error e) :
    e.fatal = false := by
  unfold checkBounds at h
  split at h
  · cases h
    rfl
  · split at h
    · cases h
      rfl
    · cases h

theorem not_fatal_of_castIn {e : GraphError} {v : Scalar} (h : m.castIn v = .error e) : e.fatal = false := by
  unfold castIn at h
  split at h
  · cases h
  · cases h
    rfl

/-- Outside the matrix a lookup fails for its bounds; inside it does not fail. -/
theorem Inv.not_fatal_of_extract (h : m.Inv) {e : GraphError} {row col : Nat}
    (he : m.extract row col = .error e) : e.fatal = false := by
  cases hb : m.checkBounds row col with
  | error e' =>
    rw [extract, hb] at he
    cases he
    exact not_fatal_of_checkBounds hb
  | ok u =>
    obtain ⟨hr, hc⟩ := checkBounds_ok hb
    rw [h.extract_eq hr hc] at he
    cases he

/-! ## Every call on every matrix -/

/-- Every call on `m`, with `other` as the second operand where there is one, is safe in the words there
are. -/
structure SafeWith (m other : Matrix) : Prop where
  setElement (v : Scalar) (row col : Nat) :
    Safe (Guarded.setElement .wrapping v row col) (setElement v row col) m
  accumulate (v : Scalar) (row col : Nat) (op : DupOp) :
    Safe (Guarded.accumulate .wrapping v row col op) (accumulate v row col op) m
  remove (row col : Nat) : Safe (Guarded.remove .wrapping row col) (remove row col) m
  extract (row col : Nat) : Guarded.extract .wrapping m row col = raise (m.extract row col) ∧
    ∀ e, m.extract row col = .error e → e.fatal = false
  wait : Safe (Guarded.wait .wrapping) wait m
  nvals : Safe (Guarded.nvals .wrapping) nvals m
  resize (nrows ncols : Nat) : Safe (Guarded.resize .wrapping nrows ncols) (resize nrows ncols) m
  assignFrom : Safe (Guarded.assignFrom .wrapping other) (assignFrom other) m
  reoriented {σ : Type} (byRow : Bool) (s : σ) :
    Safe (Guarded.reoriented .wrapping m byRow) (m.reoriented byRow) s
  product {σ : Type} (k : Semiring) (options : MatrixOptions) (hlimit : options.maxDenseCells < UInt64.size)
    (s : σ) : Safe (Guarded.product .wrapping m other k options) (m.product other k options) s
  union {σ : Type} (op : DupOp) (options : MatrixOptions) (hlimit : options.maxDenseCells < UInt64.size)
    (s : σ) : Safe (Guarded.union .wrapping m other op options) (m.union other op options) s
  next (c : Cursor) : Guarded.next .wrapping c m = .ok (c.next m)
  tuples : Guarded.tuples .wrapping m = .ok m.tuples

variable {other : Matrix}

theorem Inv.safe_accumulate (h : m.Inv) (v : Scalar) (row col : Nat) (op : DupOp) :
    Safe (Guarded.accumulate .wrapping v row col op) (accumulate v row col op) m := by
  refine ⟨h.faultless_accumulate (counted_wrapping _ _) v row col op,
    (ensures_accumulate h v row col op).mono ?_ ?_⟩
  · intros; trivial
  · rintro e t ⟨-, -, he | he | he⟩
    · exact not_fatal_of_memory he
    · exact not_fatal_of_checkBounds he
    · exact not_fatal_of_castIn he

theorem Inv.safe_remove (h : m.Inv) (row col : Nat) :
    Safe (Guarded.remove .wrapping row col) (remove row col) m := by
  refine ⟨h.faultless_remove (counted_wrapping _ _) row col, (ensures_remove h row col).mono ?_ ?_⟩
  · intros; trivial
  · rintro e t ⟨-, -, he | he⟩
    · exact not_fatal_of_memory he
    · exact not_fatal_of_checkBounds he

theorem Inv.safe_resize (h : m.Inv) (nrows ncols : Nat) :
    Safe (Guarded.resize .wrapping nrows ncols) (resize nrows ncols) m := by
  refine ⟨h.faultless_resize (counted_wrapping _ _), (ensures_resize h nrows ncols).mono ?_ ?_⟩
  · intros; trivial
  · rintro e t ⟨-, -, he | ⟨-, ⟨-, rfl⟩ | ⟨-, rfl⟩⟩⟩
    · exact not_fatal_of_memory he
    · rfl
    · rfl

theorem Inv.safe_assignFrom (h : m.Inv) (ho : other.Inv) :
    Safe (Guarded.assignFrom .wrapping other) (assignFrom other) m := by
  refine ⟨h.faultless_assignFrom ho (counted_wrapping _ _) (counted_wrapping _ _),
    (ensures_assignFrom h ho).mono ?_ ?_⟩
  · intros; trivial
  · rintro e t ⟨-, he | ⟨-, rfl⟩ | ⟨-, rfl⟩⟩
    · exact not_fatal_of_memory he
    · rfl
    · rfl

section Kernels

variable {σ : Type} {options : MatrixOptions}

theorem Inv.safe_product (h : m.Inv) (ho : other.Inv) (k : Semiring)
    (hlimit : options.maxDenseCells < UInt64.size) (s : σ) :
    Safe (Guarded.product .wrapping m other k options) (m.product other k options) s := by
  refine ⟨h.faultless_product ho (counted_wrapping _ _) (counted_wrapping _ _) k options s,
    (ensures_product h ho k hlimit).mono ?_ ?_⟩
  · intros; trivial
  · rintro e t ⟨-, he | ⟨-, rfl⟩⟩
    · exact not_fatal_of_memory he
    · rfl

theorem Inv.safe_union (h : m.Inv) (ho : other.Inv) (op : DupOp)
    (hlimit : options.maxDenseCells < UInt64.size) (s : σ) :
    Safe (Guarded.union .wrapping m other op options) (m.union other op options) s := by
  refine ⟨h.faultless_union ho (counted_wrapping _ _) (counted_wrapping _ _) op hlimit s,
    (ensures_union h ho op hlimit).mono ?_ ?_⟩
  · intros; trivial
  · rintro e t ⟨-, he | ⟨-, rfl⟩ | ⟨-, -, rfl⟩⟩
    · exact not_fatal_of_memory he
    · rfl
    · rfl

end Kernels

/-- On matrices in order every call is safe. -/
theorem Inv.allSafe (h : m.Inv) (ho : other.Inv) : m.SafeWith other where
  setElement v row col := h.safe_accumulate v row col .second
  accumulate := h.safe_accumulate
  remove := h.safe_remove
  extract row col := ⟨h.guarded_extract row col, fun _ he => h.not_fatal_of_extract he⟩
  wait := ⟨h.faultless_wait (counted_wrapping _ _), (ensures_wait h).mono (fun _ _ _ => trivial)
    fun _ _ he => not_fatal_of_memory he.1⟩
  nvals := ⟨h.faultless_nvals (counted_wrapping _ _), (ensures_nvals h).mono (fun _ _ _ => trivial)
    fun _ _ he => not_fatal_of_memory he.1⟩
  resize := h.safe_resize
  assignFrom := h.safe_assignFrom ho
  reoriented byRow s := ⟨h.faultless_reoriented (counted_wrapping _ _) byRow s,
    (ensures_reoriented h byRow).mono (fun _ _ _ => trivial) fun _ _ he => not_fatal_of_memory he.2⟩
  product k _ hlimit s := h.safe_product ho k hlimit s
  union op _ hlimit s := h.safe_union ho op hlimit s
  next := h.laid.guarded_next
  tuples := h.laid.guarded_tuples

/-- **No call meets a fault or a broken rule**, on any matrix that calls, failed ones included, lead to. -/
theorem Reachable.safeWith (h : m.Reachable) (ho : other.Reachable) : m.SafeWith other := h.inv.allSafe ho.inv

/-- A write queued without a value over an index that is still empty, and the transpose as the other operand. -/
theorem safeWith_queued_write : ∃ m : Matrix, m.pending.isSome = true ∧ m.iso = true ∧
    m.SafeWith m.transposed := by
  have hlimit : ({} : MatrixOptions).maxDenseCells < UInt64.size := by decide
  have hnew : withOptions .int64 3 4 {} = .ok (blank .int64 3 4 true {}) := rfl
  have hm := (Reachable.created hlimit hnew).requested (r := .set (.int64 5) 1 2) (n := {}) trivial rfl
  exact ⟨_, rfl, rfl, Reachable.safeWith hm hm.transposed⟩

end Matrix

end Adjacency
