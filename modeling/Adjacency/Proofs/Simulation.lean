import Adjacency.Proofs.Copy

/-!
# A matrix is a map

Whatever the format, the queue and the tombstones, a matrix behaves as a plain map from cells to scalars.

* `Cells`: the map, and what each request does to it.
* `Matrix.Tracks`: a matrix with the map that it should hold, along any run of requests.
* `Matrix.Tracks.simulates`: **a matrix holds its map after every request, and answers as the map
  does.**
-/

namespace Adjacency

open Metered

/-- A map from rows and columns to scalars. -/
abbrev Cells := Nat → Nat → Option Scalar

namespace Cells

/-- The map without keys. -/
def empty : Cells := fun _ _ => none

/-- The keys of a map. -/
def keys (f : Cells) : Set (Nat × Nat) := {p | (f p.1 p.2).isSome}

/-- Sets or erases one key. -/
def put (f : Cells) (row col : Nat) (w : Option Scalar) : Cells := fun r c =>
  if r = row ∧ c = col then w else f r c

/-- Combines a value with the one at a key, if there is one. -/
def accumulate (f : Cells) (type : ScalarType) (op : DupOp) (v : Scalar) (row col : Nat) : Cells :=
  f.put row col (some (match f row col with
    | some old => op.apply type old v
    | none => v))

/-- Exchanges the coordinates of every key. -/
def swap (f : Cells) : Cells := fun row col => f col row

/-- Casts every value. -/
def castTo (f : Cells) (type : ScalarType) : Cells := fun row col => (f row col).bind (·.cast type)

/-- Tuples written one after the other. -/
def ofTuples (type : ScalarType) (op : DupOp) (ts : List Tuple) : Cells :=
  ts.foldl (fun f t => match t.value.cast type with
    | some v => f.accumulate type op v t.row t.col
    | none => f) empty

end Cells

namespace Matrix

/-- A request that changes a matrix or counts its entries. -/
inductive Request
  | set (v : Scalar) (row col : Nat)
  | accumulate (v : Scalar) (row col : Nat) (op : DupOp)
  | remove (row col : Nat)
  | wait
  | nvals
  | resize (nrows ncols : Nat)
  | clear
  | setOptions (options : MatrixOptions)

/-- What a request returns. -/
inductive Answer
  | done
  | removed (was : Bool)
  | count (n : Nat)

namespace Request

/-- The request, acted out. -/
def perform : Request → Metered Matrix Answer
  | set v row col => do discard (setElement v row col); return .done
  | accumulate v row col op => do discard (Matrix.accumulate v row col op); return .done
  | remove row col => do return .removed (← Matrix.remove row col)
  | wait => do Matrix.wait; return .done
  | nvals => do return .count (← Matrix.nvals)
  | resize nrows ncols => do Matrix.resize nrows ncols; return .done
  | clear => do Matrix.clear; return .done
  | setOptions options => do Matrix.setOptions options; return .done

/-- What the request does to a map of values of a type. -/
def effect (type : ScalarType) : Request → Cells → Cells
  | set v row col, f => f.put row col (v.cast type)
  | accumulate v row col op, f => match v.cast type with
    | some w => f.accumulate type op w row col
    | none => f
  | remove row col, f => f.put row col none
  | clear, _ => .empty
  | wait, f | nvals, f | resize _ _, f | setOptions _, f => f

/-- The answer that a map of values of a type gives. A value is only written when it can be cast. -/
def Answers (type : ScalarType) (f : Cells) : Request → Answer → Prop
  | set v _ _, a => a = .done ∧ (v.cast type).isSome
  | accumulate v _ _ _, a => a = .done ∧ (v.cast type).isSome
  | remove row col, a => a = .removed (f row col).isSome
  | nvals, a => a = .count f.keys.ncard
  | wait, a | resize _ _, a | clear, a | setOptions _, a => a = .done

/-- Options carry their cell limit in a word. -/
def Sized : Request → Prop
  | setOptions options => options.maxDenseCells < UInt64.size
  | _ => True

end Request

/-- A matrix with the map that it should hold, along a run of requests. A request that fails does nothing
to the map. -/
inductive Tracks : Matrix → Cells → Prop
  | created {type : ScalarType} {nrows ncols : Nat} {options : MatrixOptions} {m : Matrix}
      (hlimit : options.maxDenseCells < UInt64.size)
      (h : withOptions type nrows ncols options = .ok m) : Tracks m .empty
  | built {type : ScalarType} {nrows ncols : Nat} {byRow : Bool} {ts : List Tuple} {op : DupOp}
      {options : MatrixOptions} {m : Matrix} {s s' : Unit × CallCounts}
      (hlimit : options.maxDenseCells < UInt64.size)
      (h : ofTuples type nrows ncols byRow ts op options s = .ok m s') :
      Tracks m (.ofTuples type op ts)
  | requested {m : Matrix} {f : Cells} {r : Request} {a : Answer} {n : CallCounts}
      {s : Matrix × CallCounts} (h : Tracks m f) (hr : r.Sized) (hs : r.perform (m, n) = .ok a s) :
      Tracks s.1 (r.effect m.type f)
  | refused {m : Matrix} {f : Cells} {r : Request} {e : GraphError} {n : CallCounts}
      {s : Matrix × CallCounts} (h : Tracks m f) (hr : r.Sized) (hs : r.perform (m, n) = .error e s) :
      Tracks s.1 f
  | transposed {m : Matrix} {f : Cells} (h : Tracks m f) : Tracks m.transposed f.swap
  | reoriented {m m' : Matrix} {f : Cells} {byRow : Bool} {s s' : Unit × CallCounts} (h : Tracks m f)
      (hs : m.reoriented byRow s = .ok m' s') : Tracks m' f
  | assigned {m src : Matrix} {f g : Cells} {n : CallCounts} {s : Matrix × CallCounts} (h : Tracks m f)
      (hsrc : Tracks src g) (hs : assignFrom src (m, n) = .ok () s) : Tracks s.1 (g.castTo m.type)
  | unassigned {m src : Matrix} {f g : Cells} {e : GraphError} {n : CallCounts}
      {s : Matrix × CallCounts} (h : Tracks m f) (hsrc : Tracks src g)
      (hs : assignFrom src (m, n) = .error e s) : Tracks s.1 f

variable {m m' : Matrix} {f : Cells}

/-- One place of a matrix is one key of its map. -/
theorem Puts.cell {row col : Nat} {w : Option Scalar}
    (h : m.Puts m' (m.toVector row col).1 (m.toVector row col).2 w) :
    m'.cell = Cells.put m.cell row col w := by
  funext r c
  have hplace : m'.toVector r c = m.toVector r c := by rw [toVector, toVector, h.byRow]
  have hiff : ((m.toVector r c).1 = (m.toVector row col).1 ∧
      (m.toVector r c).2 = (m.toVector row col).2) ↔ r = row ∧ c = col := by
    unfold toVector
    cases m.byRow <;> simp [and_comm]
  rw [Cells.put, Matrix.cell, hplace]
  by_cases hp : r = row ∧ c = col
  · rw [if_pos hp, (hiff.2 hp).1, (hiff.2 hp).2, h.here]
  · rw [if_neg hp, h.elsewhere _ _ fun hc => hp (hiff.1 hc)]
    rfl

theorem foldOnto_accumulate (m : Matrix) (op : DupOp) (v : Scalar) (row col : Nat) :
    Cells.put m.cell row col (foldOnto (op.apply m.type) (m.cell row col) [v]) =
      Cells.accumulate m.cell m.type op v row col := rfl

/-- The map of some tuples is the fold of what lands in each cell. -/
theorem cells_ofTuples (m : Matrix) (op : DupOp) (ts : List Tuple) (row col : Nat) :
    foldOnto (op.apply m.type) none (m.landed ts (m.toVector row col).1 (m.toVector row col).2) =
      Cells.ofTuples m.type op ts row col := by
  have key : ∀ f : Cells, foldOnto (op.apply m.type) (f row col)
      (m.landed ts (m.toVector row col).1 (m.toVector row col).2) =
      ts.foldl (fun f t => match t.value.cast m.type with
        | some v => f.accumulate m.type op v t.row t.col
        | none => f) f row col := by
    induction ts with
    | nil => exact fun _ => rfl
    | cons t ts ih =>
      intro f
      have hiff : ((m.toVector t.row t.col).1 = (m.toVector row col).1 ∧
          (m.toVector t.row t.col).2 = (m.toVector row col).2) ↔ row = t.row ∧ col = t.col := by
        unfold toVector
        cases m.byRow <;> simp [and_comm, eq_comm]
      rw [List.foldl_cons, ← ih]
      cases hv : t.value.cast m.type with
      | none =>
        congr 1
        unfold landed
        rw [List.filter_cons]
        split
        · rw [List.filterMap_cons, hv]
        · rfl
      | some v =>
        rw [landed_cons hv, foldOnto_append]
        congr 1
        by_cases hp : row = t.row ∧ col = t.col
        · obtain ⟨rfl, rfl⟩ := hp
          rw [if_pos ⟨rfl, rfl⟩]
          simp only [Cells.accumulate, Cells.put, and_self, if_true]
          rfl
        · rw [if_neg fun hc => hp (hiff.1 hc)]
          simp only [Cells.accumulate, Cells.put, if_neg hp]
          rfl
  exact key .empty

/-- The entries of a committed matrix are as many as its cells with a value. -/
theorem Inv.ncard_keys (h : m.Inv) (hp : m.pending = none) :
    (Cells.keys m.cell).Finite ∧ m.entries.length = (Cells.keys m.cell).ncard := by
  have hmem : ∀ p : Nat × Nat, p ∈ Cells.keys m.cell ↔
      p ∈ (m.entries.map fun e => m.toCell e.i e.j).toFinset := by
    intro p
    rw [List.mem_toFinset, List.mem_map]
    change (m.value (m.toVector p.1 p.2).1 (m.toVector p.1 p.2).2).isSome ↔ _
    rw [value_of_settled hp, Option.isSome_iff_exists]
    constructor
    · rintro ⟨v, hv⟩
      exact ⟨⟨_, _, v⟩, h.laid.mem_entries.2 hv, toCell_toVector _ _⟩
    · rintro ⟨e, he, rfl⟩
      rw [toVector_toCell]
      exact ⟨e.value, h.laid.mem_entries.1 he⟩
  have hset : Cells.keys m.cell = ↑(m.entries.map fun e => m.toCell e.i e.j).toFinset :=
    Set.ext fun p => by rw [hmem, Finset.mem_coe]
  have hnodup : (m.entries.map fun e => m.toCell e.i e.j).Nodup := by
    refine List.pairwise_map.2 (h.laid.entries_distinct.imp fun {a b} hne hc => hne ?_)
    have := congrArg (fun p : Nat × Nat => m.toVector p.1 p.2) hc
    simp only [toVector_toCell, Prod.mk.injEq] at this
    exact ⟨this.2, this.1⟩
  rw [hset, Set.ncard_coe_finset, List.toFinset_card_of_nodup hnodup, List.length_map]
  exact ⟨Finset.finite_toSet _, rfl⟩

/-- **One request** does to the matrix what it does to its map, or fails and does nothing. -/
theorem Inv.ensures_perform (h : m.Inv) {r : Request} (hr : r.Sized) : Ensures r.perform m
    (fun a t => t.Inv ∧ t.type = m.type ∧ t.cell = r.effect m.type m.cell ∧ r.Answers m.type m.cell a)
    (fun _ t => t.Inv ∧ t.type = m.type ∧ t.cell = m.cell) := by
  have hkept : ∀ {t : Matrix}, t.Inv → m.Keeps t → t.Inv ∧ t.type = m.type ∧ t.cell = m.cell :=
    fun ht hk => ⟨ht, hk.type, hk.cell⟩
  cases r with
  | set v row col =>
    refine (ensures_discard (ensures_accumulate h v row col .second)).andThen
      (fun _ t ht => hkept ht.1 ht.2.1) ?_
    rintro _ t ⟨ht, -, -, w, hw, hputs⟩
    refine ensures_pure ⟨ht, hputs.type, ?_, rfl, by rw [hw]; rfl⟩
    rw [hputs.cell, Request.effect, hw]
    cases m.cell row col <;> rfl
  | accumulate v row col op =>
    refine (ensures_discard (ensures_accumulate h v row col op)).andThen
      (fun _ t ht => hkept ht.1 ht.2.1) ?_
    rintro _ t ⟨ht, -, -, w, hw, hputs⟩
    refine ensures_pure ⟨ht, hputs.type, ?_, rfl, by rw [hw]; rfl⟩
    rw [hputs.cell, foldOnto_accumulate, Request.effect, hw]
  | remove row col =>
    refine (ensures_remove h row col).andThen (fun _ t ht => hkept ht.1 ht.2.1) ?_
    rintro was t ⟨ht, -, -, hputs, rfl⟩
    exact ensures_pure ⟨ht, hputs.type, hputs.cell, rfl⟩
  | wait =>
    refine (ensures_wait h).andThen (fun _ t ht => hkept ht.2.1 ht.2.2) ?_
    rintro _ t ⟨ht, hk, -⟩
    exact ensures_pure ⟨ht, hk.type, hk.cell, rfl⟩
  | nvals =>
    refine (ensures_nvals h).andThen (fun _ t ht => hkept ht.2.1 ht.2.2) ?_
    rintro n t ⟨ht, hk, hdef, rfl⟩
    refine ensures_pure ⟨ht, hk.type, hk.cell, ?_⟩
    change Answer.count _ = Answer.count _
    rw [(ht.ncard_keys (deferred_eq_false_iff.1 hdef).1).2, hk.cell]
  | resize nrows ncols =>
    refine (ensures_resize h nrows ncols).andThen
      (fun _ t ht => ⟨ht.1, ht.2.1.type, ht.2.1.cell⟩) ?_
    rintro _ t ⟨ht, hk, -, -⟩
    exact ensures_pure ⟨ht, hk.type, hk.cell, rfl⟩
  | clear =>
    obtain ⟨hinv, hs, hnone⟩ := h.cleared
    refine ensures_update_then (ensures_pure ⟨hinv, hs.type, ?_, rfl⟩)
    funext row col
    exact hnone _ _
  | setOptions options =>
    obtain ⟨hinv, hvalue⟩ := h.withOptions options hr
    exact ensures_update_then (ensures_pure ⟨hinv, rfl, rfl, rfl⟩)

/-- **Along any run the matrix is in order and its logical content is the map.** -/
theorem Tracks.inv (h : Tracks m f) : m.Inv ∧ m.cell = f := by
  induction h with
  | @created type nrows ncols options m hlimit h =>
    obtain ⟨hr, hc, rfl⟩ := withOptions_eq_ok_iff.1 h
    obtain ⟨hinv, hnone⟩ : (blank type nrows ncols true options).Inv ∧
      ∀ i j, (blank type nrows ncols true options).value i j = none := inv_blank hr hc hlimit
    exact ⟨hinv, funext fun row => funext fun col => hnone _ _⟩
  | @built type nrows ncols byRow ts op options m s s' hlimit h =>
    obtain ⟨-, hinv, hs, -, -, hvalue⟩ := (ensures_ofTuples ts op hlimit).of_ok h
    refine ⟨hinv, funext fun row => funext fun col => ?_⟩
    refine Eq.trans ?_ (cells_ofTuples (blank type nrows ncols byRow options) op ts row col)
    rw [cell, hvalue, toVector, hs.byRow]
    rfl
  | requested h hr hs ih =>
    obtain ⟨hinv, rfl⟩ := ih
    obtain ⟨hinv', -, hcell, -⟩ := (hinv.ensures_perform hr).of_ok hs
    exact ⟨hinv', hcell⟩
  | refused h hr hs ih =>
    obtain ⟨hinv, rfl⟩ := ih
    obtain ⟨hinv', -, hcell⟩ := (hinv.ensures_perform hr).of_error hs
    exact ⟨hinv', hcell⟩
  | transposed h ih =>
    obtain ⟨hinv, rfl⟩ := ih
    exact ⟨hinv.transposed.1, funext fun row => funext fun col => hinv.cell_transposed row col⟩
  | reoriented h hs ih =>
    obtain ⟨hinv, rfl⟩ := ih
    obtain ⟨-, hinv', -, -, -, -, -, hcell, -⟩ := (ensures_reoriented hinv _).of_ok hs
    exact ⟨hinv', hcell⟩
  | assigned h hsrc hs ih ihsrc =>
    obtain ⟨hinv, rfl⟩ := ih
    obtain ⟨hsinv, rfl⟩ := ihsrc
    obtain ⟨hinv', -, -, -, hcell, -⟩ := (ensures_assignFrom hinv hsinv).of_ok hs
    exact ⟨hinv', funext fun row => funext fun col => hcell row col⟩
  | unassigned h hsrc hs ih ihsrc =>
    obtain ⟨hinv, rfl⟩ := ih
    obtain ⟨ht, -⟩ := (ensures_assignFrom hinv ihsrc.1).of_error hs
    rw [ht]
    exact ⟨hinv, rfl⟩

/-- **A matrix is a finite map.** After any run of requests, whatever is still deferred, every cell in
bounds reads as the map has it; the keys are finitely many, in bounds, and hold values of the element
type. Every request answers as the map does, and an assignment goes through only when every value of the
source can be cast. -/
theorem Tracks.simulates (h : Tracks m f) :
    (∀ row col, row < m.nrows → col < m.ncols → m.extract row col = .ok (f row col)) ∧
    f.keys.Finite ∧
    (∀ row col v, f row col = some v → row < m.nrows ∧ col < m.ncols ∧ v.type = m.type) ∧
    (∀ (r : Request) a n s, r.Sized → r.perform (m, n) = .ok a s → r.Answers m.type f a) ∧
    ∀ src g n s, Tracks src g → assignFrom src (m, n) = .ok () s →
      ∀ row col v, g row col = some v → (v.cast m.type).isSome := by
  obtain ⟨hinv, rfl⟩ := h.inv
  have hkeys : ∀ row col v, m.cell row col = some v →
      row < m.nrows ∧ col < m.ncols ∧ v.type = m.type := by
    intro row col v hv
    obtain ⟨hr, hc⟩ := hinv.lt_of_cell hv
    exact ⟨hr, hc, hinv.value_type hv⟩
  refine ⟨fun row col hr hc => hinv.extract_eq hr hc, ?_, hkeys, fun r a n s hr hs => ?_,
    fun src g n s hsrc hs => ?_⟩
  · refine ((Set.finite_Iio m.nrows).prod (Set.finite_Iio m.ncols)).subset fun p hp => ?_
    obtain ⟨v, hv⟩ := Option.isSome_iff_exists.1 (show (m.cell p.1 p.2).isSome from hp)
    exact ⟨(hkeys _ _ _ hv).1, (hkeys _ _ _ hv).2.1⟩
  · exact ((hinv.ensures_perform hr).of_ok hs).2.2.2
  · obtain ⟨hsinv, rfl⟩ := hsrc.inv
    exact ((ensures_assignFrom hinv hsinv).of_ok hs).2.2.2.2.2

/-- A queued write, read through the swapped matrix. -/
theorem simulates_queued_write : ∃ m : Matrix, m.deferred ∧ m.extract 2 1 = .ok (some (.int64 5)) := by
  have hlimit : ({} : MatrixOptions).maxDenseCells < UInt64.size := by decide
  have hnew : withOptions .int64 3 4 {} = .ok (blank .int64 3 4 true {}) := rfl
  have hrun := ((Tracks.created hlimit hnew).requested (r := .set (.int64 5) 1 2) (n := {}) trivial
    rfl).transposed
  exact ⟨_, rfl, (Tracks.simulates hrun).1 2 1 (by decide) (by decide)⟩

end Matrix

end Adjacency
