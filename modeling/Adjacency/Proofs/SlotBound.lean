import Adjacency.Proofs.Failed
import Adjacency.Proofs.Reachable

/-!
# The size of an index

An index is only ever built in memory that was asked for, and no call makes one longer where it stands. So
the slots of a matrix are never too many to be asked for again, as the values are that go with them.

* `Matrix.Modest`: memory for the index could be had.
* `Modest.leaves_perform`: **however a call on a matrix ends, its index stays modest.**
* `Graph.Lasting`, `Graph.Reaches.every`: what every call keeps that a graph makes on its matrices holds of all
  matrices of all graphs.
* `Matrix.Reachable.modest`: **every index there can be is modest.**
-/

namespace Adjacency

open Metered

/-! ## Slots of a store -/

namespace Storage

theorem size_slots_mapSlots (s : Storage) {f : Array Slot → Array Slot} (hf : ∀ i, (f i).size = i.size) :
    (s.mapSlots f).slots.size = s.slots.size := by
  cases s with
  | full x => rfl
  | bitmap b x n => rfl
  | sparse p i x => exact hf i
  | hypersparse h p i x => exact hf i

theorem slots_setBit (s : Storage) (pos : Nat) : (s.setBit pos).slots = s.slots := by cases s <;> rfl

theorem slots_clearBit (s : Storage) (pos : Nat) : (s.clearBit pos).slots = s.slots := by cases s <;> rfl

end Storage

namespace Matrix

variable {m t : Matrix}

/-- Memory for the index could be had. -/
def Modest (m : Matrix) : Prop := m.store.slots.size < reservationLimit

theorem Modest.of_slots (h : m.Modest) (hs : t.store.slots.size = m.store.slots.size) : t.Modest := by
  rwa [Modest, hs]

/-- New values for the same index. -/
theorem Modest.mapValues (h : m.Modest) (f : Array Scalar → Array Scalar) (iso : Bool) :
    ({ m with store := m.store.mapValues f, iso } : Matrix).Modest :=
  h.of_slots (congrArg Array.size (m.store.slots_mapValues f))

theorem Inv.modest_ordered (h : m.Inv) (hm : m.Modest) : (if m.jumbled then m.unjumbled else m).Modest := by
  split
  · next hj =>
    have hd := h.sparse_of_deferred (by simp [Matrix.deferred, hj])
    exact hm.of_slots (h.laid.unjumbled_size hd)
  · exact hm

/-! ## Commits -/

theorem durable_modest : Durable Modest where
  store _ _ _ _ hslots := hslots
  settled _ h := h

theorem Modest.leaves_wait (h : m.Modest) : Leaves wait m Modest := durable_modest.leaves_wait h

/-! ## Writes and deletions -/

theorem Modest.leaves_expandIso (h : m.Modest) : Leaves expandIso m Modest := by
  refine ensures_subject (ensures_ite (fun _ => ?_) fun _ => leaves_pure h)
  exact (leaves_reserve h).bind fun _ _ _ => ensures_put (h.mapValues _ _)

theorem Inv.leaves_prepareWrite_modest (hinv : m.Inv) (h : m.Modest) (v : Scalar) (op : DupOp) :
    Leaves (prepareWrite v op) m Modest := by
  unfold prepareWrite
  refine ensures_update_then ?_
  have hs := hinv.modest_ordered h
  generalize (if m.jumbled then m.unjumbled else m) = s at hs
  refine ensures_subject (ensures_ite (fun _ => ?_) fun _ => ?_)
  · refine ensures_ite (fun _ => ?_) fun _ => leaves_pure hs
    refine ensures_ite (fun _ => ?_) fun _ => hs.leaves_expandIso
    exact hs.leaves_wait.bind fun _ _ ht => ht.leaves_expandIso
  · refine ensures_ite (fun _ => ensures_put ?_) fun _ => leaves_pure hs
    exact hs.mapValues _ _

theorem size_slots_writeCell (m : Matrix) (pos : Nat) (v : Scalar) (op : DupOp) :
    (m.writeCell pos v op).store.slots.size = m.store.slots.size := by
  unfold writeCell
  rw [withStore_eq, Storage.slots_setBit]
  split
  · rfl
  · rw [Storage.slots_mapValues]

theorem size_slots_writeLive (m : Matrix) (pos : Nat) (v : Scalar) (op : DupOp) :
    (m.writeLive pos v op).store.slots.size = m.store.slots.size := by
  unfold writeLive
  split
  · rfl
  · rw [withStore_eq, Storage.slots_mapValues]

theorem size_slots_revive (m : Matrix) (pos i : Nat) (v : Scalar) :
    (m.revive pos i v).store.slots.size = m.store.slots.size := by
  have hstore : (m.revive pos i v).store =
      (if m.iso then m.store else m.store.mapValues (·.setIfInBounds pos v)).mapSlots
        (·.setIfInBounds pos { index := i }) := rfl
  rw [hstore, Storage.size_slots_mapSlots _ fun _ => Array.size_setIfInBounds]
  split
  · rfl
  · rw [Storage.slots_mapValues]

theorem size_slots_bury (m : Matrix) (pos : Nat) :
    (m.bury pos).store.slots.size = m.store.slots.size :=
  Storage.size_slots_mapSlots m.store fun _ => Array.size_modify

theorem Inv.leaves_tryWrite_modest (hinv : m.Inv) (h : m.Modest) (raw v : Scalar) (i j : Nat) (op : DupOp) :
    Leaves (tryWrite raw v i j op) m Modest := by
  unfold tryWrite
  refine Leaves.bind (hinv.leaves_prepareWrite_modest h v op) fun _ t ht => ensures_subject ?_
  cases t.locate i j with
  | cell pos => exact ensures_update_then (leaves_pure (ht.of_slots (size_slots_writeCell t pos v op)))
  | live pos => exact ensures_update_then (leaves_pure (ht.of_slots (size_slots_writeLive t pos v op)))
  | zombie pos => exact ensures_update_then (leaves_pure (ht.of_slots (size_slots_revive t pos i v)))
  | absent =>
    refine ensures_ite (fun _ => ?_) fun _ => leaves_pure ht
    exact ensures_update_then (ensures_subject (leaves_pure ht))

theorem Inv.leaves_accumulate_modest (hinv : m.Inv) (h : m.Modest) (raw : Scalar) (row col : Nat)
    (op : DupOp) : Leaves (accumulate raw row col op) m Modest := by
  unfold accumulate
  refine ensures_subject (ensures_require_then (fun _ _ => h) fun _ hbounds => ?_)
  refine ensures_require_then (fun _ _ => h) fun v hv => ?_
  obtain ⟨hr, hc⟩ := checkBounds_ok hbounds
  obtain ⟨hi, hj⟩ := toVector_lt hr hc
  dsimp only
  refine ((ensures_tryWrite hinv (castIn_eq_ok_iff.1 hv) hi hj op).and
    (hinv.leaves_tryWrite_modest h raw v _ _ op)).andThen (fun _ _ ht => ht.2) ?_
  rintro (_ | done) s ⟨⟨hsinv, -⟩, hs⟩
  · refine ((ensures_wait hsinv).and hs.leaves_wait).andThen (fun _ _ ht => ht.2) ?_
    rintro _ t ⟨⟨htinv, -⟩, ht⟩
    refine (htinv.leaves_tryWrite_modest ht raw v _ _ op).bind ?_
    rintro (_ | done) u hu
    · exact leaves_throw hu
    · exact leaves_pure hu
  · exact leaves_pure hs

theorem Inv.leaves_tryRemove_modest (hinv : m.Inv) (h : m.Modest) (i j : Nat) :
    Leaves (tryRemove i j) m Modest := by
  unfold tryRemove
  refine ensures_update_then ?_
  have hs := hinv.modest_ordered h
  generalize (if m.jumbled then m.unjumbled else m) = s at hs
  refine ensures_subject ?_
  cases s.locate i j with
  | cell pos =>
    refine ensures_when Modest (fun _ => durable_modest.leaves_convertTo hs .bitmap) (fun _ => hs)
      fun t ht => ?_
    refine Leaves.bind ?_ fun _ _ hu => leaves_pure hu
    refine ensures_subject (ensures_ite (fun _ => ?_) fun _ => leaves_pure ht)
    exact ensures_update_then (leaves_pure (ht.of_slots (congrArg Array.size (t.store.slots_clearBit pos))))
  | live pos => exact ensures_update_then (leaves_pure (hs.of_slots (size_slots_bury s pos)))
  | zombie pos => exact leaves_pure hs
  | absent => exact leaves_pure hs

theorem Inv.leaves_remove_modest (hinv : m.Inv) (h : m.Modest) (row col : Nat) :
    Leaves (remove row col) m Modest := by
  unfold remove
  refine ensures_subject (ensures_require_then (fun _ _ => h) fun _ hbounds => ?_)
  obtain ⟨hr, hc⟩ := checkBounds_ok hbounds
  obtain ⟨hi, hj⟩ := toVector_lt hr hc
  dsimp only
  refine ((ensures_tryRemove hinv hi hj).and (hinv.leaves_tryRemove_modest h _ _)).andThen
    (fun _ _ ht => ht.2) ?_
  rintro (_ | done) s ⟨⟨hsinv, -⟩, hs⟩
  · refine ensures_subject (ensures_ite (fun _ => ?_) fun _ => leaves_pure hs)
    refine ((ensures_wait hsinv).and hs.leaves_wait).andThen (fun _ _ ht => ht.2) ?_
    rintro _ t ⟨⟨htinv, -⟩, ht⟩
    exact (htinv.leaves_tryRemove_modest ht _ _).bind fun _ _ hu => leaves_pure hu
  · exact leaves_pure hs

/-! ## Growth, copies and kernels -/

theorem Modest.leaves_resize (h : m.Modest) (nrows ncols : Nat) : Leaves (resize nrows ncols) m Modest := by
  unfold resize
  refine ensures_subject (leaves_guard h (leaves_guard h (ensures_ite (fun _ => ?_) fun _ => leaves_pure h)))
  refine h.leaves_wait.bind fun _ s hs => ensures_subject ?_
  refine ensures_when Modest (fun _ => durable_modest.leaves_convertTo hs .hypersparse) (fun _ => hs)
    fun t ht => ?_
  refine (ensures_extendPointers t _).andThen ?_ ?_
  · rintro _ _ ⟨-, rfl⟩
    exact ht
  · rintro _ _ rfl
    refine ensures_update_then (durable_modest.leaves_conform ?_)
    exact ht.of_slots (congrArg Array.size (t.store.slots_extended _))

theorem Modest.leaves_queueTuples (h : m.Modest) (op : DupOp) (ts : List Tuple) :
    Leaves (queueTuples op ts) m Modest := by
  induction ts generalizing m with
  | nil => exact leaves_pure h
  | cons t ts ih =>
    unfold queueTuples
    refine ensures_subject (ensures_require_then (fun _ _ => h) fun _ _ => ?_)
    exact ensures_require_then (fun _ _ => h) fun v _ => ensures_update_then (ih h)

theorem modest_of_withOptions {type : ScalarType} {nrows ncols : Nat} {options : MatrixOptions}
    (h : withOptions type nrows ncols options = .ok m) : m.Modest := by
  obtain ⟨-, -, rfl⟩ := withOptions_eq_ok_iff.1 h
  change (#[] : Array Slot).size < reservationLimit
  decide

section Copies

variable {σ : Type} {s : σ} {P : σ → Prop} {ts : List Tuple} {op : DupOp} {options : MatrixOptions}

theorem ensures_ofTuples_modest {type : ScalarType} {nrows ncols : Nat} {byRow : Bool} (h : P s) :
    Ensures (ofTuples type nrows ncols byRow ts op options) s (fun m t => m.Modest ∧ P t)
      (fun _ t => P t) := by
  unfold ofTuples
  refine ensures_require_then (fun _ _ => h) fun b hb => ?_
  have hblank : b.Modest := modest_of_withOptions hb
  have hrow : ({ b with byRow } : Matrix).Modest := hblank
  exact ensures_settle ((hrow.leaves_queueTuples op ts).bind fun _ _ ht => ht.leaves_wait)
    (fun _ ht => ⟨ht, h⟩) fun _ _ _ => h

theorem Modest.ensures_reoriented (h : m.Modest) (byRow : Bool) :
    Ensures (m.reoriented byRow) s (fun r _ => r.Modest) (fun _ _ => True) := by
  refine ensures_ite (fun _ => ensures_pure h) fun _ => ?_
  refine Ensures.bind (leaves_settle trivial) fun _ _ _ => ?_
  exact (ensures_ofTuples_modest (P := fun _ => True) trivial).mono (fun _ _ ht => ht.1) fun _ _ _ => trivial

theorem Modest.leaves_assignFrom (h : m.Modest) {src : Matrix} (hsrc : src.Modest) :
    Leaves (assignFrom src) m Modest := by
  unfold assignFrom
  refine ensures_subject (leaves_guard h (ensures_ite (fun _ => ?_) fun _ => ensures_put hsrc))
  exact Ensures.bind (leaves_settle h) fun _ _ ht =>
    (ensures_ofTuples_modest ht).bind fun _ _ hr => ensures_put hr.1

/-- A product is built in memory of its own, whatever its operands take. -/
theorem ensures_product_modest {a b : Matrix} {k : Semiring} :
    Ensures (a.product b k options) s (fun r _ => r.Modest) (fun _ _ => True) := by
  unfold product
  refine ensures_guard (fun _ => trivial) fun _ => ?_
  refine Ensures.bind (leaves_anything _ _) fun a' _ _ => Ensures.bind (leaves_anything _ _) fun b' u _ => ?_
  refine ensures_require_then (fun _ _ => trivial) fun r _ => ?_
  refine (ensures_buildStorage_slots trivial).bind fun store u hstore => ?_
  exact ensures_tally_then (ensures_pure hstore.1)

theorem ensures_union_modest {a b : Matrix} :
    Ensures (a.union b op options) s (fun r _ => r.Modest) (fun _ _ => True) := by
  unfold union
  refine ensures_guard (fun _ => trivial) fun _ => ?_
  refine Ensures.bind (leaves_anything _ _) fun a' _ _ => Ensures.bind (leaves_anything _ _) fun b' u _ => ?_
  exact (ensures_ofTuples_modest (P := fun _ => True) trivial).mono (fun _ _ ht => ht.1) fun _ _ _ => trivial

end Copies

/-- **However a call ends, the index stays modest.** -/
theorem Modest.leaves_perform (h : m.Modest) (hinv : m.Inv) (r : Request) : Leaves r.perform m Modest := by
  cases r with
  | set v row col =>
    exact Leaves.bind (ensures_discard (hinv.leaves_accumulate_modest h v row col .second))
      fun _ _ ht => leaves_pure ht
  | accumulate v row col op =>
    exact Leaves.bind (ensures_discard (hinv.leaves_accumulate_modest h v row col op))
      fun _ _ ht => leaves_pure ht
  | remove row col => exact (hinv.leaves_remove_modest h row col).bind fun _ _ ht => leaves_pure ht
  | wait => exact h.leaves_wait.bind fun _ _ ht => leaves_pure ht
  | nvals =>
    exact Leaves.bind (h.leaves_wait.bind fun _ _ ht => ensures_subject (leaves_pure ht))
      fun _ _ ht => leaves_pure ht
  | resize nrows ncols => exact (h.leaves_resize nrows ncols).bind fun _ _ ht => leaves_pure ht
  | clear =>
    refine ensures_update_then (leaves_pure ?_)
    change (#[] : Array Slot).size < reservationLimit
    decide
  | setOptions options => exact ensures_update_then (leaves_pure h)

end Matrix

/-! ## The matrices of a graph -/

namespace Graph

variable {P : Matrix → Prop} {g t : Graph} {α : Type} {part : Part}

/-- A property that is kept by every call that a graph makes on its matrices. -/
structure Lasting (P : Matrix → Prop) : Prop where
  set : ∀ m row col, P m → Leaves (Matrix.setElement (.bool true) row col) m P
  remove : ∀ m row col, P m → Leaves (Matrix.remove row col) m P
  wait : ∀ m, P m → Leaves Matrix.wait m P
  resize : ∀ m dim, P m → Leaves (Matrix.resize dim dim) m P

/-- All matrices of the graph have a property. -/
def Every (P : Matrix → Prop) (g : Graph) : Prop := ∀ part m, g.matrix? part = some m → P m

/-- Without a matrix in the place nothing is changed. -/
theorem ensures_onPart_missing {act : Metered Matrix α} (hnone : g.matrix? part = none) :
    Leaves (onPart part act) g (· = g) := by
  cases part with
  | relation k transposed =>
    have hget : g.relations[k]? = none := by simpa [matrix?] using hnone
    have hset : ∀ m m' : Matrix, ({ g with
        relations := (g.relations.modify k (·.withAdjacency transposed m)).modify k
          (·.withAdjacency transposed m') } : Graph) = g := by
      intro m m'
      rw [modify_twice, modify_eq_self fun x hx => by rw [hget] at hx; cases hx]
    unfold onPart onRelation
    exact ensures_withinTaken (leaves_anything act _) (fun _ m _ => hset _ m) fun _ m _ => hset _ m
  | label k =>
    have hget : g.labels[k]? = none := by simpa [matrix?] using hnone
    have hset : ∀ m m' : Matrix, ({ g with
        labels := (g.labels.modify k fun l => { l with matrix := m }).modify k
          fun l => { l with matrix := m' } } : Graph) = g := by
      intro m m'
      rw [modify_twice, modify_eq_self fun x hx => by rw [hget] at hx; cases hx]
    unfold onPart onLabel
    exact ensures_withinTaken (leaves_anything act _) (fun _ m _ => hset _ m) fun _ m _ => hset _ m

/-- An action on one matrix that keeps the property. -/
theorem Every.leaves_onPart (h : g.Every P) {act : Metered Matrix α} (hact : ∀ m, P m → Leaves act m P)
    (part : Part) : Leaves (onPart part act) g (Every P) := by
  cases hm : g.matrix? part with
  | none => exact (ensures_onPart_missing hm).mono fun t ht => ht ▸ h
  | some m =>
    have hput : ∀ m', P m' → (g.withMatrix part m').Every P := by
      intro m' hm' other n hn
      rw [matrix?_withMatrix] at hn
      split at hn
      · obtain ⟨_, -, rfl⟩ := Option.map_eq_some_iff.1 hn
        exact hm'
      · exact h other n hn
    exact ensures_onPart hm (hact m (h part m hm)) (fun _ => hput) fun _ => hput

theorem Every.leaves_onEveryMatrix (h : g.Every P) {act : Metered Matrix Unit}
    (hact : ∀ m, P m → Leaves act m P) : Leaves (onEveryMatrix act) g (Every P) := by
  unfold onEveryMatrix
  refine ensures_subject (Leaves.bind (ensures_forEach h fun k _ t ht => ?_) fun _ t ht => ?_)
  · exact Leaves.bind (ht.leaves_onPart hact (.relation k false)) fun _ _ hu =>
      hu.leaves_onPart hact (.relation k true)
  · exact ensures_subject (ensures_forEach ht fun k _ u hu => hu.leaves_onPart hact (.label k))

theorem every_pushLabel (h : g.Every P) {m : Matrix} (hm : P m) (name : String) :
    ({ g with labels := g.labels.push { name, matrix := m } } : Graph).Every P := by
  intro part n hn
  rcases matrix?_pushLabel hn with hn | rfl
  · exact h part n hn
  · exact hm

theorem every_pushRelation (h : g.Every P) {m : Matrix} (hm : P m) (name : String) :
    ({ g with relations := g.relations.push { name, matrix := m, transposed := m } } : Graph).Every P := by
  intro part n hn
  rcases matrix?_pushRelation hn with hn | ⟨transposed, rfl⟩
  · exact h part n hn
  · cases transposed <;> exact hm

/-- New matrices of the graph have the property. -/
def Starts (P : Matrix → Prop) (g : Graph) : Prop :=
  ∀ m, Matrix.withOptions .bool g.dim g.dim g.options.matrix = .ok m → P m

theorem ensures_emptyMatrix_starts (hnew : g.Starts P) :
    Ensures emptyMatrix g (fun m t => t = g ∧ P m) (fun _ t => t = g) := by
  unfold emptyMatrix
  exact ensures_subject (ensures_require (fun m hm => ⟨rfl, hnew m hm⟩) fun _ _ => rfl)

theorem Every.leaves_addLabel (h : g.Every P) (hnew : g.Starts P) (name : String) :
    Leaves (addLabel name) g (Every P) := by
  unfold addLabel
  refine ensures_subject ?_
  split
  · exact leaves_pure h
  · refine (ensures_emptyMatrix_starts hnew).andThen (fun _ _ ht => ht ▸ h) ?_
    rintro m _ ⟨rfl, hm⟩
    exact ensures_subject (ensures_update_then (leaves_pure (every_pushLabel h hm name)))

theorem Every.leaves_addRelation (h : g.Every P) (hnew : g.Starts P) (name : String) :
    Leaves (addRelation name) g (Every P) := by
  unfold addRelation
  refine ensures_subject ?_
  split
  · exact leaves_pure h
  · refine (ensures_emptyMatrix_starts hnew).andThen (fun _ _ ht => ht ▸ h) ?_
    rintro m _ ⟨rfl, hm⟩
    exact ensures_subject (ensures_update_then (leaves_pure (every_pushRelation h hm name)))

theorem Every.leaves_createNode (h : g.Every P) (hP : Lasting P) (labels : List LabelId)
    (properties : List (String × Value)) : Leaves (createNode labels properties) g (Every P) := by
  unfold createNode
  refine ensures_subject (leaves_guard h ?_)
  refine ensures_when (Every P) (fun _ => ?_) (fun _ => h) fun t ht => ?_
  · exact (h.leaves_onEveryMatrix fun m hm => hP.resize m _ hm).bind fun _ _ ht => ensures_update ht
  · refine Leaves.bind (ensures_forEach ht fun l _ u hu => ?_) fun _ u hu => ?_
    · exact ensures_discard (hu.leaves_onPart (fun m hm => hP.set m _ _ hm) (.label l.toNat))
    · refine ensures_update_then (leaves_pure ?_)
      exact fun part m hm => hu part m (by cases part <;> exact hm)

theorem Every.leaves_createEdge (h : g.Every P) (hP : Lasting P) (src dst : NodeId) (relation : RelationId) :
    Leaves (createEdge src dst relation) g (Every P) := by
  have hmark : ∀ (t : Graph) (transposed : Bool) (row col : Nat), t.Every P → Leaves
      (discard (onRelation relation.toNat transposed (Matrix.setElement (.bool true) row col))) t
      (Every P) := fun t transposed row col ht => ensures_discard
    (ht.leaves_onPart (fun m hm => hP.set m row col hm) (.relation relation.toNat transposed))
  unfold createEdge
  refine ensures_subject (leaves_guard h (leaves_guard h ?_))
  refine (hmark g false _ _ h).bind fun _ t ht => (hmark t true _ _ ht).bind fun _ u hu => ?_
  refine ensures_update_then (leaves_pure fun part m hm => hu part m ?_)
  rwa [recordEdge, matrix?_modify] at hm
  exact fun _ _ => rfl

theorem Every.leaves_deleteEdge (h : g.Every P) (hP : Lasting P) (id : EdgeId) :
    Leaves (deleteEdge id) g (Every P) := by
  unfold deleteEdge
  refine ensures_subject ?_
  cases g.edge? id with
  | none => exact leaves_pure h
  | some e =>
    have hunmark : ∀ (t : Graph) (transposed : Bool) (row col : Nat), t.Every P → Leaves
        (discard (onRelation e.relation.toNat transposed (Matrix.remove row col))) t (Every P) :=
      fun t transposed row col ht => ensures_discard
        (ht.leaves_onPart (fun m hm => hP.remove m row col hm) (.relation e.relation.toNat transposed))
    have hforget : (forgetEdge id g).Every P := fun part m hm => h part m (by cases part <;> exact hm)
    refine ensures_update_then (ensures_subject (leaves_guard hforget ?_))
    cases (forgetEdge id g).siblings e with
    | none => exact leaves_pure hforget
    | some ids =>
      have hrecord : (recordPair e ids (forgetEdge id g)).Every P :=
        fun part m hm => hforget part m ((matrix?_recordPair _ e ids part).symm.trans hm)
      refine ensures_update_then (ensures_ite (fun _ => ?_) fun _ => leaves_pure hrecord)
      exact (hunmark _ false _ _ hrecord).bind fun _ t ht => (hunmark t true _ _ ht).bind
        fun _ _ hu => leaves_pure hu

/-- **One call on a graph** makes calls on its matrices, and puts up new ones. -/
theorem Every.leaves_perform (h : g.Every P) (hP : Lasting P) (hnew : g.Starts P) (r : Request) :
    Leaves r.perform g (Every P) := by
  cases r with
  | addLabel name => exact ensures_discard (h.leaves_addLabel hnew name)
  | addRelation name => exact ensures_discard (h.leaves_addRelation hnew name)
  | createNode labels properties => exact ensures_discard (h.leaves_createNode hP labels properties)
  | setProperty id key v =>
    refine ensures_subject (leaves_guard h (ensures_update ?_))
    exact fun part m hm => h part m (by cases part <;> exact hm)
  | createEdge src dst relation => exact ensures_discard (h.leaves_createEdge hP src dst relation)
  | deleteEdge id => exact ensures_discard (h.leaves_deleteEdge hP id)
  | sync => exact h.leaves_onEveryMatrix hP.wait

/-- A run in which no call runs out of memory is a run. -/
theorem Runs.reaches (h : g.Runs t) : g.Reaches t := by
  induction h with
  | start => exact .start
  | performed _ hs hword ih => exact ih.performed hs hword
  | refused _ hs _ ih => exact ih.failed hs

/-- **What lasts holds of every matrix of every graph**, if it holds of the new ones. -/
theorem Reaches.every {options : GraphOptions} (hlimit : options.matrix.maxDenseCells < UInt64.size)
    (h : (new options).Reaches g) (hP : Lasting P) (hnew : ∀ t : Graph, t.Tidy → t.Starts P) : g.Every P := by
  induction h with
  | start => exact fun part m hm => by cases part <;> cases hm
  | performed h hs hword ih =>
    have htidy := (h.sturdy (sturdy_new hlimit)).toTidy
    exact (ih.leaves_perform hP (hnew _ htidy) _).of_ok hs
  | failed h hs ih =>
    have htidy := (h.sturdy (sturdy_new hlimit)).toTidy
    exact (ih.leaves_perform hP (hnew _ htidy) _).of_error hs

end Graph

namespace Matrix

theorem lasting_modest : Graph.Lasting fun m => m.Inv ∧ m.Modest where
  set _ row col h := ((ensures_accumulate h.1 (.bool true) row col .second).and
    (h.1.leaves_accumulate_modest h.2 (.bool true) row col .second)).mono
      (fun _ _ ht => ⟨ht.1.1, ht.2⟩) fun _ _ ht => ⟨ht.1.1, ht.2⟩
  remove _ row col h := ((ensures_remove h.1 row col).and (h.1.leaves_remove_modest h.2 row col)).mono
    (fun _ _ ht => ⟨ht.1.1, ht.2⟩) fun _ _ ht => ⟨ht.1.1, ht.2⟩
  wait _ h := ((ensures_wait h.1).and h.2.leaves_wait).mono (fun _ _ ht => ⟨ht.1.1, ht.2⟩)
    fun _ _ ht => ⟨ht.1.2.1, ht.2⟩
  resize _ dim h := ((ensures_resize h.1 dim dim).and (h.2.leaves_resize dim dim)).mono
    (fun _ _ ht => ⟨ht.1.1, ht.2⟩) fun _ _ ht => ⟨ht.1.1, ht.2⟩

theorem starts_modest {g : Graph} (h : g.Tidy) : g.Starts fun m => m.Inv ∧ m.Modest := by
  intro m hm
  have hmodest := modest_of_withOptions hm
  obtain ⟨hr, hc, rfl⟩ := withOptions_eq_ok_iff.1 hm
  exact ⟨(inv_blank hr hc h.limit).1, hmodest⟩

/-- **Every index there can be is modest.** -/
theorem Reachable.modest {m : Matrix} (h : m.Reachable) : m.Modest := by
  induction h with
  | created hlimit h => exact modest_of_withOptions h
  | built hlimit h => exact ((ensures_ofTuples_modest (P := fun _ => True) trivial).of_ok h).1
  | requested h hr hs ih => exact (ih.leaves_perform h.inv _).of_ok hs
  | refused h hr hs ih => exact (ih.leaves_perform h.inv _).of_error hs
  | transposed h ih => exact ih
  | reoriented h hs ih => exact (ih.ensures_reoriented _).of_ok hs
  | assigned h hsrc hs ih ihsrc => exact (ih.leaves_assignFrom ihsrc).of_ok hs
  | unassigned h hsrc hs ih ihsrc => exact (ih.leaves_assignFrom ihsrc).of_error hs
  | product hlimit ha hb hs iha ihb => exact ensures_product_modest.of_ok hs
  | union hlimit ha hb hs iha ihb => exact ensures_union_modest.of_ok hs
  | relation hlimit hg hm =>
    exact (hg.reaches.every hlimit lasting_modest (fun _ => starts_modest) _ _
      (Graph.matrix?_of_relationMatrix hm)).2
  | label hlimit hg hm =>
    exact (hg.reaches.every hlimit lasting_modest (fun _ => starts_modest) _ _
      (Graph.matrix?_of_labelMatrix hm)).2

end Matrix

end Adjacency
