import Adjacency.Expression.Evaluate
import Adjacency.Proofs.Reachable

/-!
# What an expression means

An expression means a shape and a set of pairs. The pairs are those with an entry, or those with a true
one; either way products chain pairs, sums unite them and transposes swap them.

* `Meaning`: shape and pairs, with product, sum and transpose; without a shape where shapes disagree.
* `Operand.meaning`: what a leaf means, out of the edges and labels of the graph.
* `Expression.meaning`: what an expression means.
-/

namespace Adjacency

/-- What is asked of an entry: that it is there, or that it is true. -/
inductive Aspect
  | presence
  | truth

/-- A value shows the aspect. -/
def Aspect.On : Aspect → Scalar → Prop
  | presence, _ => True
  | truth, v => v.toBool = true

/-- A type that values of the other built-in types can be cast to. -/
def ScalarType.BuiltIn (ty : ScalarType) : Prop := ∀ code, ty ≠ .custom code

/-- The types whose values are asked for the aspect. -/
def Aspect.Reads : Aspect → ScalarType → Prop
  | presence, ty => ty.BuiltIn
  | truth, ty => ty = .bool

/-- The entry of a cell shows the aspect. -/
def Matrix.Shows (m : Matrix) (a : Aspect) (row col : Nat) : Prop :=
  ∃ v, m.extract row col = .ok (some v) ∧ a.On v

/-- A shape, if there is one, and the pairs that are linked. -/
@[ext] structure Meaning where
  shape : Option (Nat × Nat)
  links : Nat → Nat → Prop

namespace Meaning

/-- No shape and no pairs. -/
def nothing : Meaning := ⟨none, fun _ _ => False⟩

/-- The meaning of a transpose. -/
def swap (x : Meaning) : Meaning := ⟨x.shape.map Prod.swap, fun row col => x.links col row⟩

/-- The shape of a product: inner dimensions must agree. -/
def chained : Option (Nat × Nat) → Option (Nat × Nat) → Option (Nat × Nat)
  | some (rows, inner), some (inner', cols) => if inner = inner' then some (rows, cols) else none
  | _, _ => none

/-- The shape of a sum: both dimensions must agree. -/
def shared : Option (Nat × Nat) → Option (Nat × Nat) → Option (Nat × Nat)
  | some a, some b => if a = b then some a else none
  | _, _ => none

/-- The meaning of a product of two: pairs are chained. -/
def times (x y : Meaning) : Meaning :=
  ⟨chained x.shape y.shape, fun row col => ∃ k, x.links row k ∧ y.links k col⟩

/-- The meaning of a sum of two: pairs are united. -/
def plus (x y : Meaning) : Meaning :=
  ⟨shared x.shape y.shape, fun row col => x.links row col ∨ y.links row col⟩

/-- Several meanings combined; one stands for itself. -/
def fold (f : Meaning → Meaning → Meaning) : List Meaning → Meaning
  | [] => nothing
  | [x] => x
  | x :: y :: rest => f x (fold f (y :: rest))

/-- How the meanings of operands combine. Only one operand can be transposed. -/
def combined : Combination → List Meaning → Meaning
  | .multiply, xs => fold times xs
  | .add, xs => fold plus xs
  | .transpose, [x] => x.swap
  | .transpose, _ => nothing

variable (x y z : Meaning)

@[simp] theorem swap_swap : x.swap.swap = x := by
  obtain ⟨shape, links⟩ := x
  refine Meaning.ext ?_ rfl
  cases shape <;> rfl

@[simp] theorem swap_nothing : nothing.swap = nothing := rfl

theorem chained_assoc (a b c : Option (Nat × Nat)) :
    chained (chained a b) c = chained a (chained b c) := by
  rcases a with _ | ⟨a₁, a₂⟩
  · rfl
  rcases b with _ | ⟨b₁, b₂⟩
  · rfl
  rcases c with _ | ⟨c₁, c₂⟩
  · by_cases hab : a₂ = b₁ <;> simp [chained, hab]
  · by_cases hab : a₂ = b₁ <;> by_cases hbc : b₂ = c₁ <;> simp [chained, hab, hbc]

theorem times_assoc : (x.times y).times z = x.times (y.times z) := by
  refine Meaning.ext (chained_assoc _ _ _) (funext fun row => funext fun col => propext ?_)
  constructor
  · rintro ⟨l, ⟨k, hx, hy⟩, hz⟩
    exact ⟨k, hx, l, hy, hz⟩
  · rintro ⟨k, hx, l, hy, hz⟩
    exact ⟨l, ⟨k, hx, hy⟩, hz⟩

theorem shared_assoc (a b c : Option (Nat × Nat)) : shared (shared a b) c = shared a (shared b c) := by
  rcases a with _ | a
  · rfl
  rcases b with _ | b
  · rfl
  rcases c with _ | c
  · by_cases hab : a = b <;> simp [shared, hab]
  · by_cases hab : a = b
    · subst hab
      by_cases hac : a = c <;> simp [shared, hac]
    · by_cases hbc : b = c
      · subst hbc
        simp [shared, hab]
      · simp [shared, hab, hbc]

theorem plus_assoc : (x.plus y).plus z = x.plus (y.plus z) :=
  Meaning.ext (shared_assoc _ _ _) (funext fun _ => funext fun _ => propext or_assoc)

/-- The transpose of a product is the reversed product of the transposes. -/
theorem swap_times : (x.times y).swap = y.swap.times x.swap := by
  refine Meaning.ext ?_ (funext fun row => funext fun col => propext ?_)
  · obtain ⟨a, -⟩ := x
    obtain ⟨b, -⟩ := y
    rcases a with _ | ⟨a₁, a₂⟩ <;> rcases b with _ | ⟨b₁, b₂⟩
    · rfl
    · rfl
    · rfl
    · by_cases h : a₂ = b₁
      · simp [swap, times, chained, h]
      · simp [swap, times, chained, h, Ne.symm h]
  · exact exists_congr fun k => and_comm

theorem swap_plus : (x.plus y).swap = x.swap.plus y.swap := by
  refine Meaning.ext ?_ rfl
  obtain ⟨a, -⟩ := x
  obtain ⟨b, -⟩ := y
  rcases a with _ | a <;> rcases b with _ | b
  · rfl
  · rfl
  · rfl
  · by_cases h : a = b
    · simp [swap, plus, shared, h]
    · have hne : a.swap ≠ b.swap := fun hc => h (Prod.swap_injective hc)
      simp [swap, plus, shared, h, hne]

variable {f : Meaning → Meaning → Meaning}

theorem fold_cons {xs : List Meaning} (hne : xs ≠ []) : fold f (x :: xs) = f x (fold f xs) := by
  cases xs with
  | nil => exact absurd rfl hne
  | cons y ys => rfl

theorem fold_append (hassoc : ∀ x y z, f (f x y) z = f x (f y z)) {xs ys : List Meaning} (hx : xs ≠ [])
    (hy : ys ≠ []) : fold f (xs ++ ys) = f (fold f xs) (fold f ys) := by
  induction xs with
  | nil => exact absurd rfl hx
  | cons x xs ih =>
    by_cases hxs : xs = []
    · subst hxs
      exact fold_cons x hy
    · rw [List.cons_append, fold_cons x (List.append_ne_nil_of_left_ne_nil hxs ys), ih hxs, fold_cons x hxs,
        hassoc]

/-- The first two may be combined beforehand. -/
theorem fold_cons_cons (hassoc : ∀ x y z, f (f x y) z = f x (f y z)) (xs : List Meaning) :
    fold f (f x y :: xs) = fold f (x :: y :: xs) := by
  by_cases hxs : xs = []
  · subst hxs
    rfl
  · rw [fold_cons _ hxs, fold_cons x (List.cons_ne_nil y xs), fold_cons y hxs, hassoc]

/-- The last two may be combined beforehand. -/
theorem fold_append_pair (hassoc : ∀ x y z, f (f x y) z = f x (f y z)) (xs : List Meaning) :
    fold f (xs ++ [f x y]) = fold f (xs ++ [x, y]) := by
  by_cases hxs : xs = []
  · subst hxs
    rfl
  · rw [fold_append hassoc hxs (by simp), fold_append hassoc hxs (by simp)]
    rfl

/-- Folding in groups is folding. -/
theorem fold_flatMap (hassoc : ∀ x y z, f (f x y) z = f x (f y z)) {α : Type} (groups : α → List Meaning)
    {l : List α} (hne : ∀ a ∈ l, groups a ≠ []) :
    fold f (l.flatMap groups) = fold f (l.map fun a => fold f (groups a)) := by
  induction l with
  | nil => rfl
  | cons a l ih =>
    have hl := ih fun b hb => hne b (List.mem_cons_of_mem a hb)
    cases l with
    | nil => simp [fold]
    | cons b l =>
      have hb := hne b (List.mem_cons_of_mem a List.mem_cons_self)
      have hrest : (b :: l).flatMap groups ≠ [] := by
        rw [List.flatMap_cons]
        exact List.append_ne_nil_of_left_ne_nil hb _
      have hmap : (b :: l).map (fun a => fold f (groups a)) ≠ [] := by simp
      rw [List.flatMap_cons, fold_append hassoc (hne a List.mem_cons_self) hrest, hl,
        List.map_cons (l := b :: l), fold_cons (fold f (groups a)) hmap]

/-- What an operand passes on, the combination has. -/
theorem fold_of_mem {P : Meaning → Prop} (hf : ∀ x y, P x ∨ P y → P (f x y)) {xs : List Meaning}
    (h : ∃ x ∈ xs, P x) : P (fold f xs) := by
  induction xs with
  | nil =>
    obtain ⟨x, hx, -⟩ := h
    exact absurd hx List.not_mem_nil
  | cons x xs ih =>
    obtain ⟨y, hy, hP⟩ := h
    by_cases hxs : xs = []
    · subst hxs
      rwa [List.mem_singleton.1 hy] at hP
    · rw [fold_cons x hxs]
      rcases List.mem_cons.1 hy with rfl | hy
      · exact hf _ _ (.inl hP)
      · exact hf _ _ (.inr (ih ⟨y, hy, hP⟩))

theorem swap_shape_eq_none (h : x.shape = none) : x.swap.shape = none := by
  unfold swap
  rw [h]
  rfl

theorem times_shape_eq_none (h : x.shape = none ∨ y.shape = none) : (x.times y).shape = none := by
  rcases h with h | h
  · simp [times, chained, h]
  · simp [times, chained, h]

theorem plus_shape_eq_none (h : x.shape = none ∨ y.shape = none) : (x.plus y).shape = none := by
  rcases h with h | h
  · simp [plus, shared, h]
  · simp [plus, shared, h]

theorem swap_product (xs : List Meaning) :
    (fold times xs).swap = fold times (xs.map swap).reverse := by
  induction xs with
  | nil => rfl
  | cons x xs ih =>
    by_cases hxs : xs = []
    · subst hxs
      rfl
    · rw [fold_cons x hxs, swap_times, ih, List.map_cons, List.reverse_cons,
        fold_append times_assoc (by simpa using hxs) (by simp)]
      rfl

theorem swap_sum (xs : List Meaning) : (fold plus xs).swap = fold plus (xs.map swap) := by
  induction xs with
  | nil => rfl
  | cons x xs ih =>
    by_cases hxs : xs = []
    · subst hxs
      rfl
    · rw [fold_cons x hxs, swap_plus, ih, List.map_cons, fold_cons _ (by simpa using hxs)]

end Meaning

/-- What a leaf means. The matrix of a relation has the pairs of its edges, the matrix of a label the nodes
that carry it. -/
def Operand.meaning (g : Graph) (filter : Option Matrix) (a : Aspect) : Operand → Meaning
  | .relation id =>
    { shape := if id.toNat < g.relations.size then some (g.dim, g.dim) else none
      links := fun s d => ∃ e ∈ g.live, e.relation = id ∧ e.src.toNat = s ∧ e.dst.toNat = d }
  | .label id =>
    { shape := if id.toNat < g.labels.size then some (g.dim, g.dim) else none
      links := fun r c => r = c ∧ ∃ node : Node, g.nodes[r]? = some node ∧ id ∈ node.labels }
  | .matrix m => { shape := some (m.nrows, m.ncols), links := m.Shows a }
  | .filter =>
    { shape := filter.map fun m => (m.nrows, m.ncols)
      links := fun r c => ∃ m, filter = some m ∧ m.Shows a r c }

namespace Expression

mutual

/-- What an expression means, given what its leaves mean. -/
def meaning (leaf : Operand → Meaning) : Expression → Meaning
  | .operand source transposed => if transposed then (leaf source).swap else leaf source
  | .operation op es => .combined op (meanings leaf es)

/-- What several expressions mean. -/
def meanings (leaf : Operand → Meaning) : List Expression → List Meaning
  | [] => []
  | e :: es => meaning leaf e :: meanings leaf es

end

theorem meanings_eq (leaf : Operand → Meaning) (es : List Expression) :
    meanings leaf es = es.map (meaning leaf) := by
  induction es with
  | nil => rfl
  | cons e es ih => rw [meanings, ih, List.map_cons]

theorem meaning_operation (leaf : Operand → Meaning) (op : Combination) (es : List Expression) :
    (operation op es).meaning leaf = .combined op (es.map (meaning leaf)) := by
  rw [meaning, meanings_eq]

/-- Induction over an expression and its operands. -/
theorem byOperands {p : Expression → Prop} (operand : ∀ source transposed, p (.operand source transposed))
    (operation : ∀ op es, (∀ e ∈ es, p e) → p (.operation op es)) (e : Expression) : p e :=
  @Expression.rec p (fun es => ∀ e ∈ es, p e) operand operation (fun _ he => absurd he List.not_mem_nil)
    (fun _ _ he hes => List.forall_mem_cons.2 ⟨he, hes⟩) e

/-- An expression whose leaves are `leaf`, whose transposes have an `arity` of operands, and whose products
and sums have some operand. -/
inductive Formed (leaf : Operand → Prop) (arity : Nat → Prop) : Expression → Prop
  | operand {source : Operand} {transposed : Bool} (h : leaf source) :
    Formed leaf arity (.operand source transposed)
  | operation {op : Combination} {es : List Expression} (hne : op ≠ .transpose → es ≠ [])
    (harity : op = .transpose → arity es.length) (hes : ∀ e ∈ es, Formed leaf arity e) :
    Formed leaf arity (.operation op es)

theorem Formed.mono {leaf leaf' : Operand → Prop} {arity : Nat → Prop} {e : Expression}
    (he : e.Formed leaf arity) (h : ∀ source, leaf source → leaf' source) : e.Formed leaf' arity := by
  induction he with
  | operand hs => exact .operand (h _ hs)
  | operation hne harity hes ih => exact .operation hne harity ih

end Expression

end Adjacency
