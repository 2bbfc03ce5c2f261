import Adjacency.Proofs.Optimization
import Adjacency.Proofs.Replacement

/-!
# The normal form of an expression

One pass moves the transposes to the leaves, a second one splices. What comes out has a form that both leave
alone, so optimizing again changes nothing, even where an operation has too few or too many operands.

* `Upright`, `Spliced`: nothing is left for the first pass to do, nothing for the second.
* `upright_pushTranspose`, `Upright.flatten`, `spliced_flatten`: the passes bring this about, and the second
  does not undo the first.
* `leaves_flatten`: splicing keeps the leaves and their order.
* `leaves_pushTranspose`: **a leaf is turned once for every transpose above it.**
* `optimized_normal`: **what optimizing leaves is a normal form with the same leaves.**
-/

namespace Adjacency

namespace Expression

/-- No transpose has a single operand, so none can be pushed to the leaves. -/
inductive Upright : Expression → Prop
  | operand {source : Operand} {transposed : Bool} : Upright (.operand source transposed)
  | operation {op : Combination} {es : List Expression} (hop : op = .transpose → es.length ≠ 1)
    (hes : ∀ e ∈ es, Upright e) : Upright (.operation op es)

/-- Outside of transposes, no operation has a single operand or an operand that combines in the same way. -/
inductive Spliced : Expression → Prop
  | operand {source : Operand} {transposed : Bool} : Spliced (.operand source transposed)
  | transpose {es : List Expression} : Spliced (.operation .transpose es)
  | operation {op : Combination} {es : List Expression} (hop : op ≠ .transpose) (hlength : es.length ≠ 1)
    (hapart : ∀ es', .operation op es' ∉ es) (hes : ∀ e ∈ es, Spliced e) : Spliced (.operation op es)

/-- Products and sums of two or more operands, no product being an operand of a product and no sum of a sum,
and no transpose anywhere. -/
inductive Normal : Expression → Prop
  | operand {source : Operand} {transposed : Bool} : Normal (.operand source transposed)
  | operation {op : Combination} {es : List Expression} (hop : op ≠ .transpose) (hlength : 2 ≤ es.length)
    (hapart : ∀ es', .operation op es' ∉ es) (hes : ∀ e ∈ es, Normal e) : Normal (.operation op es)

mutual

/-- The leaves from left to right, each with the number of transposes it stands under, `n` of them around
the expression. -/
def leavesUnder (n : Nat) : Expression → List ((Operand × Bool) × Nat)
  | .operand source transposed => [((source, transposed), n)]
  | .operation op es => leavesUnderAll (if op = .transpose then n + 1 else n) es

/-- The leaves of several expressions. -/
def leavesUnderAll (n : Nat) : List Expression → List ((Operand × Bool) × Nat)
  | [] => []
  | e :: es => leavesUnder n e ++ leavesUnderAll n es

end

/-- A leaf, with its flag flipped if it stands under an odd number of transposes. -/
def turned (leaf : (Operand × Bool) × Nat) : Operand × Bool :=
  (leaf.1.1, leaf.1.2 != decide (leaf.2 % 2 = 1))

variable {op : Combination} {es : List Expression} {e : Expression} {leaf : Operand → Prop}

/-! ## One pass and the other -/

/-- Products and sums are spliced; transposes are not. -/
theorem flatten_operation (hop : op ≠ .transpose) (es : List Expression) :
    flatten (.operation op es) = combine op (es.flatMap fun e => operandsUnder op (flatten e)) := by
  rw [← flattenUnder_eq]
  cases op with
  | multiply => rw [flatten]
  | add => rw [flatten]
  | transpose => exact absurd rfl hop

theorem combine_of_length (h : es.length ≠ 1) : combine op es = .operation op es := by
  rcases es with _ | ⟨e, _ | ⟨e', es⟩⟩
  · rfl
  · exact absurd rfl h
  · rfl

theorem operandsUnder_of_ne (h : ∀ es', e ≠ .operation op es') : operandsUnder op e = [e] := by
  cases e with
  | operand source transposed => rfl
  | operation inner es =>
    rw [operandsUnder_operation, if_neg]
    rintro rfl
    exact h es rfl

/-- **Pushed transposes are gone**, but for those with none or several operands. -/
theorem upright_pushTranspose (e : Expression) : ∀ flip, (pushTranspose flip e).Upright := by
  induction e using byOperands with
  | operand source transposed => exact fun flip => .operand
  | operation op es ih =>
    intro flip
    have hmem : ∀ e ∈ es.map (pushTranspose flip), e.Upright := by
      intro e he
      obtain ⟨e', he', rfl⟩ := List.mem_map.1 he
      exact ih e' he' flip
    cases op with
    | multiply =>
      rw [pushTranspose_multiply]
      refine .operation Combination.noConfusion fun e he => hmem e ?_
      cases flip with
      | false => exact he
      | true => exact List.mem_reverse.1 he
    | add =>
      rw [pushTranspose_add]
      exact .operation Combination.noConfusion hmem
    | transpose =>
      by_cases hone : ∃ e, es = [e]
      · obtain ⟨e, rfl⟩ := hone
        rw [pushTranspose]
        exact ih e List.mem_cons_self (!flip)
      · rw [pushTranspose_transpose flip hone]
        refine .operation (fun _ hlength => hone ?_) hmem
        rw [List.length_map] at hlength
        exact List.length_eq_one_iff.1 hlength

/-- Where nothing can be pushed, the first pass changes nothing. -/
theorem Upright.pushTranspose_eq (h : e.Upright) : pushTranspose false e = e := by
  induction h with
  | operand =>
    rw [pushTranspose]
    congr 1
    exact Bool.bne_false _
  | @operation op es hop hes ih =>
    have hmap : es.map (pushTranspose false) = es := (List.map_congr_left ih).trans (List.map_id' es)
    cases op with
    | multiply => rw [pushTranspose_multiply, hmap, if_neg Bool.false_ne_true]
    | add => rw [pushTranspose_add, hmap]
    | transpose =>
      rw [pushTranspose_transpose, hmap]
      rintro ⟨e, rfl⟩
      exact hop rfl rfl

theorem Upright.operandsUnder (h : e.Upright) : ∀ e' ∈ operandsUnder op e, e'.Upright := by
  cases h with
  | operand => exact List.forall_mem_singleton.2 .operand
  | @operation inner es hop hes =>
    rw [operandsUnder_operation]
    split
    · exact hes
    · exact List.forall_mem_singleton.2 (.operation hop hes)

theorem Upright.combine (hop : op ≠ .transpose) (hes : ∀ e ∈ es, Upright e) :
    (combine op es).Upright := by
  by_cases hlength : es.length = 1
  · obtain ⟨e, rfl⟩ := List.length_eq_one_iff.1 hlength
    exact hes e List.mem_cons_self
  · rw [combine_of_length hlength]
    exact .operation (fun h => absurd h hop) hes

/-- Splicing makes no transposes. -/
theorem Upright.flatten (h : e.Upright) : (flatten e).Upright := by
  induction h with
  | operand => exact .operand
  | @operation op es hone hes ih =>
    by_cases hop : op = .transpose
    · subst hop
      exact .operation hone hes
    · rw [flatten_operation hop]
      refine Upright.combine hop fun part hpart => ?_
      obtain ⟨e, he, hpart⟩ := List.mem_flatMap.1 hpart
      exact (ih e he).operandsUnder part hpart

/-- The operands of what is spliced are spliced, and combine in another way. -/
theorem Spliced.operandsUnder (hop : op ≠ .transpose) (h : e.Spliced) :
    ∀ part ∈ operandsUnder op e, part.Spliced ∧ ∀ es', part ≠ .operation op es' := by
  cases h with
  | operand => exact List.forall_mem_singleton.2 ⟨.operand, fun _ => Expression.noConfusion⟩
  | transpose =>
    rw [operandsUnder_operation, if_neg (Ne.symm hop)]
    refine List.forall_mem_singleton.2 ⟨.transpose, fun es' heq => hop ?_⟩
    exact (Expression.operation.inj heq).1.symm
  | @operation inner es hinner hlength hapart hes =>
    rw [operandsUnder_operation]
    split
    · next heq =>
      subst heq
      exact fun part hpart => ⟨hes part hpart, fun es' heq => hapart es' (heq ▸ hpart)⟩
    · next hne =>
      exact List.forall_mem_singleton.2 ⟨.operation hinner hlength hapart hes,
        fun es' heq => hne (Expression.operation.inj heq).1⟩

/-- **One pass splices everything**: an operand that is left alone of its operation is spliced in turn. -/
theorem spliced_flatten (e : Expression) : (flatten e).Spliced := by
  induction e using byOperands with
  | operand source transposed => exact .operand
  | operation op es ih =>
    by_cases hop : op = .transpose
    · subst hop
      exact .transpose
    · rw [flatten_operation hop]
      have hparts : ∀ part ∈ es.flatMap fun e => Expression.operandsUnder op (flatten e),
          part.Spliced ∧ ∀ es', part ≠ .operation op es' := by
        intro part hpart
        obtain ⟨e, he, hpart⟩ := List.mem_flatMap.1 hpart
        exact (ih e he).operandsUnder hop part hpart
      generalize es.flatMap (fun e => Expression.operandsUnder op (flatten e)) = parts at hparts
      by_cases hlength : parts.length = 1
      · obtain ⟨part, rfl⟩ := List.length_eq_one_iff.1 hlength
        exact (hparts part List.mem_cons_self).1
      · rw [combine_of_length hlength]
        exact .operation hop hlength (fun es' hmem => (hparts _ hmem).2 es' rfl)
          fun part hpart => (hparts part hpart).1

/-- Where nothing can be spliced, the second pass changes nothing. -/
theorem Spliced.flatten_eq (h : e.Spliced) : flatten e = e := by
  induction h with
  | operand => rfl
  | transpose => rfl
  | @operation op es hop hlength hapart hes ih =>
    have hparts : ∀ e ∈ es, Expression.operandsUnder op (flatten e) = [e] := by
      intro e he
      rw [ih e he]
      exact operandsUnder_of_ne fun es' heq => hapart es' (heq ▸ he)
    rw [flatten_operation hop, List.flatMap_congr hparts, List.flatMap_singleton']
    exact combine_of_length hlength

/-- Without transposes, and with operands to everything, what is spliced is normal. -/
theorem Spliced.normal (h : e.Spliced) (he : e.Formed leaf fun _ => False) : e.Normal := by
  induction he with
  | operand => exact .operand
  | @operation op es hne harity hes ih =>
    cases h with
    | transpose => exact (harity rfl).elim
    | operation hop hlength hapart hspliced =>
      have hsome : es.length ≠ 0 := fun hzero => hne hop (List.eq_nil_of_length_eq_zero hzero)
      exact .operation hop (by omega) hapart fun e he => ih e he (hspliced e he)

/-! ## Leaves -/

theorem leaves_operation (op : Combination) (es : List Expression) :
    (operation op es).leaves = es.flatMap leaves := by
  rw [leaves, leavesOf_eq]

theorem leaves_operandsUnder (op : Combination) (e : Expression) :
    (operandsUnder op e).flatMap leaves = e.leaves := by
  cases e with
  | operand source transposed => rfl
  | operation inner es =>
    rw [operandsUnder_operation]
    split
    · exact (leaves_operation inner es).symm
    · exact List.append_nil _

theorem leaves_combine (op : Combination) (es : List Expression) :
    (combine op es).leaves = es.flatMap leaves := by
  by_cases hlength : es.length = 1
  · obtain ⟨e, rfl⟩ := List.length_eq_one_iff.1 hlength
    exact (List.append_nil _).symm
  · rw [combine_of_length hlength, leaves_operation]

/-- **Splicing keeps the leaves**, and their order. -/
theorem leaves_flatten (e : Expression) : (flatten e).leaves = e.leaves := by
  induction e using byOperands with
  | operand source transposed => rfl
  | operation op es ih =>
    by_cases hop : op = .transpose
    · subst hop
      rfl
    · have hparts : ∀ e ∈ es, (operandsUnder op (flatten e)).flatMap leaves = e.leaves := by
        intro e he
        rw [leaves_operandsUnder, ih e he]
      rw [flatten_operation hop, leaves_combine, leaves_operation, List.flatMap_assoc,
        List.flatMap_congr hparts]

theorem leavesUnder_operation (n : Nat) (op : Combination) (es : List Expression) :
    leavesUnder n (.operation op es) = es.flatMap (leavesUnder (if op = .transpose then n + 1 else n)) := by
  rw [leavesUnder]
  generalize (if op = .transpose then n + 1 else n) = k
  induction es with
  | nil => rfl
  | cons e es ih => rw [leavesUnderAll, ih, List.flatMap_cons]

/-- The leaves of a pushed operation are those of its operands, in either order. -/
theorem leaves_pushed {α : Type} {flip : Bool} {g : Operand × Bool → α} {k : Expression → List α}
    (hop : ¬(op = .transpose ∧ ∃ e, es = [e]))
    (h : ∀ e ∈ es, ((pushTranspose flip e).leaves.map g).Perm (k e)) :
    ((pushTranspose flip (.operation op es)).leaves.map g).Perm (es.flatMap k) := by
  have hall : ((es.map (pushTranspose flip)).flatMap fun e => e.leaves.map g).Perm (es.flatMap k) := by
    rw [List.flatMap_map]
    exact List.Perm.flatMap_left es h
  cases op with
  | multiply =>
    rw [pushTranspose_multiply, leaves_operation, List.map_flatMap]
    cases flip with
    | false => exact hall
    | true => exact ((List.reverse_perm _).flatMap_right _).trans hall
  | add =>
    rw [pushTranspose_add, leaves_operation, List.map_flatMap]
    exact hall
  | transpose =>
    rw [pushTranspose_transpose flip fun hone => hop ⟨rfl, hone⟩, leaves_operation, List.map_flatMap]
    exact hall

/-- A leaf keeps its source. -/
theorem sources_pushTranspose (e : Expression) : ∀ flip,
    ((pushTranspose flip e).leaves.map Prod.fst).Perm (e.leaves.map Prod.fst) := by
  induction e using byOperands with
  | operand source transposed => exact fun flip => .refl _
  | operation op es ih =>
    intro flip
    rw [leaves_operation]
    by_cases hone : op = .transpose ∧ ∃ e, es = [e]
    · obtain ⟨rfl, e, rfl⟩ := hone
      rw [pushTranspose, List.flatMap_singleton]
      exact ih e List.mem_cons_self (!flip)
    · rw [List.map_flatMap]
      exact leaves_pushed hone fun e he => ih e he flip

/-- **A leaf is turned once for every transpose above it**, the `n` around the expression included. -/
theorem leaves_pushTranspose (he : e.Formed leaf (· = 1)) : ∀ n,
    (pushTranspose (decide (n % 2 = 1)) e).leaves.Perm ((leavesUnder n e).map turned) := by
  induction he with
  | operand => exact fun n => .refl _
  | @operation op es hne harity hes ih =>
    intro n
    by_cases hop : op = .transpose
    · subst hop
      obtain ⟨e, rfl⟩ := List.length_eq_one_iff.1 (harity rfl)
      have hflip : (!decide (n % 2 = 1)) = decide ((n + 1) % 2 = 1) := by
        rw [← decide_not]
        exact decide_eq_decide.2 (by omega)
      rw [pushTranspose, leavesUnder_operation, List.flatMap_singleton, if_pos rfl, hflip]
      exact ih e List.mem_cons_self (n + 1)
    · rw [leavesUnder_operation, if_neg hop, List.map_flatMap]
      have hparts : ∀ e ∈ es, ((pushTranspose (decide (n % 2 = 1)) e).leaves.map id).Perm
          ((leavesUnder n e).map turned) := by
        intro e he
        rw [List.map_id]
        exact ih e he n
      have hall := leaves_pushed (fun hone => hop hone.1) hparts
      rwa [List.map_id] at hall

/-! ## The normal form -/

/-- With one operand to each, all transposes are pushed to the leaves. -/
theorem Formed.pushTranspose_untransposed (he : e.Formed leaf (· = 1)) (flip : Bool) :
    (Expression.pushTranspose flip e).Formed leaf fun _ => False := by
  have hformed := he.pushTranspose flip
  have hupright := upright_pushTranspose e flip
  generalize Expression.pushTranspose flip e = e' at hformed hupright
  induction hformed with
  | operand h => exact .operand h
  | operation hne harity hes ih =>
    cases hupright with
    | operation hop hupright => exact .operation hne (fun h => hop h (harity h)) fun e he => ih e he (hupright e he)

/-- **What optimizing leaves is a normal form.** Of whatever expression, malformed or not, it is what optimizing
again leaves, and it has as many leaves. If products and sums have operands and transposes have one, there is no
transpose in it, no operation with a single operand and none directly under one of its own kind; and each leaf
of the expression is in it once, with its source, and turned if it stood under an odd number of transposes. -/
theorem optimized_normal (e : Expression) :
    e.optimized.optimized = e.optimized ∧ e.optimized.operandCount = e.operandCount ∧
      (e.Formed (fun _ => True) (· = 1) →
        e.optimized.Normal ∧ e.optimized.leaves.Perm ((e.leavesUnder 0).map turned)) := by
  have hupright := (upright_pushTranspose e false).flatten
  have hspliced := spliced_flatten (pushTranspose false e)
  refine ⟨?_, ?_, fun he => ⟨?_, ?_⟩⟩
  · calc e.optimized.optimized
      _ = flatten e.optimized := congrArg flatten hupright.pushTranspose_eq
      _ = e.optimized := hspliced.flatten_eq
  · have hsources := (sources_pushTranspose e false).length_eq
    rw [List.length_map, List.length_map] at hsources
    rw [operandCount, optimized, leaves_flatten]
    exact hsources
  · exact hspliced.normal ((he.pushTranspose_untransposed false).flatten fun _ => .nothing).1
  · rw [optimized, leaves_flatten]
    exact leaves_pushTranspose he 0

/-- A sum in a sum in a product, under a transpose and with one inside. -/
theorem optimized_normal_nested : ∃ e : Expression,
    e = transpose (multiply [relation ⟨0⟩, add [transpose (relation ⟨1⟩), add [multiply [filter]]]]) ∧
    e.Formed (fun _ => True) (· = 1) ∧
    e.optimized = multiply [add [relation ⟨1⟩, operand .filter true], operand (.relation ⟨0⟩) true] ∧
    e.optimized.Normal ∧
    e.optimized.leaves.Perm [(.relation ⟨0⟩, true), (.relation ⟨1⟩, false), (.filter, true)] := by
  have hleaf : ∀ source transposed, (operand source transposed).Formed (fun _ => True) (· = 1) :=
    fun _ _ => .operand trivial
  have htransposed : ∀ e : Expression, e.Formed (fun _ => True) (· = 1) →
      (transpose e).Formed (fun _ => True) (· = 1) :=
    fun e he => .operation (fun h => absurd rfl h) (fun _ => rfl) (List.forall_mem_singleton.2 he)
  have hmany : ∀ {op e es}, op ≠ .transpose → (∀ e' ∈ e :: es, e'.Formed (fun _ => True) (· = 1)) →
      (operation op (e :: es)).Formed (fun _ => True) (· = 1) :=
    fun hop hes => .operation (fun _ => List.cons_ne_nil _ _) (fun h => absurd h hop) hes
  have hproduct : (multiply [filter]).Formed (fun _ => True) (· = 1) :=
    hmany Combination.noConfusion (List.forall_mem_singleton.2 (hleaf _ _))
  have hsum : (add [transpose (relation ⟨1⟩), add [multiply [filter]]]).Formed (fun _ => True) (· = 1) :=
    hmany Combination.noConfusion (List.forall_mem_cons.2 ⟨htransposed _ (hleaf _ _),
      List.forall_mem_singleton.2 (hmany Combination.noConfusion (List.forall_mem_singleton.2 hproduct))⟩)
  have hfactors : (multiply [relation ⟨0⟩, add [transpose (relation ⟨1⟩), add [multiply [filter]]]]).Formed
      (fun _ => True) (· = 1) :=
    hmany Combination.noConfusion (List.forall_mem_cons.2 ⟨hleaf _ _, List.forall_mem_singleton.2 hsum⟩)
  have hformed := htransposed _ hfactors
  exact ⟨_, rfl, hformed, rfl, (optimized_normal _).2.2 hformed⟩

end Expression

end Adjacency
