import Adjacency.Matrix.Basic
import Adjacency.Proofs.Action

/-!
# Guarded actions

The readers and writers of a matrix never fail: out of range they read a default value and write nothing.
Here is the other reading, in which such an access is a fault that ends the call.

* `Guarded.read`, `Guarded.write`, `Guarded.slice`, `Guarded.countDown`: accesses that may fault.
* `Guarded`: a metered action with such accesses.
* `Guarded.Faultless`: an action meets no fault, and does what its plain counterpart does.
-/

namespace Adjacency

/-- An access that the storage does not allow. -/
inductive Fault
  /-- A position that an array does not have. -/
  | position (pos size : Nat)
  /-- A stretch of positions that an array does not have. -/
  | stretch (start stop size : Nat)
  /-- The shared value of a matrix that stores no value. -/
  | nothingShared
  /-- A counter that stands at zero is counted down. -/
  | belowZero
  /-- A place found in a format of one kind, met in one of the other. -/
  | misplaced
  deriving DecidableEq

/-- Why a guarded call ends early: through a fault, or with the failure of the plain call. -/
inductive Failure
  | fault (f : Fault)
  | raised (e : GraphError)
  deriving DecidableEq

/-- A metered action that ends at the first fault. -/
abbrev Guarded (σ : Type) := EStateM Failure (σ × CallCounts)

namespace Guarded

variable {σ τ α β γ : Type}

/-! ## Accesses -/

/-- The element at a position. -/
def read (a : Array α) (pos : Nat) : Except Failure α :=
  match a[pos]? with
  | some v => .ok v
  | none => .error (.fault (.position pos a.size))

/-- The array with a new element at a position. -/
def write (a : Array α) (pos : Nat) (v : α) : Except Failure (Array α) :=
  if pos < a.size then .ok (a.setIfInBounds pos v) else .error (.fault (.position pos a.size))

/-- The array has the positions from `start` to `stop`. -/
def slice (a : Array α) (start stop : Nat) : Except Failure Unit :=
  if start ≤ stop ∧ stop ≤ a.size then .ok () else .error (.fault (.stretch start stop a.size))

/-- One less. -/
def countDown (n : Nat) : Except Failure Nat :=
  if n = 0 then .error (.fault .belowZero) else .ok (n - 1)

/-- The outcome of a plain check. -/
def raise : Except GraphError α → Except Failure α
  | .ok v => .ok v
  | .error e => .error (.raised e)

/-- Looks through `n` numbers from `start` on for the first that passes the test. -/
def firstFrom (test : Nat → Except Failure Bool) : (n start : Nat) → Except Failure (Option Nat)
  | 0, _ => return none
  | n + 1, start => do if ← test start then return some start else firstFrom test n (start + 1)

/-- What the elements of a list give, where they give something. -/
def filterMap (f : α → Except Failure (Option β)) (xs : List α) : Except Failure (List β) := do
  return (← xs.mapM f).reduceOption

theorem read_of_lt {a : Array α} {pos : Nat} (d : α) (h : pos < a.size) :
    read a pos = .ok (a.getD pos d) := by
  rw [read, Array.getElem?_eq_getElem h, Array.getD_eq_getD_getElem?, Array.getElem?_eq_getElem h]
  rfl

theorem write_of_lt {a : Array α} {pos : Nat} {v : α} (h : pos < a.size) :
    write a pos v = .ok (a.setIfInBounds pos v) := if_pos h

theorem slice_of_le {a : Array α} {start stop : Nat} (h : start ≤ stop) (hs : stop ≤ a.size) :
    slice a start stop = .ok () := if_pos ⟨h, hs⟩

theorem countDown_of_pos {n : Nat} (h : 0 < n) : countDown n = .ok (n - 1) := if_neg (by omega)

/-- A walk over a list meets no fault when no element does. -/
theorem mapM_eq_ok {f : α → Except Failure β} {g : α → β} {xs : List α} (h : ∀ x ∈ xs, f x = .ok (g x)) :
    xs.mapM f = .ok (xs.map g) := by
  induction xs with
  | nil => rfl
  | cons x xs ih =>
    have hrest := ih fun y hy => h y (List.mem_cons_of_mem _ hy)
    rw [List.mapM_cons, h x List.mem_cons_self, hrest]
    rfl

theorem filterMap_eq_ok {f : α → Except Failure (Option β)} {g : α → Option β} {xs : List α}
    (h : ∀ x ∈ xs, f x = .ok (g x)) : filterMap f xs = .ok (xs.filterMap g) := by
  have hg : (xs.map g).reduceOption = xs.filterMap g := List.filterMap_map.trans rfl
  rw [filterMap, mapM_eq_ok h, ← hg]
  rfl

theorem forM_eq_ok {f : α → Except Failure Unit} {xs : List α} (h : ∀ x ∈ xs, f x = .ok ()) :
    xs.forM f = .ok () := by
  induction xs with
  | nil => rfl
  | cons x xs ih =>
    have hrest := ih fun y hy => h y (List.mem_cons_of_mem _ hy)
    change (f x >>= fun _ => xs.forM f) = _
    rw [h x List.mem_cons_self]
    exact hrest

/-- So does a fold, with an invariant of what it has built. -/
theorem foldlM_eq_ok (inv : β → Prop) {f : β → α → Except Failure β} {g : β → α → β} {xs : List α} {b : β}
    (hb : inv b) (h : ∀ x ∈ xs, ∀ b, inv b → f b x = .ok (g b x) ∧ inv (g b x)) :
    xs.foldlM f b = .ok (xs.foldl g b) := by
  induction xs generalizing b with
  | nil => rfl
  | cons x xs ih =>
    obtain ⟨hx, hinv⟩ := h x List.mem_cons_self b hb
    rw [List.foldlM_cons, hx]
    exact ih hinv fun y hy => h y (List.mem_cons_of_mem _ hy)

theorem firstFrom_eq_ok {test : Nat → Except Failure Bool} (plain : Nat → Bool) {n start : Nat}
    (h : ∀ pos, start ≤ pos → pos < start + n → test pos = .ok (plain pos)) :
    firstFrom test n start = .ok (Adjacency.firstFrom plain n start) := by
  induction n generalizing start with
  | zero => rfl
  | succ n ih =>
    have hrest := ih fun pos (h₁ : start + 1 ≤ pos) h₂ => h pos (by omega) (by omega)
    rw [firstFrom, h start (Nat.le_refl _) (by omega), Adjacency.firstFrom]
    cases plain start
    · exact hrest
    · rfl

/-! ## Actions -/

/-- A plain action, which meets no fault. -/
def lift (x : Metered σ α) : Guarded σ α := fun s =>
  match x s with
  | .ok a t => .ok a t
  | .error e t => .error (.raised e) t

/-- The outcome of an access. -/
def access : Except Failure α → Guarded σ α
  | .ok v => pure v
  | .error f => throw f

def subject : Guarded σ σ := lift Metered.subject

def put (v : σ) : Guarded σ Unit := lift (Metered.put v)

def update (f : σ → σ) : Guarded σ Unit := lift (Metered.update f)

def tally (c : Call) : Guarded σ Unit := lift (Metered.tally c)

def require (x : Except GraphError α) : Guarded σ α := lift (Metered.require x)

def reserve (n : Nat) (site : MemorySite) : Guarded σ Unit := lift (Metered.reserve n site)

/-- Breaks off with a failure of the plain call. -/
def refuse (e : GraphError) : Guarded σ α := lift (throw e)

/-- Changes the value acted on, by way of accesses. -/
def alter (f : σ → Except Failure σ) : Guarded σ Unit := do
  put (← access (f (← subject)))

/-- Acts on a value of its own; only what became of it matters. -/
def settle (start : τ) (act : Guarded τ Unit) : Guarded σ τ := fun s =>
  match act (start, s.2) with
  | .ok _ t => .ok t.1 (s.1, t.2)
  | .error e t => .error e (s.1, t.2)

/-- Run on `s`, a guarded action meets no fault: it does what the plain one does, and fails as that
does. -/
def Faultless (c : Guarded σ α) (x : Metered σ α) (s : σ) : Prop := ∀ n, c (s, n) = lift x (s, n)

/-- A call is safe on `s`: it meets no fault, and no failure of it shows a broken rule. -/
structure Safe (c : Guarded σ α) (x : Metered σ α) (s : σ) : Prop where
  faultless : Faultless c x s
  sound : Metered.Ensures x s (fun _ _ => True) fun e _ => e.fatal = false

variable {s : σ} {c : Guarded σ α} {x : Metered σ α}

theorem faultless_lift (x : Metered σ α) (s : σ) : Faultless (lift x) x s := fun _ => rfl

theorem faultless_pure (a : α) (s : σ) : Faultless (pure a) (pure a) s := fun _ => rfl

theorem faultless_refuse (e : GraphError) (s : σ) : Faultless (refuse e : Guarded σ α) (throw e) s :=
  fun _ => rfl

/-- Sequencing: the second action starts from what the first one ensures. -/
theorem Faultless.bind {d : α → Guarded σ β} {k : α → Metered σ β} {good : α → σ → Prop}
    {bad : GraphError → σ → Prop} (hc : Faultless c x s) (hx : Metered.Ensures x s good bad)
    (hk : ∀ a t, good a t → Faultless (d a) (k a) t) : Faultless (c >>= d) (x >>= k) s := by
  intro n
  have hn := hc n
  have hgood := hx n
  simp only [Bind.bind, EStateM.bind, hn, lift]
  cases hr : x (s, n) with
  | ok a t =>
    rw [hr] at hgood
    exact hk a t.1 hgood t.2
  | error e t => rfl

/-- An action that ensures nothing of note. -/
theorem Faultless.andThen {d : α → Guarded σ β} {k : α → Metered σ β} (hc : Faultless c x s)
    (hk : ∀ a t, Faultless (d a) (k a) t) : Faultless (c >>= d) (x >>= k) s := by
  have hx : Metered.Ensures x s (fun _ _ => True) fun _ _ => True := by
    intro n
    split <;> trivial
  exact hc.bind hx fun a t _ => hk a t

theorem faultless_ite {p : Prop} [Decidable p] {d : Guarded σ α} {y : Metered σ α}
    (hc : p → Faultless c x s) (hd : ¬p → Faultless d y s) :
    Faultless (if p then c else d) (if p then x else y) s := by
  split
  · next h => exact hc h
  · next h => exact hd h

/-- An action that is only taken on a condition. -/
theorem faultless_when (mid : σ → Prop) {bad : GraphError → σ → Prop} {p : Prop} [Decidable p]
    {c : Guarded σ Unit} {x : Metered σ Unit} {d : Unit → Guarded σ α} {k : Unit → Metered σ α}
    (hc : p → Faultless c x s) (hx : p → Metered.Ensures x s (fun _ t => mid t) bad) (hs : ¬p → mid s)
    (hk : ∀ t, mid t → Faultless (d ()) (k ()) t) :
    Faultless (if p then c >>= d else d ()) (if p then x >>= k else k ()) s :=
  faultless_ite (fun h => (hc h).bind (hx h) fun _ t ht => hk t ht) fun h => hk s (hs h)

/-! ## First steps -/

theorem faultless_subject {d : σ → Guarded σ α} {k : σ → Metered σ α} (h : Faultless (d s) (k s) s) :
    Faultless (subject >>= d) (Metered.subject >>= k) s := fun n => h n

theorem faultless_update {f : σ → σ} {d : Unit → Guarded σ α} {k : Unit → Metered σ α}
    (h : Faultless (d ()) (k ()) (f s)) : Faultless (update f >>= d) (Metered.update f >>= k) s :=
  fun n => h n

theorem faultless_require {r : Except GraphError β} {d : β → Guarded σ α} {k : β → Metered σ α}
    (h : ∀ v, r = .ok v → Faultless (d v) (k v) s) :
    Faultless (require r >>= d) (Metered.require r >>= k) s := by
  cases r with
  | ok v => exact fun n => h v rfl n
  | error e => exact fun _ => rfl

theorem faultless_reserve {m : Nat} {site : MemorySite} {d : Unit → Guarded σ α}
    {k : Unit → Metered σ α} (h : Faultless (d ()) (k ()) s) :
    Faultless (reserve m site >>= d) (Metered.reserve m site >>= k) s := by
  intro n
  simp only [reserve, Metered.reserve]
  split
  · rfl
  · exact h n

/-- An access leaves no trace in the plain action. -/
theorem faultless_access {r : Except Failure β} {v : β} {d : β → Guarded σ α} (hr : r = .ok v)
    (h : Faultless (d v) x s) : Faultless (access r >>= d) x s := by
  subst hr
  exact h

theorem faultless_alter {f : σ → Except Failure σ} {g : σ → σ} {d : Unit → Guarded σ α}
    {k : Unit → Metered σ α} (hf : f s = .ok (g s)) (h : Faultless (d ()) (k ()) (g s)) :
    Faultless (alter f >>= d) (Metered.update g >>= k) s := by
  intro n
  have hstep : (alter f : Guarded σ Unit) (s, n) = .ok () (g s, n) := by
    -- the access only reads, so that the step ends in the put
    change (access (f s) >>= put) (s, n) = _
    rw [hf]
    rfl
  simp only [Bind.bind, EStateM.bind, hstep]
  exact h n

theorem faultless_settle {start : τ} {c : Guarded τ Unit} {x : Metered τ Unit}
    (h : Faultless c x start) (s : σ) : Faultless (settle start c) (Metered.settle start x) s := by
  intro n
  have hn := h n
  simp only [settle, lift, Metered.settle, hn]
  cases x (start, n) <;> rfl

end Guarded

end Adjacency
