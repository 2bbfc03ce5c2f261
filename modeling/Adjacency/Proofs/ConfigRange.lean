import Mathlib.Tactic
import Adjacency.Config

/-!
# Configured numbers are in range

An integer in a document has 64 bits, however deep it stands, and a configuration passes the checks of
its values.

* `Toml.Item.Ranged`: every integer in an item has at most 63 bits and a sign.
* `Toml.readsRanged`, `Toml.ranged_parse?`: what is read is so.
* `EngineConfig.InRange`: the limits of a configuration that the engine counts on.
* `EngineConfig.inRange_of_ofFileOrDefault`: **every configuration that is read keeps them.**
-/

namespace Adjacency

/-- Two steps succeed when the first does, and the second with what it gave. -/
theorem bind_eq_ok_iff {ε α β : Type} {x : Except ε α} {f : α → Except ε β} {b : β} :
    x >>= f = .ok b ↔ ∃ a, x = .ok a ∧ f a = .ok b := by
  cases x with
  | error e => exact ⟨(fun h => nomatch h), fun ⟨_, h, _⟩ => nomatch h⟩
  | ok a => exact ⟨fun h => ⟨a, rfl, h⟩, by rintro ⟨_, ⟨⟩, h⟩; exact h⟩

namespace Toml

/-- No integer in the item is above the greatest of 64 bits. -/
inductive Item.Ranged : Item → Prop
  | text (s : String) : Ranged (.text s)
  | integer {n : Int} (h : n ≤ Int64.maxValue.toInt) : Ranged (.integer n)
  | decimal (x : Binary64) : Ranged (.decimal x)
  | truth (b : Bool) : Ranged (.truth b)
  | moment (written : String) : Ranged (.moment written)
  | list {items : List Item} (h : ∀ i ∈ items, Ranged i) : Ranged (.list items)
  | table (origin : Origin) {fields : Fields} (h : ∀ f ∈ fields, Ranged f.2) : Ranged (.table origin fields)
  | tables {older : List Fields} {newest : Fields} (ho : ∀ t ∈ older, ∀ f ∈ t, Ranged f.2)
    (hn : ∀ f ∈ newest, Ranged f.2) : Ranged (.tables older newest)

/-- So in every field. -/
def Fields.Ranged (fields : Fields) : Prop := ∀ f ∈ fields, f.2.Ranged

theorem Item.Ranged.inner {origin : Origin} {fields : Fields} (h : (Item.table origin fields).Ranged) :
    fields.Ranged := by
  cases h with
  | table _ h => exact h

theorem Item.Ranged.elements {older : List Fields} {newest : Fields} (h : (Item.tables older newest).Ranged) :
    (∀ t ∈ older, t.Ranged) ∧ newest.Ranged := by
  cases h with
  | tables ho hn => exact ⟨ho, hn⟩

theorem Item.Ranged.members {items : List Item} (h : (Item.list items).Ranged) : ∀ i ∈ items, i.Ranged := by
  cases h with
  | list h => exact h

namespace Fields

variable {fields out : Fields} {key : String}

theorem ranged_nil : Ranged [] := fun _ h => nomatch h

theorem Ranged.get? (h : fields.Ranged) {item : Item} (hi : fields.get? key = some item) : item.Ranged := by
  obtain ⟨f, hf, rfl⟩ : ∃ f ∈ fields, f.2 = item := by
    unfold Fields.get? at hi
    obtain ⟨l₁, l₂, rfl, -⟩ := List.lookup_eq_some_iff.1 hi
    exact ⟨(key, item), by simp, rfl⟩
  exact h f hf

/-- What replaces a ranged item is ranged. -/
def Keeps (f : Option Item → Option Item) : Prop :=
  ∀ old new, (∀ i, old = some i → i.Ranged) → f old = some new → new.Ranged

theorem Ranged.alter {f : Option Item → Option Item} (h : fields.Ranged) (hf : Keeps f)
    (ho : fields.alter key f = some out) : out.Ranged := by
  induction fields generalizing out with
  | nil =>
    obtain ⟨n, hn, rfl⟩ := Option.map_eq_some_iff.1 ho
    exact List.forall_mem_singleton.2 (hf none n (fun _ h => nomatch h) hn)
  | cons field rest ih =>
    obtain ⟨k, n⟩ := field
    obtain ⟨hn, hrest⟩ := List.forall_mem_cons.1 h
    rw [Fields.alter] at ho
    split at ho
    · obtain ⟨n', hn', rfl⟩ := Option.map_eq_some_iff.1 ho
      exact List.forall_mem_cons.2 ⟨hf _ n' (by rintro _ ⟨⟩; exact hn) hn', hrest⟩
    · obtain ⟨rest', hrest', rfl⟩ := Option.map_eq_some_iff.1 ho
      exact List.forall_mem_cons.2 ⟨hn, ih hrest hrest'⟩

theorem Ranged.addField {v : Item} (hv : v.Ranged) {path : List String} (h : fields.Ranged)
    (ho : fields.addField v path = some out) : out.Ranged := by
  induction path generalizing fields out with
  | nil => cases ho
  | cons key rest ih =>
    cases rest with
    | nil =>
      refine h.alter (fun old new _ hnew => ?_) ho
      cases old with
      | none => exact Option.some.inj hnew ▸ hv
      | some _ => cases hnew
    | cons next rest =>
      refine h.alter (fun old new hold hnew => ?_) ho
      split at hnew
      · obtain ⟨inner, hinner, rfl⟩ := Option.map_eq_some_iff.1 hnew
        exact .table _ (ih ranged_nil hinner)
      · obtain ⟨inner, hinner, rfl⟩ := Option.map_eq_some_iff.1 hnew
        exact .table _ (ih (hold _ rfl).inner hinner)
      · cases hnew

theorem Ranged.within {edit : Fields → Option Fields}
    (hedit : ∀ inner inner', Ranged inner → edit inner = some inner' → inner'.Ranged) {path : List String}
    (h : fields.Ranged) (ho : fields.within edit path = some out) : out.Ranged := by
  induction path generalizing fields out with
  | nil => exact hedit _ _ h ho
  | cons key rest ih =>
    refine h.alter (fun old new hold hnew => ?_) ho
    split at hnew
    · obtain ⟨inner, hinner, rfl⟩ := Option.map_eq_some_iff.1 hnew
      exact .table _ (ih ranged_nil hinner)
    · cases hnew
    · obtain ⟨inner, hinner, rfl⟩ := Option.map_eq_some_iff.1 hnew
      exact .table _ (ih (hold _ rfl).inner hinner)
    · obtain ⟨newest, hnewest, rfl⟩ := Option.map_eq_some_iff.1 hnew
      obtain ⟨holder, hn⟩ := (hold _ rfl).elements
      exact .tables holder (ih hn hnewest)
    · cases hnew

theorem Ranged.openTable {path : List String} (h : fields.Ranged)
    (ho : fields.openTable path key = some out) : out.Ranged := by
  refine h.within (fun inner inner' hinner hi => ?_) ho
  refine hinner.alter (fun old new hold hnew => ?_) hi
  split at hnew
  · obtain rfl := Option.some.inj hnew
    exact .table _ ranged_nil
  · obtain rfl := Option.some.inj hnew
    exact .table _ (hold _ rfl).inner
  · cases hnew

theorem Ranged.openElement {path : List String} (h : fields.Ranged)
    (ho : fields.openElement path key = some out) : out.Ranged := by
  refine h.within (fun inner inner' hinner hi => ?_) ho
  refine hinner.alter (fun old new hold hnew => ?_) hi
  split at hnew
  · obtain rfl := Option.some.inj hnew
    exact .tables (fun _ h => nomatch h) ranged_nil
  · obtain rfl := Option.some.inj hnew
    obtain ⟨holder, hn⟩ := (hold _ rfl).elements
    exact .tables (List.forall_mem_append.2 ⟨holder, List.forall_mem_singleton.2 hn⟩) ranged_nil
  · cases hnew

end Fields

/-! ## Reading -/

theorem ranged_ofWord? {cs : List Char} {item : Item} (h : Item.ofWord? cs = some item) : item.Ranged := by
  unfold Item.ofWord? at h
  split at h
  · exact Option.some.inj h ▸ .truth _
  split at h
  · exact Option.some.inj h ▸ .truth _
  split at h
  · exact Option.some.inj h ▸ .moment _
  rcases (Option.orElse_eq_some _ _ _).1 h with h | ⟨-, h⟩
  · obtain ⟨n, hn, rfl⟩ := Option.map_eq_some_iff.1 h
    exact .integer (of_decide_eq_true (Option.filter_eq_some_iff.1 hn).2).2
  · obtain ⟨x, -, rfl⟩ := Option.map_eq_some_iff.1 h
    exact .decimal x

theorem ranged_word? {cs rest : List Char} {item : Item} (h : word? cs = some (item, rest)) : item.Ranged := by
  have hword : ∀ {word rest'}, (Item.ofWord? word).map (fun n => (n, rest')) = some (item, rest) →
      item.Ranged := by
    intro word rest' hmap
    obtain ⟨n, hn, heq⟩ := Option.map_eq_some_iff.1 hmap
    cases heq
    exact ranged_ofWord? hn
  unfold word? at h
  dsimp only at h
  split at h
  · split at h
    · exact hword h
    · exact hword h
  · exact hword h

/-- With so much fuel the three readers of values return what is ranged. -/
structure ReadsRanged (fuel : Nat) : Prop where
  value : ∀ {room cs item rest}, value fuel room cs = some (item, rest) → item.Ranged
  items : ∀ {room cs is rest}, items fuel room cs = some (is, rest) → ∀ i ∈ is, i.Ranged
  fields : ∀ {room done cs out rest}, done.Ranged → fields fuel room done cs = some (out, rest) → out.Ranged

theorem ReadsRanged.value_succ {fuel room : Nat} {cs rest : List Char} {item : Item} (h : ReadsRanged fuel)
    (hv : Toml.value (fuel + 1) room cs = some (item, rest)) : item.Ranged := by
  unfold Toml.value at hv
  split at hv
  · cases hv
  · cases hv
  · cases hv
  · next heq =>
    obtain rfl := Nat.succ.inj heq
    obtain ⟨⟨is, rest'⟩, his, hv⟩ := Option.bind_eq_some_iff.1 hv
    cases hv
    exact .list (h.items his)
  · next heq =>
    obtain rfl := Nat.succ.inj heq
    split at hv
    · cases hv
      exact .table _ Fields.ranged_nil
    · obtain ⟨⟨fs, rest'⟩, hfs, hv⟩ := Option.bind_eq_some_iff.1 hv
      cases hv
      exact .table _ (h.fields Fields.ranged_nil hfs)
  · split at hv
    · cases hv
      exact .text _
    · exact ranged_word? hv

theorem ReadsRanged.items_succ {fuel room : Nat} {cs rest : List Char} {is : List Item} (h : ReadsRanged fuel)
    (hv : Toml.items (fuel + 1) room cs = some (is, rest)) : ∀ i ∈ is, i.Ranged := by
  unfold Toml.items at hv
  split at hv
  · cases hv
  · cases hv
    exact fun _ h => nomatch h
  · next heq _ =>
    obtain rfl := Nat.succ.inj heq
    obtain ⟨⟨item, rest₁⟩, hitem, hv⟩ := Option.bind_eq_some_iff.1 hv
    dsimp only at hv
    split at hv
    · cases hv
      exact List.forall_mem_singleton.2 (h.value hitem)
    · obtain ⟨⟨more, rest₂⟩, hmore, hv⟩ := Option.bind_eq_some_iff.1 hv
      cases hv
      exact List.forall_mem_cons.2 ⟨h.value hitem, h.items hmore⟩
    · cases hv

theorem ReadsRanged.fields_succ {fuel room : Nat} {cs rest : List Char} {done out : Fields}
    (h : ReadsRanged fuel) (hd : done.Ranged)
    (hv : Toml.fields (fuel + 1) room done cs = some (out, rest)) : out.Ranged := by
  unfold Toml.fields at hv
  obtain ⟨⟨path, rest₁⟩, -, hv⟩ := Option.bind_eq_some_iff.1 hv
  dsimp only at hv
  split at hv
  · obtain ⟨⟨v, rest₂⟩, hitem, hv⟩ := Option.bind_eq_some_iff.1 hv
    obtain ⟨done', hdone, hv⟩ := Option.bind_eq_some_iff.1 hv
    have hranged := hd.addField (h.value hitem) hdone
    dsimp only at hv
    split at hv
    · cases hv
      exact hranged
    · exact h.fields hranged hv
    · cases hv
  · cases hv

theorem readsRanged (fuel : Nat) : ReadsRanged fuel := by
  induction fuel with
  | zero =>
    refine ⟨fun h => ?_, fun h => ?_, fun _ h => ?_⟩
    · rw [value] at h; cases h
    · rw [items] at h; cases h
    · rw [fields] at h; cases h
  | succ fuel ih => exact ⟨ih.value_succ, ih.items_succ, ih.fields_succ⟩

theorem ranged_lines {fuel : Nat} {opened : List String} {root out : Fields} {cs : List Char}
    (h : root.Ranged) (ho : lines fuel opened root cs = some out) : out.Ranged := by
  induction fuel generalizing opened root cs with
  | zero =>
    rw [lines] at ho
    split at ho
    · exact Option.some.inj ho ▸ h
    · cases ho
  | succ fuel ih =>
    rw [lines] at ho
    split at ho
    · exact Option.some.inj ho ▸ h
    · obtain ⟨⟨path, key, rest⟩, -, ho⟩ := Option.bind_eq_some_iff.1 ho
      obtain ⟨root', hroot, ho⟩ := Option.bind_eq_some_iff.1 ho
      obtain ⟨rest', -, ho⟩ := Option.bind_eq_some_iff.1 ho
      exact ih (h.openElement hroot) ho
    · obtain ⟨⟨path, key, rest⟩, -, ho⟩ := Option.bind_eq_some_iff.1 ho
      obtain ⟨root', hroot, ho⟩ := Option.bind_eq_some_iff.1 ho
      obtain ⟨rest', -, ho⟩ := Option.bind_eq_some_iff.1 ho
      exact ih (h.openTable hroot) ho
    · split at ho
      · exact ih h ho
      · obtain ⟨⟨path, rest⟩, -, ho⟩ := Option.bind_eq_some_iff.1 ho
        dsimp only at ho
        split at ho
        · obtain ⟨⟨v, rest₁⟩, hv, ho⟩ := Option.bind_eq_some_iff.1 ho
          obtain ⟨root', hroot, ho⟩ := Option.bind_eq_some_iff.1 ho
          obtain ⟨rest₂, -, ho⟩ := Option.bind_eq_some_iff.1 ho
          have hadd : ∀ inner inner' : Fields, inner.Ranged → inner.addField v path = some inner' →
              inner'.Ranged := fun _ _ hinner => hinner.addField ((readsRanged _).value hv)
          exact ih (h.within hadd hroot) ho
        · cases ho

/-- **A document that is read has no integer of more than 64 bits.** -/
theorem ranged_parse? {text : String} {fields : Fields} (h : parse? text = some fields) : fields.Ranged :=
  ranged_lines Fields.ranged_nil h

end Toml

/-! ## Settings -/

namespace Settings

open Toml

variable {text : String} {s : Settings} {c : EngineConfig}

theorem ranged_entries? {keys : List String} {section? : Option Item} {entries : List (Option Item)}
    (hs : ∀ i, section? = some i → i.Ranged) (h : entries? keys section? = some entries) :
    ∀ e ∈ entries, ∀ i, e = some i → i.Ranged := by
  unfold entries? at h
  split at h
  · obtain rfl := Option.some.inj h
    intro e he i hi
    obtain ⟨_, -, rfl⟩ := List.mem_map.1 he
    cases hi
  · split at h
    · obtain rfl := Option.some.inj h
      intro e he i hi
      obtain ⟨key, -, rfl⟩ := List.mem_map.1 he
      exact (hs _ rfl).inner.get? hi
    · cases h
  · split at h
    · cases h
    · obtain rfl := Option.some.inj h
      intro e he i hi
      obtain ⟨item, hitem, rfl⟩ := List.mem_map.1 he
      exact Option.some.inj hi ▸ (hs _ rfl).members item (List.mem_of_mem_take hitem)
  · cases h

theorem natural_lt {entry : Option Item} {n : Nat} (hr : ∀ i, entry = some i → i.Ranged)
    (h : optional natural? entry = some (some n)) : n < UInt64.size := by
  unfold optional at h
  split at h
  · cases h
  · obtain ⟨m, hm, heq⟩ := Option.map_eq_some_iff.1 h
    obtain rfl := Option.some.inj heq
    unfold natural? at hm
    split at hm
    · split at hm
      · obtain rfl := Option.some.inj hm
        have hle := match hr _ rfl with
          | .integer hle => hle
        have hmax : Int64.maxValue.toInt = 9223372036854775807 := by decide
        rw [hmax] at hle
        have hsize : UInt64.size = 18446744073709551616 := rfl
        omega
      · cases hm
    · cases hm

/-- The number of cells that a text sets is a word. -/
theorem cells_lt {n : Nat} (h : read? text = some s) (hn : s.maxDenseCells = some n) : n < UInt64.size := by
  unfold read? at h
  obtain ⟨document, hdocument, h⟩ := Option.bind_eq_some_iff.1 h
  have hranged := ranged_parse? hdocument
  dsimp only at h
  split at h
  · cases h
  obtain ⟨matrix, hmatrix, h⟩ := Option.bind_eq_some_iff.1 h
  have hentries := ranged_entries? (fun _ hi => hranged.get? hi) hmatrix
  split at h
  · obtain ⟨execution, -, h⟩ := Option.bind_eq_some_iff.1 h
    split at h
    · obtain ⟨graph, -, h⟩ := Option.bind_eq_some_iff.1 h
      split at h
      · obtain ⟨_, -, h⟩ := Option.bind_eq_some_iff.1 h
        obtain ⟨_, -, h⟩ := Option.bind_eq_some_iff.1 h
        obtain ⟨_, -, h⟩ := Option.bind_eq_some_iff.1 h
        obtain ⟨cells, hcells, h⟩ := Option.bind_eq_some_iff.1 h
        obtain ⟨_, -, h⟩ := Option.bind_eq_some_iff.1 h
        obtain ⟨_, -, h⟩ := Option.bind_eq_some_iff.1 h
        obtain ⟨_, -, h⟩ := Option.bind_eq_some_iff.1 h
        obtain ⟨_, -, h⟩ := Option.bind_eq_some_iff.1 h
        obtain ⟨_, -, h⟩ := Option.bind_eq_some_iff.1 h
        obtain rfl := Option.some.inj h
        obtain rfl : cells = some n := hn
        exact natural_lt (hentries _ (by simp)) hcells
      · cases h
    · cases h
  · cases h

theorem of_check {α : Type} {flaw : Flaw} {test : α → Bool} {v : Option α}
    (h : check flaw test v = .ok ()) {a : α} (ha : v = some a) : test a = true := by
  unfold check at h
  split at h
  · next hall => simpa [ha] using hall
  · cases h

end Settings

/-! ## Configurations -/

/-- What the engine counts on: the cells of a matrix are numbered by words, and a batch holds a record. -/
structure EngineConfig.InRange (c : EngineConfig) : Prop where
  cells : c.matrix.maxDenseCells < UInt64.size
  batchSize : 0 < c.execution.batchSize

namespace EngineConfig

variable {c : EngineConfig}

/-- A graph has the matrix options of its configuration. -/
theorem graphOptions_matrix (c : EngineConfig) : c.graphOptions.matrix = c.matrix := by
  unfold graphOptions
  cases c.nodeBlock <;> rfl

theorem inRange_default : InRange {} := ⟨by decide, by decide⟩

theorem inRange_of_resolve {s : Settings} (h : s.resolve = .ok c)
    (hcells : ∀ n, s.maxDenseCells = some n → n < UInt64.size) : c.InRange := by
  unfold Settings.resolve at h
  obtain ⟨-, -, h⟩ := bind_eq_ok_iff.1 h
  obtain ⟨-, -, h⟩ := bind_eq_ok_iff.1 h
  obtain ⟨-, -, h⟩ := bind_eq_ok_iff.1 h
  obtain ⟨_, -, h⟩ := bind_eq_ok_iff.1 h
  obtain ⟨_, hbatch, h⟩ := bind_eq_ok_iff.1 h
  obtain ⟨-, -, h⟩ := bind_eq_ok_iff.1 h
  obtain rfl := Except.ok.inj h
  constructor
  · cases hn : s.maxDenseCells with
    | none => simp only [Option.getD_none]; decide
    | some n => simpa only [Option.getD_some] using hcells n hn
  · cases hn : s.batchSize with
    | none => simp only [Option.getD_none]; decide
    | some n => simpa only [Option.getD_some] using of_decide_eq_true (Settings.of_check hbatch hn)

theorem inRange_of_ofTextFrom {source : TextSource} {text : String} (h : ofTextFrom source text = .ok c) :
    c.InRange := by
  unfold ofTextFrom at h
  split at h
  · cases h
  · next s hread =>
    cases hr : s.resolve with
    | error flaw => rw [hr] at h; cases h
    | ok c' =>
      rw [hr] at h
      obtain rfl := Except.ok.inj h
      exact inRange_of_resolve hr fun n hn => Settings.cells_lt hread hn

/-- **Every configuration that is read is in range**, and so is the default one. -/
theorem inRange_of_ofFileOrDefault {asked fallback : Option (Option String)}
    (h : ofFileOrDefault asked fallback = .ok c) : c.InRange := by
  have hfile : ∀ {contents}, ofFile contents = .ok c → c.InRange := by
    intro contents hc
    cases contents with
    | none => cases hc
    | some text => exact inRange_of_ofTextFrom hc
  cases asked with
  | some contents => exact hfile h
  | none =>
    cases fallback with
    | some contents => exact hfile h
    | none => exact Except.ok.inj h ▸ inRange_default

end EngineConfig

end Adjacency
