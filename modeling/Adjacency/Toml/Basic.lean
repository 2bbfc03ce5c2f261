import Adjacency.Binary64

/-!
# The data of a TOML document

A document is a table: fields in the order written, no key twice. How a table came about decides who
may still add to it.

* `addField`: a value under a dotted key. Only tables that dotted keys made may grow this way.
* `within`: the table that a header path leads to, through the newest element of a table array.
* `openTable`, `openElement`: what the headers `[a.b]` and `[[a.b]]` do.
-/

namespace Adjacency.Toml

/-- How a table came about. -/
inductive Origin
  /-- Written in braces, and closed with them. -/
  | braces
  /-- Named on the way by a dotted key. -/
  | dotted
  /-- Opened by a header of its own. -/
  | header
  /-- Named on the way by a header of something inside it. -/
  | implied
  deriving DecidableEq

/-- A value. -/
inductive Item
  | text (s : String)
  | integer (n : Int)
  | decimal (x : Binary64)
  | truth (b : Bool)
  /-- A date, a time or both, as written. -/
  | moment (written : String)
  | list (items : List Item)
  | table (origin : Origin) (fields : List (String × Item))
  /-- The elements that `[[…]]` headers opened; only the newest still grows. -/
  | tables (older : List (List (String × Item))) (newest : List (String × Item))

/-- The fields of a table. -/
abbrev Fields := List (String × Item)

namespace Fields

/-- Replaces what stands under a key, or adds the key at the end. -/
def alter (key : String) (f : Option Item → Option Item) : Fields → Option Fields
  | [] => (f none).map fun n => [(key, n)]
  | (k, n) :: rest =>
    if k = key then (f (some n)).map fun n' => (k, n') :: rest
    else (alter key f rest).map ((k, n) :: ·)

/-- Adds a value under a dotted key that is not taken yet. -/
def addField (value : Item) : List String → Fields → Option Fields
  | [], _ => none
  | [key], fields => fields.alter key fun
    | none => some value
    | some _ => none
  | key :: rest, fields => fields.alter key fun
    | none => (addField value rest []).map (.table .dotted)
    | some (.table .dotted inner) => (addField value rest inner).map (.table .dotted)
    | some _ => none

/-- Edits the table that a header path leads to. Missing tables on the way are implied. -/
def within (edit : Fields → Option Fields) : List String → Fields → Option Fields
  | [], fields => edit fields
  | key :: rest, fields => fields.alter key fun
    | none => (within edit rest []).map (.table .implied)
    | some (.table .braces _) => none
    | some (.table origin inner) => (within edit rest inner).map (.table origin)
    | some (.tables older newest) => (within edit rest newest).map (.tables older)
    | some _ => none

/-- Opens a table by its own header, once. -/
def openTable (path : List String) (key : String) : Fields → Option Fields :=
  within (fun fields => fields.alter key fun
    | none => some (.table .header [])
    | some (.table .implied inner) => some (.table .header inner)
    | some _ => none) path

/-- Opens the next element of a table array. -/
def openElement (path : List String) (key : String) : Fields → Option Fields :=
  within (fun fields => fields.alter key fun
    | none => some (.tables [] [])
    | some (.tables older newest) => some (.tables (older ++ [newest]) [])
    | some _ => none) path

/-- What stands under a key. -/
def get? (fields : Fields) (key : String) : Option Item := fields.lookup key

end Fields

end Adjacency.Toml
