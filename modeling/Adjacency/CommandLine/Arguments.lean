import Adjacency.Population

/-!
# Command-line arguments

The command `traverse` takes options of the form `--name value` or `--name=value`, each at most once.
The option `--config` may stand before the command or behind it; of both the latter counts.

* `takeOptions`: the options at the front of a list of words.
* `natural64?`: a number of 64 bits.
* `Request.ofWords`: what a command line asks for.
-/

namespace Adjacency.CommandLine

/-- Why the words make no request. -/
inductive UsageError
  | missingCommand
  | unexpected (word : String)
  | repeated (option : String)
  | missingValue (option : String)
  | badValue (option value : String)
  deriving DecidableEq

/-- What the command `traverse` is asked to do. -/
structure Traverse where
  population : Population := {}
  /-- Overrides the configured batch size. -/
  batchSize : Option Nat := none
  /-- Rows to print. -/
  limit : Nat := 10
  deriving DecidableEq

/-- What a command line asks for. -/
inductive Request
  | version
  /-- A traversal under the configuration in a file, where one is named. -/
  | traverse (config : Option String) (task : Traverse)

/-- Options by name. -/
abbrev Options := List (String × String)

/-- The name and the value, if any, of a word `--name` or `--name=value`. -/
def option? (word : String) : Option (String × Option String) :=
  match word.toList with
  | '-' :: '-' :: body =>
    let name := String.ofList (body.takeWhile (· != '='))
    match body.dropWhile (· != '=') with
    | _ :: value => some (name, some (String.ofList value))
    | [] => some (name, none)
  | _ => none

/-- A word that starts an option, so that it is no value of the option before it. -/
def startsOption (word : String) : Bool :=
  match word.toList with
  | '-' :: _ :: _ => true
  | _ => false

/-- Adds an option that is not there yet. -/
def Options.add (taken : Options) (name value : String) : Except UsageError Options :=
  if (taken.lookup name).isSome then .error (.repeated name) else .ok ((name, value) :: taken)

/-- The options at the front whose names are among `known`, and the words behind them. -/
def takeOptions (known : List String) (taken : Options) :
    List String → Except UsageError (Options × List String)
  | [] => .ok (taken, [])
  | word :: rest =>
    match option? word with
    | none => .ok (taken, word :: rest)
    | some (name, value) =>
      if !known.contains name then .ok (taken, word :: rest)
      else match value, rest with
        | some value, rest => do takeOptions known (← taken.add name value) rest
        | none, [] => .error (.missingValue name)
        | none, value :: rest =>
          if startsOption value then .error (.missingValue name)
          else do takeOptions known (← taken.add name value) rest

/-- A number of 64 bits in decimal digits, with or without a plus sign. -/
def natural64? (s : String) : Option Nat :=
  let digits := match s.toList with
    | '+' :: rest => rest
    | cs => cs
  if digits.isEmpty || !digits.all Char.isDigit then none
  else
    let n := digits.foldl (fun n c => n * 10 + (c.toNat - '0'.toNat)) 0
    if n < UInt64.size then some n else none

/-- The value of a numeric option, where it is given. -/
def number? (options : Options) (name : String) : Except UsageError (Option Nat) :=
  match options.lookup name with
  | none => .ok none
  | some value => match natural64? value with
    | some n => .ok (some n)
    | none => .error (.badValue name value)

/-- The name of the configuration file, where one is given. It is not empty. -/
def config? (options : Options) : Except UsageError (Option String) :=
  match options.lookup "config" with
  | some "" => .error (.badValue "config" "")
  | path => .ok path

/-- The task that the options of `traverse` describe. -/
def Traverse.ofOptions (options : Options) : Except UsageError Traverse := do
  let base : Traverse := {}
  return {
    population := {
      nodes := (← number? options "nodes").getD base.population.nodes
      degree := (← number? options "degree").getD base.population.degree
      seed := (← number? options "seed").getD base.population.seed }
    batchSize := ← number? options "batch-size"
    limit := (← number? options "limit").getD base.limit }

/-- The words behind the options of `traverse`: none, or a mark that ends the options. -/
def finished : List String → Except UsageError Unit
  | [] | ["--"] => .ok ()
  | "--" :: word :: _ => .error (.unexpected word)
  | word :: _ => .error (.unexpected word)

/-- A word that asks for the version. Of short options written together the first one decides. -/
def asksVersion (word : String) : Bool :=
  match word.toList with
  | '-' :: 'V' :: _ => true
  | _ => word == "--version"

/-- What the words ask for. A file named in the environment counts where the words name none. -/
def Request.ofWords (environment : Option String) (words : List String) :
    Except UsageError Request := do
  let (outer, rest) ← takeOptions ["config"] [] words
  let outerConfig ← config? outer
  match rest with
  | [] => .error .missingCommand
  | "traverse" :: rest => do
    let (inner, rest) ← takeOptions ["config", "nodes", "degree", "seed", "batch-size", "limit"] [] rest
    let innerConfig ← config? inner
    let task ← Traverse.ofOptions inner
    finished rest
    match innerConfig <|> outerConfig with
    | some path => return .traverse (some path) task
    | none => match environment with
      | some "" => .error (.badValue "config" "")
      | path => return .traverse path task
  | word :: _ => if asksVersion word then return .version else .error (.unexpected word)

/-- The wording of a bad command line. -/
def UsageError.message : UsageError → String
  | .missingCommand => "a command is required"
  | .unexpected word => "unexpected argument '" ++ word ++ "'"
  | .repeated option => "the argument '--" ++ option ++ "' cannot be used multiple times"
  | .missingValue option => "a value is required for '--" ++ option ++ "'"
  | .badValue option value => "invalid value '" ++ value ++ "' for '--" ++ option ++ "'"

end Adjacency.CommandLine
