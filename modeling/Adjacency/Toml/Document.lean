import Adjacency.Toml.Word
import Adjacency.Toml.Quoted

/-!
# Reading TOML documents

Each reader takes characters and returns what it read with what follows, or none where the text breaks
the grammar. Values nest, so their readers go by a fuel that the length of the text bounds. They also
count the levels that a value may still open, so that no document nests without bound.

* `maxNesting`: how deep a value nests, and how long a dotted key is.
* `key?`: a dotted key.
* `value`: one value.
* `parse?`: a whole document.
-/

namespace Adjacency.Toml

/-- The most lists and tables that are open at once inside one value. A dotted key, whose parts nest
as well, has at most as many parts. -/
def maxNesting : Nat := 79

def isBlank (c : Char) : Bool := c == ' ' || c == '\t'

/-- Leaves out blanks. -/
def skipBlanks (cs : List Char) : List Char := cs.dropWhile isBlank

/-- A comment may hold every character that a text on one line may. -/
def skipComment : List Char → List Char
  | '#' :: rest => rest.dropWhile isPlain
  | cs => cs

/-- Leaves out blanks, comments and line ends. -/
def skipLines (inComment : Bool) : List Char → List Char
  | [] => []
  | '\r' :: '\n' :: rest => skipLines false rest
  | c :: rest =>
    if c = '\n' then skipLines false rest
    else if inComment then if isPlain c then skipLines true rest else c :: rest
    else if isBlank c then skipLines false rest
    else if c = '#' then skipLines true rest
    else c :: rest

/-- Blanks and a comment up to the end of the line. -/
def lineEnd? (cs : List Char) : Option (List Char) :=
  match skipComment (skipBlanks cs) with
  | [] => some []
  | '\n' :: rest => some rest
  | '\r' :: '\n' :: rest => some rest
  | _ => none

/-- A character of a key without quotes. -/
def isBare (c : Char) : Bool := c.isAlphanum || c == '-' || c == '_'

/-- One part of a dotted key. -/
def keyPart? (cs : List Char) : Option (String × List Char) :=
  let bare := cs.takeWhile isBare
  if bare.isEmpty then (quotedLine? cs).map fun (text, rest) => (String.ofList text, rest)
  else some (String.ofList bare, cs.dropWhile isBare)

/-- At most so many parts of a dotted key, with blanks allowed around the dots. -/
def keyParts : Nat → List Char → Option (List String × List Char)
  | 0, _ => none
  | room + 1, cs => do
    let (part, rest) ← keyPart? (skipBlanks cs)
    match skipBlanks rest with
    | '.' :: rest =>
      let (parts, rest) ← keyParts room rest
      some (part :: parts, rest)
    | rest => some ([part], rest)

def key? (cs : List Char) : Option (List String × List Char) := keyParts maxNesting cs

/-- A character of a value written as one word. -/
def isWordChar (c : Char) : Bool := c.isAlphanum || ['+', '-', '.', '_', ':'].contains c

/-- A word; a day may be followed by a blank and a time of day. -/
def word? (cs : List Char) : Option (Item × List Char) :=
  let word := cs.takeWhile isWordChar
  let rest := cs.dropWhile isWordChar
  match rest with
  | ' ' :: c :: more =>
    if isDay word && c.isDigit then
      (Item.ofWord? (word ++ ' ' :: (c :: more).takeWhile isWordChar)).map
        fun n => (n, (c :: more).dropWhile isWordChar)
    else (Item.ofWord? word).map fun n => (n, rest)
  | _ => (Item.ofWord? word).map fun n => (n, rest)

mutual

/-- One value, which opens at most `room` levels. -/
def value : Nat → Nat → List Char → Option (Item × List Char)
  | 0, _, _ => none
  | _ + 1, 0, '[' :: _ => none
  | _ + 1, 0, '{' :: _ => none
  | fuel + 1, room + 1, '[' :: rest => do
    let (items, rest) ← items fuel room (skipLines false rest)
    some (.list items, rest)
  | fuel + 1, room + 1, '{' :: rest =>
    match skipBlanks rest with
    | '}' :: rest => some (.table .braces [], rest)
    | rest => do
      let (fields, rest) ← fields fuel room [] rest
      some (.table .braces fields, rest)
  | _ + 1, _, cs =>
    match quoted? cs with
    | some (text, rest) => some (.text (String.ofList text), rest)
    | none => word? cs

/-- The values of a list up to its bracket. A comma may follow the last one. -/
def items : Nat → Nat → List Char → Option (List Item × List Char)
  | 0, _, _ => none
  | _ + 1, _, ']' :: rest => some ([], rest)
  | fuel + 1, room, cs => do
    let (item, rest) ← value fuel room cs
    match skipLines false rest with
    | ']' :: rest => some ([item], rest)
    | ',' :: rest =>
      let (more, rest) ← items fuel room (skipLines false rest)
      some (item :: more, rest)
    | _ => none

/-- The fields of a table in braces up to its brace, added to those so far. -/
def fields : Nat → Nat → Fields → List Char → Option (Fields × List Char)
  | 0, _, _, _ => none
  | fuel + 1, room, done, cs => do
    let (path, rest) ← key? cs
    match rest with
    | '=' :: rest =>
      let (v, rest) ← value fuel room (skipBlanks rest)
      let done ← done.addField v path
      match skipBlanks rest with
      | '}' :: rest => some (done, rest)
      | ',' :: rest => fields fuel room done rest
      | _ => none
    | _ => none

end

/-- The path of a header, which the marks `close` end. -/
def header? (close cs : List Char) : Option (List String × String × List Char) := do
  let (path, rest) ← key? cs
  let key ← path.getLast?
  if close.isPrefixOf rest then some (path.dropLast, key, rest.drop close.length) else none

/-- The lines of a document. Fields go into the table that the last header opened. -/
def lines : Nat → List String → Fields → List Char → Option Fields
  | 0, _, root, cs => if cs.isEmpty then some root else none
  | fuel + 1, opened, root, cs =>
    match skipBlanks cs with
    | [] => some root
    | '[' :: '[' :: rest => do
      let (path, key, rest) ← header? [']', ']'] rest
      let root ← root.openElement path key
      lines fuel (path ++ [key]) root (← lineEnd? rest)
    | '[' :: rest => do
      let (path, key, rest) ← header? [']'] rest
      let root ← root.openTable path key
      lines fuel (path ++ [key]) root (← lineEnd? rest)
    | rest =>
      match lineEnd? rest with
      | some rest => lines fuel opened root rest
      | none => do
        let (path, rest) ← key? rest
        match rest with
        | '=' :: rest =>
          let (v, rest) ← value (2 * rest.length) maxNesting (skipBlanks rest)
          let root ← root.within (Fields.addField v path) opened
          lines fuel opened root (← lineEnd? rest)
        | _ => none

/-- Leaves out a byte order mark at the start. -/
def skipMark : List Char → List Char
  | '\uFEFF' :: rest => rest
  | cs => cs

/-- The fields of a document. -/
def parse? (text : String) : Option Fields :=
  let cs := skipMark text.toList
  lines (cs.length + 1) [] [] cs

end Adjacency.Toml
