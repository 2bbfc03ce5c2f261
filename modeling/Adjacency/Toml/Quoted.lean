import Adjacency.Toml.Word

/-!
# Quoted text

A text stands in double quotes, where a backslash begins an escape, or in single quotes, where every
character stands for itself. Three quotes of a kind begin a text of several lines. Each reader below
gets the characters behind the opening quotes and returns the text with what follows it.

* `escaped`, `literal`: texts on one line.
* `escapedLines`, `literalLines`: texts of several lines. Two quotes of the closing kind may stand
  inside, also right before the close.
-/

namespace Adjacency.Toml

/-- A character that may stand for itself: no control character but the tab. -/
def isPlain (c : Char) : Bool := c == '\t' || (' ' ≤ c && c != '\x7F')

/-- The character that a letter behind a backslash stands for. -/
def escape? : Char → Option Char
  | 'b' => some '\x08'
  | 't' => some '\t'
  | 'n' => some '\n'
  | 'f' => some '\x0C'
  | 'r' => some '\r'
  | '"' => some '"'
  | '\\' => some '\\'
  | _ => none

/-- The character with a number in hexadecimal digits. -/
def codePoint? (digits : List Char) : Option Char := do
  let n ← digits.foldlM (fun n c => (digit? 16 c).map (n * 16 + ·)) 0
  if n.isValidChar then some (Char.ofNat n) else none

/-- Puts a character before the text that was read. -/
def prepend (c : Option Char) (rest : Option (List Char × List Char)) :
    Option (List Char × List Char) := do
  let c ← c
  let (text, rest) ← rest
  some (c :: text, rest)

def escaped : List Char → Option (List Char × List Char)
  | [] => none
  | '"' :: rest => some ([], rest)
  | '\\' :: 'u' :: a :: b :: c :: d :: rest => prepend (codePoint? [a, b, c, d]) (escaped rest)
  | '\\' :: 'U' :: a :: b :: c :: d :: e :: f :: g :: h :: rest =>
    prepend (codePoint? [a, b, c, d, e, f, g, h]) (escaped rest)
  | '\\' :: c :: rest => prepend (escape? c) (escaped rest)
  | c :: rest => if isPlain c then prepend c (escaped rest) else none

def literal : List Char → Option (List Char × List Char)
  | [] => none
  | '\'' :: rest => some ([], rest)
  | c :: rest => if isPlain c then prepend c (literal rest) else none

/-- Nothing but blanks stands before the end of the line. -/
def lineIsOver (cs : List Char) : Bool :=
  match cs.dropWhile fun c => c == ' ' || c == '\t' with
  | '\n' :: _ => true
  | '\r' :: '\n' :: _ => true
  | _ => false

/-- Reads on; while `joining`, blanks and line ends behind a backslash that ends its line are left
out. -/
def escapedLines (joining : Bool) : List Char → Option (List Char × List Char)
  | [] => none
  | '"' :: '"' :: '"' :: '"' :: '"' :: rest => some (['"', '"'], rest)
  | '"' :: '"' :: '"' :: '"' :: rest => some (['"'], rest)
  | '"' :: '"' :: '"' :: rest => some ([], rest)
  | '\\' :: 'u' :: a :: b :: c :: d :: rest =>
    prepend (codePoint? [a, b, c, d]) (escapedLines false rest)
  | '\\' :: 'U' :: a :: b :: c :: d :: e :: f :: g :: h :: rest =>
    prepend (codePoint? [a, b, c, d, e, f, g, h]) (escapedLines false rest)
  | '\\' :: c :: rest =>
    if lineIsOver (c :: rest) then escapedLines true rest
    else prepend (escape? c) (escapedLines false rest)
  | '\r' :: '\n' :: rest =>
    if joining then escapedLines true rest else prepend '\n' (escapedLines false rest)
  | c :: rest =>
    if joining && [' ', '\t', '\n'].contains c then escapedLines true rest
    else if isPlain c || c == '\n' then prepend c (escapedLines false rest)
    else none

def literalLines : List Char → Option (List Char × List Char)
  | [] => none
  | '\'' :: '\'' :: '\'' :: '\'' :: '\'' :: rest => some (['\'', '\''], rest)
  | '\'' :: '\'' :: '\'' :: '\'' :: rest => some (['\''], rest)
  | '\'' :: '\'' :: '\'' :: rest => some ([], rest)
  | '\r' :: '\n' :: rest => prepend '\n' (literalLines rest)
  | c :: rest => if isPlain c || c == '\n' then prepend c (literalLines rest) else none

/-- Leaves out a line end right behind the opening quotes. -/
def afterOpening : List Char → List Char
  | '\n' :: rest => rest
  | '\r' :: '\n' :: rest => rest
  | cs => cs

/-- A text that fits in a key: one line, in either kind of quotes. -/
def quotedLine? : List Char → Option (List Char × List Char)
  | '"' :: rest => escaped rest
  | '\'' :: rest => literal rest
  | _ => none

/-- A text of any kind. -/
def quoted? : List Char → Option (List Char × List Char)
  | '"' :: '"' :: '"' :: rest => escapedLines false (afterOpening rest)
  | '\'' :: '\'' :: '\'' :: rest => literalLines (afterOpening rest)
  | cs => quotedLine? cs

end Adjacency.Toml
