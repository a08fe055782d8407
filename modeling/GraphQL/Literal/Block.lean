import GraphQL.Literal.Escape

/-!
# Block strings

The content of a block string goes through three steps (`decodeBlock`): an escaped triple quote
becomes a triple quote, the common indentation and the empty lines at both ends are removed
(`dedent`), and the remaining escape sequences are decoded.

Only spaces indent.  The first line, which starts right after the opening quotes, neither counts
for the common indentation nor loses any; lines of spaces alone do not count for it.  Lines end
with a line feed, a carriage return or both in this order, and are joined by line feeds.
-/

namespace GraphQL

/-- Turns each escaped triple quote into a triple quote, from left to right. -/
def unescapeTripleQuotes : List Char → List Char
  | '\\' :: '"' :: '"' :: '"' :: rest => '"' :: '"' :: '"' :: unescapeTripleQuotes rest
  | c :: rest => c :: unescapeTripleQuotes rest
  | [] => []

/-- Adds a character to the front of the first line. -/
def pushFirst (c : Char) : List (List Char) → List (List Char)
  | [] => [[c]]
  | line :: lines => (c :: line) :: lines

/-- The lines of a text, without their terminators. -/
def splitLines : List Char → List (List Char)
  | [] => [[]]
  | '\r' :: '\n' :: rest => [] :: splitLines rest
  | '\r' :: rest => [] :: splitLines rest
  | '\n' :: rest => [] :: splitLines rest
  | c :: rest => pushFirst c (splitLines rest)

/-- The number of spaces that a line starts with, if it is two or four and the line goes on after
them.  Most lines that are indented at all are indented by so many. -/
def usualIndentation? : List Char → Option Nat
  | ' ' :: ' ' :: c :: rest =>
    if c ≠ ' ' then some 2
    else
      match rest with
      | ' ' :: d :: _ => if d ≠ ' ' then some 4 else none
      | _ => none
  | _ => none

/-- The number of spaces that a line starts with.  The usual numbers are told without counting. -/
def indentation (line : List Char) : Nat :=
  (usualIndentation? line).getD (line.takeWhile (· = ' ')).length

/-- The least indentation of the lines that hold more than spaces, and of `least` if there is
one. -/
def commonIndentFrom (least : Option Nat) : List (List Char) → Option Nat
  | [] => least
  | line :: lines =>
    let indent := indentation line
    if indent < line.length ∧ least.all (indent < ·) then commonIndentFrom (some indent) lines
    else commonIndentFrom least lines

/-- The least indentation of the lines that hold more than spaces. -/
def commonIndent? (lines : List (List Char)) : Option Nat := commonIndentFrom none lines

/-- Removes up to `common` leading spaces from a line. -/
def stripIndent (common : Nat) (line : List Char) : List Char :=
  line.drop (min common (indentation line))

/-- Removes the common indentation of all lines but the first. -/
def stripCommonIndent : List (List Char) → List (List Char)
  | [] => []
  | first :: others =>
    match commonIndent? others with
    | some common => first :: others.map (stripIndent common)
    | none => first :: others

/-- Removes the empty lines at both ends. -/
def trimEmptyLines (lines : List (List Char)) : List (List Char) :=
  ((lines.dropWhile List.isEmpty).reverse.dropWhile List.isEmpty).reverse

/-- Joins lines by line feeds. -/
def joinLines : List (List Char) → List Char
  | [] => []
  | [line] => line
  | line :: lines => line ++ '\n' :: joinLines lines

/-- Whether a character ends a line. -/
def isLineBreak (c : Char) : Bool := c = '\n' || c = '\r'

/-- Removes the common indentation and the empty lines at both ends.  A single line that does not
start with a space stays as it is. -/
def dedent (text : List Char) : List Char :=
  if !text.any isLineBreak && text.head? != some ' ' then text
  else joinLines (trimEmptyLines (stripCommonIndent (splitLines text)))

/-- The value of a block string with the given content. -/
def decodeBlock (content : String) : Except StringError String :=
  String.ofList <$> decodeEscapes (dedent (unescapeTripleQuotes content.toList))

end GraphQL
