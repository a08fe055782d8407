import GraphQL.Token.Basic

/-!
# Why a text is no document

Parsing stops at the first error.  An error names the line of the token at fault, or of the end of
the input; only bytes that are no text at all have no line.
-/

namespace GraphQL

/-- Why a text is no document. -/
inductive ParseError where
  /-- A token that cannot continue the document, or the end of the input where there must be
  more; with the kinds that could stand there. -/
  | unexpectedToken (expected : List TokenKind) (found? : Option Lexeme) (line : Nat)
  /-- A directive definition lists something that is not a place for directives. -/
  | unknownPlace (name : String) (line : Nat)
  /-- Selection sets, values and types nest deeper than allowed. -/
  | nestingTooDeep (limit line : Nat)
  /-- The bytes are not UTF-8 from an offset on. -/
  | invalidUtf8 (offset : Nat)
  deriving DecidableEq, Repr

namespace ParseError

/-- The line of the error, if it has one. -/
def line? : ParseError → Option Nat
  | unexpectedToken _ _ line | unknownPlace _ line | nestingTooDeep _ line => some line
  | invalidUtf8 _ => none

/-- Whether the input ended where there must be more. -/
def isUnexpectedEnd : ParseError → Bool
  | unexpectedToken _ none _ => true
  | _ => false

/-- The kinds that could stand at an error, in words. -/
def describeExpected : List TokenKind → String
  | [] => "more input"
  | [kind] => kind.describe
  | kinds =>
    ", ".intercalate (kinds.dropLast.map TokenKind.describe) ++
      (kinds.getLast?.map fun kind => " or " ++ kind.describe).getD ""

/-- What stands at an error, in words. -/
def describeFound : Option Lexeme → String
  | none => "end of input"
  | some lexeme =>
    let kind := lexeme.kind
    if kind.isPunctuator || kind.isKeyword then kind.describe
    else s!"{kind.describe} `{lexeme.text}`"

/-- The wording of the error. -/
def message : ParseError → String
  | unexpectedToken expected found? line =>
    s!"line {line}: expected {describeExpected expected}, found {describeFound found?}"
  | unknownPlace name line => s!"line {line}: unknown directive location `{name}`"
  | nestingTooDeep limit line =>
    s!"line {line}: nesting exceeds the maximum depth of {limit}"
  | invalidUtf8 offset => s!"input is not valid UTF-8 (invalid byte at offset {offset})"

end ParseError

end GraphQL
