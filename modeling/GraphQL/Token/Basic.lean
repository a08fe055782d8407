import GraphQL.Literal.Error
import GraphQL.Text.Location
import GraphQL.Token.Kind

/-!
# Tokens

A *lexeme* is a piece of source text together with what it means: a punctuator, a name or
keyword, a number, a string literal with its value, or text that is no token of the language.
A *token* is a lexeme at a place.  It knows the true offset of the place, from which its line is
counted, and reports it as far as offsets are reported.
-/

namespace GraphQL

/-- A piece of source text and what it means. -/
inductive Lexeme where
  /-- A punctuator. -/
  | punctuator (p : Punctuator)
  /-- A number without fraction and exponent. -/
  | int (text : String)
  /-- A number with a fraction or an exponent. -/
  | float (text : String)
  /-- A string literal: its text with the quotes, and its value. -/
  | string (text value : String)
  /-- A name that is no keyword. -/
  | name (text : String)
  /-- A keyword. -/
  | keyword (k : Keyword)
  /-- A character that starts no lexeme. -/
  | unknownCharacter (c : Char)
  /-- A string literal that has no value. -/
  | invalidString (text : String) (cause : StringError)
  deriving DecidableEq, Repr

namespace Lexeme

/-- The kind of a lexeme. -/
def kind : Lexeme → TokenKind
  | punctuator p => .punctuator p
  | int _ => .int
  | float _ => .float
  | string _ _ => .string
  | name _ => .name
  | keyword k => .keyword k
  | unknownCharacter _ => .unknownCharacter
  | invalidString _ _ => .invalidString

/-- The source text of a lexeme. -/
def text : Lexeme → String
  | punctuator p => p.text
  | int text | float text | string text _ | name text | invalidString text _ => text
  | keyword k => k.text
  | unknownCharacter c => c.toString

/-- The value of a string literal. -/
def value? : Lexeme → Option String
  | string _ value => some value
  | _ => none

/-- Why a string literal has no value. -/
def error? : Lexeme → Option StringError
  | invalidString _ cause => some cause
  | _ => none

/-- The lexeme of a name, which may be a keyword. -/
def ofName (text : String) : Lexeme :=
  match Keyword.ofName? text with
  | some k => keyword k
  | none => name text

/-- The lexeme of a string literal, given its text and how its content decodes. -/
def ofLiteral (text : String) : Except StringError String → Lexeme
  | .ok value => string text value
  | .error cause => invalidString text cause

end Lexeme

/-- A lexeme and the place where it stands. -/
structure Token where
  /-- The text and its meaning. -/
  lexeme : Lexeme
  /-- The byte offset of the text in the source. -/
  offset : Nat
  deriving DecidableEq, Repr

namespace Token

/-- The kind of a token. -/
def kind (t : Token) : TokenKind := t.lexeme.kind

/-- The source text of a token. -/
def text (t : Token) : String := t.lexeme.text

/-- The value of a string literal, and the empty text for any other token. -/
def value (t : Token) : String := t.lexeme.value?.getD ""

/-- The offset that a token reports for its start. -/
def start (t : Token) : Nat := reportedOffset t.offset

/-- The offset that a token reports for its end. -/
def stop (t : Token) : Nat := endOffset t.start t.text

end Token

end GraphQL
