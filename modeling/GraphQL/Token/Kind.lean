import GraphQL.Token.Keyword
import GraphQL.Token.Punctuator

/-!
# Token kinds

The grammar looks at the *kind* of a token only: which punctuator or keyword it is, or which
sort of literal.  A keyword is lexically a name, and the grammar takes it wherever a name is
wanted (`TokenKind.isNameLike`).  Two kinds stand for text that is no token of the language: an
unknown character and a string literal that has no value.
-/

namespace GraphQL

/-- The kind of a token. -/
inductive TokenKind where
  /-- A punctuator. -/
  | punctuator (p : Punctuator)
  /-- A number without fraction and exponent. -/
  | int
  /-- A number with a fraction or an exponent. -/
  | float
  /-- A string literal. -/
  | string
  /-- A name that is no keyword. -/
  | name
  /-- A keyword. -/
  | keyword (k : Keyword)
  /-- A character that starts no token. -/
  | unknownCharacter
  /-- A string literal that has no value. -/
  | invalidString
  deriving DecidableEq, Repr

namespace TokenKind

/-- The fixed text of a punctuator. -/
def punctuatorText? : TokenKind → Option String
  | punctuator p => some p.text
  | _ => none

/-- The fixed text of a keyword. -/
def keywordText? : TokenKind → Option String
  | keyword k => some k.text
  | _ => none

/-- Whether the kind is that of a punctuator. -/
def isPunctuator (kind : TokenKind) : Bool := kind.punctuatorText?.isSome

/-- Whether the kind is that of a keyword. -/
def isKeyword (kind : TokenKind) : Bool := kind.keywordText?.isSome

/-- Whether a token of the kind can stand as a name. -/
def isNameLike : TokenKind → Bool
  | name | keyword _ => true
  | _ => false

/-- Whether the kind stands for text that is no token of the language. -/
def isLexicalError : TokenKind → Bool
  | unknownCharacter | invalidString => true
  | _ => false

/-- The kind as error messages name it. -/
def describe : TokenKind → String
  | punctuator p => s!"`{p.text}`"
  | keyword k => s!"`{k.text}`"
  | int => "integer"
  | float => "float"
  | string => "string"
  | name => "name"
  | unknownCharacter => "unknown character"
  | invalidString => "invalid string"

/-- The kind of a name: its keyword's, if it is one. -/
def ofName (text : String) : TokenKind :=
  match Keyword.ofName? text with
  | some k => keyword k
  | none => name

end TokenKind

end GraphQL
