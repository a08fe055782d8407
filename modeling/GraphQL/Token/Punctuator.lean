/-!
# Punctuators

The fourteen punctuators.  Each has one written form (`Punctuator.text`); all but the ellipsis
are a single character, and `Punctuator.ofChar?` finds the punctuator that a character is.
-/

namespace GraphQL

/-- A punctuator of the language. -/
inductive Punctuator where
  | braceOpen
  | braceClose
  | parenOpen
  | parenClose
  | bracketOpen
  | bracketClose
  | colon
  | dollar
  | atSign
  | ellipsis
  | equals
  | bang
  | pipe
  | ampersand
  deriving DecidableEq, Repr

namespace Punctuator

/-- Every punctuator. -/
def all : List Punctuator :=
  [braceOpen, braceClose, parenOpen, parenClose, bracketOpen, bracketClose, colon, dollar,
    atSign, ellipsis, equals, bang, pipe, ampersand]

/-- The written form of a punctuator. -/
def text : Punctuator → String
  | braceOpen => "\x7b"
  | braceClose => "\x7d"
  | parenOpen => "("
  | parenClose => ")"
  | bracketOpen => "["
  | bracketClose => "]"
  | colon => ":"
  | dollar => "$"
  | atSign => "@"
  | ellipsis => "..."
  | equals => "="
  | bang => "!"
  | pipe => "|"
  | ampersand => "&"

/-- The punctuator that a single character is; a full stop alone is none. -/
def ofChar? : Char → Option Punctuator
  | '\x7b' => some braceOpen
  | '\x7d' => some braceClose
  | '(' => some parenOpen
  | ')' => some parenClose
  | '[' => some bracketOpen
  | ']' => some bracketClose
  | ':' => some colon
  | '$' => some dollar
  | '@' => some atSign
  | '=' => some equals
  | '!' => some bang
  | '|' => some pipe
  | '&' => some ampersand
  | _ => none

end Punctuator

end GraphQL
