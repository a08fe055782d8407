/-!
# Why a string literal has no value

Each cause but the last quotes the text of the escape sequence at which decoding stopped.
-/

namespace GraphQL

/-- Why a string literal has no value. -/
inductive StringError where
  /-- A backslash is followed by a character that starts no escape sequence. -/
  | invalidEscape (text : String)
  /-- A `\u` escape is malformed or names no Unicode scalar value. -/
  | invalidUnicode (text : String)
  /-- A `\u` escape is one half of a surrogate pair without the other. -/
  | unpairedSurrogate (text : String)
  /-- The input ends before the closing quote. -/
  | unterminated
  deriving DecidableEq, Repr

/-- The wording of the cause. -/
def StringError.message : StringError → String
  | invalidEscape text => s!"invalid escape sequence: `{text}`"
  | invalidUnicode text => s!"invalid unicode escape: `{text}`"
  | unpairedSurrogate text => s!"unpaired UTF-16 surrogate: `{text}`"
  | unterminated => "unterminated string: missing closing quote"

end GraphQL
