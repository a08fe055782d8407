import GraphQL.Lexical.Ignored
import GraphQL.Lexical.Lexeme

/-!
# The tokens of a text

A *cursor* is a place in a source text: a byte offset and the text from there on.  `Cursor.next?`
skips ignored text and cuts off one token; doing so until the text is used up yields all tokens
(`tokens`).
-/

namespace GraphQL

/-- A place in a source text. -/
structure Cursor where
  /-- The byte offset of the place. -/
  offset : Nat
  /-- The text from there on. -/
  rest : List Char
  deriving DecidableEq, Repr

namespace Cursor

/-- The start of a text. -/
def ofString (source : String) : Cursor := ⟨0, source.toList⟩

/-- Moves over the first `n` characters. -/
def skip (c : Cursor) (n : Nat) : Cursor :=
  ⟨c.offset + byteLength (c.rest.take n), c.rest.drop n⟩

/-- Moves over ignored text. -/
def skipIgnored (c : Cursor) : Cursor := c.skip (ignored c.rest).length

/-- The token after any ignored text, and the place after it. -/
def next? (c : Cursor) : Option (Token × Cursor) :=
  let here := c.skipIgnored
  match Lexeme.read here.rest with
  | none => none
  | some (lexeme, after) =>
    some (⟨lexeme, here.offset⟩, ⟨here.offset + byteLength lexeme.text.toList, after⟩)

/-- At most the given number of tokens. -/
def takeTokens : Nat → Cursor → List Token
  | 0, _ => []
  | n + 1, c =>
    match c.next? with
    | none => []
    | some (t, after) => t :: after.takeTokens n

/-- All tokens from a place on: each takes a character at least. -/
def tokens (c : Cursor) : List Token := c.takeTokens c.rest.length

end Cursor

/-- All tokens of a source text. -/
def tokens (source : String) : List Token := (Cursor.ofString source).tokens

end GraphQL
