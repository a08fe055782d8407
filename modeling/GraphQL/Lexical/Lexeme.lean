import GraphQL.Lexical.Number
import GraphQL.Literal.Block
import GraphQL.Token.Basic

/-!
# The lexeme at the start of a text

`Lexeme.read` cuts the lexeme off a text that starts with no ignored character.  Reading never
fails: what starts no lexeme of the language is an unknown character, and a string literal that
does not end, or whose escape sequences do not decode, is an invalid string.
-/

namespace GraphQL

/-- Whether a character can start a name. -/
def isNameStart (c : Char) : Bool := c = '_' || c.isAlpha

/-- Whether a character can stand in a name after its start. -/
def isNamePart (c : Char) : Bool := c = '_' || c.isAlphanum

/-- Splits the text after an opening quote into the content of the literal and what follows the
closing quote.  A backslash takes the next character with it. -/
def splitQuoted : List Char → Option (List Char × List Char)
  | '"' :: rest => some ([], rest)
  | '\\' :: c :: rest =>
    (splitQuoted rest).map fun (content, after) => ('\\' :: c :: content, after)
  | c :: rest => (splitQuoted rest).map fun (content, after) => (c :: content, after)
  | [] => none

/-- Splits the text after an opening triple quote into the content of the literal and what follows
the closing triple quote.  An escaped triple quote is part of the content. -/
def splitBlock : List Char → Option (List Char × List Char)
  | '"' :: '"' :: '"' :: rest => some ([], rest)
  | '\\' :: '"' :: '"' :: '"' :: rest =>
    (splitBlock rest).map fun (content, after) => ('\\' :: '"' :: '"' :: '"' :: content, after)
  | c :: rest => (splitBlock rest).map fun (content, after) => (c :: content, after)
  | [] => none

namespace Lexeme

/-- The lexeme of a quoted string literal with the given content. -/
def ofQuoted (content : List Char) : Lexeme :=
  ofLiteral (String.ofList ('"' :: content ++ ['"'])) (decodeQuoted (String.ofList content))

/-- The lexeme of a block string literal with the given content. -/
def ofBlock (content : List Char) : Lexeme :=
  ofLiteral (String.ofList ('"' :: '"' :: '"' :: content ++ ['"', '"', '"']))
    (decodeBlock (String.ofList content))

/-- The lexeme of a string literal that does not end. -/
def ofUnterminated (source : List Char) : Lexeme :=
  invalidString (String.ofList source) .unterminated

/-- Cuts off a string literal. -/
def readString (source : List Char) : Lexeme × List Char :=
  match source with
  | '"' :: '"' :: '"' :: rest =>
    match splitBlock rest with
    | some (content, after) => (ofBlock content, after)
    | none => (ofUnterminated source, [])
  | _ =>
    match splitQuoted (source.drop 1) with
    | some (content, after) => (ofQuoted content, after)
    | none => (ofUnterminated source, [])

/-- The lexeme of a number literal. -/
def ofNumber (parts : NumberParts) : Lexeme :=
  if parts.isInteger then int (String.ofList parts.text) else float (String.ofList parts.text)

/-- Cuts off the lexeme at the start of a text, if the text is not empty. -/
def read : List Char → Option (Lexeme × List Char)
  | [] => none
  | c :: rest =>
    some <|
      if isNameStart c then
        (ofName (String.ofList (c :: rest.takeWhile isNamePart)), rest.dropWhile isNamePart)
      else if c.isDigit || c = '-' then
        match numberParts? (c :: rest) with
        | some parts => (ofNumber parts, (c :: rest).drop parts.text.length)
        | none => (unknownCharacter c, rest)
      else if c = '"' then
        readString (c :: rest)
      else if c = '.' then
        match rest with
        | '.' :: '.' :: after => (punctuator .ellipsis, after)
        | _ => (unknownCharacter c, rest)
      else
        match Punctuator.ofChar? c with
        | some p => (punctuator p, rest)
        | none => (unknownCharacter c, rest)

end Lexeme

end GraphQL
