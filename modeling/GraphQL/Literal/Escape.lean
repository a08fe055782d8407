import GraphQL.Literal.Error

/-!
# Escape sequences

The content of a string literal is plain characters and escape sequences, read from left to
right.  An escape sequence is a backslash and

* one of `"`, `\`, `/`, `b`, `f`, `n`, `r` and `t`;
* `u` and four hexadecimal digits, naming a UTF-16 code unit; two such escapes in a row that
  name a high and a low surrogate stand for the character of the pair;
* `u` and four or more hexadecimal digits in braces, naming a Unicode scalar value.

`readEscape` reads the one escape sequence at the start of a text, and `decodeEscapes` all of
them.
-/

namespace GraphQL

/-- The character that a one-letter escape sequence stands for. -/
def shortEscape? : Char → Option Char
  | '"' => some '"'
  | '\\' => some '\\'
  | '/' => some '/'
  | 'b' => some '\x08'
  | 'f' => some '\x0c'
  | 'n' => some '\n'
  | 'r' => some '\r'
  | 't' => some '\t'
  | _ => none

/-- The value of a hexadecimal digit of either case. -/
def hexDigit? (c : Char) : Option Nat :=
  if '0' ≤ c ∧ c ≤ '9' then some (c.toNat - '0'.toNat)
  else if 'a' ≤ c ∧ c ≤ 'f' then some (c.toNat - 'a'.toNat + 10)
  else if 'A' ≤ c ∧ c ≤ 'F' then some (c.toNat - 'A'.toNat + 10)
  else none

/-- The number that some hexadecimal digits denote, after those of `value`. -/
def hexNumberFrom? (value : Nat) : List Char → Option Nat
  | [] => some value
  | c :: cs => do hexNumberFrom? (16 * value + (← hexDigit? c)) cs

/-- The number that hexadecimal digits denote, if the text is nothing else. -/
def hexNumber? (digits : List Char) : Option Nat := hexNumberFrom? 0 digits

/-- The UTF-16 code unit that the first four characters denote. -/
def codeUnit? : List Char → Option Nat
  | a :: b :: c :: d :: _ => hexNumber? [a, b, c, d]
  | _ => none

/-- The character with a given scalar value. -/
def scalar? (value : Nat) : Option Char :=
  if value.isValidChar then some (Char.ofNat value) else none

/-- Whether a code unit is the first half of a surrogate pair. -/
def isHighSurrogate (unit : Nat) : Bool := 0xD800 ≤ unit && unit ≤ 0xDBFF

/-- Whether a code unit is the second half of a surrogate pair. -/
def isLowSurrogate (unit : Nat) : Bool := 0xDC00 ≤ unit && unit ≤ 0xDFFF

/-- The character of a surrogate pair. -/
def ofSurrogates (high low : Nat) : Char :=
  Char.ofNat (0x10000 + (high - 0xD800) * 0x400 + (low - 0xDC00))

/-- The low surrogate that a text starts with, written as an escape sequence. -/
def lowSurrogate? : List Char → Option Nat
  | '\\' :: 'u' :: digits => (codeUnit? digits).filter isLowSurrogate
  | _ => none

/-- Reads the rest of `\u` and a brace, at the start of `text`: the character and the number of
characters that the escape sequence takes. -/
def readBracedEscape (text digits : List Char) : Except StringError (Char × Nat) :=
  let hex := digits.takeWhile (· ≠ '\x7d')
  let width := hex.length + 4
  if hex.length = digits.length then
    .error (.invalidUnicode (String.ofList (text.take 8)))
  else if hex.length < 4 then
    .error (.invalidUnicode (String.ofList (text.take width)))
  else
    match (hexNumber? hex).bind scalar? with
    | some c => .ok (c, width)
    | none => .error (.invalidUnicode (String.ofList (text.take width)))

/-- Reads the rest of `\u` without a brace, at the start of `text`: the character and the number
of characters that the escape sequence takes. -/
def readUnitEscape (text digits : List Char) : Except StringError (Char × Nat) :=
  match codeUnit? digits with
  | none => .error (.invalidUnicode (String.ofList (text.take 6)))
  | some unit =>
    if isHighSurrogate unit then
      match lowSurrogate? (digits.drop 4) with
      | some low => .ok (ofSurrogates unit low, 12)
      | none => .error (.unpairedSurrogate (String.ofList (text.take 6)))
    else if isLowSurrogate unit then
      .error (.unpairedSurrogate (String.ofList (text.take 6)))
    else
      .ok (Char.ofNat unit, 6)

/-- Reads the escape sequence at the start of a text that begins with a backslash: the character
that it stands for and the number of characters that it takes. -/
def readEscape (text : List Char) : Except StringError (Char × Nat) :=
  match text with
  | _ :: 'u' :: '\x7b' :: digits => readBracedEscape text digits
  | _ :: 'u' :: digits => readUnitEscape text digits
  | _ :: c :: _ =>
    match shortEscape? c with
    | some d => .ok (d, 2)
    | none => .error (.invalidEscape (String.ofList (text.take 2)))
  | _ => .error (.invalidEscape (String.ofList (text.take 2)))

/-- Decodes what follows the next `skip` characters, which belong to an escape sequence already
read. -/
def decodeEscapesFrom : Nat → List Char → Except StringError (List Char)
  | _, [] => .ok []
  | skip + 1, _ :: rest => decodeEscapesFrom skip rest
  | 0, c :: rest =>
    if c = '\\' then
      match readEscape (c :: rest) with
      | .ok (d, width) => (d :: ·) <$> decodeEscapesFrom (width - 1) rest
      | .error e => .error e
    else
      (c :: ·) <$> decodeEscapesFrom 0 rest

/-- Replaces every escape sequence by its character, or finds the first that stands for none. -/
def decodeEscapes (content : List Char) : Except StringError (List Char) :=
  decodeEscapesFrom 0 content

/-- The value of a quoted string literal with the given content. -/
def decodeQuoted (content : String) : Except StringError String :=
  String.ofList <$> decodeEscapes content.toList

end GraphQL
