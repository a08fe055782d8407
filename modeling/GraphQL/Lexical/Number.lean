/-!
# Number literals

A number is an integer part without superfluous zeros, then an optional fraction, then an
optional exponent: `-?(0|[1-9][0-9]*)(\.[0-9]+)?([eE][+-]?[0-9]+)?`.  A full stop or an `e` that
no digit follows is not part of the number.
-/

namespace GraphQL

/-- The longest text of digits at the start. -/
def digits (source : List Char) : List Char := source.takeWhile Char.isDigit

/-- The longest natural number at the start: a zero alone, or digits that start with another. -/
def naturalPart : List Char → List Char
  | [] => []
  | c :: rest =>
    if c = '0' then ['0']
    else if c.isDigit then c :: digits rest
    else []

/-- The longest integer at the start, if there is one. -/
def integerPart? : List Char → Option (List Char)
  | '-' :: rest =>
    match naturalPart rest with
    | [] => none
    | ds => some ('-' :: ds)
  | source =>
    match naturalPart source with
    | [] => none
    | ds => some ds

/-- The longest fraction at the start, with its full stop. -/
def fractionPart : List Char → List Char
  | '.' :: rest =>
    match digits rest with
    | [] => []
    | ds => '.' :: ds
  | _ => []

/-- The sign at the start. -/
def signPart : List Char → List Char
  | '+' :: _ => ['+']
  | '-' :: _ => ['-']
  | _ => []

/-- The longest exponent at the start, with its letter. -/
def exponentPart : List Char → List Char
  | [] => []
  | c :: rest =>
    if c = 'e' ∨ c = 'E' then
      let sign := signPart rest
      match digits (rest.drop sign.length) with
      | [] => []
      | ds => c :: sign ++ ds
    else []

/-- The integer part of a number literal, and its fraction and exponent. -/
structure NumberParts where
  /-- The integer part, with its sign. -/
  integer : List Char
  /-- The fraction with its full stop, or nothing. -/
  fraction : List Char
  /-- The exponent with its letter, or nothing. -/
  exponent : List Char
  deriving DecidableEq, Repr

/-- The text of a number literal. -/
def NumberParts.text (parts : NumberParts) : List Char :=
  parts.integer ++ parts.fraction ++ parts.exponent

/-- Whether a number literal has neither fraction nor exponent. -/
def NumberParts.isInteger (parts : NumberParts) : Bool :=
  parts.fraction.isEmpty && parts.exponent.isEmpty

/-- The longest number literal at the start, if there is one. -/
def numberParts? (source : List Char) : Option NumberParts := do
  let integer ← integerPart? source
  let afterInteger := source.drop integer.length
  let fraction := fractionPart afterInteger
  let exponent := exponentPart (afterInteger.drop fraction.length)
  return ⟨integer, fraction, exponent⟩

end GraphQL
