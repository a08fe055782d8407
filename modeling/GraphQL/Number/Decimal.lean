import GraphQL.Number.Binary64

/-!
# Decimal floating-point texts

`readBinary64` reads a decimal number from a text that is nothing else: an optional sign, digits
with at most one full stop and at least one digit on either side of it, and an optional exponent;
or `inf`, `infinity` or `nan` in any case.  The result is the nearest double-precision number.
-/

namespace GraphQL

/-- Why a text is no floating-point number. -/
inductive DecimalError where
  /-- There is no text. -/
  | empty
  /-- The text is not written as a number. -/
  | invalid
  deriving DecidableEq, Repr

/-- The wording of the cause. -/
def DecimalError.message : DecimalError → String
  | empty => "cannot parse float from empty string"
  | invalid => "invalid float literal"

/-- The number that some decimal digits denote. -/
def decimalNumber (digits : List Char) : Nat :=
  digits.foldl (fun value c => 10 * value + (c.toNat - '0'.toNat)) 0

/-- Splits a sign off: whether it is a minus, and the rest. -/
def splitSign : List Char → Bool × List Char
  | '-' :: rest => (true, rest)
  | '+' :: rest => (false, rest)
  | text => (false, text)

/-- The number that an exponent denotes, with its letter; no text at all is zero. -/
def readExponent? : List Char → Option Int
  | [] => some 0
  | c :: rest =>
    let (negative, digits) := splitSign rest
    if (c = 'e' ∨ c = 'E') ∧ digits ≠ [] ∧ digits.all Char.isDigit then
      some (if negative then -Int.ofNat (decimalNumber digits) else decimalNumber digits)
    else none

/-- A decimal number without sign: `digits * 10 ^ exponent`, with the digits as read. -/
structure Decimal where
  /-- The digits, with those of the fraction. -/
  digits : List Char
  /-- The power of ten that they count. -/
  exponent : Int
  deriving DecidableEq, Repr

/-- Reads a decimal number without sign. -/
def readDecimal? (text : List Char) : Option Decimal := do
  let whole := text.takeWhile Char.isDigit
  let afterWhole := text.dropWhile Char.isDigit
  let (fraction, afterFraction) :=
    match afterWhole with
    | '.' :: rest => (rest.takeWhile Char.isDigit, rest.dropWhile Char.isDigit)
    | _ => ([], afterWhole)
  if whole.isEmpty && fraction.isEmpty then none
  let exponent ← readExponent? afterFraction
  return ⟨whole ++ fraction, exponent - fraction.length⟩

/-- The double-precision number nearest to a decimal number.  Numbers beyond `10 ^ 310` and below
`10 ^ -330` are settled by their length, so that a huge exponent costs nothing. -/
def Decimal.toBinary64 (negative : Bool) (d : Decimal) : Binary64 :=
  let digits := d.digits.dropWhile (· = '0')
  let scale : Int := digits.length + d.exponent
  if digits.isEmpty || scale < -330 then .zero negative
  else if scale > 310 then .infinity negative
  else
    .ofRatio negative (decimalNumber digits * Nat.pow 10 d.exponent.toNat)
      (Nat.pow 10 (-d.exponent).toNat)

/-- The special value that a text names. -/
def specialValue? (negative : Bool) (text : List Char) : Option Binary64 :=
  match String.ofList (text.map Char.toLower) with
  | "inf" | "infinity" => some (.infinity negative)
  | "nan" => some .nan
  | _ => none

/-- The double-precision number that a text denotes. -/
def readBinary64 (text : String) : Except DecimalError Binary64 :=
  if text.isEmpty then .error .empty
  else
    let (negative, rest) := splitSign text.toList
    match specialValue? negative rest with
    | some x => .ok x
    | none =>
      match readDecimal? rest with
      | some d => .ok (d.toBinary64 negative)
      | none => .error .invalid

end GraphQL
