/-!
# Integers of 64 bits

`readInteger` reads a decimal integer with an optional sign from a text that is nothing else.
Digits are read from left to right, and the first character that is no digit, or takes the
number out of the range of signed 64-bit integers, decides the error.
-/

namespace GraphQL

/-- Why a text is no 64-bit integer. -/
inductive IntegerError where
  /-- There is no text. -/
  | empty
  /-- A character is no digit, or there is no digit after the sign. -/
  | invalidDigit
  /-- The number is above the range. -/
  | tooLarge
  /-- The number is below the range. -/
  | tooSmall
  deriving DecidableEq, Repr

/-- The wording of the cause. -/
def IntegerError.message : IntegerError → String
  | empty => "cannot parse integer from empty string"
  | invalidDigit => "invalid digit found in string"
  | tooLarge => "number too large to fit in target type"
  | tooSmall => "number too small to fit in target type"

/-- The value of a decimal digit. -/
def decimalDigit? (c : Char) : Option Nat :=
  if c.isDigit then some (c.toNat - '0'.toNat) else none

/-- Reads the digits that follow those of `value`, up to a greatest magnitude. -/
def readMagnitude (limit : Nat) (beyond : IntegerError) :
    Nat → List Char → Except IntegerError Nat
  | value, [] => .ok value
  | value, c :: rest =>
    match decimalDigit? c with
    | none => .error .invalidDigit
    | some digit =>
      if 10 * value + digit ≤ limit then readMagnitude limit beyond (10 * value + digit) rest
      else .error beyond

/-- The greatest 64-bit integer. -/
def maxInteger : Nat := 0x7FFFFFFFFFFFFFFF

/-- Reads an integer that is not negative. -/
def readNatural (text : List Char) : Except IntegerError Int :=
  if text.isEmpty then .error .invalidDigit
  else Int.ofNat <$> readMagnitude maxInteger .tooLarge 0 text

/-- Reads the digits of a negative integer. -/
def readNegative (text : List Char) : Except IntegerError Int :=
  if text.isEmpty then .error .invalidDigit
  else (fun n => -Int.ofNat n) <$> readMagnitude (maxInteger + 1) .tooSmall 0 text

/-- The 64-bit integer that a text denotes. -/
def readInteger (text : String) : Except IntegerError Int :=
  match text.toList with
  | [] => .error .empty
  | '-' :: rest => readNegative rest
  | '+' :: rest => readNatural rest
  | chars => readNatural chars

end GraphQL
