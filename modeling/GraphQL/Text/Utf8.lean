/-!
# UTF-8

Decoding of bytes as UTF-8.  A character takes one to four bytes; overlong forms, surrogates and
values beyond the last scalar value are refused (`readScalar?`).  If some bytes are not UTF-8,
`decodeUtf8` tells where the first sequence starts that is no character, be it invalid or cut off.
-/

namespace GraphQL

/-- Whether a byte continues a character. -/
def isContinuation (b : UInt8) : Bool := 0x80 ≤ b && b ≤ 0xBF

/-- The six bits that a continuation byte carries. -/
def continuationBits (b : UInt8) : Nat := b.toNat - 0x80

/-- Whether `second` can follow the first byte of a three-byte character. -/
def fitsThree (first second : UInt8) : Bool :=
  if first = 0xE0 then 0xA0 ≤ second && second ≤ 0xBF
  else if first = 0xED then 0x80 ≤ second && second ≤ 0x9F
  else isContinuation second

/-- Whether `second` can follow the first byte of a four-byte character. -/
def fitsFour (first second : UInt8) : Bool :=
  if first = 0xF0 then 0x90 ≤ second && second ≤ 0xBF
  else if first = 0xF4 then 0x80 ≤ second && second ≤ 0x8F
  else isContinuation second

/-- The character at the start of some bytes, and the number of bytes that it takes. -/
def readScalar? : List UInt8 → Option (Char × Nat)
  | [] => none
  | a :: rest =>
    if a < 0x80 then some (Char.ofNat a.toNat, 1)
    else if 0xC2 ≤ a && a ≤ 0xDF then
      match rest with
      | b :: _ =>
        if isContinuation b then
          some (Char.ofNat ((a.toNat - 0xC0) * 0x40 + continuationBits b), 2)
        else none
      | _ => none
    else if 0xE0 ≤ a && a ≤ 0xEF then
      match rest with
      | b :: c :: _ =>
        if fitsThree a b && isContinuation c then
          some (Char.ofNat ((a.toNat - 0xE0) * 0x1000 + continuationBits b * 0x40 +
            continuationBits c), 3)
        else none
      | _ => none
    else if 0xF0 ≤ a && a ≤ 0xF4 then
      match rest with
      | b :: c :: d :: _ =>
        if fitsFour a b && isContinuation c && isContinuation d then
          some (Char.ofNat ((a.toNat - 0xF0) * 0x40000 + continuationBits b * 0x1000 +
            continuationBits c * 0x40 + continuationBits d), 4)
        else none
      | _ => none
    else none

/-- Decodes what follows the next `skip` bytes, which belong to a character already read; the
bytes start at the given offset. -/
def decodeUtf8From : Nat → Nat → List UInt8 → Except Nat (List Char)
  | _, _, [] => .ok []
  | offset, skip + 1, _ :: rest => decodeUtf8From (offset + 1) skip rest
  | offset, 0, b :: rest =>
    match readScalar? (b :: rest) with
    | some (c, width) => (c :: ·) <$> decodeUtf8From (offset + 1) (width - 1) rest
    | none => .error offset

/-- The text that some bytes are in UTF-8, or the offset of the first byte that belongs to no
character. -/
def decodeUtf8 (bytes : List UInt8) : Except Nat String :=
  String.ofList <$> decodeUtf8From 0 0 bytes

end GraphQL
