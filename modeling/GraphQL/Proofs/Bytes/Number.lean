import GraphQL.Proofs.Bytes.Cuts
import GraphQL.Proofs.Lexical.Number

/-!
# Where number literals end, found in the bytes

Each part of a number literal ends where the run of its digits does (`digitsEnd?`).  A full stop or
a letter of an exponent is taken only if a digit follows, after a sign in the case of an exponent.
The literal ends where the parts that the characters tell do (`numberEnd_utf8`).
-/

namespace GraphQL

/-- The index after the digits at an index, if there is one at least. -/
def digitsEnd? (bytes : List UInt8) (pos : Nat) : Option Nat :=
  if isAt Char.isDigit bytes pos then some (runEnd Char.isDigit bytes (pos + 1)) else none

/-- The index after the natural number at an index, if there is one. -/
def naturalEnd? (bytes : List UInt8) (pos : Nat) : Option Nat :=
  if isAt (· = '0') bytes pos then some (pos + 1) else digitsEnd? bytes pos

/-- The index after the fraction at an index, if there is one. -/
def fractionEnd? (bytes : List UInt8) (pos : Nat) : Option Nat :=
  if isAt (· = '.') bytes pos then digitsEnd? bytes (pos + 1) else none

/-- Whether a character is a sign. -/
def isSign (c : Char) : Bool := c = '+' || c = '-'

/-- The index after the exponent at an index, if there is one. -/
def exponentEnd? (bytes : List UInt8) (pos : Nat) : Option Nat :=
  if isAt isExponentLetter bytes pos then
    digitsEnd? bytes (if isAt isSign bytes (pos + 1) then pos + 2 else pos + 1)
  else none

/-- The index after the number literal at an index, if there is one, and whether the literal has
neither fraction nor exponent. -/
def numberEnd (bytes : List UInt8) (pos : Nat) : Checked (Option (Nat × Bool)) := do
  let first ← entryAt bytes pos
  match naturalEnd? bytes (if onByte (· = '-') first then pos + 1 else pos) with
  | none => return none
  | some integer =>
    let fraction? := fractionEnd? bytes integer
    let stop := fraction?.getD integer
    let exponent? := exponentEnd? bytes stop
    return some (exponent?.getD stop, fraction?.isNone && exponent?.isNone)

/-- The index after a part of a literal, if the part is not empty. -/
def endOf? (front part : List Char) : Option Nat :=
  if part.isEmpty then none else some (byteLength (front ++ part))

@[simp] theorem endOf?_nil (front : List Char) : endOf? front [] = none := rfl

theorem endOf?_cons (front : List Char) (c : Char) (part : List Char) :
    endOf? front (c :: part) = some (byteLength (front ++ c :: part)) := rfl

/-- The end of a part is that of the part with more characters in front. -/
theorem endOf?_append (front start : List Char) {part : List Char} (h : part ≠ []) :
    endOf? (front ++ start) part = endOf? front (start ++ part) := by
  rw [endOf?, endOf?, List.append_assoc, List.isEmpty_eq_false_iff.2 h,
    List.isEmpty_eq_false_iff.2 (List.append_ne_nil_of_right_ne_nil start h)]

theorem getD_endOf? (front part : List Char) :
    (endOf? front part).getD (byteLength front) = byteLength (front ++ part) := by
  rcases part with _ | ⟨c, part⟩
  · rw [endOf?_nil, Option.getD_none, List.append_nil]
  · rw [endOf?_cons, Option.getD_some]

theorem isNone_endOf? (front part : List Char) : (endOf? front part).isNone = part.isEmpty := by
  cases part <;> rfl

theorem asciiClass_isDigit : AsciiClass Char.isDigit := by
  intro c hc
  simp only [Char.isDigit, Bool.and_eq_true, decide_eq_true_eq, UInt32.le_iff_toNat_le] at hc
  exact hc.2.trans_lt (by decide)

theorem asciiClass_isExponentLetter : AsciiClass isExponentLetter := by
  intro c hc
  simp only [isExponentLetter, Bool.or_eq_true, decide_eq_true_eq] at hc
  rcases hc with rfl | rfl <;> decide

theorem asciiClass_isSign : AsciiClass isSign := by
  intro c hc
  simp only [isSign, Bool.or_eq_true, decide_eq_true_eq] at hc
  rcases hc with rfl | rfl <;> decide

theorem digitsEnd?_utf8 (front rest : List Char) :
    digitsEnd? (utf8 (front ++ rest)) (byteLength front) = endOf? front (digits rest) := by
  rw [digitsEnd?, isAt_utf8 asciiClass_isDigit]
  rcases rest with _ | ⟨c, rest⟩
  · rfl
  · by_cases hc : c.isDigit = true
    · have hdigits : digits (c :: rest) = c :: digits rest := List.takeWhile_cons_of_pos hc
      rw [List.head?_cons, Option.any_some, if_pos hc, List.append_cons front,
        ← byteLength_concat front (asciiClass_isDigit c hc),
        runEnd_utf8_append asciiClass_isDigit, hdigits, endOf?_cons,
        List.append_cons front c (digits rest), digits]
    · have hdigits : digits (c :: rest) = [] := List.takeWhile_cons_of_neg hc
      rw [List.head?_cons, Option.any_some, if_neg hc, hdigits]
      rfl

theorem naturalEnd?_utf8 (front rest : List Char) :
    naturalEnd? (utf8 (front ++ rest)) (byteLength front) = endOf? front (naturalPart rest) := by
  rw [naturalEnd?, isAt_utf8 (asciiClass_eq (d := '0') (by decide)), digitsEnd?_utf8]
  rcases rest with _ | ⟨c, rest⟩
  · rfl
  · simp only [List.head?_cons, Option.any_some, decide_eq_true_eq, naturalPart]
    by_cases hzero : c = '0'
    · subst hzero
      rw [if_pos rfl, if_pos rfl, ← byteLength_concat front (by decide : '0'.toNat < 128),
        endOf?_cons]
    · rw [if_neg hzero, if_neg hzero]
      split
      · rename_i hc
        rw [digits, List.takeWhile_cons_of_pos hc, digits]
      · rename_i hc
        rw [digits, List.takeWhile_cons_of_neg hc]

/-- Digits after one more character. -/
theorem digitsEnd?_concat {c : Char} (h : c.toNat < 128) (front rest : List Char) :
    digitsEnd? (utf8 (front ++ c :: rest)) (byteLength front + 1) =
      endOf? (front ++ [c]) (digits rest) := by
  rw [List.append_cons front, ← byteLength_concat front h, digitsEnd?_utf8]

theorem fractionEnd?_utf8 (front rest : List Char) :
    fractionEnd? (utf8 (front ++ rest)) (byteLength front) = endOf? front (fractionPart rest) := by
  rw [fractionEnd?, isAt_utf8 (asciiClass_eq (d := '.') (by decide))]
  rcases rest with _ | ⟨c, rest⟩
  · rfl
  · by_cases hdot : c = '.'
    · subst hdot
      rw [List.head?_cons, Option.any_some, if_pos (decide_eq_true rfl),
        digitsEnd?_concat (by decide)]
      by_cases hdigits : digits rest = []
      · simp [fractionPart, hdigits]
      · obtain ⟨d, ds, hcons⟩ := List.exists_cons_of_ne_nil hdigits
        rw [endOf?_append front ['.'] hdigits]
        simp only [fractionPart, hcons, List.singleton_append]
    · rw [List.head?_cons, Option.any_some, if_neg (by simpa using hdot),
        fractionPart_of_noneFirst (noneFirst_cons.2 (by simpa using hdot)), endOf?_nil]

/-- The sign at the start of a text, and the index after it. -/
theorem signEnd_utf8 (front rest : List Char) :
    (if isAt isSign (utf8 (front ++ rest)) (byteLength front) then byteLength front + 1
      else byteLength front) = byteLength (front ++ signPart rest) := by
  rw [isAt_utf8 asciiClass_isSign]
  obtain ⟨hsign, hplus, hminus⟩ | ⟨c, rest, rfl, hc, hsign⟩ := signPart_cases rest
  · rw [hsign, List.append_nil, if_neg]
    rw [Option.any_eq_true]
    rintro ⟨c, hc, hsign⟩
    simp only [isSign, Bool.or_eq_true, decide_eq_true_eq] at hsign
    rcases hsign with rfl | rfl
    · exact hplus hc
    · exact hminus hc
  · have hcsign : isSign c = true := by simpa [isSign] using hc
    rw [hsign, List.head?_cons, Option.any_some, if_pos hcsign,
      byteLength_concat front (asciiClass_isSign c hcsign)]

theorem exponentEnd?_utf8 (front rest : List Char) :
    exponentEnd? (utf8 (front ++ rest)) (byteLength front) = endOf? front (exponentPart rest) := by
  rw [exponentEnd?, isAt_utf8 asciiClass_isExponentLetter]
  rcases rest with _ | ⟨c, rest⟩
  · rfl
  · by_cases hc : isExponentLetter c = true
    · have hascii := asciiClass_isExponentLetter c hc
      have hletter : c = 'e' ∨ c = 'E' := by simpa [isExponentLetter] using hc
      have hsign := signEnd_utf8 (front ++ [c]) rest
      rw [List.append_assoc, List.singleton_append, byteLength_concat front hascii] at hsign
      have hsplit : front ++ c :: rest =
          (front ++ [c] ++ signPart rest) ++ rest.drop (signPart rest).length := by
        rw [List.append_assoc, signPart_append, List.append_cons front]
      rw [List.head?_cons, Option.any_some, if_pos hc, hsign, hsplit, digitsEnd?_utf8]
      by_cases hdigits : digits (rest.drop (signPart rest).length) = []
      · simp [exponentPart, hletter, hdigits]
      · obtain ⟨d, ds, hcons⟩ := List.exists_cons_of_ne_nil hdigits
        rw [List.append_assoc, endOf?_append front _ hdigits]
        simp only [exponentPart, hletter, if_true, hcons, List.singleton_append]
    · rw [List.head?_cons, Option.any_some, if_neg hc,
        exponentPart_of_noneFirst (noneFirst_cons.2 (by simpa using hc)), endOf?_nil]

/-- The integer at an index, after a minus sign or not. -/
theorem integerEnd_utf8 (front : List Char) (c : Char) (rest : List Char) :
    naturalEnd? (utf8 (front ++ c :: rest))
      (if c = '-' then byteLength front + 1 else byteLength front) =
        (integerPart? (c :: rest)).map fun integer => byteLength (front ++ integer) := by
  by_cases hminus : c = '-'
  · subst hminus
    rw [if_pos rfl, integerPart?_minus, ← byteLength_concat front (by decide : '-'.toNat < 128),
      List.append_cons front, naturalEnd?_utf8]
    by_cases hnone : naturalPart rest = []
    · rw [hnone, endOf?_nil, if_pos rfl, Option.map_none]
    · rw [endOf?_append front ['-'] hnone, if_neg hnone, Option.map_some, List.singleton_append,
        endOf?_cons]
  · rw [if_neg hminus, integerPart?_of_ne (by simpa using hminus), naturalEnd?_utf8]
    by_cases hnone : naturalPart (c :: rest) = []
    · rw [hnone, endOf?_nil, if_pos rfl, Option.map_none]
    · obtain ⟨d, ds, hcons⟩ := List.exists_cons_of_ne_nil hnone
      rw [if_neg hnone, Option.map_some, hcons, endOf?_cons]

/-- A number literal ends in the bytes where it does in the text. -/
theorem numberEnd_utf8 (front : List Char) (c : Char) (rest : List Char) :
    numberEnd (utf8 (front ++ c :: rest)) (byteLength front) = .ok
      ((numberParts? (c :: rest)).map fun n => (byteLength (front ++ n.text), n.isInteger)) := by
  obtain ⟨b, hget, hfirst, -⟩ := exists_getElem?_utf8 front c rest
  have hentry : entryAt (utf8 (front ++ c :: rest)) (byteLength front) = .ok b := by
    rw [entryAt, hget]
  rw [numberEnd, hentry, Checked.ok_bind, hfirst _ (asciiClass_eq (d := '-') (by decide))]
  simp only [decide_eq_true_eq]
  rw [integerEnd_utf8, numberParts?]
  cases hinteger : integerPart? (c :: rest) with
  | none => rfl
  | some integer =>
    obtain ⟨rest', heq⟩ := integerPart?_append hinteger
    obtain ⟨after, hafter⟩ := fractionPart_append rest'
    have hdrop : rest'.drop (fractionPart rest').length = after := by
      nth_rewrite 2 [hafter]
      exact List.drop_left
    have hfraction := fractionEnd?_utf8 (front ++ integer) rest'
    have hexponent := exponentEnd?_utf8 (front ++ (integer ++ fractionPart rest')) after
    rw [List.append_assoc, List.append_assoc, ← hafter] at hexponent
    rw [List.append_assoc] at hfraction
    rw [heq]
    simp only [Option.map_some, Option.bind_eq_bind, Option.bind_some, hfraction, getD_endOf?,
      hexponent, isNone_endOf?, List.drop_left, hdrop, Option.pure_def, NumberParts.text,
      NumberParts.isInteger, List.append_assoc]
    rfl

end GraphQL
