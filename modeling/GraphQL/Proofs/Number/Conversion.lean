import GraphQL.Number.Decimal
import GraphQL.Number.Integer
import GraphQL.Proofs.Lexical.Tokens
import Mathlib.Data.List.Forall2
import Mathlib.Data.Nat.Digits.Defs
import Mathlib.Tactic.Ring

/-!
# Conversion of number tokens

The text of every number token converts (`converts_of_mem_tokens`).  An integer literal converts to
the integer that it denotes if 64 bits hold it, and otherwise only its sign tells the error; any
number literal converts to a double-precision number, however many digits it has.

Reading digits up to a greatest magnitude fails as soon as the digits read so far exceed it, and
further digits cannot undo that (`readMagnitude_eq`).
-/

namespace GraphQL

/-! ### What integer literals denote -/

/-- A decimal digit and its value. -/
def IsDecimalDigit (c : Char) (d : Nat) : Prop := "0123456789".toList[d]? = some c

instance (c : Char) (d : Nat) : Decidable (IsDecimalDigit c d) :=
  inferInstanceAs (Decidable (_ = _))

/-- Decimal digits and the number that they denote, the most significant first. -/
def DecimalNumber (ds : List Char) (n : Nat) : Prop :=
  ∃ vs, List.Forall₂ IsDecimalDigit ds vs ∧ n = Nat.ofDigits 10 vs.reverse

/-- Decimal digits, perhaps after a minus sign, and the integer that they denote. -/
inductive DenotesInteger : List Char → Int → Prop where
  /-- Digits alone. -/
  | natural {ds : List Char} {n : Nat} (h : DecimalNumber ds n) : DenotesInteger ds n
  /-- Digits after a minus sign. -/
  | negative {ds : List Char} {n : Nat} (h : DecimalNumber ds n) : DenotesInteger ('-' :: ds) (-n)

theorem ne_of_isDigit {c d : Char} (hc : c.isDigit = true) (hd : d.isDigit = false) : c ≠ d := by
  rintro rfl
  exact Bool.noConfusion (hc.symm.trans hd)

theorem decimalDigit?_eq_some {c : Char} {d : Nat} :
    decimalDigit? c = some d ↔ IsDecimalDigit c d := by
  constructor
  · intro h
    have hdigit : c.isDigit = true := by
      by_contra hc
      rw [decimalDigit?, if_neg hc] at h
      cases h
    have hall : ∀ d ∈ decimalDigit? c, IsDecimalDigit c d :=
      forall_isDigit (P := fun c => ∀ d ∈ decimalDigit? c, IsDecimalDigit c d) (by decide) hdigit
    exact hall d h
  · intro h
    have hall : ∀ d < 10, "0123456789".toList[d]?.bind decimalDigit? = some d := by decide
    have hd := hall d (List.getElem?_eq_some_iff.1 h).1
    rwa [h] at hd

theorem IsDecimalDigit.isDigit {c : Char} {d : Nat} (h : IsDecimalDigit c d) :
    c.isDigit = true := by
  by_contra hc
  have hd := decimalDigit?_eq_some.2 h
  rw [decimalDigit?, if_neg hc] at hd
  cases hd

theorem exists_decimalNumber {ds : List Char} (h : ∀ c ∈ ds, c.isDigit = true) :
    ∃ n, DecimalNumber ds n := by
  suffices hvs : ∃ vs, List.Forall₂ IsDecimalDigit ds vs from
    hvs.elim fun vs hvs => ⟨_, vs, hvs, rfl⟩
  induction ds with
  | nil => exact ⟨[], .nil⟩
  | cons c ds ih =>
    obtain ⟨hc, hds⟩ := List.forall_mem_cons.1 h
    obtain ⟨vs, hvs⟩ := ih hds
    exact ⟨_ :: vs, .cons (decimalDigit?_eq_some.1 (if_pos hc)) hvs⟩

theorem DecimalNumber.unique {ds : List Char} {m n : Nat} (hm : DecimalNumber ds m)
    (hn : DecimalNumber ds n) : m = n := by
  obtain ⟨vs, hvs, rfl⟩ := hm
  obtain ⟨ws, hws, rfl⟩ := hn
  have hdigit : Relator.RightUnique IsDecimalDigit := fun c d e hd he =>
    Option.some.inj ((decimalDigit?_eq_some.2 hd).symm.trans (decimalDigit?_eq_some.2 he))
  rw [hdigit.forall₂ hvs hws]

theorem not_decimalNumber_minus (ds : List Char) (n : Nat) : ¬ DecimalNumber ('-' :: ds) n := by
  rintro ⟨_, hd | ⟨hd, -⟩, -⟩
  exact absurd hd.isDigit (by decide)

/-- A text denotes one integer at most. -/
theorem DenotesInteger.unique {text : List Char} {m n : Int} (hm : DenotesInteger text m)
    (hn : DenotesInteger text n) : m = n := by
  cases hm with
  | natural hm =>
    cases hn with
    | natural hn => rw [hm.unique hn]
    | negative _ => exact absurd hm (not_decimalNumber_minus _ _)
  | negative hm =>
    cases hn with
    | natural hn => exact absurd hn (not_decimalNumber_minus _ _)
    | negative hn => rw [hm.unique hn]

/-! ### Reading integers -/

/-- Digits are read as the number that they denote, after those of `value`, unless it is too
great. -/
theorem readMagnitude_eq {limit value : Nat} (beyond : IntegerError) {ds : List Char}
    {vs : List Nat} (h : List.Forall₂ IsDecimalDigit ds vs) (hvalue : value ≤ limit) :
    readMagnitude limit beyond value ds =
      if Nat.ofDigits 10 vs.reverse + 10 ^ ds.length * value ≤ limit
      then .ok (Nat.ofDigits 10 vs.reverse + 10 ^ ds.length * value) else .error beyond := by
  induction h generalizing value with
  | nil => simp [readMagnitude, hvalue]
  | @cons c d ds vs hc hds ih =>
    -- The first digit counts once for each place to the right of it.
    have hplace : Nat.ofDigits 10 (d :: vs).reverse + 10 ^ (c :: ds).length * value =
        Nat.ofDigits 10 vs.reverse + 10 ^ ds.length * (10 * value + d) := by
      rw [List.reverse_cons, Nat.ofDigits_append, List.length_reverse, ← hds.length_eq,
        Nat.ofDigits_singleton, List.length_cons]
      ring
    rw [hplace]
    simp only [readMagnitude, decimalDigit?_eq_some.2 hc]
    by_cases hle : 10 * value + d ≤ limit
    · rw [if_pos hle, ih hle]
    · have hgrow : 10 * value + d ≤ 10 ^ ds.length * (10 * value + d) :=
        Nat.le_mul_of_pos_left _ (Nat.pos_of_ne_zero (by simp))
      rw [if_neg hle, if_neg (by omega)]

theorem readMagnitude_of_decimalNumber (limit : Nat) (beyond : IntegerError) {ds : List Char}
    {n : Nat} (h : DecimalNumber ds n) :
    readMagnitude limit beyond 0 ds = if n ≤ limit then .ok n else .error beyond := by
  obtain ⟨vs, hvs, rfl⟩ := h
  simpa using readMagnitude_eq beyond hvs (Nat.zero_le limit)

theorem readNatural_of_decimalNumber {ds : List Char} {n : Nat} (hne : ds ≠ [])
    (h : DecimalNumber ds n) :
    readNatural ds = if n ≤ maxInteger then .ok (n : Int) else .error .tooLarge := by
  rw [readNatural, if_neg (by simpa using hne), readMagnitude_of_decimalNumber _ _ h]
  split <;> rfl

theorem readNegative_of_decimalNumber {ds : List Char} {n : Nat} (hne : ds ≠ [])
    (h : DecimalNumber ds n) :
    readNegative ds = if n ≤ maxInteger + 1 then .ok (-(n : Int)) else .error .tooSmall := by
  rw [readNegative, if_neg (by simpa using hne), readMagnitude_of_decimalNumber _ _ h]
  split <;> rfl

theorem readInteger_of_isDigit {text : String} {c : Char} {cs : List Char}
    (htext : text.toList = c :: cs) (hc : c.isDigit = true) :
    readInteger text = readNatural (c :: cs) := by
  rw [readInteger.eq_def, htext]
  split
  · rename_i h
    cases h
  · rename_i h
    exact absurd (List.cons.inj h).1 (ne_of_isDigit hc rfl)
  · rename_i h
    exact absurd (List.cons.inj h).1 (ne_of_isDigit hc rfl)
  · rfl

theorem readInteger_minus {text : String} {ds : List Char} (htext : text.toList = '-' :: ds) :
    readInteger text = readNegative ds := by
  rw [readInteger.eq_def, htext]
  rfl

theorem exists_cons_of_mem_natural {ds : List Char} (h : ds ∈ LexicalText.natural) :
    ∃ c cs, ds = c :: cs ∧ c.isDigit = true := by
  obtain rfl | ⟨c, cs, hc, -, rfl⟩ := LexicalText.mem_natural.1 h
  · exact ⟨'0', [], rfl, rfl⟩
  · exact ⟨c, cs, rfl, hc.1⟩

/-- An integer literal is read as the integer that it denotes, or its sign tells the error. -/
theorem readInteger_of_mem {text : String} (h : text.toList ∈ LexicalText.integer) :
    ∃ n, DenotesInteger text.toList n ∧
      readInteger text = if -2 ^ 63 ≤ n ∧ n < 2 ^ 63 then .ok n
        else .error (if text.toList.head? = some '-' then .tooSmall else .tooLarge) := by
  obtain hds | ⟨ds, hds, htext⟩ := LexicalText.mem_integer.1 h
  · obtain ⟨n, hn⟩ := exists_decimalNumber (LexicalText.isDigit_of_mem_natural hds)
    obtain ⟨c, cs, htext, hc⟩ := exists_cons_of_mem_natural hds
    rw [htext] at hn
    have hhead : c ≠ '-' := ne_of_isDigit hc rfl
    refine ⟨n, htext ▸ .natural hn, ?_⟩
    rw [readInteger_of_isDigit htext hc, readNatural_of_decimalNumber (by simp) hn, htext]
    simp only [List.head?_cons, Option.some.injEq, hhead, if_false]
    refine if_congr ?_ rfl rfl
    rw [maxInteger]
    omega
  · obtain ⟨n, hn⟩ := exists_decimalNumber (LexicalText.isDigit_of_mem_natural hds)
    obtain ⟨c, cs, rfl, -⟩ := exists_cons_of_mem_natural hds
    refine ⟨-n, htext ▸ .negative hn, ?_⟩
    rw [readInteger_minus htext, readNegative_of_decimalNumber (by simp) hn, htext]
    simp only [List.head?_cons, if_true]
    refine if_congr ?_ rfl rfl
    rw [maxInteger]
    omega

/-! ### Reading decimal numbers -/

theorem specialValue?_of_isDigit (negative : Bool) {c : Char} (hc : c.isDigit = true)
    (cs : List Char) : specialValue? negative (c :: cs) = none := by
  -- The special values start with letters, and a digit in lower case is none.
  have hlower : c.toLower ≠ 'i' ∧ c.toLower ≠ 'n' :=
    forall_isDigit (P := fun c => c.toLower ≠ 'i' ∧ c.toLower ≠ 'n') (by decide) hc
  have hne : ∀ text : String, String.ofList ((c :: cs).map Char.toLower) = text →
      text.toList.head? = some c.toLower := by
    rintro _ rfl
    rw [String.toList_ofList]
    rfl
  unfold specialValue?
  split
  · rename_i h
    exact absurd (Option.some.inj (hne _ h)).symm hlower.1
  · rename_i h
    exact absurd (Option.some.inj (hne _ h)).symm hlower.1
  · rename_i h
    exact absurd (Option.some.inj (hne _ h)).symm hlower.2
  · rfl

theorem splitSign_of_isDigit {c : Char} (hc : c.isDigit = true) (cs : List Char) :
    splitSign (c :: cs) = (false, c :: cs) := by
  unfold splitSign
  split
  · rename_i h
    exact absurd (List.cons.inj h).1 (ne_of_isDigit hc rfl)
  · rename_i h
    exact absurd (List.cons.inj h).1 (ne_of_isDigit hc rfl)
  · rfl

theorem ne_nil_and_all_of_mem_digits {ds : List Char} (h : ds ∈ LexicalText.digits) :
    ds ≠ [] ∧ ds.all Char.isDigit = true := by
  obtain ⟨c, cs, hc, hcs, rfl⟩ := LexicalText.mem_digits.1 h
  exact ⟨by simp, List.all_eq_true.2 (List.forall_mem_cons.2 ⟨hc, hcs⟩)⟩

/-- The exponent of a number literal, or its absence, is read. -/
theorem exists_readExponent? {e : List Char} (h : e ∈ 1 + LexicalText.exponent) :
    ∃ n, readExponent? e = some n := by
  obtain rfl | h := LexicalText.mem_one_add.1 h
  · exact ⟨0, rfl⟩
  · obtain ⟨c, v, hletter, hv, rfl⟩ := LexicalText.mem_exponent.1 h
    have hsplit : ∃ negative ds, splitSign v = (negative, ds) ∧ ds ∈ LexicalText.digits := by
      obtain hds | ⟨sign, ds, rfl | rfl, hds, rfl⟩ := hv
      · obtain ⟨d, ds, hd, -, rfl⟩ := LexicalText.mem_digits.1 hds
        exact ⟨false, d :: ds, splitSign_of_isDigit hd ds, hds⟩
      · exact ⟨false, ds, rfl, hds⟩
      · exact ⟨true, ds, rfl, hds⟩
    obtain ⟨negative, ds, hsign, hds⟩ := hsplit
    simp only [readExponent?, hsign, hletter, ne_nil_and_all_of_mem_digits hds, ne_eq,
      not_false_eq_true, and_self, if_true]
    exact ⟨_, rfl⟩

/-- A number literal without its sign is read. -/
theorem exists_readDecimal? {n f e : List Char} (hn : n ∈ LexicalText.natural)
    (hf : f ∈ 1 + LexicalText.fraction) (he : e ∈ 1 + LexicalText.exponent) :
    ∃ d, readDecimal? (n ++ f ++ e) = some d := by
  obtain ⟨exponent, hexponent⟩ := exists_readExponent? he
  obtain ⟨c, cs, hcons, -⟩ := exists_cons_of_mem_natural hn
  have hdigit := LexicalText.isDigit_of_mem_natural hn
  -- No digit comes after the digits of the integer part or of the fraction.
  have hstop : NoneFirst Char.isDigit e := by
    obtain rfl | he := LexicalText.mem_one_add.1 he
    · exact fun _ h => nomatch h
    · simpa using noneFirst_of_mem_exponent he rfl rfl []
  have hwhole : NoneFirst Char.isDigit (f ++ e) := by
    obtain rfl | hf := LexicalText.mem_one_add.1 hf
    · exact hstop
    · exact noneFirst_of_mem_fraction hf rfl e
  have htake := takeWhile_append_stop hdigit hwhole
  have hdrop := dropWhile_append_stop hdigit hwhole
  rw [← List.append_assoc] at htake hdrop
  have hne : n.isEmpty = false := by rw [hcons]; rfl
  simp only [readDecimal?, htake, hdrop, hne, Bool.false_and, Bool.false_eq_true, if_false]
  obtain rfl | hf := LexicalText.mem_one_add.1 hf
  · -- An exponent starts with a letter, so that no fraction is read.
    obtain rfl | he := LexicalText.mem_one_add.1 he
    · exact ⟨_, Option.bind_eq_some_iff.2 ⟨exponent, hexponent, rfl⟩⟩
    · obtain ⟨c, v, rfl | rfl, -, rfl⟩ := LexicalText.mem_exponent.1 he
      · exact ⟨_, Option.bind_eq_some_iff.2 ⟨exponent, hexponent, rfl⟩⟩
      · exact ⟨_, Option.bind_eq_some_iff.2 ⟨exponent, hexponent, rfl⟩⟩
  · obtain ⟨ds, hds, rfl⟩ := LexicalText.mem_fraction.1 hf
    have hall := List.all_eq_true.1 (ne_nil_and_all_of_mem_digits hds).2
    simp only [List.cons_append, takeWhile_append_stop hall hstop,
      dropWhile_append_stop hall hstop]
    exact ⟨_, Option.bind_eq_some_iff.2 ⟨exponent, hexponent, rfl⟩⟩

/-- A number literal is read, and its sign is that of the number. -/
theorem readBinary64_of_mem {text : String} (h : text.toList ∈ LexicalText.number) :
    ∃ d : Decimal, readBinary64 text = .ok (d.toBinary64 (text.toList.head? = some '-')) := by
  obtain ⟨_, hif, e, he, htext⟩ := Language.mem_mul.1 h
  obtain ⟨i, hi, f, hf, rfl⟩ := Language.mem_mul.1 hif
  -- The sign is split off, and digits come first in the rest.
  have hsplit : ∃ n ∈ LexicalText.natural,
      splitSign text.toList = (decide (text.toList.head? = some '-'), n ++ f ++ e) := by
    obtain hn | ⟨n, hn, rfl⟩ := LexicalText.mem_integer.1 hi
    · obtain ⟨c, cs, rfl, hc⟩ := exists_cons_of_mem_natural hn
      have hne : c ≠ '-' := ne_of_isDigit hc rfl
      refine ⟨_, hn, ?_⟩
      rw [← htext]
      exact (splitSign_of_isDigit hc _).trans (by simp [hne])
    · exact ⟨n, hn, by rw [← htext]; rfl⟩
  obtain ⟨n, hn, hsign⟩ := hsplit
  obtain ⟨d, hd⟩ := exists_readDecimal? hn hf he
  obtain ⟨c, cs, rfl, hc⟩ := exists_cons_of_mem_natural hn
  have hempty : text.isEmpty = false := by
    rw [Bool.eq_false_iff]
    intro hempty
    rw [String.isEmpty_iff.1 hempty] at hsign
    cases hsign
  have hspecial :=
    specialValue?_of_isDigit (decide (text.toList.head? = some '-')) hc (cs ++ f ++ e)
  refine ⟨d, ?_⟩
  simp only [readBinary64, hempty, Bool.false_eq_true, if_false, hsign, List.cons_append] at hd ⊢
  simp only [List.append_assoc] at hspecial hd ⊢
  rw [hspecial, hd]

/-! ### Number tokens -/

/-- What the text of a number token converts to. -/
structure Token.Converts (t : Token) : Prop where
  /-- An integer literal denotes one integer, and converts to it if 64 bits hold it; otherwise it is
  too small with a minus sign, and too large without. -/
  integer : t.kind = .int → ∃ n, (∀ m, DenotesInteger t.text.toList m ↔ m = n) ∧
    readInteger t.text = if -2 ^ 63 ≤ n ∧ n < 2 ^ 63 then .ok n
      else .error (if t.text.toList.head? = some '-' then .tooSmall else .tooLarge)
  /-- Any number literal converts to a double-precision number of its sign. -/
  decimal : t.kind = .int ∨ t.kind = .float →
    ∃ d : Decimal, readBinary64 t.text = .ok (d.toBinary64 (t.text.toList.head? = some '-'))

/-- **Number tokens convert exactly.**  An integer token is read as the integer that it denotes, or
is out of the range of 64 bits on the side that its sign tells; an integer or float token is always
read as a double-precision number. -/
theorem converts_of_mem_tokens {source : String} {t : Token} (h : t ∈ tokens source) :
    t.Converts := by
  obtain ⟨hint, hfloat⟩ := (mem_tokens h).1.number_text
  refine ⟨fun hk => ?_, fun hk => readBinary64_of_mem ?_⟩
  · obtain ⟨n, hn, hread⟩ := readInteger_of_mem (hint hk)
    exact ⟨n, fun m => ⟨fun hm => hm.unique hn, fun hm => hm ▸ hn⟩, hread⟩
  · rw [LexicalText.number_eq, Language.mem_add]
    exact hk.imp (fun hk => hint hk) fun hk => hfloat hk

/-- The least integer of 64 bits and the one below it, and a float beyond all double-precision
numbers, cut off before a second fraction. -/
theorem converts_of_mem_tokens_bounds :
    (⟨.int "-9223372036854775808", 0⟩ ∈ tokens "-9223372036854775808" ∧
      Token.Converts ⟨.int "-9223372036854775808", 0⟩) ∧
    (⟨.int "-9223372036854775809", 1⟩ ∈ tokens ",-9223372036854775809." ∧
      Token.Converts ⟨.int "-9223372036854775809", 1⟩) ∧
    (⟨.float "10.5E+999", 0⟩ ∈ tokens "10.5E+999.5" ∧ Token.Converts ⟨.float "10.5E+999", 0⟩) := by
  have hleast : ⟨.int "-9223372036854775808", 0⟩ ∈ tokens "-9223372036854775808" := by
    decide +kernel
  have hbelow : ⟨.int "-9223372036854775809", 1⟩ ∈ tokens ",-9223372036854775809." := by
    decide +kernel
  have hfloat : ⟨.float "10.5E+999", 0⟩ ∈ tokens "10.5E+999.5" := by
    decide +kernel
  exact ⟨⟨hleast, converts_of_mem_tokens hleast⟩, ⟨hbelow, converts_of_mem_tokens hbelow⟩,
    hfloat, converts_of_mem_tokens hfloat⟩

end GraphQL
