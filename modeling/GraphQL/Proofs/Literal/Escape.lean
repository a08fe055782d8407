import GraphQL.Proofs.Literal.Hex

/-!
# Escape sequences and the characters they write

A character can be written in a string literal as itself, by one letter after a backslash, by its
number in hexadecimal, or by its surrogate pair (`Encodes`).  `readEscape` reads exactly the
encodings that start with a backslash: each of them whatever comes after it
(`readEscape_append`), and nothing else (`encodes_of_readEscape`).
-/

namespace GraphQL

/-- The letters that stand for a character after a backslash. -/
def shortEscapes : List (Char × Char) :=
  [('"', '"'), ('\\', '\\'), ('/', '/'), ('b', '\x08'), ('f', '\x0c'), ('n', '\n'), ('r', '\r'),
    ('t', '\t')]

/-- The ways to write a character in a string literal. -/
inductive Encodes : List Char → Char → Prop where
  /-- The character itself. -/
  | plain {c : Char} (h : c ≠ '\\') : Encodes [c] c
  /-- A letter that stands for it. -/
  | short {x c : Char} (h : (x, c) ∈ shortEscapes) : Encodes ['\\', x] c
  /-- Its number in four digits. -/
  | unit {h : List Char} {c : Char} (hlen : h.length = 4) (hc : HexNumber h c.toNat) :
    Encodes ('\\' :: 'u' :: h) c
  /-- The two halves of its surrogate pair, in four digits each. -/
  | pair {h l : List Char} {c : Char} (hlen : h.length = 4) (llen : l.length = 4)
    (hc : 0x10000 ≤ c.toNat) (hh : HexNumber h (0xD800 + (c.toNat - 0x10000) / 0x400))
    (hl : HexNumber l (0xDC00 + (c.toNat - 0x10000) % 0x400)) :
    Encodes ('\\' :: 'u' :: (h ++ '\\' :: 'u' :: l)) c
  /-- Its number in four digits or more, in braces. -/
  | braced {h : List Char} {c : Char} (hlen : 4 ≤ h.length) (hc : HexNumber h c.toNat) :
    Encodes ('\\' :: 'u' :: '\x7b' :: (h ++ ['\x7d'])) c

/-- The text that an error quotes. -/
def StringError.quoted? : StringError → Option String
  | invalidEscape text | invalidUnicode text | unpairedSurrogate text => some text
  | unterminated => none

theorem mem_shortEscapes {x c : Char} : (x, c) ∈ shortEscapes ↔ shortEscape? x = some c := by
  constructor
  · intro h
    have hall : ∀ p ∈ shortEscapes, shortEscape? p.1 = some p.2 := by decide
    exact hall _ h
  · intro h
    unfold shortEscape? at h
    split at h <;> cases h <;> decide

theorem ne_u_of_mem_shortEscapes {x c : Char} (h : (x, c) ∈ shortEscapes) : x ≠ 'u' := by
  rw [mem_shortEscapes] at h
  rintro rfl
  cases h

theorem scalar?_eq_some {n : Nat} {c : Char} : scalar? n = some c ↔ c.toNat = n := by
  unfold scalar?
  split <;> rename_i h
  · rw [Option.some.injEq]
    constructor
    · rintro rfl
      rw [Char.ofNat, dif_pos h]
      rfl
    · rintro rfl
      exact Char.ofNat_toNat c
  · constructor
    · intro hc
      cases hc
    · rintro rfl
      exact absurd c.valid h

theorem readEscape_short {x : Char} (h : x ≠ 'u') (rest : List Char) :
    readEscape ('\\' :: x :: rest) =
      match shortEscape? x with
      | some c => .ok (c, 2)
      | none => .error (.invalidEscape (String.ofList ['\\', x])) := by
  rw [readEscape]
  · rfl
  · exact fun _ hx => absurd hx h
  · exact h

theorem readEscape_unit {digits : List Char} (h : digits.head? ≠ some '\x7b') :
    readEscape ('\\' :: 'u' :: digits) = readUnitEscape ('\\' :: 'u' :: digits) digits := by
  rw [readEscape]
  rintro d rfl
  exact absurd rfl h

theorem codeUnit?_append {h : List Char} {n : Nat} (hlen : h.length = 4) (hn : HexNumber h n)
    (rest : List Char) : codeUnit? (h ++ rest) = some n := by
  obtain ⟨a, b, c, d, rfl⟩ := List.length_eq_four.1 hlen
  exact hexNumber?_eq_some.2 hn

theorem exists_of_codeUnit? {digits : List Char} {n : Nat} (h : codeUnit? digits = some n) :
    ∃ hex rest, digits = hex ++ rest ∧ hex.length = 4 ∧ HexNumber hex n := by
  unfold codeUnit? at h
  split at h
  · rename_i a b c d rest
    exact ⟨[a, b, c, d], rest, rfl, rfl, hexNumber?_eq_some.1 h⟩
  · cases h

theorem head?_append_of_hexNumber {h : List Char} {n : Nat} (hlen : h.length = 4)
    (hn : HexNumber h n) (rest : List Char) : (h ++ rest).head? ≠ some '\x7b' := by
  obtain ⟨a, b, c, d, rfl⟩ := List.length_eq_four.1 hlen
  simpa using (hn.ne_brace (c := a) (by simp)).1

theorem readBracedEscape_append {h : List Char} {c : Char} (hlen : 4 ≤ h.length)
    (hc : HexNumber h c.toNat) (text rest : List Char) :
    readBracedEscape text (h ++ '\x7d' :: rest) = .ok (c, h.length + 4) := by
  have htake : (h ++ '\x7d' :: rest).takeWhile (· ≠ '\x7d') = h := by
    rw [List.takeWhile_append_of_pos fun x hx => by simpa using (hc.ne_brace hx).2]
    simp
  have hvalue : (hexNumber? h).bind scalar? = some c := by
    rw [hexNumber?_eq_some.2 hc, Option.bind_some, scalar?_eq_some]
  simp only [readBracedEscape, htake, hvalue]
  rw [if_neg (by simp), if_neg (by omega)]

/-- The character of a surrogate pair, for the halves of its pair. -/
theorem ofSurrogates_toNat {c : Char} (hc : 0x10000 ≤ c.toNat) :
    ofSurrogates (0xD800 + (c.toNat - 0x10000) / 0x400)
      (0xDC00 + (c.toNat - 0x10000) % 0x400) = c := by
  have hsum : 0x10000 + (0xD800 + (c.toNat - 0x10000) / 0x400 - 0xD800) * 0x400 +
      (0xDC00 + (c.toNat - 0x10000) % 0x400 - 0xDC00) = c.toNat := by omega
  rw [ofSurrogates, hsum, Char.ofNat_toNat]

theorem toNat_lt_or_lt (c : Char) : c.toNat < 0xD800 ∨ 0xDFFF < c.toNat ∧ c.toNat < 0x110000 :=
  c.valid

/-- An encoding that starts with a backslash is read, whatever comes after it. -/
theorem readEscape_append {e : List Char} {c : Char} (h : Encodes e c)
    (hb : e.head? = some '\\') (rest : List Char) :
    readEscape (e ++ rest) = .ok (c, e.length) := by
  cases h with
  | plain hc => exact absurd (Option.some.inj hb) hc
  | short hx =>
    rw [List.cons_append, List.cons_append, readEscape_short (ne_u_of_mem_shortEscapes hx),
      mem_shortEscapes.1 hx]
    rfl
  | @unit h _ hlen hc =>
    -- A character is no half of a surrogate pair.
    have hlt : c.toNat < 0xD800 ∨ 0xDFFF < c.toNat := (toNat_lt_or_lt c).imp_right And.left
    rw [List.cons_append, List.cons_append,
      readEscape_unit (head?_append_of_hexNumber hlen hc rest), readUnitEscape,
      codeUnit?_append hlen hc]
    have hhigh : isHighSurrogate c.toNat = false := by
      simp only [isHighSurrogate, Bool.and_eq_false_iff, decide_eq_false_iff_not]
      omega
    have hlow : isLowSurrogate c.toNat = false := by
      simp only [isLowSurrogate, Bool.and_eq_false_iff, decide_eq_false_iff_not]
      omega
    simp [hhigh, hlow, hlen, Char.ofNat_toNat]
  | @pair h l _ hlen llen hc hh hl =>
    have hlt : c.toNat < 0x110000 := by
      have := toNat_lt_or_lt c
      omega
    have hhigh : isHighSurrogate (0xD800 + (c.toNat - 0x10000) / 0x400) = true := by
      simp only [isHighSurrogate, Bool.and_eq_true, decide_eq_true_eq]
      omega
    have hlow : isLowSurrogate (0xDC00 + (c.toNat - 0x10000) % 0x400) = true := by
      simp only [isLowSurrogate, Bool.and_eq_true, decide_eq_true_eq]
      omega
    have hsecond : lowSurrogate? ('\\' :: 'u' :: (l ++ rest)) =
        some (0xDC00 + (c.toNat - 0x10000) % 0x400) := by
      rw [lowSurrogate?, codeUnit?_append llen hl, Option.filter_some, if_pos hlow]
    have htext : '\\' :: 'u' :: (h ++ '\\' :: 'u' :: l) ++ rest =
        '\\' :: 'u' :: (h ++ '\\' :: 'u' :: (l ++ rest)) := by simp
    rw [htext, readEscape_unit (head?_append_of_hexNumber hlen hh _), readUnitEscape,
      codeUnit?_append hlen hh]
    simp only [hhigh, if_true, List.drop_left' hlen, hsecond, ofSurrogates_toNat hc]
    simp [hlen, llen]
  | @braced h _ hlen hc =>
    have htext : '\\' :: 'u' :: '\x7b' :: (h ++ ['\x7d']) ++ rest =
        '\\' :: 'u' :: '\x7b' :: (h ++ '\x7d' :: rest) := by simp
    rw [htext, readEscape, readBracedEscape_append hlen hc]
    simp

theorem toNat_ofNat_of_isValidChar {n : Nat} (h : n.isValidChar) : (Char.ofNat n).toNat = n := by
  rw [Char.ofNat, dif_pos h]
  rfl

/-- What is read between braces is a number of four digits or more. -/
theorem exists_of_readBracedEscape {text digits : List Char} {c : Char} {n : Nat}
    (h : readBracedEscape text digits = .ok (c, n)) :
    ∃ hex rest, digits = hex ++ '\x7d' :: rest ∧ 4 ≤ hex.length ∧ HexNumber hex c.toNat := by
  -- The digits go up to the first closing brace, which is there unless reading fails.
  have hsplit := List.takeWhile_append_dropWhile (p := (· ≠ '\x7d')) (l := digits)
  have hhead := List.head?_dropWhile_not (· ≠ '\x7d') digits
  simp only [readBracedEscape] at h
  generalize digits.takeWhile (· ≠ '\x7d') = hex at h hsplit
  generalize digits.dropWhile (· ≠ '\x7d') = rest at hsplit hhead
  split at h
  · cases h
  · rename_i hclose
    split at h
    · cases h
    · rename_i hlen
      split at h <;> cases h
      rename_i hvalue
      obtain ⟨m, hm, hc⟩ := Option.bind_eq_some_iff.1 hvalue
      rw [scalar?_eq_some] at hc
      subst hc
      rcases rest with _ | ⟨d, rest⟩
      · rw [← hsplit] at hclose
        simp at hclose
      · obtain rfl : d = '\x7d' := by simpa using hhead
        exact ⟨hex, rest, hsplit.symm, by omega, hexNumber?_eq_some.1 hm⟩

theorem exists_of_lowSurrogate? {digits : List Char} {low : Nat}
    (h : lowSurrogate? digits = some low) :
    ∃ hex rest, digits = '\\' :: 'u' :: (hex ++ rest) ∧ hex.length = 4 ∧ HexNumber hex low ∧
      0xDC00 ≤ low ∧ low ≤ 0xDFFF := by
  unfold lowSurrogate? at h
  split at h
  · obtain ⟨hunit, hlow⟩ := Option.filter_eq_some_iff.1 h
    obtain ⟨hex, rest, rfl, hlen, hhex⟩ := exists_of_codeUnit? hunit
    simp only [isLowSurrogate, Bool.and_eq_true, decide_eq_true_eq] at hlow
    exact ⟨hex, rest, rfl, hlen, hhex, hlow⟩
  · cases h

/-- The character of a surrogate pair, from the halves of its pair. -/
theorem toNat_ofSurrogates {high low : Nat} (hhigh : 0xD800 ≤ high ∧ high ≤ 0xDBFF)
    (hlow : 0xDC00 ≤ low ∧ low ≤ 0xDFFF) :
    (ofSurrogates high low).toNat = 0x10000 + (high - 0xD800) * 0x400 + (low - 0xDC00) := by
  refine toNat_ofNat_of_isValidChar (.inr ?_)
  omega

/-- What is read without braces is a number of four digits, or two of them for a surrogate pair. -/
theorem exists_of_readUnitEscape {text digits : List Char} {c : Char} {n : Nat}
    (h : readUnitEscape text digits = .ok (c, n)) :
    ∃ e rest, digits = e ++ rest ∧ Encodes ('\\' :: 'u' :: e) c := by
  unfold readUnitEscape at h
  split at h
  · cases h
  · rename_i unit hunit
    obtain ⟨hex, rest, rfl, hlen, hhex⟩ := exists_of_codeUnit? hunit
    have hlt := hhex.lt
    rw [hlen] at hlt
    split at h
    · rename_i hhigh
      simp only [isHighSurrogate, Bool.and_eq_true, decide_eq_true_eq] at hhigh
      rw [List.drop_left' hlen] at h
      split at h
      · rename_i low hsecond
        obtain ⟨hex', rest', rfl, hlen', hhex', hlow⟩ := exists_of_lowSurrogate? hsecond
        obtain ⟨rfl, -⟩ := Prod.mk.inj (Except.ok.inj h)
        -- The halves are found again from the number of the character.
        have hc := toNat_ofSurrogates hhigh hlow
        refine ⟨hex ++ '\\' :: 'u' :: hex', rest', by simp, .pair hlen hlen' (by omega) ?_ ?_⟩
        · rwa [show 0xD800 + ((ofSurrogates unit low).toNat - 0x10000) / 0x400 = unit by omega]
        · rwa [show 0xDC00 + ((ofSurrogates unit low).toNat - 0x10000) % 0x400 = low by omega]
      · exact nomatch h
    · rename_i hhigh
      split at h
      · exact nomatch h
      · rename_i hlow
        obtain ⟨rfl, -⟩ := Prod.mk.inj (Except.ok.inj h)
        simp only [isHighSurrogate, isLowSurrogate, Bool.and_eq_true, decide_eq_true_eq]
          at hhigh hlow
        -- A code unit that is no half of a pair is the number of a character.
        have hvalid : unit.isValidChar := by
          rcases Nat.lt_or_ge unit 0xD800 with hsmall | hlarge
          · exact .inl hsmall
          · exact .inr (by omega)
        refine ⟨hex, rest, rfl, .unit hlen ?_⟩
        rwa [toNat_ofNat_of_isValidChar hvalid]

/-- What is read as an escape sequence is an encoding at the start of the text. -/
theorem encodes_of_readEscape {text : List Char} {c : Char} {n : Nat}
    (h : readEscape ('\\' :: text) = .ok (c, n)) : ∃ e, Encodes e c ∧ e <+: '\\' :: text := by
  unfold readEscape at h
  split at h
  · rename_i digits htext
    cases htext
    obtain ⟨hex, rest, rfl, hlen, hhex⟩ := exists_of_readBracedEscape h
    exact ⟨_, .braced hlen hhex, rest, by simp⟩
  · rename_i digits hbrace htext
    cases htext
    obtain ⟨e, rest, rfl, he⟩ := exists_of_readUnitEscape h
    exact ⟨_, he, rest, rfl⟩
  · rename_i x rest hbrace hunit htext
    cases htext
    split at h <;> cases h
    rename_i hx
    exact ⟨['\\', x], .short (mem_shortEscapes.2 hx), ⟨rest, rfl⟩⟩
  · cases h

/-- An error quotes the text that was to be read, from the backslash on. -/
theorem quoted_of_readEscape {text : List Char} {e : StringError}
    (h : readEscape ('\\' :: text) = .error e) :
    ∃ n, e.quoted? = some (String.ofList (('\\' :: text).take (n + 1))) := by
  unfold readEscape at h
  split at h
  · unfold readBracedEscape at h
    simp only at h
    split at h
    · cases h
      exact ⟨7, rfl⟩
    · split at h
      · cases h
        exact ⟨_, rfl⟩
      · split at h <;> cases h
        exact ⟨_, rfl⟩
  · unfold readUnitEscape at h
    split at h
    · cases h
      exact ⟨5, rfl⟩
    · split at h
      · split at h <;> cases h
        exact ⟨5, rfl⟩
      · split at h <;> cases h
        exact ⟨5, rfl⟩
  · split at h <;> cases h
    exact ⟨1, rfl⟩
  · cases h
    exact ⟨1, rfl⟩

end GraphQL
