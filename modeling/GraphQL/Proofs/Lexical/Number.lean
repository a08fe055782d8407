import GraphQL.Lexical.Number
import GraphQL.Proofs.Lexical.Text
import Mathlib.Data.List.TakeWhile

/-!
# The text of scanned numbers

The number literal at the start of a text is an integer or a float of the grammar
(`integer_of_numberParts`, `float_of_numberParts`), is where the text begins
(`numberParts?_append`), and is found again before anything that cannot continue a number
(`numberParts?_again`).

Each part of a number that a text starts with is found there, but for further digits after it
(`integerPart?_append_of_mem`, `fractionPart_append_of_mem`, `exponentPart_append_of_mem`).
-/

namespace GraphQL

/-- Whether no character of a class comes first. -/
def NoneFirst (p : Char → Bool) (cs : List Char) : Prop := ∀ c ∈ cs.head?, p c = false

theorem noneFirst_cons {p : Char → Bool} {c : Char} {cs : List Char} :
    NoneFirst p (c :: cs) ↔ p c = false := by
  simp [NoneFirst]

theorem takeWhile_append_stop {p : Char → Bool} {xs ys : List Char} (hx : ∀ x ∈ xs, p x = true)
    (hy : NoneFirst p ys) : (xs ++ ys).takeWhile p = xs := by
  rw [List.takeWhile_append_of_pos hx]
  cases ys with
  | nil => simp
  | cons y ys => simp [noneFirst_cons.1 hy]

theorem dropWhile_append_stop {p : Char → Bool} {xs ys : List Char} (hx : ∀ x ∈ xs, p x = true)
    (hy : NoneFirst p ys) : (xs ++ ys).dropWhile p = ys := by
  rw [List.dropWhile_append_of_pos hx]
  cases ys with
  | nil => rfl
  | cons y ys => simp [noneFirst_cons.1 hy]

/-! ### The parts of a number -/

theorem isDigit_of_mem_digits {source : List Char} {c : Char} (h : c ∈ digits source) :
    c.isDigit = true :=
  List.mem_takeWhile_imp h

theorem digits_append (source : List Char) :
    digits source ++ source.dropWhile Char.isDigit = source :=
  List.takeWhile_append_dropWhile

theorem digits_mem {source : List Char} (h : digits source ≠ []) :
    digits source ∈ LexicalText.digits := by
  rcases hd : digits source with _ | ⟨c, cs⟩
  · exact absurd hd h
  · have hall : ∀ x ∈ c :: cs, x.isDigit = true := fun x hx => isDigit_of_mem_digits (hd ▸ hx)
    exact LexicalText.cons_mem_oneOf_mul (hall c (by simp))
      (LexicalText.mem_star_oneOf.2 fun x hx => hall x (by simp [hx]))

theorem digits_eq_nil {source : List Char} (h : NoneFirst Char.isDigit source) :
    digits source = [] := by
  cases source with
  | nil => rfl
  | cons c cs => simp [digits, noneFirst_cons.1 h]

theorem digits_append_of_forall {ds : List Char} (h : ∀ c ∈ ds, c.isDigit = true)
    (rest : List Char) : digits (ds ++ rest) = ds ++ digits rest :=
  List.takeWhile_append_of_pos h

theorem digits_append_of_mem {ds : List Char} (h : ds ∈ LexicalText.digits) (rest : List Char) :
    ∃ c cs, digits (ds ++ rest) = c :: cs ∧ c :: cs = ds ++ digits rest := by
  obtain ⟨c, cs, hc, hcs, rfl⟩ := LexicalText.mem_digits.1 h
  exact ⟨c, cs ++ digits rest,
    digits_append_of_forall (List.forall_mem_cons.2 ⟨hc, hcs⟩) rest, rfl⟩

/-- A natural number is nothing, a zero, or digits that start with another. -/
theorem naturalPart_cases (source : List Char) :
    naturalPart source = [] ∨ (∃ rest, source = '0' :: rest ∧ naturalPart source = ['0']) ∨
      ∃ c rest, source = c :: rest ∧ c ≠ '0' ∧ c.isDigit = true ∧
        naturalPart source = c :: digits rest := by
  cases source with
  | nil => exact .inl rfl
  | cons c rest =>
    simp only [naturalPart]
    split
    · rename_i h
      exact .inr (.inl ⟨rest, by rw [h], rfl⟩)
    · rename_i h
      split
      · rename_i hd
        exact .inr (.inr ⟨c, rest, rfl, h, hd, rfl⟩)
      · exact .inl rfl

theorem naturalPart_append (source : List Char) : ∃ rest, source = naturalPart source ++ rest := by
  obtain h | ⟨rest, rfl, h⟩ | ⟨c, rest, rfl, -, -, h⟩ := naturalPart_cases source <;> rw [h]
  · exact ⟨source, rfl⟩
  · exact ⟨rest, rfl⟩
  · exact ⟨rest.dropWhile Char.isDigit, by rw [List.cons_append, digits_append]⟩

theorem naturalPart_mem {source : List Char} (hne : naturalPart source ≠ []) :
    naturalPart source ∈ LexicalText.natural := by
  obtain h | ⟨s, rfl, h⟩ | ⟨c, s, rfl, hc, hd, h⟩ := naturalPart_cases source
  · exact absurd h hne
  · exact .inl h
  · rw [h]
    exact .inr (LexicalText.cons_mem_oneOf_mul (by simp [hd, hc])
      (LexicalText.mem_star_oneOf.2 fun _ => isDigit_of_mem_digits))

theorem isDigit_of_naturalPart {source : List Char} {c : Char} {cs : List Char}
    (h : naturalPart source = c :: cs) : c.isDigit = true := by
  obtain h' | ⟨s, rfl, h'⟩ | ⟨d, s, rfl, -, hd, h'⟩ := naturalPart_cases source <;>
    rw [h'] at h <;> cases h
  · rfl
  · exact hd

theorem naturalPart_of_noneFirst {source : List Char} (h : NoneFirst Char.isDigit source) :
    naturalPart source = [] := by
  obtain h' | ⟨s, rfl, -⟩ | ⟨c, s, rfl, -, hd, -⟩ := naturalPart_cases source
  · exact h'
  · cases noneFirst_cons.1 h
  · rw [noneFirst_cons, hd] at h
    cases h

/-- A natural number at the start is found, and perhaps further digits. -/
theorem naturalPart_append_of_mem {w : List Char} (h : w ∈ LexicalText.natural)
    (rest : List Char) : ∃ more, naturalPart (w ++ rest) = w ++ more ∧
      (more = [] ∨ more = digits rest) := by
  obtain rfl | ⟨c, cs, hc, hcs, rfl⟩ := LexicalText.mem_natural.1 h
  · exact ⟨[], rfl, .inl rfl⟩
  · refine ⟨digits rest, ?_, .inr rfl⟩
    simp only [List.cons_append, naturalPart, hc, if_true, if_false]
    rw [digits_append_of_forall hcs]

theorem integerPart?_minus (rest : List Char) :
    integerPart? ('-' :: rest) =
      if naturalPart rest = [] then none else some ('-' :: naturalPart rest) := by
  simp only [integerPart?]
  split <;> rename_i h
  · rw [if_pos h]
  · rw [if_neg h]

theorem integerPart?_of_ne {source : List Char} (h : source.head? ≠ some '-') :
    integerPart? source =
      if naturalPart source = [] then none else some (naturalPart source) := by
  unfold integerPart?
  split
  · simp at h
  · split <;> rename_i h
    · rw [if_pos h]
    · rw [if_neg h]

/-- An integer part is a minus sign or nothing, and then a natural number. -/
theorem integerPart?_eq_some {source i : List Char} (h : integerPart? source = some i) :
    (∃ rest, source = '-' :: rest ∧ naturalPart rest ≠ [] ∧ i = '-' :: naturalPart rest) ∨
      (source.head? ≠ some '-' ∧ naturalPart source ≠ [] ∧ i = naturalPart source) := by
  by_cases hs : source.head? = some '-'
  · obtain ⟨rest, rfl⟩ : ∃ rest, source = '-' :: rest := by
      cases source with
      | nil => cases hs
      | cons c cs => exact ⟨cs, by cases hs; rfl⟩
    rw [integerPart?_minus] at h
    split at h
    · cases h
    · rename_i hne
      cases h
      exact .inl ⟨rest, rfl, hne, rfl⟩
  · rw [integerPart?_of_ne hs] at h
    split at h
    · cases h
    · rename_i hne
      cases h
      exact .inr ⟨hs, hne, rfl⟩

theorem integerPart?_append {source i : List Char} (h : integerPart? source = some i) :
    ∃ rest, source = i ++ rest := by
  obtain ⟨rest, rfl, -, rfl⟩ | ⟨-, -, rfl⟩ := integerPart?_eq_some h
  · obtain ⟨rest', h⟩ := naturalPart_append rest
    exact ⟨rest', by rw [List.cons_append, ← h]⟩
  · exact naturalPart_append source

theorem integerPart?_mem {source i : List Char} (h : integerPart? source = some i) :
    i ∈ LexicalText.integer := by
  obtain ⟨rest, -, hne, rfl⟩ | ⟨-, hne, rfl⟩ := integerPart?_eq_some h
  · exact Language.mem_mul.2 ⟨['-'], .inr rfl, _, naturalPart_mem hne, rfl⟩
  · exact Language.mem_mul.2 ⟨[], .inl rfl, _, naturalPart_mem hne, rfl⟩

theorem integerPart?_append_of_mem {w : List Char} (h : w ∈ LexicalText.integer)
    (rest : List Char) : ∃ more, integerPart? (w ++ rest) = some (w ++ more) ∧
      (more = [] ∨ more = digits rest) := by
  obtain hn | ⟨n, hn, rfl⟩ := LexicalText.mem_integer.1 h
  · obtain ⟨more, heq, hmore⟩ := naturalPart_append_of_mem hn rest
    -- A natural number starts with a digit, so there is no minus sign to be taken for the sign.
    obtain ⟨c, cs, rfl, hc⟩ : ∃ c cs, w = c :: cs ∧ c.isDigit = true := by
      obtain rfl | ⟨c, cs, hc, -, rfl⟩ := LexicalText.mem_natural.1 hn
      · exact ⟨_, _, rfl, rfl⟩
      · exact ⟨_, _, rfl, hc.1⟩
    refine ⟨more, ?_, hmore⟩
    have hminus : (c :: cs ++ rest).head? ≠ some '-' := by
      rintro ⟨⟩
      exact Bool.noConfusion hc
    rw [integerPart?_of_ne hminus, heq, List.cons_append, if_neg (List.cons_ne_nil _ _)]
  · obtain ⟨more, heq, hmore⟩ := naturalPart_append_of_mem hn rest
    refine ⟨more, ?_, hmore⟩
    have hne : n ++ more ≠ [] := by
      obtain rfl | ⟨c, cs, -, -, rfl⟩ := LexicalText.mem_natural.1 hn <;>
        exact List.cons_ne_nil _ _
    rw [List.cons_append, integerPart?_minus, heq, if_neg hne]
    rfl

theorem integerPart?_again {source i rest : List Char} (h : integerPart? source = some i)
    (hr : NoneFirst Char.isDigit rest) : integerPart? (i ++ rest) = some i := by
  obtain ⟨more, heq, hmore⟩ := integerPart?_append_of_mem (integerPart?_mem h) rest
  rw [heq, hmore.elim id fun h => h.trans (digits_eq_nil hr), List.append_nil]

/-- A fraction is nothing, or a full stop and digits. -/
theorem fractionPart_cases (source : List Char) :
    fractionPart source = [] ∨
      ∃ rest, source = '.' :: rest ∧ digits rest ≠ [] ∧
        fractionPart source = '.' :: digits rest := by
  unfold fractionPart
  split
  · rename_i rest
    split
    · exact .inl rfl
    · rename_i h
      exact .inr ⟨rest, rfl, by simpa using h, rfl⟩
  · exact .inl rfl

theorem fractionPart_of_noneFirst {source : List Char} (h : NoneFirst (· == '.') source) :
    fractionPart source = [] := by
  rcases fractionPart_cases source with h' | ⟨rest, rfl, -, -⟩
  · exact h'
  · simp [noneFirst_cons] at h

theorem fractionPart_append (source : List Char) :
    ∃ rest, source = fractionPart source ++ rest := by
  rcases fractionPart_cases source with h | ⟨rest, rfl, -, h⟩ <;> rw [h]
  · exact ⟨source, rfl⟩
  · exact ⟨rest.dropWhile Char.isDigit, by rw [List.cons_append, digits_append]⟩

theorem fractionPart_mem {source : List Char} (h : fractionPart source ≠ []) :
    fractionPart source ∈ LexicalText.fraction := by
  rcases fractionPart_cases source with h' | ⟨rest, rfl, hne, h'⟩
  · exact absurd h' h
  · rw [h']
    exact Language.mem_mul.2 ⟨['.'], rfl, _, digits_mem hne, rfl⟩

theorem fractionPart_append_of_mem {w : List Char} (h : w ∈ LexicalText.fraction)
    (rest : List Char) : fractionPart (w ++ rest) = w ++ digits rest := by
  obtain ⟨ds, hds, rfl⟩ := LexicalText.mem_fraction.1 h
  obtain ⟨c, cs, heq, hcs⟩ := digits_append_of_mem hds rest
  simp only [List.cons_append, fractionPart, heq]
  rw [hcs]

theorem noneFirst_of_mem_fraction {p : Char → Bool} {w : List Char} (h : w ∈ LexicalText.fraction)
    (hp : p '.' = false) (rest : List Char) : NoneFirst p (w ++ rest) := by
  obtain ⟨ds, -, rfl⟩ := LexicalText.mem_fraction.1 h
  exact noneFirst_cons.2 hp

theorem fractionPart_again (source : List Char) {rest : List Char}
    (hd : NoneFirst Char.isDigit rest) (hs : NoneFirst (· == '.') rest) :
    fractionPart (fractionPart source ++ rest) = fractionPart source := by
  by_cases h : fractionPart source = []
  · rw [h, List.nil_append, fractionPart_of_noneFirst hs]
  · rw [fractionPart_append_of_mem (fractionPart_mem h), digits_eq_nil hd, List.append_nil]

theorem noneFirst_fractionPart {p : Char → Bool} (source : List Char) {rest : List Char}
    (hp : p '.' = false) (hr : NoneFirst p rest) : NoneFirst p (fractionPart source ++ rest) := by
  by_cases h : fractionPart source = []
  · rwa [h]
  · exact noneFirst_of_mem_fraction (fractionPart_mem h) hp rest

/-- Whether a character starts an exponent. -/
def isExponentLetter (c : Char) : Bool := c = 'e' || c = 'E'

/-- An exponent is nothing, or a letter, perhaps a sign, and digits. -/
theorem exponentPart_cases (source : List Char) :
    exponentPart source = [] ∨
      ∃ c rest, source = c :: rest ∧ isExponentLetter c = true ∧
        digits (rest.drop (signPart rest).length) ≠ [] ∧
        exponentPart source = c :: signPart rest ++ digits (rest.drop (signPart rest).length) := by
  cases source with
  | nil => exact .inl rfl
  | cons c rest =>
    simp only [exponentPart]
    split
    · rename_i hc
      split
      · exact .inl rfl
      · rename_i h
        exact .inr ⟨c, rest, rfl, by simpa [isExponentLetter] using hc, by simpa using h, rfl⟩
    · exact .inl rfl

theorem exponentPart_of_noneFirst {source : List Char} (h : NoneFirst isExponentLetter source) :
    exponentPart source = [] := by
  rcases exponentPart_cases source with h' | ⟨c, rest, rfl, hc, -, -⟩
  · exact h'
  · rw [noneFirst_cons, hc] at h
    cases h

theorem signPart_cases (source : List Char) :
    (signPart source = [] ∧ source.head? ≠ some '+' ∧ source.head? ≠ some '-') ∨
      ∃ c rest, source = c :: rest ∧ (c = '+' ∨ c = '-') ∧ signPart source = [c] := by
  unfold signPart
  split
  · exact .inr ⟨_, _, rfl, .inl rfl, rfl⟩
  · exact .inr ⟨_, _, rfl, .inr rfl, rfl⟩
  · rename_i h₁ h₂
    refine .inl ⟨rfl, ?_, ?_⟩ <;> intro h <;> rcases source with _ | ⟨c, cs⟩ <;> cases h
    · exact h₁ _ rfl
    · exact h₂ _ rfl

theorem signPart_of_isDigit {c : Char} (h : c.isDigit = true) (rest : List Char) :
    signPart (c :: rest) = [] := by
  obtain ⟨hs, -, -⟩ | ⟨d, _, hd, rfl | rfl, -⟩ := signPart_cases (c :: rest)
  · exact hs
  · cases hd
    cases h
  · cases hd
    cases h

theorem signPart_append (source : List Char) :
    signPart source ++ source.drop (signPart source).length = source := by
  obtain ⟨h, -, -⟩ | ⟨c, rest, rfl, -, h⟩ := signPart_cases source <;> rw [h] <;> rfl

theorem exponentPart_append (source : List Char) :
    ∃ rest, source = exponentPart source ++ rest := by
  obtain h | ⟨c, rest, rfl, -, -, h⟩ := exponentPart_cases source <;> rw [h]
  · exact ⟨source, rfl⟩
  · refine ⟨(rest.drop (signPart rest).length).dropWhile Char.isDigit, ?_⟩
    rw [List.cons_append, List.cons_append, List.append_assoc, digits_append, signPart_append]

theorem exponentPart_mem {source : List Char} (h : exponentPart source ≠ []) :
    exponentPart source ∈ LexicalText.exponent := by
  obtain h' | ⟨c, rest, rfl, hc, hne, h'⟩ := exponentPart_cases source
  · exact absurd h' h
  · rw [h']
    refine Language.append_mem_mul (LexicalText.cons_mem_oneOf_mul ?_ ?_) (digits_mem hne)
    · simpa [isExponentLetter] using hc
    · obtain ⟨hs, -, -⟩ | ⟨d, _, -, hd, hs⟩ := signPart_cases rest <;> rw [hs]
      · exact .inl rfl
      · exact .inr ⟨d, by simpa using hd, rfl⟩

theorem exponentPart_append_of_mem {w : List Char} (h : w ∈ LexicalText.exponent)
    (rest : List Char) : exponentPart (w ++ rest) = w ++ digits rest := by
  obtain ⟨c, v, hletter, hv, rfl⟩ := LexicalText.mem_exponent.1 h
  obtain hds | ⟨sign, ds, hsign, hds, rfl⟩ := hv
  · obtain ⟨d, cs, heq, hcs⟩ := digits_append_of_mem hds rest
    have hpart : signPart (v ++ rest) = [] := by
      obtain ⟨d, ds, hd, -, rfl⟩ := LexicalText.mem_digits.1 hds
      exact signPart_of_isDigit hd _
    simp only [List.cons_append, exponentPart, if_pos hletter, hpart, List.length_nil,
      List.drop_zero, heq, List.nil_append]
    rw [hcs]
  · obtain ⟨d, cs, heq, hcs⟩ := digits_append_of_mem hds rest
    have hpart : signPart (sign :: (ds ++ rest)) = [sign] := by
      rcases hsign with rfl | rfl <;> rfl
    simp only [List.cons_append, exponentPart, if_pos hletter, hpart, List.length_singleton,
      List.drop_one, List.tail_cons, heq, List.nil_append]
    rw [hcs]

theorem noneFirst_of_mem_exponent {p : Char → Bool} {w : List Char} (h : w ∈ LexicalText.exponent)
    (he : p 'e' = false) (hE : p 'E' = false) (rest : List Char) : NoneFirst p (w ++ rest) := by
  obtain ⟨c, v, rfl | rfl, -, rfl⟩ := LexicalText.mem_exponent.1 h
  · exact noneFirst_cons.2 he
  · exact noneFirst_cons.2 hE

theorem exponentPart_again (source : List Char) {rest : List Char}
    (hd : NoneFirst Char.isDigit rest) (he : NoneFirst isExponentLetter rest) :
    exponentPart (exponentPart source ++ rest) = exponentPart source := by
  by_cases h : exponentPart source = []
  · rw [h, List.nil_append, exponentPart_of_noneFirst he]
  · rw [exponentPart_append_of_mem (exponentPart_mem h), digits_eq_nil hd, List.append_nil]

theorem noneFirst_exponentPart {p : Char → Bool} (source : List Char) {rest : List Char}
    (he : p 'e' = false) (hE : p 'E' = false) (hr : NoneFirst p rest) :
    NoneFirst p (exponentPart source ++ rest) := by
  by_cases h : exponentPart source = []
  · rwa [h]
  · exact noneFirst_of_mem_exponent (exponentPart_mem h) he hE rest

/-! ### Whole numbers -/

/-- Whether a character can continue a number. -/
def continuesNumber (c : Char) : Bool := c.isDigit || c == '.' || isExponentLetter c

theorem NoneFirst.mono {p q : Char → Bool} (h : ∀ c, p c = true → q c = true) {cs : List Char}
    (hq : NoneFirst q cs) : NoneFirst p cs := by
  intro c hc
  by_contra hp
  have := h c (by simpa using hp)
  rw [hq c hc] at this
  exact Bool.noConfusion this

theorem numberParts?_eq_some {source : List Char} {n : NumberParts}
    (h : numberParts? source = some n) :
    integerPart? source = some n.integer ∧
      n.fraction = fractionPart (source.drop n.integer.length) ∧
      n.exponent = exponentPart ((source.drop n.integer.length).drop n.fraction.length) := by
  simp only [numberParts?, Option.bind_eq_bind, Option.bind_eq_some_iff, Option.pure_def,
    Option.some.injEq] at h
  obtain ⟨i, hi, rfl⟩ := h
  exact ⟨hi, rfl, rfl⟩

theorem exists_numberParts? {source i : List Char} (h : integerPart? source = some i) :
    ∃ n, numberParts? source = some n ∧ n.integer = i := by
  simp only [numberParts?, h, Option.bind_eq_bind, Option.bind_some, Option.pure_def]
  exact ⟨_, rfl, rfl⟩

/-- A number literal stands at the start of the text. -/
theorem numberParts?_append {source : List Char} {n : NumberParts}
    (h : numberParts? source = some n) : ∃ rest, source = n.text ++ rest := by
  obtain ⟨hi, hf, he⟩ := numberParts?_eq_some h
  obtain ⟨s, rfl⟩ := integerPart?_append hi
  rw [List.drop_left] at hf he
  obtain ⟨s', hs'⟩ := fractionPart_append s
  rw [← hf] at hs'
  subst hs'
  rw [List.drop_left] at he
  obtain ⟨s'', hs''⟩ := exponentPart_append s'
  rw [← he] at hs''
  exact ⟨s'', by rw [NumberParts.text, List.append_assoc, List.append_assoc, ← hs'']⟩

/-- A number literal is found again before anything that cannot continue it. -/
theorem numberParts?_again {source rest : List Char} {n : NumberParts}
    (h : numberParts? source = some n) (hr : NoneFirst continuesNumber rest) :
    numberParts? (n.text ++ rest) = some n := by
  obtain ⟨hi, hf, he⟩ := numberParts?_eq_some h
  have hdigit : NoneFirst Char.isDigit rest :=
    hr.mono fun c hc => by simp [continuesNumber, hc]
  have hdot : NoneFirst (· == '.') rest :=
    hr.mono fun c hc => by simp only [continuesNumber, hc, Bool.or_true, Bool.true_or]
  have hletter : NoneFirst isExponentLetter rest :=
    hr.mono fun c hc => by simp [continuesNumber, hc]
  -- Nor does a part take the first character of the next, a full stop or a letter.
  have hd₁ : NoneFirst Char.isDigit (n.exponent ++ rest) := by
    rw [he]
    exact noneFirst_exponentPart _ rfl rfl hdigit
  have hd₂ : NoneFirst Char.isDigit (n.fraction ++ (n.exponent ++ rest)) := by
    rw [hf]
    exact noneFirst_fractionPart _ rfl hd₁
  have hs : NoneFirst (· == '.') (n.exponent ++ rest) := by
    rw [he]
    exact noneFirst_exponentPart _ rfl rfl hdot
  have hfa : fractionPart (n.fraction ++ (n.exponent ++ rest)) = n.fraction := by
    rw [hf]
    exact fractionPart_again _ hd₁ hs
  have hea : exponentPart (n.exponent ++ rest) = n.exponent := by
    rw [he]
    exact exponentPart_again _ hdigit hletter
  have htext : n.text ++ rest = n.integer ++ (n.fraction ++ (n.exponent ++ rest)) := by
    simp [NumberParts.text]
  simp only [numberParts?, htext, integerPart?_again hi hd₂, Option.bind_eq_bind,
    Option.bind_some, List.drop_left, hfa, hea, Option.pure_def]

theorem numberParts?_ne_nil {source : List Char} {n : NumberParts}
    (h : numberParts? source = some n) : n.integer ≠ [] := by
  obtain ⟨_, -, -, hi⟩ | ⟨-, hne, hi⟩ := integerPart?_eq_some (numberParts?_eq_some h).1
  · rw [hi]
    exact List.cons_ne_nil _ _
  · rwa [hi]

/-- A number literal starts with a digit or a minus sign. -/
theorem numberParts?_first {source : List Char} {n : NumberParts}
    (h : numberParts? source = some n) :
    ∃ c rest, source = c :: rest ∧ (c.isDigit || c = '-') = true := by
  obtain ⟨rest, rfl, -, -⟩ | ⟨-, hne, -⟩ := integerPart?_eq_some (numberParts?_eq_some h).1
  · exact ⟨'-', rest, rfl, rfl⟩
  · obtain ⟨c, cs, hc⟩ := List.exists_cons_of_ne_nil hne
    obtain ⟨rest, hrest⟩ := naturalPart_append source
    rw [hc] at hrest
    exact ⟨c, cs ++ rest, hrest, by rw [isDigit_of_naturalPart hc, Bool.true_or]⟩

theorem numberParts?_minus {rest : List Char} (h : NoneFirst Char.isDigit rest) :
    numberParts? ('-' :: rest) = none := by
  simp [numberParts?, integerPart?_minus, naturalPart_of_noneFirst h]

theorem numberParts?_of_isDigit {c : Char} (h : c.isDigit = true) (rest : List Char) :
    numberParts? (c :: rest) ≠ none := by
  have hne : naturalPart (c :: rest) ≠ [] := by
    simp only [naturalPart, h, if_true]
    split <;> exact List.cons_ne_nil _ _
  have hi : integerPart? (c :: rest) = some (naturalPart (c :: rest)) := by
    rw [integerPart?_of_ne, if_neg hne]
    rintro ⟨⟩
    exact Bool.noConfusion h
  simp [numberParts?, hi]

theorem integer_of_numberParts {source : List Char} {n : NumberParts}
    (h : numberParts? source = some n) (hn : n.isInteger = true) :
    n.text ∈ LexicalText.integer := by
  simp only [NumberParts.isInteger, Bool.and_eq_true, List.isEmpty_iff] at hn
  rw [NumberParts.text, hn.1, hn.2, List.append_nil, List.append_nil]
  exact integerPart?_mem (numberParts?_eq_some h).1

theorem float_of_numberParts {source : List Char} {n : NumberParts}
    (h : numberParts? source = some n) (hn : n.isInteger = false) :
    n.text ∈ LexicalText.float := by
  obtain ⟨hi, hf, he⟩ := numberParts?_eq_some h
  rw [NumberParts.text, List.append_assoc]
  refine Language.append_mem_mul (integerPart?_mem hi) ?_
  by_cases hf' : n.fraction = []
  · have he' : n.exponent ≠ [] := by
      intro he'
      simp [NumberParts.isInteger, hf', he'] at hn
    rw [hf', List.nil_append]
    exact .inl (.inr (he ▸ exponentPart_mem (he ▸ he')))
  · by_cases he' : n.exponent = []
    · rw [he', List.append_nil]
      exact .inl (.inl (hf ▸ fractionPart_mem (hf ▸ hf')))
    · exact .inr (Language.append_mem_mul (hf ▸ fractionPart_mem (hf ▸ hf'))
        (he ▸ exponentPart_mem (he ▸ he')))

end GraphQL
