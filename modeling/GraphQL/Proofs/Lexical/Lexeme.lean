import GraphQL.Lexical.Ignored
import GraphQL.Proofs.Lexical.Literal
import GraphQL.Proofs.Lexical.Number
import GraphQL.Proofs.Tree.WellFormed

/-!
# Lexemes and their text

A lexeme cut off a text stands at its start (`Lexeme.append_of_read`).  It is *genuine*
(`Lexeme.Genuine`): its own text reads as this lexeme again, alone or before a blank.  So the text
of a genuine lexeme tells all about it (`Lexeme.Genuine.ext`), and names and numbers have the text
of names and numbers.
-/

namespace GraphQL

/-! ### Texts of names and punctuators -/

theorem Keyword.text_of_ofName? {x : String} {k : Keyword} (h : Keyword.ofName? x = some k) :
    k.text = x := by
  unfold Keyword.ofName? at h
  split at h
  · rename_i hx
    cases h
    rw [← String.ofList_toList (s := x), hx]
    rfl
  · simp only [Option.filter_eq_some_iff, beq_iff_eq] at h
    exact h.2
  · cases h

theorem Lexeme.text_ofName (x : String) : (Lexeme.ofName x).text = x := by
  unfold ofName
  split
  · rename_i h
    exact Keyword.text_of_ofName? h
  · rfl

theorem Lexeme.ofName_text (k : Keyword) : Lexeme.ofName k.text = .keyword k := by
  cases k <;> decide

theorem Lexeme.ofName_of_forall_ne {x : String} (h : ∀ k : Keyword, k.text ≠ x) :
    Lexeme.ofName x = .name x := by
  unfold ofName
  split
  · rename_i k hk
    exact absurd (Keyword.text_of_ofName? hk) (h k)
  · rfl

theorem Keyword.text_injective : Function.Injective Keyword.text := by
  intro j k h
  have hl : Lexeme.keyword j = .keyword k := by
    rw [← Lexeme.ofName_text, h, Lexeme.ofName_text]
  cases hl
  rfl

theorem Lexeme.isNameLike_ofName (x : String) : (Lexeme.ofName x).kind.isNameLike = true := by
  unfold ofName
  split <;> rfl

theorem Lexeme.text_ofLiteral (text : String) (d : Except StringError String) :
    (Lexeme.ofLiteral text d).text = text := by
  cases d <;> rfl

theorem Lexeme.kind_ofLiteral (text : String) (d : Except StringError String) :
    (Lexeme.ofLiteral text d).kind = .string ∨ (Lexeme.ofLiteral text d).kind = .invalidString := by
  cases d
  · exact .inr rfl
  · exact .inl rfl

theorem Punctuator.text_of_ofChar? {c : Char} {p : Punctuator} (h : Punctuator.ofChar? c = some p) :
    p.text.toList = [c] := by
  unfold Punctuator.ofChar? at h
  split at h <;> cases h <;> rfl

/-! ### Cutting off a lexeme -/

/-- Whether a text is empty or starts with a blank. -/
def BlankFirst (cs : List Char) : Prop := ∀ c ∈ cs.head?, isBlank c = true

theorem BlankFirst.nil : BlankFirst [] := by simp [BlankFirst]

theorem BlankFirst.noneFirst {p : Char → Bool} {cs : List Char} (h : BlankFirst cs)
    (hp : ∀ c, isBlank c = true → p c = false) : NoneFirst p cs := fun c hc => hp c (h c hc)

theorem eq_of_isBlank {c : Char} (h : isBlank c = true) :
    c = ' ' ∨ c = '\t' ∨ c = '\n' ∨ c = '\r' ∨ c = ',' ∨ c = '\uFEFF' := by
  simpa [isBlank, or_assoc] using h

theorem isNamePart_of_isBlank {c : Char} (h : isBlank c = true) : isNamePart c = false := by
  rcases eq_of_isBlank h with rfl | rfl | rfl | rfl | rfl | rfl <;> decide

theorem continuesNumber_of_isBlank {c : Char} (h : isBlank c = true) :
    continuesNumber c = false := by
  rcases eq_of_isBlank h with rfl | rfl | rfl | rfl | rfl | rfl <;> decide

namespace Lexeme

/-- Whether a character alone starts no lexeme of the language. -/
def Stray (c : Char) : Prop :=
  isNameStart c = false ∧ c.isDigit = false ∧ c ≠ '"' ∧ Punctuator.ofChar? c = none

/-- The ways in which a lexeme is cut off a text, and what is left of the text. -/
inductive CutOff : List Char → Lexeme → List Char → Prop where
  /-- The longest name. -/
  | name {c : Char} {rest : List Char} (h : isNameStart c = true) :
    CutOff (c :: rest) (ofName (String.ofList (c :: rest.takeWhile isNamePart)))
      (rest.dropWhile isNamePart)
  /-- The longest number. -/
  | number {c : Char} {rest : List Char} {n : NumberParts} (hc : (c.isDigit || c = '-') = true)
    (h : numberParts? (c :: rest) = some n) :
    CutOff (c :: rest) (ofNumber n) ((c :: rest).drop n.text.length)
  /-- A string literal up to its closing triple quote. -/
  | block {rest content after : List Char} (h : splitBlock rest = some (content, after)) :
    CutOff ('"' :: '"' :: '"' :: rest) (ofBlock content) after
  /-- A string literal up to its closing quote. -/
  | quoted {rest content after : List Char} (hb : ∀ r, rest ≠ '"' :: '"' :: r)
    (h : splitQuoted rest = some (content, after)) : CutOff ('"' :: rest) (ofQuoted content) after
  /-- A string literal that does not end. -/
  | unterminated {source : List Char} (h : read source = some (ofUnterminated source, [])) :
    CutOff source (ofUnterminated source) []
  /-- Three full stops. -/
  | ellipsis {after : List Char} :
    CutOff ('.' :: '.' :: '.' :: after) (punctuator .ellipsis) after
  /-- A punctuator of one character. -/
  | single {c : Char} {p : Punctuator} {after : List Char} (hc : isNameStart c = false)
    (hd : (c.isDigit || c = '-') = false) (hs : c ≠ '"' ∧ c ≠ '.')
    (h : Punctuator.ofChar? c = some p) : CutOff (c :: after) (punctuator p) after
  /-- A character that starts nothing. -/
  | stray {c : Char} {after : List Char} (h : Stray c) :
    CutOff (c :: after) (unknownCharacter c) after

theorem readString_of_block {rest : List Char} :
    readString ('"' :: '"' :: '"' :: rest) =
      match splitBlock rest with
      | some (content, after) => (ofBlock content, after)
      | none => (ofUnterminated ('"' :: '"' :: '"' :: rest), []) := rfl

theorem readString_of_quoted {rest : List Char} (h : ∀ r, rest ≠ '"' :: '"' :: r) :
    readString ('"' :: rest) =
      match splitQuoted rest with
      | some (content, after) => (ofQuoted content, after)
      | none => (ofUnterminated ('"' :: rest), []) := by
  unfold readString
  split
  · rename_i r hr
    cases hr
    exact absurd rfl (h r)
  · rfl

theorem read_name {c : Char} (h : isNameStart c = true) (rest : List Char) :
    read (c :: rest) = some (ofName (String.ofList (c :: rest.takeWhile isNamePart)),
      rest.dropWhile isNamePart) := by
  simp [read, h]

theorem read_string (rest : List Char) : read ('"' :: rest) = some (readString ('"' :: rest)) := rfl

theorem isNameStart_of_isDigit {c : Char} (h : c.isDigit = true) : isNameStart c = false :=
  forall_isDigit (P := fun c => isNameStart c = false) (by decide) h

theorem read_number {c : Char} {rest : List Char} {n : NumberParts}
    (hc : (c.isDigit || c = '-') = true) (h : numberParts? (c :: rest) = some n) :
    read (c :: rest) = some (ofNumber n, (c :: rest).drop n.text.length) := by
  have hs : isNameStart c = false := by
    simp only [Bool.or_eq_true, decide_eq_true_eq] at hc
    rcases hc with hc | rfl
    · exact isNameStart_of_isDigit hc
    · rfl
  simp only [read, hs, hc, h, if_true, Bool.false_eq_true, if_false]

theorem cutOff_of_number {c : Char} {rest after : List Char} {l : Lexeme}
    (hd : (c.isDigit || c = '-') = true)
    (h : (match numberParts? (c :: rest) with
      | some parts => (ofNumber parts, (c :: rest).drop parts.text.length)
      | none => (unknownCharacter c, rest)) = (l, after)) : CutOff (c :: rest) l after := by
  split at h <;> rename_i hn <;> cases h
  · exact .number hd hn
  · -- A digit always starts a number, so that only a minus sign is left alone.
    simp only [Bool.or_eq_true, decide_eq_true_eq] at hd
    rcases hd with hd | rfl
    · exact absurd hn (numberParts?_of_isDigit hd _)
    · exact .stray ⟨rfl, rfl, by decide, rfl⟩

theorem cutOff_of_string {rest after : List Char} {l : Lexeme}
    (h : readString ('"' :: rest) = (l, after)) : CutOff ('"' :: rest) l after := by
  have hread : read ('"' :: rest) = some (l, after) := by rw [read_string, h]
  -- Three quotes open a block string, also where the first two could be an empty literal.
  by_cases hb : ∃ r, rest = '"' :: '"' :: r
  · obtain ⟨r, rfl⟩ := hb
    rw [readString_of_block] at h
    split at h <;> rename_i hb <;> cases h
    · exact .block hb
    · exact .unterminated hread
  · rw [readString_of_quoted fun r hr => hb ⟨r, hr⟩] at h
    split at h <;> rename_i hq <;> cases h
    · exact .quoted (fun r hr => hb ⟨r, hr⟩) hq
    · exact .unterminated hread

theorem cutOff_of_fullStop {rest after : List Char} {l : Lexeme}
    (h : (match rest with
      | '.' :: '.' :: after => (punctuator .ellipsis, after)
      | _ => (unknownCharacter '.', rest)) = (l, after)) : CutOff ('.' :: rest) l after := by
  split at h <;> cases h
  · exact .ellipsis
  · exact .stray ⟨rfl, rfl, by decide, rfl⟩

theorem cutOff_of_read {source after : List Char} {l : Lexeme}
    (h : read source = some (l, after)) : CutOff source l after := by
  rcases source with _ | ⟨c, rest⟩
  · cases h
  · simp only [read, Option.some.injEq] at h
    split at h
    · rename_i hc
      cases h
      exact .name hc
    rename_i hc
    rw [Bool.not_eq_true] at hc
    split at h
    · rename_i hd
      exact cutOff_of_number hd h
    rename_i hd
    rw [Bool.not_eq_true] at hd
    split at h
    · rename_i hs
      subst hs
      exact cutOff_of_string h
    rename_i hs
    split at h
    · rename_i hdot
      subst hdot
      exact cutOff_of_fullStop h
    rename_i hdot
    split at h <;> rename_i hp <;> cases h
    · exact .single hc hd ⟨hs, hdot⟩ hp
    · exact .stray ⟨hc, (Bool.or_eq_false_iff.1 hd).1, hs, hp⟩

theorem text_ofNumber (n : NumberParts) : (ofNumber n).text = String.ofList n.text := by
  unfold ofNumber
  split <;> rfl

theorem kind_ofNumber (n : NumberParts) :
    (n.isInteger = true ∧ ofNumber n = int (String.ofList n.text)) ∨
      (n.isInteger = false ∧ ofNumber n = float (String.ofList n.text)) := by
  unfold ofNumber
  split <;> rename_i h
  · exact .inl ⟨h, rfl⟩
  · exact .inr ⟨by simpa using h, rfl⟩

/-- A lexeme stands at the start of the text. -/
theorem CutOff.append {source after : List Char} {l : Lexeme} (h : CutOff source l after) :
    source = l.text.toList ++ after := by
  cases h with
  | name h => simp [text_ofName]
  | @number c rest n hc h =>
    obtain ⟨rest', hr⟩ := numberParts?_append h
    rw [text_ofNumber, String.toList_ofList, hr, List.drop_left]
  | block h =>
    rw [splitBlock_append h, ofBlock, text_ofLiteral, String.toList_ofList]
    simp
  | quoted hb h =>
    rw [splitQuoted_append h, ofQuoted, text_ofLiteral, String.toList_ofList]
    simp
  | unterminated h => simp [ofUnterminated, text]
  | ellipsis => rfl
  | single hc hd hs h => rw [text, Punctuator.text_of_ofChar? h, List.singleton_append]
  | stray h => simp [text]

/-! ### Cutting it off its own text -/

theorem read_number_again {source rest : List Char} {c : Char} {n : NumberParts}
    (hc : (c.isDigit || c = '-') = true) (h : numberParts? (c :: source) = some n)
    (hr : BlankFirst rest) : read (n.text ++ rest) = some (ofNumber n, rest) := by
  have hn := numberParts?_again h (hr.noneFirst fun _ => continuesNumber_of_isBlank)
  -- The text of the number starts with the character that the source starts with.
  obtain ⟨ds, hds⟩ : ∃ ds, n.text = c :: ds := by
    obtain ⟨source', hs⟩ := numberParts?_append h
    rcases ht : n.text with _ | ⟨d, ds⟩
    · exact absurd (List.append_eq_nil_iff.1 (List.append_eq_nil_iff.1 ht).1).1
        (numberParts?_ne_nil h)
    · rw [ht, List.cons_append, List.cons.injEq] at hs
      exact ⟨ds, by rw [hs.1]⟩
  rw [hds, List.cons_append] at hn ⊢
  rw [read_number hc hn, hds]
  simp

theorem read_block_again {source content after : List Char}
    (h : splitBlock source = some (content, after)) (rest : List Char) :
    read ('"' :: '"' :: '"' :: (content ++ '"' :: '"' :: '"' :: rest)) =
      some (ofBlock content, rest) := by
  rw [read_string, readString_of_block, splitBlock_again h rest]

theorem read_quoted_again {source content after rest : List Char}
    (h : splitQuoted source = some (content, after)) (hr : BlankFirst rest) :
    read ('"' :: (content ++ '"' :: rest)) = some (ofQuoted content, rest) := by
  rw [read_string, readString_of_quoted, splitQuoted_again h rest]
  -- The closing quote must not make three with what comes after, which is blank.
  intro r hcr
  rcases content with _ | ⟨c, content⟩
  · simp only [List.nil_append, List.cons.injEq, true_and] at hcr
    rw [hcr] at hr
    exact absurd (hr '"' rfl) (by decide)
  · simp only [List.cons_append, List.cons.injEq] at hcr
    rw [splitQuoted_append h, hcr.1] at h
    simp [splitQuoted] at h

/-- A minus sign and a full stop are stray only for what follows them; a blank changes nothing. -/
theorem read_stray_again {c : Char} {rest : List Char} (h : Stray c) (hr : BlankFirst rest) :
    read (c :: rest) = some (unknownCharacter c, rest) := by
  obtain ⟨hc, hd, hs, hp⟩ := h
  by_cases hm : c = '-'
  · subst hm
    have hn : NoneFirst Char.isDigit rest :=
      (hr.noneFirst fun _ => continuesNumber_of_isBlank).mono fun d hd => by
        simp [continuesNumber, hd]
    simp [read, numberParts?_minus hn, isNameStart]
  · simp only [read, hc, hd, hm, hs, hp, decide_false, Bool.or_false, Bool.false_eq_true, if_false]
    split
    · rename_i hdot
      subst hdot
      split
      · exact absurd (hr '.' rfl) (by decide)
      · rfl
    · rfl

/-- A lexeme is cut off its own text again, before a blank or at the end.  Only a string literal
that does not end would take the blank too. -/
theorem CutOff.again {source after : List Char} {l : Lexeme} (h : CutOff source l after)
    {rest : List Char} (hr : BlankFirst rest) (hl : rest = [] ∨ l.error? ≠ some .unterminated) :
    read (l.text.toList ++ rest) = some (l, rest) := by
  cases h with
  | @name c s hc =>
    have hall : ∀ x ∈ s.takeWhile isNamePart, isNamePart x = true :=
      fun x hx => List.mem_takeWhile_imp hx
    have hnone : NoneFirst isNamePart rest := hr.noneFirst fun _ => isNamePart_of_isBlank
    rw [text_ofName, String.toList_ofList, List.cons_append, read_name hc,
      takeWhile_append_stop hall hnone, dropWhile_append_stop hall hnone]
  | number hc h =>
    rw [text_ofNumber, String.toList_ofList]
    exact read_number_again hc h hr
  | @block s content _ h =>
    have htext : (ofBlock content).text.toList =
        '"' :: '"' :: '"' :: (content ++ ['"', '"', '"']) := by
      rw [ofBlock, text_ofLiteral, String.toList_ofList]
      rfl
    rw [htext]
    simpa using read_block_again h rest
  | @quoted s content _ hb h =>
    have htext : (ofQuoted content).text.toList = '"' :: (content ++ ['"']) := by
      rw [ofQuoted, text_ofLiteral, String.toList_ofList]
      rfl
    rw [htext]
    simpa using read_quoted_again h hr
  | unterminated h =>
    have hrest : rest = [] := by simpa [ofUnterminated, error?] using hl
    rw [hrest, List.append_nil, ofUnterminated, text, String.toList_ofList]
    exact h
  | ellipsis => rfl
  | single hc hd hs h =>
    rw [text, Punctuator.text_of_ofChar? h, List.singleton_append]
    simp [read, hc, hd, hs.1, hs.2, h]
  | stray h => simpa [text] using read_stray_again h hr

/-! ### Genuine lexemes -/

/-- A lexeme that can stand in a text: nothing ignored starts it, and its text reads as this
lexeme again, alone or before a blank. -/
structure Genuine (l : Lexeme) : Prop where
  /-- Its text reads as this lexeme. -/
  again : ∀ {rest : List Char}, BlankFirst rest → rest = [] ∨ l.error? ≠ some .unterminated →
    read (l.text.toList ++ rest) = some (l, rest)
  /-- Nothing ignored starts it. -/
  first : ∃ c cs, l.text.toList = c :: cs ∧ isBlank c = false ∧ c ≠ '#'

theorem CutOff.genuine {c : Char} {rest after : List Char} {l : Lexeme}
    (h : CutOff (c :: rest) l after) (hb : isBlank c = false) (hc : c ≠ '#') : l.Genuine where
  again := h.again
  first := by
    have hs := h.append
    rcases ht : l.text.toList with _ | ⟨d, cs⟩ <;> rw [ht] at hs
    · have hr : read (l.text.toList ++ []) = some (l, []) :=
        h.again .nil (.inl rfl)
      rw [ht] at hr
      cases hr
    · cases hs
      exact ⟨c, cs, rfl, hb, hc⟩

namespace Genuine

variable {l l' : Lexeme}

theorem cutOff (h : l.Genuine) : CutOff l.text.toList l [] := by
  have hr := h.again .nil (.inl rfl)
  rw [List.append_nil] at hr
  exact cutOff_of_read hr

/-- The text of a genuine lexeme tells what it is. -/
theorem ext (h : l.Genuine) (h' : l'.Genuine) (ht : l.text = l'.text) : l = l' := by
  have hr : read (l.text.toList ++ []) = some (l, []) := h.again .nil (.inl rfl)
  have hr' : read (l'.text.toList ++ []) = some (l', []) :=
    h'.again .nil (.inl rfl)
  rw [ht, hr'] at hr
  cases hr
  rfl

/-- What a name stands for is told by its text. -/
theorem eq_ofName (h : l.Genuine) (hk : l.kind.isNameLike = true) :
    l = ofName l.text ∧ ValidName l.text := by
  have hc := h.cutOff
  generalize hs : l.text.toList = source at hc
  generalize hn : ([] : List Char) = after at hc
  cases hc with
  | @name c rest hc =>
    have hall : ∀ x ∈ rest, isNamePart x = true := List.dropWhile_eq_nil_iff.1 hn.symm
    have hrest : rest.takeWhile isNamePart = rest := List.takeWhile_eq_self_iff.2 hall
    rw [text_ofName]
    refine ⟨rfl, ?_⟩
    rw [ValidName, String.toList_ofList, hrest]
    exact LexicalText.cons_mem_oneOf_mul hc (LexicalText.mem_star_oneOf.2 hall)
  | @number _ _ n _ _ =>
    rcases kind_ofNumber n with ⟨-, h⟩ | ⟨-, h⟩ <;> rw [h] at hk <;> cases hk
  | block _ | quoted _ _ =>
    rcases kind_ofLiteral _ _ with h | h <;> exact absurd ((congrArg _ h).symm.trans hk) (by decide)
  | unterminated _ | ellipsis | single _ _ _ _ | stray _ => cases hk

/-- The text of a number is one of the grammar. -/
theorem number_text (h : l.Genuine) :
    (l.kind = .int → l.text.toList ∈ LexicalText.integer) ∧
      (l.kind = .float → l.text.toList ∈ LexicalText.float) := by
  have hc := h.cutOff
  generalize hs : l.text.toList = source at hc
  generalize hn : ([] : List Char) = after at hc
  cases hc with
  | @number c rest n hc hp =>
    rw [text_ofNumber, String.toList_ofList] at hs
    rw [← hs]
    rcases kind_ofNumber n with ⟨hi, hk⟩ | ⟨hi, hk⟩ <;> rw [hk]
    · exact ⟨fun _ => integer_of_numberParts hp hi, fun h => nomatch h⟩
    · exact ⟨(fun h => nomatch h), fun _ => float_of_numberParts hp hi⟩
  | name hc =>
    unfold ofName
    split <;> exact ⟨(fun h => nomatch h), fun h => nomatch h⟩
  | block _ | quoted _ _ =>
    rcases kind_ofLiteral _ _ with h | h <;>
      exact ⟨fun hk => absurd (h.symm.trans hk) (by decide),
        fun hk => absurd (h.symm.trans hk) (by decide)⟩
  | unterminated _ | ellipsis | single _ _ _ _ | stray _ =>
    exact ⟨(fun h => nomatch h), fun h => nomatch h⟩

/-- The text of a string literal starts with a quote. -/
theorem string_text (h : l.Genuine) (hk : l.kind = .string) :
    l.text.toList.head? = some '"' := by
  have hc := h.cutOff
  generalize hs : l.text.toList = source at hc ⊢
  generalize hn : ([] : List Char) = after at hc
  cases hc with
  | block _ | quoted _ _ => rfl
  | name _ =>
    unfold ofName at hk
    split at hk <;> cases hk
  | @number _ _ n _ _ =>
    rcases kind_ofNumber n with ⟨-, h⟩ | ⟨-, h⟩ <;> rw [h] at hk <;> cases hk
  | unterminated _ | ellipsis | single _ _ _ _ | stray _ => cases hk

end Genuine

end Lexeme

end GraphQL
