import GraphQL.Proofs.Parse.Spelling

/-!
# Ignored text does not matter

Parsing looks at the kinds and texts of the tokens of a source text (`tokenTexts`) and at nothing
else: the text of a token tells which lexeme it is (`lexemes_eq_of_tokenTexts`), and reading by the
grammar depends on the lexemes only (`readDocument_ok_congr`, `readDocument_error_congr`).  So texts
that differ in blanks, commas, line ends and comments alone are the same document or the same error
(`parseWith_eq_of_tokenTexts`), but for offsets and lines.
-/

namespace GraphQL

/-- The kinds and texts of the tokens of a source text, in order. -/
def tokenTexts (source : String) : List (TokenKind × String) :=
  (tokens source).map fun t => (t.kind, t.text)

theorem tokenTexts_eq_map_lexemes (source : String) :
    tokenTexts source = (lexemes source).map fun l => (l.kind, l.text) := by
  rw [tokenTexts, lexemes, List.map_map]
  rfl

/-- Genuine lexemes with the same texts are the same. -/
theorem Lexeme.eq_of_map_text {ls ls' : List Lexeme} (hl : ∀ l ∈ ls, l.Genuine)
    (hl' : ∀ l ∈ ls', l.Genuine) (h : ls.map Lexeme.text = ls'.map Lexeme.text) : ls = ls' := by
  induction ls generalizing ls' with
  | nil => exact (List.map_eq_nil_iff.1 h.symm).symm
  | cons l ls ih =>
    cases ls' with
    | nil => cases h
    | cons l' ls' =>
      rw [List.forall_mem_cons] at hl hl'
      simp only [List.map_cons, List.cons.injEq] at h
      rw [hl.1.ext hl'.1 h.1, ih hl.2 hl'.2 h.2]

theorem lexemes_eq_of_tokenTexts {s₁ s₂ : String} (h : tokenTexts s₁ = tokenTexts s₂) :
    lexemes s₁ = lexemes s₂ := by
  refine Lexeme.eq_of_map_text (fun _ => genuine_of_mem_lexemes)
    (fun _ => genuine_of_mem_lexemes) ?_
  have htexts := congrArg (List.map Prod.snd) h
  simpa [tokenTexts_eq_map_lexemes, Function.comp_def] using htexts

/-! ### Reading looks at lexemes only -/

/-- Tokens with the same lexemes are the same once moved to offset zero. -/
theorem map_relocate_toZero_congr {ts ts' : List Token}
    (h : ts.map Token.lexeme = ts'.map Token.lexeme) :
    ts.map (Token.relocate toZero) = ts'.map (Token.relocate toZero) := by
  rw [map_relocate_toZero, map_relocate_toZero, h]

theorem readDocument_ok_congr {b : Nat} {ts ts' : List Token} {d : Document}
    (h : ts.map Token.lexeme = ts'.map Token.lexeme) (hr : readDocument b ts = .ok d) :
    ∃ d', readDocument b ts' = .ok d' ∧ d'.origin = d.origin := by
  -- Both readings are the same reading of the tokens moved to offset zero.
  have hz := readDocument_toZero b ts
  rw [map_relocate_toZero_congr h, readDocument_toZero, hr] at hz
  rcases hr' : readDocument b ts' with e | d' <;> rw [hr'] at hz
  · cases hz
  · exact ⟨d', rfl, Except.ok.inj hz⟩

theorem readDocument_error_congr {b : Nat} {ts ts' : List Token} {e : Failure}
    (h : ts.map Token.lexeme = ts'.map Token.lexeme) (hr : readDocument b ts = .error e) :
    ∃ e', readDocument b ts' = .error e' ∧ e'.relocate toZero = e.relocate toZero := by
  have hz := readDocument_toZero b ts
  rw [map_relocate_toZero_congr h, readDocument_toZero, hr] at hz
  rcases hr' : readDocument b ts' with e' | d' <;> rw [hr'] at hz
  · exact ⟨e', rfl, Except.error.inj hz⟩
  · cases hz

/-! ### Errors but for their lines -/

/-- An error as if it were on line zero. -/
def ParseError.forgetLine : ParseError → ParseError
  | unexpectedToken expected found? _ => unexpectedToken expected found? 0
  | unknownPlace name _ => unknownPlace name 0
  | nestingTooDeep limit _ => nestingTooDeep limit 0
  | invalidUtf8 offset => invalidUtf8 offset

theorem Failure.head?_lexeme_relocate (f : Nat → Nat) (e : Failure) :
    (e.relocate f).rest.head?.map Token.lexeme = e.rest.head?.map Token.lexeme := by
  rcases e with ⟨o, _ | ⟨t, ts⟩⟩ <;> rfl

/-- Failures at the same lexeme are the same error, but for its line. -/
theorem forgetLine_errorAt_congr {s₁ s₂ : Session} {e₁ e₂ : Failure} (hb : s₁.budget = s₂.budget)
    (h : e₁.relocate toZero = e₂.relocate toZero) :
    (s₁.errorAt e₁).forgetLine = (s₂.errorAt e₂).forgetLine := by
  have hfound : e₁.rest.head?.map Token.lexeme = e₂.rest.head?.map Token.lexeme := by
    rw [← Failure.head?_lexeme_relocate toZero, h, Failure.head?_lexeme_relocate]
  have ho : (e₁.relocate toZero).obstacle = (e₂.relocate toZero).obstacle := by rw [h]
  unfold Session.errorAt
  rw [hfound, show e₁.obstacle = e₂.obstacle from ho]
  cases e₂.obstacle with
  | unexpected expected | unknownPlace => rfl
  | tooDeep => exact congrArg (ParseError.nestingTooDeep · 0) hb

theorem budget_eq_of_lexemes (options : ParseOptions) {s₁ s₂ : String}
    (h : lexemes s₁ = lexemes s₂) : options.budget s₁ = options.budget s₂ := by
  have hlen := congrArg List.length h
  simp only [lexemes, List.length_map] at hlen
  rw [ParseOptions.budget, ParseOptions.budget, hlen]

/-- **Ignored text does not matter.**  Source texts with the same tokens, by kind and text, are both
the same document, but for offsets, or both no document for the same reason, but for the line. -/
theorem parseWith_eq_of_tokenTexts {s₁ s₂ : String} (h : tokenTexts s₁ = tokenTexts s₂)
    (options : ParseOptions) :
    (∃ d₁ d₂, parseWith options s₁ = .ok d₁ ∧ parseWith options s₂ = .ok d₂ ∧
      d₁.origin = d₂.origin) ∨
    (∃ e₁ e₂, parseWith options s₁ = .error e₁ ∧ parseWith options s₂ = .error e₂ ∧
      e₁.forgetLine = e₂.forgetLine) := by
  have hl := lexemes_eq_of_tokenTexts h
  have hb := budget_eq_of_lexemes options hl
  rcases hr : readDocument (options.budget s₁) (tokens s₁) with f₁ | d₁
  · obtain ⟨f₂, hr₂, hf⟩ := readDocument_error_congr hl hr
    rw [hb] at hr₂
    exact .inr ⟨_, _, parseWith_eq_error.2 ⟨f₁, hr, rfl⟩, parseWith_eq_error.2 ⟨f₂, hr₂, rfl⟩,
      forgetLine_errorAt_congr hb hf.symm⟩
  · obtain ⟨d₂, hr₂, hd⟩ := readDocument_ok_congr hl hr
    rw [hb] at hr₂
    exact .inl ⟨d₁, d₂, parseWith_eq_ok.2 hr, parseWith_eq_ok.2 hr₂, hd.symm⟩

/-- A comment, a comma and a line end in place of a blank, with a maximum depth. -/
theorem parseWith_eq_of_tokenTexts_comment :
    (∃ d₁ d₂, parseWith ⟨some 2⟩ "\x7ba b\x7d" = .ok d₁ ∧
      parseWith ⟨some 2⟩ "\x7ba,#c\nb\x7d" = .ok d₂ ∧ d₁.origin = d₂.origin) ∨
    (∃ e₁ e₂, parseWith ⟨some 2⟩ "\x7ba b\x7d" = .error e₁ ∧
      parseWith ⟨some 2⟩ "\x7ba,#c\nb\x7d" = .error e₂ ∧ e₁.forgetLine = e₂.forgetLine) :=
  parseWith_eq_of_tokenTexts (by decide) ⟨some 2⟩

end GraphQL
