import GraphQL.Parse.Document
import GraphQL.Proofs.Grammar.Accepted
import GraphQL.Proofs.Lexical.Tokens
import GraphQL.Proofs.Reading.Kinds

/-!
# The documents that parse

A source text parses as a document if and only if its lexemes spell the document, and no other
(`lexemes_mem_spelling_of_parse`, `parse_of_lexemes`).
-/

namespace GraphQL

/-- The lexemes of a source text, in order. -/
def lexemes (source : String) : List Lexeme := (tokens source).map Token.lexeme

theorem genuine_of_mem_tokens {source : String} {t : Token} (h : t ∈ tokens source) :
    t.lexeme.Genuine :=
  (mem_tokens h).1

/-- The nesting budget for a source text. -/
def ParseOptions.budget (options : ParseOptions) (source : String) : Nat :=
  options.maxDepth?.getD ((tokens source).length + 1)

/-- More tokens do not make the nesting budget smaller. -/
theorem ParseOptions.budget_mono (options : ParseOptions) {source source' : String}
    (h : (tokens source).length ≤ (tokens source').length) :
    options.budget source ≤ options.budget source' := by
  obtain ⟨_ | limit⟩ := options
  · exact Nat.succ_le_succ h
  · exact Nat.le.refl

theorem parseWith_eq_ok {options : ParseOptions} {source : String} {d : Document} :
    parseWith options source = .ok d ↔
      readDocument (options.budget source) (tokens source) = .ok d := by
  unfold parseWith Session.parse
  change _ ↔ readDocument (Session.ofString source options).budget
    (Session.ofString source options).rest = _
  rcases readDocument (Session.ofString source options).budget
    (Session.ofString source options).rest with e | d' <;> simp

theorem parseWith_eq_error {options : ParseOptions} {source : String} {e : ParseError} :
    parseWith options source = .error e ↔
      ∃ failure, readDocument (options.budget source) (tokens source) = .error failure ∧
        (Session.ofString source options).errorAt failure = e := by
  unfold parseWith Session.parse
  change _ ↔ ∃ failure, readDocument (Session.ofString source options).budget
    (Session.ofString source options).rest = .error failure ∧ _
  rcases readDocument (Session.ofString source options).budget
    (Session.ofString source options).rest with e' | d' <;> simp

/-- What parses is spelled by the lexemes of the text, well formed, and within the limits. -/
theorem spelled_of_parseWith {options : ParseOptions} {source : String} {d : Document}
    (h : parseWith options source = .ok d) :
    lexemes source ∈ d.unambiguousSpelling ∧ d.WellFormed ∧ d.depth ≤ options.budget source :=
  spelled_of_readDocument (fun _ ht => genuine_of_mem_tokens ht) (parseWith_eq_ok.1 h)

/-- Every spelling of a document is one after all, whatever else it may stand for. -/
theorem Document.mem_spelling_of_unambiguous {d : Document} {w : List Lexeme}
    (h : w ∈ d.unambiguousSpelling) : w ∈ d.spelling := by
  obtain ⟨ds, start⟩ := d
  change w ∈ Spellings.each Definition.spelling ds
  replace h : w ∈ GraphQL.unambiguousSpelling ds := h
  induction ds generalizing w with
  | nil => exact h
  | cons d ds ih =>
    obtain ⟨u, hu, v, hv, rfl⟩ := h
    exact Language.append_mem_mul hu.1 (ih hv)

/-- **Soundness of parsing.**  If a source text parses as a document, all of its lexemes in order
spell the document, and all of them are lexemes of the language. -/
theorem lexemes_mem_spelling_of_parse {source : String} {d : Document}
    (h : parse source = .ok d) :
    lexemes source ∈ d.spelling ∧
      ∀ l ∈ lexemes source, l.kind ≠ .unknownCharacter ∧ l.kind ≠ .invalidString := by
  refine ⟨Document.mem_spelling_of_unambiguous (spelled_of_parseWith h).1, fun l hl => ?_⟩
  obtain ⟨t, ht, rfl⟩ := List.mem_map.1 hl
  exact isLexeme_of_derivesDocument (readDocument_eq_ok.1 (parseWith_eq_ok.1 h)).1 t ht

/-- An ampersand before the first interface, and none before the last. -/
theorem lexemes_mem_spelling_of_parse_interfaces :
    lexemes "type A implements&B C" ∈ Document.spelling ⟨[.type ⟨none, ⟨"A", [],
      .object [⟨"B", 18⟩, ⟨"C", 20⟩] none⟩, 0⟩], 0⟩ ∧
      ∀ l ∈ lexemes "type A implements&B C",
        l.kind ≠ .unknownCharacter ∧ l.kind ≠ .invalidString :=
  lexemes_mem_spelling_of_parse (by decide +kernel)

/-- **Completeness of parsing.**  If the lexemes of a source text spell a well-formed document, and
no definition without a block that it could go on with stands before an operation that is nothing
but a block, the text parses as this document, up to offsets. -/
theorem parse_of_lexemes {source : String} {d : Document} (hwf : d.WellFormed)
    (hs : lexemes source ∈ d.unambiguousSpelling) :
    ∃ d', parse source = .ok d' ∧ d'.origin = d.origin := by
  obtain ⟨d', hd', ho⟩ := readDocument_of_spelled hs hwf (le_max_left d.depth _)
  refine ⟨d', parseWith_eq_ok.2 ?_, ho⟩
  have hle := readDocument_of_le (le_max_right d.depth ((tokens source).length + 1))
    (readDocument_ne_tooDeep (Nat.lt_succ_self _))
  exact hle.symm.trans hd'

/-- A vertical bar before the only member. -/
theorem parse_of_lexemes_member :
    ∃ d', parse "union A=|B" = .ok d' ∧
      d'.origin = Document.origin ⟨[.type ⟨none, ⟨"A", [], .union [⟨"B", 0⟩]⟩, 0⟩], 0⟩ := by
  have hname : ∀ c, isNameStart c = true → [c] ∈ LexicalText.name := fun c hc =>
    LexicalText.cons_mem_oneOf_mul hc (LexicalText.mem_star_oneOf.2 (by simp))
  have hl : lexemes "union A=|B" = [.keyword .union, .ofName "A", .punctuator .equals,
      .punctuator .pipe, .ofName "B"] := rfl
  refine parse_of_lexemes ?_ ?_
  · rintro _ (_ | ⟨_, ⟨⟩⟩)
    refine ⟨hname 'A' rfl, (fun _ h => by cases h), ?_⟩
    rintro _ (_ | ⟨_, ⟨⟩⟩)
    exact hname 'B' rfl
  · rw [hl]
    exact ⟨_, ⟨⟨[], rfl, _, ⟨_, ⟨_, ⟨[.keyword .union], rfl, _, rfl, rfl⟩, [], rfl, rfl⟩, _,
      ⟨[.punctuator .equals], rfl, _, ⟨_, ⟨[.punctuator .pipe], .inr rfl, _, rfl, rfl⟩, [], rfl,
      rfl⟩, rfl⟩, rfl⟩, rfl⟩, fun _ _ h => by cases h⟩, [], rfl, rfl⟩

end GraphQL
