import GraphQL.Proofs.Lexical.Tokens
import GraphQL.Proofs.Reading.Lookahead
import GraphQL.Proofs.Tree.Relocation

/-!
# A lexeme of each kind

To show that some tokens can go on, lexemes of the kinds that can follow are needed:
`TokenKind.sample` is one for each kind.  The sample of a name is the name of a place for
directives, so it can stand wherever a name can.
-/

namespace GraphQL

/-- A lexeme of the kind. -/
def TokenKind.sample : TokenKind → Lexeme
  | punctuator p => .punctuator p
  | int => .int "0"
  | float => .float "0.0"
  | string => .string "\"\"" ""
  | name => .name "QUERY"
  | keyword k => .keyword k
  | unknownCharacter => .unknownCharacter '?'
  | invalidString => .invalidString "\"" .unterminated

@[simp] theorem TokenKind.kind_sample (k : TokenKind) : k.sample.kind = k := by cases k <;> rfl

/-- Samples of some kinds, as tokens at offset zero. -/
def samples (ks : List TokenKind) : List Token := ks.map fun k => k.sample.bare

@[simp] theorem samples_nil : samples [] = [] := rfl

@[simp] theorem samples_cons (k : TokenKind) (ks : List TokenKind) :
    samples (k :: ks) = k.sample.bare :: samples ks := rfl

@[simp] theorem samples_append (ks ks' : List TokenKind) :
    samples (ks ++ ks') = samples ks ++ samples ks' := List.map_append

@[simp] theorem TokenKind.kind_bare_sample (k : TokenKind) : k.sample.bare.kind = k :=
  k.kind_sample

theorem nextIs_samples (test : TokenKind → Bool) (k : TokenKind) (ks : List TokenKind) :
    Reader.nextIs test (samples (k :: ks)) = test k :=
  congrArg test k.kind_bare_sample

theorem lexemes_punctuators :
    (tokens "\x7b \x7d ( ) [ ] : $ @ ... = ! | &").map Token.lexeme =
      Punctuator.all.map Lexeme.punctuator := by
  decide

theorem lexemes_keywords :
    (tokens "on fragment true false null query mutation subscription schema").map Token.lexeme ++
      (tokens "scalar type extend implements interface union enum input directive
        repeatable").map Token.lexeme = Keyword.all.map Lexeme.keyword := by
  decide +kernel

theorem lexemes_literals :
    (tokens "0 0.0 \"\" QUERY").map Token.lexeme =
      [.int "0", .float "0.0", .string "\"\"" "", .name "QUERY"] := by
  decide

/-- The samples are lexemes, but for the two kinds of texts that are none. -/
theorem TokenKind.genuine_sample {k : TokenKind} (h : k.isLexicalError = false) :
    k.sample.Genuine := by
  have hliteral : ∀ l ∈ [Lexeme.int "0", .float "0.0", .string "\"\"" "", .name "QUERY"],
      l.Genuine := fun l hl => genuine_of_mem_lexemes (lexemes_literals ▸ hl)
  cases k with
  | punctuator p =>
    have hp : Lexeme.punctuator p ∈ Punctuator.all.map Lexeme.punctuator :=
      List.mem_map_of_mem (by cases p <;> decide)
    rw [← lexemes_punctuators] at hp
    exact genuine_of_mem_lexemes hp
  | keyword k =>
    have hk : Lexeme.keyword k ∈ Keyword.all.map Lexeme.keyword :=
      List.mem_map_of_mem (by cases k <;> decide)
    rw [← lexemes_keywords] at hk
    rcases List.mem_append.1 hk with hk | hk <;> exact genuine_of_mem_lexemes hk
  | int | float | string | name => exact hliteral _ (by simp [sample])
  | unknownCharacter | invalidString => cases h

end GraphQL
