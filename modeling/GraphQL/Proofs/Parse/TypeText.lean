import GraphQL.Proofs.Grammar.Positions
import GraphQL.Proofs.Lexical.Concatenation
import GraphQL.Proofs.Parse.Spelling
import Mathlib.Data.List.Infix

/-!
# The text of a type

A type is written without blanks by `TypeRef.text`.  This text is exact (`typeText_exact`): where a
type is expected, it parses as the type, and a type that has been parsed has the text of the very
tokens that spell it.

The one half is about the lexemes of the text (`TypeRef.WellFormed.lexemesAt`), by induction on the
type: a bracket or an exclamation mark ends a name before it.  The other is about documents: that
each type inside is spelled by tokens in a row is a layout (`TypesSpelled`), and so it holds of all
that the grammar derives.
-/

namespace GraphQL

open Language (append_mem_mul)
open Spellings

/-! ### Lexemes one by one -/

/-- The lexemes of a text, in order. -/
def lexemesAt (source : List Char) : List Lexeme := (Cursor.tokens ⟨0, source⟩).map Token.lexeme

theorem Cursor.map_lexeme_tokens (offset : Nat) (source : List Char) :
    (tokens ⟨offset, source⟩).map Token.lexeme = lexemesAt source := by
  have h := tokens_add 0 offset source
  rw [Nat.zero_add] at h
  rw [h, List.map_map]
  rfl

theorem lexemesAt_of_gap {gap here : List Char} (h : Gap gap here) :
    lexemesAt (gap ++ here) = lexemesAt here := by
  have hscans := (Cursor.scans_tokens ⟨0 + byteLength gap, here⟩).prepend h
  rw [lexemesAt, hscans.tokens, Cursor.map_lexeme_tokens]

theorem lexemesAt_cons {here after : List Char} {l : Lexeme} (hs : ¬ StartsIgnored here)
    (h : Lexeme.read here = some (l, after)) : lexemesAt here = l :: lexemesAt after := by
  have hscans := @Scans.token 0 [] _ _ _ _ .nil hs (Lexeme.read_eq_some_iff.1 h)
    (Cursor.scans_tokens ⟨_, after⟩)
  rw [List.nil_append] at hscans
  rw [lexemesAt, hscans.tokens, List.map_cons, Cursor.map_lexeme_tokens]

theorem ValidName.of_toList {x : String} {c : Char} {cs : List Char} (hx : x.toList = c :: cs)
    (hc : isNameStart c) (hcs : cs.all isNamePart) : ValidName x :=
  LexicalText.mem_name.2 ⟨c, cs, hc, List.all_eq_true.1 hcs, hx⟩

theorem not_startsIgnored_of_isNameStart {c : Char} (hc : isNameStart c = true)
    (rest : List Char) : ¬ StartsIgnored (c :: rest) := by
  rw [startsIgnored_cons]
  rintro (hblank | rfl)
  · rcases eq_of_isBlank hblank with rfl | rfl | rfl | rfl | rfl | rfl <;>
      exact absurd hc (by decide)
  · exact absurd hc (by decide)

/-- A name is read where no character that could be part of it comes after it. -/
theorem ValidName.lexemesAt {x : String} (hx : ValidName x) {rest : List Char}
    (hrest : NoneFirst isNamePart rest) :
    lexemesAt (x.toList ++ rest) = Lexeme.ofName x :: lexemesAt rest := by
  obtain ⟨c, cs, hc, hcs, heq⟩ := LexicalText.mem_name.1 hx
  have hname : x = String.ofList (c :: cs) := by rw [← heq, String.ofList_toList]
  rw [heq, hname]
  refine lexemesAt_cons (not_startsIgnored_of_isNameStart hc _) ?_
  rw [List.cons_append, Lexeme.read_name hc, takeWhile_append_stop hcs hrest,
    dropWhile_append_stop hcs hrest]

theorem lexemesAt_punctuator (p : Punctuator) (rest : List Char) :
    lexemesAt (p.text.toList ++ rest) = .punctuator p :: lexemesAt rest := by
  refine lexemesAt_cons ?_ (Lexes.punctuator (p := p)).read
  cases p <;> simp [Punctuator.text, startsIgnored_cons, isBlank]

/-- The text of a type, before what cannot be part of a name, has lexemes that spell the type. -/
theorem TypeRef.WellFormed.exists_lexemesAt {t : TypeRef} (ht : t.WellFormed) {rest : List Char}
    (hrest : NoneFirst isNamePart rest) :
    ∃ ws ∈ t.spelling, lexemesAt (t.text.toList ++ rest) = ws ++ lexemesAt rest := by
  induction t generalizing rest with
  | named t =>
    refine ⟨[.ofName t.name], rfl, ?_⟩
    rw [TypeRef.text, ValidName.lexemesAt ht hrest]
    rfl
  | list item start ih =>
    obtain ⟨ws, hws, hitem⟩ := ih ht (noneFirst_cons.2 (by decide : isNamePart ']' = false))
    refine ⟨[.punctuator .bracketOpen] ++ ws ++ [.punctuator .bracketClose],
      append_mem_mul (append_mem_mul (mem_punct _) hws) (mem_punct _), ?_⟩
    calc lexemesAt ((TypeRef.list item start).text.toList ++ rest)
        = lexemesAt (Punctuator.bracketOpen.text.toList ++ (item.text.toList ++ ']' :: rest)) := by
          simp [TypeRef.text, Punctuator.text]
      _ = .punctuator .bracketOpen :: (ws ++ lexemesAt (']' :: rest)) := by
          rw [lexemesAt_punctuator, hitem]
      _ = [.punctuator .bracketOpen] ++ ws ++ [.punctuator .bracketClose] ++ lexemesAt rest := by
          rw [show ']' :: rest = Punctuator.bracketClose.text.toList ++ rest from rfl,
            lexemesAt_punctuator]
          simp
  | nonNull inner start ih =>
    obtain ⟨ws, hws, hinner⟩ := ih ht.1 (noneFirst_cons.2 (by decide : isNamePart '!' = false))
    refine ⟨ws ++ [.punctuator .bang], append_mem_mul hws (mem_punct _), ?_⟩
    calc lexemesAt ((TypeRef.nonNull inner start).text.toList ++ rest)
        = lexemesAt (inner.text.toList ++ ('!' :: rest)) := by simp [TypeRef.text]
      _ = ws ++ lexemesAt (Punctuator.bang.text.toList ++ rest) := hinner
      _ = ws ++ [.punctuator .bang] ++ lexemesAt rest := by rw [lexemesAt_punctuator]; simp

/-! ### A type in an operation -/

/-- The definition of a variable of a given type. -/
def TypeRef.variableDefinition (t : TypeRef) : VariableDefinition := ⟨⟨"v", 0⟩, t, none, [], 0⟩

/-- An operation with a variable of a given type, and nothing else but a field. -/
def TypeRef.declaration (t : TypeRef) : Document :=
  ⟨[.operation ⟨.query, false, none, [t.variableDefinition], [],
    [.field ⟨none, "f", [], [], none, 0⟩], 0⟩], 0⟩

/-- The lexemes of such an operation, from those of the type. -/
def declarationLexemes (ws : List Lexeme) : List Lexeme :=
  .keyword .query :: .punctuator .parenOpen :: .punctuator .dollar :: .ofName "v" ::
    .punctuator .colon :: (ws ++ [.punctuator .parenClose, .punctuator .braceOpen, .ofName "f",
      .punctuator .braceClose])

theorem TypeRef.WellFormed.exists_lexemes {t : TypeRef} (ht : t.WellFormed) :
    ∃ ws ∈ t.spelling,
      lexemes ("query ($v: " ++ t.text ++ ") \x7b f \x7d") = declarationLexemes ws := by
  have hquery : ValidName "query" := .of_toList rfl rfl rfl
  have hv : ValidName "v" := .of_toList rfl rfl rfl
  have hparen : NoneFirst isNamePart ") \x7b f \x7d".toList := by simp [NoneFirst, isNamePart]
  obtain ⟨ws, hws, htype⟩ := ht.exists_lexemesAt hparen
  refine ⟨ws, hws, ?_⟩
  have hend : lexemesAt ") \x7b f \x7d".toList = [.punctuator .parenClose, .punctuator .braceOpen,
      .ofName "f", .punctuator .braceClose] := rfl
  have hblank (rest : List Char) : lexemesAt (' ' :: rest) = lexemesAt rest :=
    lexemesAt_of_gap (.blank rfl .nil : Gap [' '] rest)
  have hcolon (rest : List Char) : NoneFirst isNamePart (Punctuator.colon.text.toList ++ rest) := by
    simp [NoneFirst, isNamePart, Punctuator.text]
  have hkeyword : Lexeme.ofName "query" = .keyword .query := Lexeme.ofName_text .query
  calc lexemes ("query ($v: " ++ t.text ++ ") \x7b f \x7d")
      = lexemesAt ("query".toList ++ ' ' :: (Punctuator.parenOpen.text.toList ++
          (Punctuator.dollar.text.toList ++ ("v".toList ++ (Punctuator.colon.text.toList ++
            ' ' :: (t.text.toList ++ ") \x7b f \x7d".toList)))))) := by
        simp [lexemes, lexemesAt, tokens, Cursor.ofString, Punctuator.text]
    _ = Lexeme.ofName "query" :: .punctuator .parenOpen :: .punctuator .dollar :: .ofName "v" ::
          .punctuator .colon :: lexemesAt (t.text.toList ++ ") \x7b f \x7d".toList) := by
        rw [hquery.lexemesAt (noneFirst_cons.2 (by decide)), hblank, lexemesAt_punctuator,
          lexemesAt_punctuator, hv.lexemesAt (hcolon _), lexemesAt_punctuator, hblank]
    _ = declarationLexemes ws := by rw [htype, hend, hkeyword, declarationLexemes]

theorem TypeRef.mem_spelling_variableDefinition {t : TypeRef} {ws : List Lexeme}
    (h : ws ∈ t.spelling) :
    .punctuator .dollar :: .ofName "v" :: .punctuator .colon :: ws ∈
      t.variableDefinition.spelling := by
  have hv := append_mem_mul (append_mem_mul (append_mem_mul (mem_punct .dollar)
    (mem_named "v")) (mem_punct .colon)) h
  simpa [VariableDefinition.spelling, variableDefinition, Variable.spelling, defaultSpelling,
    part, each] using hv

theorem TypeRef.mem_unambiguousSpelling {t : TypeRef} {ws : List Lexeme} (h : ws ∈ t.spelling) :
    declarationLexemes ws ∈ t.declaration.unambiguousSpelling := by
  have hvariables : _ ∈ parenthesized VariableDefinition.spelling [t.variableDefinition] :=
    .inr (append_mem_mul (append_mem_mul (mem_punct .parenOpen) (append_mem_mul
      (mem_spelling_variableDefinition h) Language.nil_mem_one)) (mem_punct .parenClose))
  have hbefore := append_mem_mul (append_mem_mul (append_mem_mul (mem_keyword .query)
    (Language.nil_mem_one : [] ∈ part Spellings.named none)) hvariables)
    (Language.nil_mem_one : [] ∈ each Directive.spelling [])
  have hfield : [Lexeme.ofName "f"] ∈ Selection.spelling (.field ⟨none, "f", [], [], none, 0⟩) := by
    have hnone : ([] : List Lexeme) ∈ parenthesized NamedValue.spelling [] :=
      .inl (by rw [if_pos rfl]; exact Language.nil_mem_one)
    have hf := append_mem_mul (mem_named "f") hnone
    simpa [Selection.spelling_field, aliasSpelling, part, each] using hf
  have hselections : _ ∈ selectionSetSpelling [.field ⟨none, "f", [], [], none, 0⟩] :=
    append_mem_mul (append_mem_mul (mem_punct .braceOpen) (append_mem_mul hfield
      Language.nil_mem_one)) (mem_punct .braceClose)
  have hoperation : _ ∈ Operation.spelling
      ⟨.query, false, none, [t.variableDefinition], [], [.field ⟨none, "f", [], [], none, 0⟩], 0⟩ :=
    Operation.mem_spelling.2 (.inr ⟨rfl, append_mem_mul hbefore hselections⟩)
  refine ⟨_, ⟨hoperation, fun h => h.elim⟩, [], rfl, ?_⟩
  simp [declarationLexemes]

theorem TypeRef.WellFormed.declaration {t : TypeRef} (ht : t.WellFormed) :
    t.declaration.WellFormed := by
  have hv : ValidName "v" := .of_toList rfl rfl rfl
  have hf : ValidName "f" := .of_toList rfl rfl rfl
  have hdefinition : t.variableDefinition.WellFormed := by
    simpa [VariableDefinition.WellFormed, variableDefinition] using ⟨hv, ht⟩
  rintro _ (_ | ⟨_, ⟨⟩⟩)
  refine ⟨nofun, nofun, by simpa using hdefinition, nofun, ?_⟩
  simpa [Selection.wellFormed_field] using hf

/-- An operation with a variable of a given type parses, up to offsets. -/
theorem TypeRef.WellFormed.exists_parse {t : TypeRef} (ht : t.WellFormed) :
    ∃ d, parse ("query ($v: " ++ t.text ++ ") \x7b f \x7d") = .ok d ∧
      d.origin = t.declaration.origin := by
  obtain ⟨ws, hws, hlexemes⟩ := ht.exists_lexemes
  have hs := TypeRef.mem_unambiguousSpelling hws
  rw [← hlexemes] at hs
  obtain ⟨d, hd, ho⟩ :=
    readDocument_of_spelled hs ht.declaration (le_max_left t.declaration.depth _)
  refine ⟨d, parseWith_eq_ok.2 ?_, ho⟩
  exact (readDocument_of_le (le_max_right t.declaration.depth _)
    (readDocument_ne_tooDeep (Nat.lt_succ_self _))).symm.trans hd

/-- The only variable of an operation, in a document that is one up to offsets. -/
theorem TypeRef.exists_variableDefinition {t : TypeRef} {d : Document}
    (h : d.origin = t.declaration.origin) : ∃ o v, d.definitions = [.operation o] ∧
      o.variableDefinitions = [v] ∧ v.type.relocate toZero = t.relocate toZero := by
  obtain ⟨x, hx, hrelocated⟩ := List.map_eq_singleton_iff.1 (congrArg Document.definitions h)
  cases x with
  | operation o =>
    have hvars := congrArg Operation.variableDefinitions (Definition.operation.inj hrelocated)
    obtain ⟨v, hv, htype⟩ := List.map_eq_singleton_iff.1 hvars
    exact ⟨o, v, hx, hv, congrArg VariableDefinition.type htype⟩
  | _ => cases hrelocated

/-! ### The types in a document -/

/-- Each type inside some nodes is spelled by tokens in a row. -/
def TypesSpelled (ns : List Node) (w : List Token) : Prop :=
  ∀ n ∈ ns, ∀ t, Node.typeRef t ∈ n.enumerate → ∃ u, u <:+: w ∧ t.SpelledBy u

theorem TypesSpelled.mono {ns : List Node} {u w : List Token} (h : TypesSpelled ns u)
    (hu : u <:+: w) : TypesSpelled ns w := by
  intro n hn t ht
  obtain ⟨v, hv, hspelled⟩ := h n hn t ht
  exact ⟨v, hv.trans hu, hspelled⟩

theorem typesSpelled_singleton {n : Node} {w : List Token} : TypesSpelled [n] w ↔
    (∀ t, n = .typeRef t → ∃ u, u <:+: w ∧ t.SpelledBy u) ∧ TypesSpelled n.children w := by
  constructor
  · intro h
    refine ⟨?_, fun c hc t ht =>
      h n List.mem_cons_self t (Node.mem_enumerate_iff.2 (.inr ⟨c, hc, ht⟩))⟩
    rintro t rfl
    exact h _ List.mem_cons_self t (Node.mem_enumerate_self _)
  · rintro ⟨hself, hchildren⟩ _ (_ | ⟨_, ⟨⟩⟩) t ht
    obtain heq | ⟨c, hc, ht⟩ := Node.mem_enumerate_iff.1 ht
    · exact hself t heq.symm
    · exact hchildren c hc t ht

theorem TypeRef.SpelledBy.typesSpelled {t : TypeRef} {w : List Token} (h : t.SpelledBy w) :
    TypesSpelled [.typeRef t] w := by
  have hself {t : TypeRef} {w : List Token} (h : t.SpelledBy w) (t' : TypeRef)
      (ht : Node.typeRef t = .typeRef t') : ∃ u, u <:+: w ∧ t'.SpelledBy u := by
    cases ht
    exact ⟨w, List.infix_rfl, h⟩
  induction h with
  | named h => exact typesSpelled_singleton.2 ⟨hself (.named h), fun _ h => nomatch h⟩
  | list ho h hc ih =>
    exact typesSpelled_singleton.2 ⟨hself (.list ho h hc), ih.mono ⟨[_], [_], rfl⟩⟩
  | nonNull h hb ih =>
    exact typesSpelled_singleton.2 ⟨hself (.nonNull h hb), ih.mono ⟨[], [_], rfl⟩⟩

instance : Layout TypesSpelled where
  nil _ h := nomatch h
  append h h' n hn := by
    obtain hn | hn := List.mem_append.1 hn
    · exact h.mono (List.prefix_append _ _).isInfix n hn
    · exact h'.mono (List.suffix_append _ _).isInfix n hn
  node hn _ h := typesSpelled_singleton.2 ⟨(by rintro t rfl; cases hn), h⟩
  type h := h.typesSpelled

/-- Each type in a document that a source text parses as is spelled by tokens in a row. -/
theorem typesSpelled_of_parseWith {options : ParseOptions} {source : String} {d : Document}
    (h : parseWith options source = .ok d) : TypesSpelled [.document d] (tokens source) :=
  typesSpelled_singleton.2 ⟨(fun _ ht => nomatch ht),
    Layout.of_derivesDocument (readDocument_eq_ok.1 (parseWith_eq_ok.1 h)).1⟩

/-- **The text of a type is exact.**  As the type of a variable, the text of a well-formed type
parses as this type, up to offsets.  Each type in a document that a source text parses as is spelled
by tokens in a row, and by no others, but for such with the same texts if the source text is too
long to report all offsets; the texts of these tokens make up the text of the type, and the only
name among them is that of its innermost type. -/
theorem typeText_exact :
    (∀ t : TypeRef, t.WellFormed → ∃ d o v,
      parse ("query ($v: " ++ t.text ++ ") \x7b f \x7d") = .ok d ∧
      d.definitions = [.operation o] ∧ o.variableDefinitions = [v] ∧
      v.type.relocate toZero = t.relocate toZero) ∧
    ∀ (options : ParseOptions) (source : String) (d : Document),
      parseWith options source = .ok d → ∀ t, Node.typeRef t ∈ d.nodes →
      ∃ w, w <:+: tokens source ∧ t.SpelledBy w ∧
        (∀ w', t.SpelledBy w' → w'.map Token.text = w.map Token.text) ∧
        (byteLength source.toList ≤ maxOffset →
          ∀ w', w' <:+: tokens source → t.SpelledBy w' → w' = w) ∧
        t.text.toList = w.flatMap (fun x => x.text.toList) ∧
        ∃ x, w.filter (·.kind.isNameLike) = [x] ∧ t.innermost = ⟨x.text, x.start⟩ := by
  refine ⟨fun t ht => ?_, fun options source d h t ht => ?_⟩
  · obtain ⟨d, hd, horigin⟩ := ht.exists_parse
    obtain ⟨o, v, hdefinitions, hvariables, htype⟩ := TypeRef.exists_variableDefinition horigin
    exact ⟨d, o, v, hd, hdefinitions, hvariables, htype⟩
  · obtain ⟨w, hw, hspelled⟩ := typesSpelled_of_parseWith h _ List.mem_cons_self t ht
    refine ⟨w, hw, hspelled, fun w' h' => h'.map_text.trans hspelled.map_text.symm,
      fun hsize w' hw' h' => ?_, hspelled.toList_text, hspelled.innermost⟩
    exact h'.unique (pairwise_start_tokens hsize) hw' hw hspelled

/-- A non-null list whose items are of a type with the name of a keyword, in one text as the text of
the type, in the other with blanks and a comment between its tokens. -/
theorem typeText_exact_list :
    (∃ d o v, parse ("query ($v: " ++ "[on]!" ++ ") \x7b f \x7d") = .ok d ∧
      d.definitions = [.operation o] ∧ o.variableDefinitions = [v] ∧
      v.type.relocate toZero = .nonNull (.list (.named ⟨"on", 0⟩) 0) 0) ∧
    ∃ w, w <:+: tokens "input I\x7bi:[ on#\n] !\x7d" ∧
      (TypeRef.nonNull (.list (.named ⟨"on", 12⟩) 10) 10).SpelledBy w := by
  have hname : ValidName "on" := .of_toList rfl rfl rfl
  have hparse : parse "input I\x7bi:[ on#\n] !\x7d" = .ok ⟨[.type ⟨none, ⟨"I", [],
      .inputObject (some [⟨none, "i", .nonNull (.list (.named ⟨"on", 12⟩) 10) 10, none, [], 8⟩])⟩,
      0⟩], 0⟩ := by
    decide +kernel
  obtain ⟨w, hw, hspelled, -⟩ := typeText_exact.2 _ _ _ hparse
    (.nonNull (.list (.named ⟨"on", 12⟩) 10) 10) (by decide +kernel)
  exact ⟨typeText_exact.1 (.nonNull (.list (.named ⟨"on", 0⟩) 0) 0) ⟨hname, rfl⟩, w, hw, hspelled⟩

end GraphQL
