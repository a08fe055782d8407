import GraphQL.Proofs.Lexical.Concatenation
import GraphQL.Proofs.Parse.Resume

/-!
# Definitions and extensions of types

The grammar has one rule for what a definition of a type declares and another for an extension.
Where the keyword of a sort of type comes next, both read the same (`readIn_typeExtension_eq`).  So
a text that starts with a definition of a type without description parses with `extend` before it as
the same document, but for the places and for the first definition, which is an extension that
declares the same; and it is no document for the same reason (`parseWith_extend`).
-/

namespace GraphQL

/-- The keywords of the sorts of types. -/
def typeKeywords : List TokenKind :=
  [.keyword .scalar, .keyword .type, .keyword .interface, .keyword .union, .keyword .enum,
    .keyword .input]

/-! ### Reading one definition -/

section

variable {α : Type} {b : Nat} {t : Token} {ts : List Token} {kinds : List TokenKind}
  {test : TokenKind → Bool} {yes no : Rule α}

theorem Rule.readIn_branch_yes (ht : t.kind ∈ kinds) (h : ∀ k ∈ kinds, test k = true) :
    (Rule.branch test yes no).readIn b (t :: ts) = yes.readIn b (t :: ts) :=
  if_pos (h _ ht)

theorem Rule.readIn_branch_no (ht : t.kind ∈ kinds) (h : ∀ k ∈ kinds, test k = false) :
    (Rule.branch test yes no).readIn b (t :: ts) = no.readIn b (t :: ts) :=
  if_neg (by simp [Reader.nextIs, h _ ht])

variable (ht : t.kind ∈ typeKeywords)

include ht

/-- **The rules for definitions and for extensions mirror each other**: each sort of type is
declared in the same way.  They differ only where no keyword of a sort of type comes next. -/
theorem readIn_typeExtension_eq :
    typeExtension.readIn b (t :: ts) = typeDefinition.readIn b (t :: ts) := by
  simp only [typeKeywords, List.mem_cons, List.not_mem_nil, or_false] at ht
  rcases ht with ht | ht | ht | ht | ht | ht <;>
    simp [typeExtension, typeDefinition, Rule.readIn, Rule.read, Reader.branch, Reader.nextIs, ht]

/-- A definition of a type is what the type declares, without description. -/
theorem readIn_definition_type : definition.readIn b (t :: ts) =
    Reader.map (fun declaration => .type ⟨none, declaration, t.start⟩)
      (typeDefinition.readIn b) (t :: ts) := by
  have hdescription : description.readIn b (t :: ts) = .ok (none, t :: ts) :=
    Rule.readIn_branch_no ht (by decide)
  have hdescribed : describedDefinition.readIn b (t :: ts) =
      Reader.map (fun declaration description? start => .type ⟨description?, declaration, start⟩)
        (typeDefinition.readIn b) (t :: ts) := by
    rw [describedDefinition, Rule.readIn_branch_no ht (by decide),
      Rule.readIn_branch_no ht (by decide)]
    rfl
  rw [definition, Rule.readIn_branch_no ht (by decide), Rule.readIn_branch_no ht (by decide),
    Rule.readIn_branch_no ht (by decide), Rule.readIn_branch_yes ht (by decide)]
  change Reader.map (fun build : Nat → Definition => build t.start)
    (Reader.seq (Reader.map _ (description.readIn b)) (describedDefinition.readIn b)) (t :: ts) = _
  simp only [Reader.map, Reader.seq, hdescription, hdescribed]
  rcases typeDefinition.readIn b (t :: ts) with e | ⟨a, rest⟩ <;> rfl

/-- An extension of a type is the keyword and what the type declares. -/
theorem readIn_definition_extend {e : Token} (he : e.kind = .keyword .extend) :
    definition.readIn b (e :: t :: ts) =
      Reader.map (fun declaration => .typeExtension ⟨declaration, e.start⟩)
        (typeExtension.readIn b) (t :: ts) := by
  have hextend : (Rule.keyword .extend).readIn b (e :: t :: ts) = .ok (e, t :: ts) :=
    if_pos (beq_iff_eq.2 he)
  have hdeclared {yes no : Rule (Nat → Definition)} :
      (Rule.branch (· == .keyword .schema) yes no).readIn b (t :: ts) = no.readIn b (t :: ts) :=
    Rule.readIn_branch_no ht (by decide)
  replace he : e.kind ∈ [TokenKind.keyword .extend] := List.mem_singleton.2 he
  rw [definition, Rule.readIn_branch_no he (by decide), Rule.readIn_branch_no he (by decide),
    Rule.readIn_branch_yes he (by decide)]
  change Reader.map (fun build : Nat → Definition => build e.start)
    (Reader.seq (Reader.map _ ((Rule.keyword .extend).readIn b))
      ((Rule.branch (· == .keyword .schema) _ (.map _ _)).readIn b)) (e :: t :: ts) = _
  simp only [Reader.map, Reader.seq, hextend, hdeclared]
  simp only [Rule.readIn, Rule.read, Reader.map]
  rcases typeExtension.read (readNest Nest.body b) (t :: ts) with e | ⟨a, rest⟩ <;> rfl

end

/-- With `extend` before them, moved tokens are read as an extension of a type where the tokens
themselves are a definition of it, or fail to be one in the same way. -/
theorem readIn_definition_mirror {m : Move} (b : Nat) {e t u : Token} {ts us : List Token}
    (he : e.kind = .keyword .extend) (ht : t.kind ∈ typeKeywords)
    (hus : Moved m (t :: ts) (u :: us)) :
    (∃ declaration rest rest', Moved m rest rest' ∧
      definition.readIn b (t :: ts) = .ok (.type ⟨none, declaration, t.start⟩, rest) ∧
      definition.readIn b (e :: u :: us) =
        .ok (.typeExtension ⟨declaration.relocate m.start, e.start⟩, rest')) ∨
    ∃ failure, definition.readIn b (t :: ts) = .error failure ∧
      definition.readIn b (e :: u :: us) = .error (failure.relocate m.offset) := by
  have hmoves := moves_typeExtension (readNest_moves m b)
  have hu : u.kind ∈ typeKeywords := by rwa [(List.forall₂_cons.1 hus).1.kind]
  rw [readIn_definition_type ht, readIn_definition_extend hu he, Reader.map, Reader.map,
    ← readIn_typeExtension_eq ht]
  rcases hread : typeExtension.readIn b (t :: ts) with failure | ⟨declaration, rest⟩
  · rw [hmoves.error hus hread]
    exact .inr ⟨failure, rfl, rfl⟩
  · obtain ⟨_, rest', rfl, hrest, hread'⟩ := hmoves.ok hus hread
    rw [hread']
    exact .inl ⟨declaration, rest, rest', hrest, rfl, rfl⟩

/-! ### Reading a document -/

theorem readDocument_of_readIn {b : Nat} {ts rest : List Token} {ds : List Definition}
    (h : definitions.readIn b ts = .ok (ds, rest)) :
    readDocument b ts = .ok ⟨ds, firstStart ts⟩ :=
  readDocument_eq_ok.2 ⟨(derivesDocument_of_read h).1, rfl⟩

theorem readDocument_error_of_definition {b : Nat} {t : Token} {ts : List Token} {e : Failure}
    (h : definition.readIn b (t :: ts) = .error e) : readDocument b (t :: ts) = .error e :=
  readDocument_eq_error.2
    ((Rule.read_whileAt_eq_error (progresses_definition b)).2 ⟨rfl, .inl h⟩)

/-- A document is its first definition and what is read after it. -/
theorem readDocument_of_definition {b : Nat} {t : Token} {ts rest : List Token} {d : Definition}
    (h : definition.readIn b (t :: ts) = .ok (d, rest)) :
    readDocument b (t :: ts) =
      match definitions.readIn b rest with
      | .ok (ds, _) => .ok ⟨d :: ds, t.start⟩
      | .error e => .error e := by
  have hprogress := progresses_definition b
  rcases hrest : definitions.readIn b rest with e | ⟨ds, rest'⟩
  · exact readDocument_eq_error.2
      ((Rule.read_whileAt_eq_error hprogress).2 ⟨rfl, .inr ⟨d, rest, h, hrest⟩⟩)
  · exact readDocument_of_readIn
      ((Rule.read_whileAt_eq_ok hprogress).2 (.inl ⟨rfl, d, rest, ds, h, hrest, rfl⟩))

/-- The same for whole documents: after the first definition both readings go on alike. -/
theorem readDocument_mirror {m : Move} (b : Nat) {e t : Token} {ts us : List Token}
    (he : e.kind = .keyword .extend) (ht : t.kind ∈ typeKeywords) (hus : Moved m (t :: ts) us) :
    (∃ declaration ds,
      readDocument b (t :: ts) = .ok ⟨.type ⟨none, declaration, t.start⟩ :: ds, t.start⟩ ∧
      readDocument b (e :: us) =
        .ok ⟨.typeExtension ⟨declaration.relocate m.start, e.start⟩ ::
          ds.map (Definition.relocate m.start), e.start⟩) ∨
    ∃ failure, readDocument b (t :: ts) = .error failure ∧
      readDocument b (e :: us) = .error (failure.relocate m.offset) := by
  obtain ⟨u, us, -, -, rfl⟩ := List.forall₂_cons_left_iff.1 hus
  obtain ⟨declaration, rest, rest', hmoved, h, h'⟩ | ⟨failure, h, h'⟩ :=
    readIn_definition_mirror b he ht hus
  · rw [readDocument_of_definition h, readDocument_of_definition h']
    rcases hrest : definitions.readIn b rest with failure | ⟨ds, after⟩
    · rw [(moves_definitions m b).error hmoved hrest]
      exact .inr ⟨failure, rfl, rfl⟩
    · obtain ⟨_, after', rfl, -, hrest'⟩ := (moves_definitions m b).ok hmoved hrest
      rw [hrest']
      exact .inl ⟨declaration, ds, rfl, rfl⟩
  · exact .inr ⟨failure, readDocument_error_of_definition h, readDocument_error_of_definition h'⟩

/-! ### Parsing -/

theorem ParseError.addLines_zero (e : ParseError) : e.addLines 0 = e := by
  cases e <;> rfl

/-- Within a limit, or where nesting is no obstacle, the error at a failure does not depend on the
tokens at which a session stands. -/
theorem Session.errorAt_rest {source : String} {options : ParseOptions} {ts ts' : List Token}
    {failure : Failure} (h : options.maxDepth? = none → failure.obstacle ≠ .tooDeep) :
    errorAt ⟨source, options, ts⟩ failure = errorAt ⟨source, options, ts'⟩ failure := by
  obtain ⟨obstacle, rest⟩ := failure
  cases obstacle with
  | unexpected expected | unknownPlace => rfl
  | tooDeep =>
    obtain ⟨_ | limit⟩ := options
    · exact absurd rfl (h rfl)
    · rfl

/-- The budget for a longer text reads the tokens of a text in the same way. -/
theorem readDocument_budget_of_le (options : ParseOptions) {source source' : String}
    (h : (tokens source).length ≤ (tokens source').length) :
    readDocument (options.budget source') (tokens source) =
      readDocument (options.budget source) (tokens source) := by
  obtain ⟨_ | limit⟩ := options
  · exact readDocument_of_le (ParseOptions.budget_mono _ h)
      (readDocument_ne_tooDeep (Nat.lt_succ_self _))
  · rfl

/-- The outcome for a text that starts with a definition of a type, and the outcome with `extend`
before the text: an extension that declares the same, and the same definitions after it, or the same
error.  What they consist of is moved. -/
def Mirrors (f : Nat → Nat) (start : Nat) (x y : Except ParseError Document) : Prop :=
  (∃ declaration ds, x = .ok ⟨.type ⟨none, declaration, start⟩ :: ds, start⟩ ∧
    y = .ok ⟨.typeExtension ⟨declaration.relocate f, 0⟩ :: ds.map (Definition.relocate f), 0⟩) ∨
  ∃ error, x = .error error ∧ y = .error error

/-- Where the text parses, so does the text with `extend` before it. -/
theorem Mirrors.eq_of_ok {f : Nat → Nat} {start : Nat} {x y : Except ParseError Document}
    {declaration : TypeDeclaration} {ds : List Definition} (h : Mirrors f start x y)
    (hx : x = .ok ⟨.type ⟨none, declaration, start⟩ :: ds, start⟩) :
    y = .ok ⟨.typeExtension ⟨declaration.relocate f, 0⟩ :: ds.map (Definition.relocate f), 0⟩ := by
  obtain ⟨declaration', ds', hx', hy⟩ | ⟨error, hx', -⟩ := h
  · rw [hx] at hx'
    cases hx'
    exact hy
  · rw [hx] at hx'
    cases hx'

theorem tokens_extend (b : String) : tokens ("extend " ++ b) =
    ⟨.keyword .extend, 0⟩ :: (tokens b).map (Token.relocate (· + 7)) :=
  tokens_keyword_append .extend b

theorem mirrors_of_moved {m : Move} (options : ParseOptions) {b : String} {t : Token}
    (ht : (tokens b).head? = some t) (hkind : t.kind ∈ typeKeywords) (hm : m.offset = (· + 7))
    (hmoved : Moved m (tokens b) ((tokens b).map (Token.relocate (· + 7)))) :
    Mirrors m.start t.start (parseWith options b) (parseWith options ("extend " ++ b)) := by
  have hbudget : readDocument (options.budget ("extend " ++ b)) (tokens b) =
      readDocument (options.budget b) (tokens b) := by
    refine readDocument_budget_of_le options ?_
    rw [tokens_extend, List.length_cons, List.length_map]
    exact Nat.le_succ _
  obtain ⟨ts, hts⟩ : ∃ ts, tokens b = t :: ts := List.head?_eq_some_iff.1 ht
  rw [hts] at hmoved
  have hread := readDocument_mirror (options.budget ("extend " ++ b))
    (e := ⟨.keyword .extend, 0⟩) rfl hkind hmoved
  rw [← hts, ← tokens_extend, hbudget, hm] at hread
  obtain ⟨declaration, ds, h, h'⟩ | ⟨failure, h, h'⟩ := hread
  · exact .inl ⟨declaration, ds, parseWith_eq_ok.2 h, parseWith_eq_ok.2 h'⟩
  · refine .inr ⟨_, parseWith_eq_error.2 ⟨failure, h, rfl⟩, parseWith_eq_error.2 ⟨_, h', ?_⟩⟩
    have hlimit : options.maxDepth? = none → failure.obstacle ≠ .tooDeep := by
      obtain ⟨obstacle, rest⟩ := failure
      rintro hnone rfl
      obtain ⟨_ | limit⟩ := options
      · exact readDocument_ne_tooDeep (Nat.lt_succ_self _) rest h
      · cases hnone
    have hsource : ("extend " ++ b).toList = "extend ".toList ++ b.toList := String.toList_append
    have herror := @Session.errorAt_relocate _ options _ _ hsource (tokens b) failure
    rw [String.ofList_toList] at herror
    have hmoved : options.maxDepth? = none →
        (failure.relocate (· + byteLength "extend ".toList)).obstacle ≠ .tooDeep := hlimit
    exact (Session.errorAt_rest hmoved).trans (herror.trans (ParseError.addLines_zero _))

/-- **Extensions of types mirror their definitions.**  A text that starts with the keyword of a sort
of type is a definition of a type and others, and with `extend` before it an extension that declares
the same and the others, all moved by the length of what is before; or both are no document for the
same reason, on the same line.  Offsets that are too large to report are cut down; no offset of a
shorter text is. -/
theorem parseWith_extend {options : ParseOptions} {b : String} {t : Token}
    (ht : (tokens b).head? = some t) (hkind : t.kind ∈ typeKeywords) :
    Mirrors (laterBy 7) t.start (parseWith options b) (parseWith options ("extend " ++ b)) ∧
    (byteLength ("extend " ++ b).toList ≤ maxOffset →
      Mirrors (· + 7) t.start (parseWith options b) (parseWith options ("extend " ++ b))) := by
  refine ⟨mirrors_of_moved options ht hkind rfl (moved_later 7 _), fun hsize => ?_⟩
  refine mirrors_of_moved options ht hkind rfl (moved_exactly_tokens ?_)
  rw [String.toList_append, byteLength_append] at hsize
  exact (Nat.add_comm ..).trans_le hsize

/-- Interfaces and directives, a block that is empty, and an operation after the type. -/
theorem parseWith_extend_interfaces :
    Mirrors (· + 7) 0 (parse "type A implements B@c\x7b\x7dquery\x7bd\x7d")
      (parse ("extend " ++ "type A implements B@c\x7b\x7dquery\x7bd\x7d")) :=
  (@parseWith_extend .unlimited "type A implements B@c\x7b\x7dquery\x7bd\x7d"
    ⟨.keyword .type, 0⟩ (by decide +kernel) (by decide)).2 (by decide +kernel)

/-! ### Texts that are too long to report all offsets -/

/-- **Offsets are cut down.**  With `extend` before a text, a directive at the last place but six of
which the offset can be reported does not start seven bytes later. -/
theorem parse_extend_cutDown :
    (tokens (scalarThen (maxOffset - 18) "@dd@e")).head? = some ⟨.keyword .scalar, 0⟩ ∧
    ¬ Mirrors (· + 7) 0 (parse (scalarThen (maxOffset - 18) "@dd@e"))
      (parse ("extend " ++ scalarThen (maxOffset - 18) "@dd@e")) := by
  have hhead : (tokens (scalarThen (maxOffset - 18) "@dd@e")).head? =
      some ⟨.keyword .scalar, 0⟩ := by
    rw [tokens_scalarThen]
    rfl
  have hparse : parse (scalarThen (maxOffset - 18) "@dd@e") =
      .ok ⟨[.type ⟨none, ⟨"A", [⟨"dd", [], 4294967286⟩, ⟨"e", [], 4294967289⟩], .scalar⟩, 0⟩],
        0⟩ := by
    refine parseWith_eq_ok.2 ?_
    rw [ParseOptions.budget, tokens_scalarThen]
    decide +kernel
  have hmirrors := mirrors_of_moved .unlimited hhead (by decide) rfl (moved_later 7 _)
  have hcut := hmirrors.eq_of_ok hparse
  refine ⟨hhead, fun h => ?_⟩
  have hstarts := hcut.symm.trans (h.eq_of_ok hparse)
  revert hstarts
  decide +kernel

end GraphQL
