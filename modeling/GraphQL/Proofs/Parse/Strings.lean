import GraphQL.Proofs.Grammar.Strings
import GraphQL.Proofs.Parse.StreamSession

/-!
# No string is lost

A session on a token stream takes the value of a string literal out of the stream where the literal
is a value or a description, and only then.  Whatever calls have been made on it and on copies of
it, the value of each string literal from its token on ends up in one place of the document that it
parses (`StreamSession.losesNoString_of_mem_copies`).
-/

namespace GraphQL

/-- A token is told by where it starts. -/
theorem Token.eq_of_start_eq {ts : List Token} (hts : ts.Pairwise (·.start < ·.start))
    {t u : Token} (ht : t ∈ ts) (hu : u ∈ ts) (h : t.start = u.start) : t = u := by
  induction hts with
  | nil => cases ht
  | cons hlt _ ih =>
    rcases List.mem_cons.1 ht with rfl | ht' <;> rcases List.mem_cons.1 hu with rfl | hu'
    · rfl
    · exact absurd h (Nat.ne_of_lt (hlt u hu'))
    · exact absurd h.symm (Nat.ne_of_lt (hlt t ht'))
    · exact ih ht' hu'

namespace Session

variable {s : Session} {d : Document}

theorem readDocument_of_parse (h : s.parse = .ok d) : readDocument s.budget s.rest = .ok d := by
  rw [Session.parse] at h
  split at h
  · rename_i d' hread
    cases h
    exact hread
  · cases h

/-- The nodes of a document that tokens parse as keep the strings of these. -/
theorem keepsStrings_of_parse (h : s.parse = .ok d) : KeepsStrings [.document d] s.rest :=
  .document (keepsStrings_of_derivesDocument (readDocument_eq_ok.1 (readDocument_of_parse h)).1)

/-- The tokens that are parsed as a document spell it. -/
theorem spelled_of_parse (hs : ∀ t ∈ s.rest, t.lexeme.Genuine) (h : s.parse = .ok d) :
    s.rest.map Token.lexeme ∈ d.spelling :=
  Document.mem_spelling_of_unambiguous (spelled_of_readDocument hs (readDocument_of_parse h)).1

end Session

namespace StreamSession

/-- What a session on a stream does with the string literals from the token of number `k` on. -/
structure LosesNoString (source : String) (options : ParseOptions) (x : StreamSession)
    (k : Nat) : Prop where
  /-- The session stands at that token. -/
  current : x.current? = (tokens source)[k]?.map Token.kind
  /-- At a string literal the stream has the decoded value. -/
  value : x.current? = some .string →
    ∃ value, x.stream.value? = some value ∧ LiteralDecodes x.stream.tokenText (.ok value)
  /-- No value is wanted that is gone: parsing yields what the session on these tokens yields. -/
  parse : x.parse = (Session.atToken source options k).parse.mapError .failure
  /-- Each string literal is held by one node of the document, in the order of the source. -/
  literals : ∀ d, x.parse = .ok d → List.Forall₂ Node.Holds
    (d.nodes.filter (·.literal?.isSome)) (((tokens source).drop k).filter (·.kind == .string))
  /-- A definition starts at a token, and its description is the value of that token; it has none
  if the token is no string literal.  No other token starts there if all offsets can be reported. -/
  descriptions : ∀ d, x.parse = .ok d → ∀ n ∈ d.nodes, ∀ d?, n.description? = some d? →
    (∃ t ∈ (tokens source).drop k, t.start = n.start ∧ d? = t.lexeme.value?) ∧
      (byteLength source.toList ≤ maxOffset →
        ∀ t ∈ tokens source, t.start = n.start → d? = t.lexeme.value?)
  /-- Whatever offsets are reported, the tokens in their order spell the document: a description
  stands right before what it describes, and where there is none, no string literal does. -/
  spelled : ∀ d, x.parse = .ok d → ((tokens source).drop k).map Token.lexeme ∈ d.spelling

/-- **No string is lost**, whatever calls have been made on a session and on copies of it. -/
theorem losesNoString_of_mem_copies (source : String) (options : ParseOptions)
    (calls : List (CopyCall SessionCall)) {x : StreamSession} {k : Nat}
    (h : (x, k) ∈ copies source options calls) : x.LosesNoString source options k := by
  have hx := follows_of_mem_copies h
  have hparse : ∀ d, x.parse = .ok d → (Session.atToken source options k).parse = .ok d := by
    intro d hd
    rw [hx.parse_eq] at hd
    rcases hparse : (Session.atToken source options k).parse with e | d' <;> rw [hparse] at hd <;>
      cases hd
    rfl
  have hkeeps : ∀ d, x.parse = .ok d → KeepsStrings [.document d] ((tokens source).drop k) :=
    fun d hd => Session.keepsStrings_of_parse (hparse d hd)
  refine ⟨?_, hx.stands.exists_value, hx.parse_eq, fun d hd => ?_, fun d hd n hn d? hn? => ?_,
    fun d hd => ?_⟩
  · rw [hx.current?_eq, Session.current?, Session.atToken, List.head?_drop]
  · have hliterals := (hkeeps d hd).literals
    rwa [List.flatMap_singleton] at hliterals
  · have hdescriptions := (hkeeps d hd).descriptions
    rw [List.flatMap_singleton] at hdescriptions
    obtain ⟨t, ht, hstart, hvalue⟩ := hdescriptions n hn d? hn?
    refine ⟨⟨t, ht, hstart, hvalue⟩, fun hsize u hu hu' => ?_⟩
    rw [Token.eq_of_start_eq (pairwise_start_tokens hsize) hu (List.mem_of_mem_drop ht)
      (hu'.trans hstart.symm)]
    exact hvalue
  · exact Session.spelled_of_parse (fun t ht => genuine_of_mem_tokens (List.mem_of_mem_drop ht))
      (hparse d hd)

/-- A copy at a description: a type with it, a field without, and a block string as a default. -/
theorem losesNoString_of_mem_copies_description :
    ∃ x d, (x, 1) ∈ copies "a\"d\"type T\x7bf(i:S=\"\"\"b\"\"\"):S\x7d" .unlimited
        [.clone 0, .call 1 .accept] ∧
      x.parse = .ok d ∧
      x.LosesNoString "a\"d\"type T\x7bf(i:S=\"\"\"b\"\"\"):S\x7d" .unlimited 1 := by
  have h : (accept (ofString "a\"d\"type T\x7bf(i:S=\"\"\"b\"\"\"):S\x7d" .unlimited), 1) ∈
      copies "a\"d\"type T\x7bf(i:S=\"\"\"b\"\"\"):S\x7d" .unlimited
        [.clone 0, .call 1 .accept] := by
    decide +kernel
  refine ⟨_, ⟨[.type ⟨some "d", ⟨"T", [], .object [] (some
    [⟨none, "f", [⟨none, "i", .named ⟨"S", 15⟩, some (.string "b" true 17), [], 13⟩],
      .named ⟨"S", 26⟩, [], 11⟩])⟩, 1⟩], 1⟩, h, ?_, losesNoString_of_mem_copies _ _ _ h⟩
  decide +kernel

end StreamSession

end GraphQL
