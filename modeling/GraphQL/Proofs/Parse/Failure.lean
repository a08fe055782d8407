import GraphQL.Proofs.Parse.Layout
import GraphQL.Proofs.Reading.Exactness

/-!
# Errors are exact

A text that does not parse is refused at the first token that no document begins with
(`exact_of_parse_error`): the tokens before it begin some text that parses, and still do with a
token of each kind that the error names.  The error shows the token at fault and its line.

Texts that parse are made from tokens that go on to a document (`exists_accepted_of_completes`), the
lexemes with blanks between them.
-/

namespace GraphQL

/-- Whether a source text parses without limits. -/
def Accepted (source : String) : Prop := ∃ d, parse source = .ok d

/-- Whether a text that parses begins with tokens of the given kinds and texts. -/
def Begins (w : List (TokenKind × String)) : Prop :=
  ∃ source, Accepted source ∧ w <+: tokenTexts source

/-- The offset of a token of a source text, or of the end of the text. -/
def startOf (source : String) (i : Nat) : Nat :=
  ((tokens source)[i]?.map Token.offset).getD (byteLength source.toList)

/-- An error tells where a source text stops being the beginning of a text that parses: at the
token with index `i`, or at the end of the input. -/
structure ParseError.Exact (source : String) (e : ParseError) (i : Nat) : Prop where
  /-- The index is that of a token or of the end of the input. -/
  le : i ≤ (tokens source).length
  /-- The error shows the kind and text of the token at fault, or that there is none; a name that is
  unknown is the text of a token. -/
  shows : (∃ expected found? line, e = .unexpectedToken expected found? line ∧
      found?.map (fun l => (l.kind, l.text)) = (tokenTexts source)[i]?) ∨
    ∃ name line, e = .unknownPlace name line ∧ (tokens source)[i]?.map Token.text = some name
  /-- The line counts the line feeds before the token at fault, or before the end of the input. -/
  line : ∃ before after, source.toList = before ++ after ∧
    byteLength before = startOf source i ∧ e.line? = some (1 + before.count '\n')
  /-- The tokens before the one at fault begin a text that parses. -/
  begins : Begins ((tokenTexts source).take i)
  /-- With the token at fault they begin none. -/
  stops : i < (tokens source).length → ¬ Begins ((tokenTexts source).take (i + 1))
  /-- Some kind is expected, none that is found, and each of them goes on to a text that parses. -/
  expects : ∀ expected found? line, e = .unexpectedToken expected found? line →
    expected ≠ [] ∧ (∀ l ∈ found?, l.kind ∉ expected) ∧
      ∀ k ∈ expected, ∃ text, Begins ((tokenTexts source).take i ++ [(k, text)])
  /-- The end of the input is unexpected just when there only must be more. -/
  atEnd : e.isUnexpectedEnd = true ↔ i = (tokens source).length ∧
    ∃ s, Accepted s ∧ tokenTexts source <+: tokenTexts s ∧ tokenTexts source ≠ tokenTexts s

/-! ### Texts that parse -/

/-- What is read within some nesting budget parses without limits. -/
theorem accepted_of_readDocument {source : String} {b : Nat} {d : Document}
    (h : readDocument b (tokens source) = .ok d) : Accepted source := by
  have hmax : readDocument (max b ((tokens source).length + 1)) (tokens source) = .ok d := by
    rw [readDocument_of_le (le_max_left b _) (by simp [h]), h]
  have hle := readDocument_of_le (le_max_right b ((tokens source).length + 1))
    (readDocument_ne_tooDeep (Nat.lt_succ_self (tokens source).length))
  exact ⟨d, parseWith_eq_ok.2 (hle.symm.trans hmax)⟩

/-- **Tokens of a document have a text**: tokens that are genuine lexemes and complete a document
are those of a text that parses. -/
theorem exists_accepted_of_completes {b : Nat} {w : List Token}
    (hw : ∀ t ∈ w, t.lexeme.Genuine) (h : CompletesDocument b w) :
    ∃ source, Accepted source ∧ lexemes source = w.map Token.lexeme := by
  obtain ⟨ds, hds⟩ := h
  have hls : ∀ l ∈ w.map Token.lexeme, l.Genuine ∧ l.error? ≠ some .unterminated := by
    intro l hl
    obtain ⟨t, ht, rfl⟩ := List.mem_map.1 hl
    refine ⟨hw t ht, ?_⟩
    rw [error?_eq_none_of_derivesDocument hds t ht]
    exact nofun
  have htext := tokens_spaced hls
  obtain ⟨d, hd, -⟩ := readDocument_ok_congr htext.symm (readDocument_eq_ok.2 ⟨hds, rfl⟩ :
    readDocument b w = .ok ⟨ds, firstStart w⟩)
  exact ⟨_, accepted_of_readDocument hd, htext⟩

/-- What a text that parses begins with is not stopped at by reading. -/
theorem not_begins_of_readDocument {b : Nat} {u x : List Token} {t : Token} {o : Obstacle}
    (hg : ∀ t' ∈ u ++ [t], t'.lexeme.Genuine)
    (h : readDocument b (u ++ t :: x) = .error ⟨o, t :: x⟩) (ho : o ≠ .tooDeep) :
    ¬ Begins ((u ++ [t]).map fun t => (t.kind, t.text)) := by
  rintro ⟨source, ⟨d, hd⟩, rest, hrest⟩
  -- The accepted text has these very lexemes, and more after them.
  obtain ⟨v, w, hvw, hv, -⟩ : ∃ v w, tokens source = v ++ w ∧
      v.map (fun t => (t.kind, t.text)) = (u ++ [t]).map (fun t => (t.kind, t.text)) ∧
      w.map (fun t => (t.kind, t.text)) = rest :=
    List.map_eq_append_iff.1 hrest.symm
  -- A genuine lexeme is determined by its text.
  have hlex : v.map Token.lexeme = (u ++ [t]).map Token.lexeme := by
    refine Lexeme.eq_of_map_text (fun l hl => ?_) (fun l hl => ?_) ?_
    · obtain ⟨t', ht', rfl⟩ := List.mem_map.1 hl
      exact genuine_of_mem_tokens (hvw ▸ List.mem_append_left w ht')
    · obtain ⟨t', ht', rfl⟩ := List.mem_map.1 hl
      exact hg t' ht'
    · simpa [Function.comp_def, Token.text] using congrArg (List.map Prod.snd) hv
  have htokens : (tokens source).map Token.lexeme = (u ++ t :: w).map Token.lexeme := by
    rw [hvw, List.map_append, hlex]
    simp
  obtain ⟨d', hd', -⟩ := readDocument_ok_congr htokens (parseWith_eq_ok.1 hd)
  exact not_derivesDocument_of_read h ho _ _ (readDocument_eq_ok.1 hd').1

/-! ### The error of a text that does not parse -/

/-- Where reading a source text stops, and the error that this is. -/
theorem exists_failure_of_parse_error {source : String} {e : ParseError}
    (h : parse source = .error e) :
    ∃ b u o x, tokens source = u ++ x ∧ readDocument b (u ++ x) = .error ⟨o, x⟩ ∧
      o ≠ .tooDeep ∧ e = (Session.ofString source .unlimited).errorAt ⟨o, x⟩ := by
  obtain ⟨⟨o, x⟩, hr, he⟩ := parseWith_eq_error.1 h
  obtain ⟨u, hu⟩ := Rule.exists_of_readIn_error (readDocument_eq_error.1 hr)
  refine ⟨_, u, o, x, hu, hu ▸ hr, ?_, he.symm⟩
  rintro rfl
  exact readDocument_ne_tooDeep (Nat.lt_succ_self _) x hr

theorem lineOf_eq {source : String} {u x : List Token} (h : tokens source = u ++ x) :
    ∃ before after, source.toList = before ++ after ∧
      byteLength before = startOf source u.length ∧
      (Session.ofString source .unlimited).lineOf x = 1 + before.count '\n' := by
  have hstart : startOf source u.length = (x.head?.map Token.offset).getD
      (byteLength source.toList) := by
    rw [startOf, h, List.getElem?_append_right le_rfl, Nat.sub_self, List.head?_eq_getElem?]
  rw [hstart]
  cases x with
  | nil =>
    exact ⟨source.toList, [], by simp, rfl, lineAt_append (List.append_nil _).symm⟩
  | cons t x =>
    obtain ⟨-, before, after, hs, ht⟩ := mem_tokens (h ▸ List.mem_append_right u List.mem_cons_self)
    exact ⟨before, after, hs, ht.symm, by rw [← lineAt_append hs, ← ht]; rfl⟩

theorem Begins.of_append {w v : List (TokenKind × String)} (h : Begins (w ++ v)) : Begins w := by
  obtain ⟨source, hs, hw⟩ := h
  exact ⟨source, hs, (List.prefix_append w v).trans hw⟩

section

variable {source : String} {b : Nat} {u x : List Token} {o : Obstacle}

theorem take_tokenTexts (h : tokens source = u ++ x) :
    (tokenTexts source).take u.length = u.map fun t => (t.kind, t.text) := by
  rw [tokenTexts, h, List.map_append, List.take_left' (List.length_map _)]

theorem getElem?_tokenTexts (h : tokens source = u ++ x) :
    (tokenTexts source)[u.length]? = x.head?.map fun t => (t.kind, t.text) := by
  rw [tokenTexts, List.getElem?_map, h, List.getElem?_append_right le_rfl, Nat.sub_self,
    List.head?_eq_getElem?]

/-- The tokens before one that stops reading go on with a token of each kind that was wanted. -/
theorem begins_of_wanted (h : tokens source = u ++ x)
    (hr : readDocument b (u ++ x) = .error ⟨o, x⟩) {k : TokenKind} (hk : k ∈ o.wanted) :
    ∃ text, Begins ((tokenTexts source).take u.length ++ [(k, text)]) := by
  obtain ⟨ks, hc⟩ := (exact_definitions (readDocument_eq_error.1 hr)).goesOn k hk
  -- The samples are genuine, since a document has no token that is a lexical error.
  have hg : ∀ t ∈ u ++ samples (k :: ks), t.lexeme.Genuine := by
    obtain ⟨ds, hds⟩ := hc
    intro t ht
    rcases List.mem_append.1 ht with hu | hs
    · exact genuine_of_mem_tokens (h ▸ List.mem_append_left x hu)
    · obtain ⟨k', -, rfl⟩ := List.mem_map.1 hs
      have hkind := isLexeme_of_derivesDocument hds _ ht
      rw [k'.kind_bare_sample] at hkind
      refine TokenKind.genuine_sample ?_
      cases k' <;> simp_all [TokenKind.isLexicalError]
  obtain ⟨s, hs, hlex⟩ := exists_accepted_of_completes hg hc
  refine ⟨k.sample.text, s, hs, (samples ks).map fun t => (t.kind, t.text), ?_⟩
  rw [take_tokenTexts h, tokenTexts_eq_map_lexemes, hlex]
  simp [Lexeme.bare, Token.kind, Token.text, Function.comp_def]

/-- The tokens before one that stops reading begin a text that parses. -/
theorem begins_of_readDocument (h : tokens source = u ++ x)
    (hr : readDocument b (u ++ x) = .error ⟨o, x⟩) (ho : o ≠ .tooDeep) :
    Begins ((tokenTexts source).take u.length) := by
  obtain ⟨k, hk⟩ : ∃ k, k ∈ o.wanted := by
    have htell : (Failure.mk o x).Telling := telling_definitions (readDocument_eq_error.1 hr)
    cases o with
    | unexpected expected => exact List.exists_mem_of_ne_nil expected htell
    | unknownPlace => exact ⟨.name, List.mem_singleton_self _⟩
    | tooDeep => exact absurd rfl ho
  obtain ⟨text, htext⟩ := begins_of_wanted h hr hk
  exact htext.of_append

/-- With the token that stops reading, they begin none. -/
theorem not_begins_of_lt (h : tokens source = u ++ x)
    (hr : readDocument b (u ++ x) = .error ⟨o, x⟩) (ho : o ≠ .tooDeep)
    (hlt : u.length < (tokens source).length) :
    ¬ Begins ((tokenTexts source).take (u.length + 1)) := by
  rcases x with _ | ⟨t, x⟩
  · simp [h] at hlt
  · have hsplit : tokens source = (u ++ [t]) ++ x := by simpa using h
    have htake := take_tokenTexts hsplit
    rw [List.length_append, List.length_singleton] at htake
    rw [htake]
    exact not_begins_of_readDocument
      (fun t' ht' => genuine_of_mem_tokens (hsplit ▸ List.mem_append_left x ht')) hr ho

/-- What goes on with a token is only the beginning of a text that parses. -/
theorem Begins.exists_longer {w : List (TokenKind × String)} {kt : TokenKind × String}
    (h : Begins (w ++ [kt])) :
    ∃ s, Accepted s ∧ w <+: tokenTexts s ∧ w ≠ tokenTexts s := by
  obtain ⟨s, hs, hw⟩ := h
  refine ⟨s, hs, (List.prefix_append w [kt]).trans hw, ?_⟩
  rintro rfl
  exact absurd hw.length_le (by simp)

/-- At the end of the input there only must be more. -/
theorem exists_longer_of_readDocument (h : tokens source = u)
    (hr : readDocument b (u ++ []) = .error ⟨o, []⟩) {k : TokenKind} (hk : k ∈ o.wanted) :
    ∃ s, Accepted s ∧ tokenTexts source <+: tokenTexts s ∧ tokenTexts source ≠ tokenTexts s := by
  obtain ⟨text, htext⟩ := begins_of_wanted (h.trans (List.append_nil u).symm) hr hk
  have hall : (tokenTexts source).take u.length = tokenTexts source :=
    List.take_of_length_le (by simp [tokenTexts, h])
  rw [hall] at htext
  exact htext.exists_longer

end

/-- **Errors are exact**: a text that does not parse is refused at the first token that no text that
parses begins with, and the error names kinds that could stand there. -/
theorem exact_of_parse_error {source : String} {e : ParseError} (h : parse source = .error e) :
    ∃ i, e.Exact source i := by
  obtain ⟨b, u, o, x, hux, hr, ho, rfl⟩ := exists_failure_of_parse_error h
  have hread := readDocument_eq_error.1 hr
  have htell : (Failure.mk o x).Telling := telling_definitions hread
  have hwanted := (exact_definitions hread).notWanted
  have hlen : (tokens source).length = u.length + x.length := by rw [hux, List.length_append]
  obtain ⟨before, after, hs, hb, hline⟩ := lineOf_eq hux
  have hle : u.length ≤ (tokens source).length := by omega
  have hbegins := begins_of_readDocument hux hr ho
  have hstops := not_begins_of_lt hux hr ho
  cases o with
  | unexpected expected =>
    refine ⟨u.length, hle, .inl ⟨_, _, _, rfl, ?_⟩, ⟨before, after, hs, hb, congrArg some hline⟩,
      hbegins, hstops, ?_, ?_⟩
    · rw [getElem?_tokenTexts hux, Option.map_map]
      rfl
    · rintro _ _ _ ⟨⟩
      refine ⟨htell, fun l hl hmem => ?_, fun k hk => begins_of_wanted hux hr hk⟩
      obtain ⟨t, ht, rfl⟩ := Option.mem_map.1 hl
      exact hwanted (by simp) t.kind ⟨t, ht, rfl⟩ hmem
    · cases x with
      | nil =>
        obtain ⟨k, hk⟩ := List.exists_mem_of_ne_nil expected htell
        rw [List.append_nil] at hux
        exact ⟨fun _ => ⟨hlen.symm, exists_longer_of_readDocument hux hr hk⟩, fun _ => rfl⟩
      | cons t x =>
        refine ⟨fun hnone => Bool.noConfusion hnone, fun hlast => ?_⟩
        simp [hlen] at hlast
  | unknownPlace =>
    obtain ⟨t, x, rfl⟩ := List.exists_cons_of_ne_nil (show x ≠ [] from htell)
    refine ⟨u.length, hle, .inr ⟨_, _, rfl, ?_⟩, ⟨before, after, hs, hb, congrArg some hline⟩,
      hbegins, hstops, ?_, ?_⟩
    · rw [hux, List.getElem?_append_right le_rfl, Nat.sub_self]
      rfl
    · rintro _ _ _ ⟨⟩
    · refine ⟨fun hend => Bool.noConfusion hend, fun hend => ?_⟩
      simp [hlen] at hend
  | tooDeep => exact absurd rfl ho

/-- The bracket that opens a list is not closed. -/
theorem exact_of_parse_error_list :
    parse "\x7ba(b:[1" = .error (.unexpectedToken valueStart none 1) ∧
      ∃ i, ParseError.Exact "\x7ba(b:[1" (.unexpectedToken valueStart none 1) i := by
  have h : parse "\x7ba(b:[1" = .error (.unexpectedToken valueStart none 1) := by
    decide +kernel
  exact ⟨h, exact_of_parse_error h⟩

end GraphQL
