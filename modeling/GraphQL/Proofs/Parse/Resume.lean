import GraphQL.Proofs.Lexical.Concatenation
import GraphQL.Proofs.Parse.Copies
import GraphQL.Proofs.Parse.Failure

/-!
# Resuming is starting afresh

A session at some token parses what a new session would on the text from that token on, and a token
stream hands out the tokens that a new stream would on the text from its place on: the offsets are
later by the length of the text before, and the lines by its line feeds (`resume_eq_fresh`).  The
offsets that are reported are cut down again where they become too large.
-/

namespace GraphQL

/-! ### Tokens from one on -/

theorem startOf_of_getElem? {source : String} {k : Nat} {t : Token}
    (h : (tokens source)[k]? = some t) : startOf source k = t.offset := by
  rw [startOf, h]
  rfl

/-- The tokens of a text from one on are those of the text from there on, but later. -/
theorem drop_tokens (source : String) (k : Nat) :
    ∃ before after, source.toList = before ++ after ∧ byteLength before = startOf source k ∧
      (tokens source).drop k =
        (tokens (String.ofList after)).map (Token.relocate (· + byteLength before)) := by
  cases ht : (tokens source)[k]? with
  | none =>
    refine ⟨source.toList, [], by simp, by rw [startOf, ht]; rfl, ?_⟩
    rw [List.drop_eq_nil_of_le (List.getElem?_eq_none_iff.1 ht)]
    rfl
  | some t =>
    obtain ⟨before, after, hsource, hstart, hscans⟩ :=
      (Cursor.scans_tokens (Cursor.ofString source)).drop ht
    refine ⟨before, t.text.toList ++ after, hsource, ?_, ?_⟩
    · rw [startOf_of_getElem? ht, hstart]
      exact (Nat.zero_add _).symm
    · have hadd := hscans.tokens.symm.trans (Cursor.tokens_add 0 (byteLength before) _)
      simpa [tokens, Cursor.ofString] using hadd

/-! ### Sessions -/

/-- An error so many lines further down. -/
def ParseError.addLines (n : Nat) : ParseError → ParseError
  | unexpectedToken expected found? line => unexpectedToken expected found? (line + n)
  | unknownPlace name line => unknownPlace name (line + n)
  | nestingTooDeep limit line => nestingTooDeep limit (line + n)
  | invalidUtf8 offset => invalidUtf8 offset

namespace Session

/-- The session at the token of the given number. -/
def atToken (source : String) (options : ParseOptions) (k : Nat) : Session :=
  ⟨source, options, (tokens source).drop k⟩

theorem accept_atToken (source : String) (options : ParseOptions) (k : Nat) :
    (atToken source options k).accept = atToken source options (k + 1) := by
  simp [atToken, accept]

/-- A session moves past a token of a wanted kind, and only reports any other. -/
theorem expectOneOf_eq (s : Session) (kinds : List TokenKind) :
    s.expectOneOf kinds =
      match s.rest with
      | [] => .error (.unexpectedToken kinds none (lineAt s.source (byteLength s.source.toList)))
      | t :: _ =>
        if kinds.contains t.kind then .ok (t, s.accept)
        else .error (.unexpectedToken kinds (some t.lexeme) (lineAt s.source t.offset)) := by
  obtain ⟨source, options, _ | ⟨t, rest⟩⟩ := s
  · rfl
  · simp only [expectOneOf, step, Reader.token]
    by_cases h : kinds.contains t.kind = true
    · simp only [h, if_true]
      rfl
    · simp only [h, Bool.false_eq_true, if_false]
      rfl

theorem expect_eq (s : Session) (kind : TokenKind) : s.expect kind = s.expectOneOf [kind] := by
  have htest : (· == kind) = [kind].contains := by
    funext k
    rw [List.contains_cons, List.contains_nil, Bool.or_false]
  rw [expect, expectOneOf, htest]

/-- Calls that succeed move a session on by one token, whatever they are. -/
theorem call_eq_ok {s s' : Session} {c : SessionCall} (h : s.call c = .ok s') : s' = s.accept := by
  have hone : ∀ kinds, (s.expectOneOf kinds).map Prod.snd = .ok s' → s' = s.accept := by
    intro kinds h
    rw [expectOneOf_eq] at h
    split at h
    · cases h
    · split at h
      · cases h
        rfl
      · cases h
  cases c with
  | accept =>
    cases h
    rfl
  | expect kind => exact hone [kind] (by rwa [call, expect_eq] at h)
  | expectOneOf kinds => exact hone kinds h

/-- The number of calls that have succeeded is the number of the token at which a copy stands. -/
theorem eq_atToken_of_mem_copies {source : String} {options : ParseOptions}
    {calls : List (CopyCall SessionCall)} {x : Session × Nat}
    (h : x ∈ copies source options calls) : x.1 = atToken source options x.2 := by
  refine forall_mem_runCopies (P := fun x => x.1 = atToken source options x.2) ?_ calls ?_ x h
  · rintro c ⟨s, k⟩ (rfl : s = atToken source options k)
    rw [countCall]
    rcases hc : (atToken source options k).call c with e | s'
    · rfl
    · exact (call_eq_ok hc).trans (accept_atToken source options k)
  · rintro _ (_ | ⟨_, ⟨⟩⟩)
    rfl

/-- What parsing a text yields that comes after another one, of which the trees are moved, and the
errors moved down by the lines, of the text before. -/
def resumed (f : Nat → Nat) (options : ParseOptions) (before after : List Char) :
    Except ParseError Document :=
  match parseWith options (String.ofList after) with
  | .ok d => .ok (if tokens (String.ofList after) = [] then d else d.relocate f)
  | .error e => .error (e.addLines (before.count '\n'))

section

variable {source : String} {options : ParseOptions} {before after : List Char}
  (h : source.toList = before ++ after)

include h

theorem lineOf_relocate (ts us ts' : List Token) :
    lineOf ⟨source, options, ts⟩ (us.map (Token.relocate (· + byteLength before))) =
      lineOf ⟨String.ofList after, options, ts'⟩ us + before.count '\n' := by
  cases us with
  | nil =>
    have hend : byteLength source.toList = byteLength after + byteLength before := by
      rw [h, byteLength_append, Nat.add_comm]
    rw [List.map_nil, lineOf, lineOf, hend, lineAt_add h, String.toList_ofList]
  | cons u us => exact lineAt_add h u.offset

/-- A failure at later tokens of a longer text is the same error, further down. -/
theorem errorAt_relocate (ts : List Token) (e : Failure) :
    errorAt ⟨source, options, ts.map (Token.relocate (· + byteLength before))⟩
        (e.relocate (· + byteLength before)) =
      (errorAt ⟨String.ofList after, options, ts⟩ e).addLines (before.count '\n') := by
  obtain ⟨obstacle, rest⟩ := e
  have hline := @lineOf_relocate _ options _ _ h
    (ts.map (Token.relocate (· + byteLength before))) rest ts
  have hfound := Failure.head?_lexeme_relocate (· + byteLength before) ⟨obstacle, rest⟩
  rw [errorAt, hfound]
  cases obstacle with
  | unexpected expected | unknownPlace =>
    simp only [Failure.relocate, hline]
    rfl
  | tooDeep =>
    simp only [Failure.relocate, hline, budget, List.length_map]
    rfl

omit h in
theorem parse_nil (source : String) (options : ParseOptions) :
    parse ⟨source, options, []⟩ = .ok ⟨[], 0⟩ := by
  have h : readDocument (budget ⟨source, options, []⟩) [] = .ok ⟨[], 0⟩ :=
    readDocument_eq_ok.2 ⟨rfl, rfl⟩
  rw [parse, h]

/-- **Parsing from some token on** is parsing the text from there on. -/
theorem parse_of_moved {m : Move} {us : List Token} (hm : m.offset = (· + byteLength before))
    (hus : Moved m (tokens (String.ofList after)) us) :
    parse ⟨source, options, us⟩ = resumed m.start options before after := by
  rw [resumed, parseWith, ofString]
  by_cases hne : tokens (String.ofList after) = []
  · rw [hne] at hus
    obtain rfl := List.forall₂_nil_left_iff.1 hus
    rw [hne, parse_nil, parse_nil]
    exact congrArg Except.ok (if_pos rfl).symm
  · simp only [if_neg hne]
    have hread := readDocument_of_moved
      (budget ⟨String.ofList after, options, tokens (String.ofList after)⟩) hus (.inl hne)
    have hbudget : budget ⟨source, options, us⟩ =
        budget ⟨String.ofList after, options, tokens (String.ofList after)⟩ := by
      rw [budget, budget, hus.length_eq]
    rw [parse, parse, hbudget, hread]
    rcases readDocument (budget ⟨String.ofList after, options, tokens (String.ofList after)⟩)
      (tokens (String.ofList after)) with e | d
    · rw [hus.eq_map, hm]
      exact congrArg Except.error (errorAt_relocate h _ e)
    · rfl

end

/-- What a session does after `k` calls on it have succeeded: it stands at token `k`, wants or takes
that token, and parses what a new session would parse on the text from there on. -/
structure Resumes (source : String) (options : ParseOptions) (s : Session) (k : Nat) : Prop where
  /-- The current kind is that of the token. -/
  current : s.current? = (tokens source)[k]?.map Token.kind
  /-- One wanted kind is wanted as one of several. -/
  expect (kind : TokenKind) : s.expect kind = s.expectOneOf [kind]
  /-- A wanted token is moved past, any other or the end of the text is reported. -/
  expectOneOf (kinds : List TokenKind) : s.expectOneOf kinds =
    match (tokens source)[k]? with
    | none => .error (.unexpectedToken kinds none (lineAt source (byteLength source.toList)))
    | some t =>
      if kinds.contains t.kind then .ok (t, s.accept)
      else .error (.unexpectedToken kinds (some t.lexeme) (lineAt source t.offset))
  /-- The text is parsed from the token on; no offset is cut down if all can be reported. -/
  parse : ∃ before after, source.toList = before ++ after ∧ byteLength before = startOf source k ∧
    s.parse = resumed (laterBy (startOf source k)) options before after ∧
    (byteLength source.toList ≤ maxOffset →
      s.parse = resumed (· + startOf source k) options before after)
  /-- No tokens are a document without definitions. -/
  parse_end : (tokens source).length ≤ k → s.parse = .ok ⟨[], 0⟩

theorem resumes_atToken (source : String) (options : ParseOptions) (k : Nat) :
    Resumes source options (atToken source options k) k where
  current := by rw [current?, atToken, List.head?_drop]
  expect kind := expect_eq _ kind
  expectOneOf kinds := by
    rw [expectOneOf_eq, ← List.head?_drop]
    change (match (tokens source).drop k with | [] => _ | t :: _ => _) = _
    rcases (tokens source).drop k with _ | ⟨t, ts⟩ <;> rfl
  parse := by
    obtain ⟨before, after, hsource, hstart, hdrop⟩ := drop_tokens source k
    refine ⟨before, after, hsource, hstart, ?_⟩
    rw [atToken, hdrop, ← hstart]
    have hlater := moved_later (byteLength before) (tokens (String.ofList after))
    refine ⟨parse_of_moved hsource rfl hlater, fun hsize => ?_⟩
    refine parse_of_moved hsource rfl (moved_exactly_tokens ?_)
    rw [hsource, byteLength_append] at hsize
    rwa [String.toList_ofList, Nat.add_comm]
  parse_end hk := by rw [atToken, List.drop_eq_nil_of_le hk, parse_nil]

end Session

/-! ### Token streams -/

namespace TokenStream

/-- The latest token and the place of two streams are the same, but later in the first. -/
structure Agrees (k : Nat) (s s' : TokenStream) : Prop where
  /-- The latest token. -/
  token : s.token? = s'.token?.map (Token.relocate (· + k))
  /-- Its value. -/
  value : s.value? = s'.value?
  /-- Why it has no value. -/
  error : s.error? = s'.error?
  /-- Where it starts, or the text ends. -/
  offset : s.tokenOffset = s'.tokenOffset + k
  /-- The place, and the text ahead. -/
  cursor : s.cursor = ⟨s'.cursor.offset + k, s'.cursor.rest⟩

theorem agrees_advance {k : Nat} {s s' : TokenStream}
    (h : s.cursor = ⟨s'.cursor.offset + k, s'.cursor.rest⟩) : Agrees k s.advance s'.advance := by
  have hnext := Cursor.next?_add s'.cursor.offset k s'.cursor.rest
  rw [← h] at hnext
  rcases hnext' : s'.cursor.next? with _ | ⟨t, c⟩ <;> rw [hnext'] at hnext
  · -- Both are at the end of their texts.
    have hskip : s.cursor.skipIgnored =
        ⟨s'.cursor.skipIgnored.offset + k, s'.cursor.skipIgnored.rest⟩ := by
      rw [Cursor.skipIgnored_of_next? hnext', Cursor.skipIgnored_of_next? hnext, h,
        Nat.add_right_comm]
    simp only [advance, hnext, hnext', Option.map_none]
    exact ⟨rfl, rfl, rfl, by rw [hskip], hskip⟩
  · simp only [advance, hnext, hnext', Option.map_some]
    exact ⟨rfl, rfl, rfl, rfl, rfl⟩

theorem agrees_iterate {k : Nat} {s s' : TokenStream}
    (h : s.cursor = ⟨s'.cursor.offset + k, s'.cursor.rest⟩) (i : Nat) :
    Agrees k (advance^[i + 1] s) (advance^[i + 1] s') := by
  induction i generalizing s s' with
  | zero => exact agrees_advance h
  | succ i ih => exact ih (agrees_advance h).cursor

/-- The place of a stream parts the text in two, and the second part is ahead. -/
def Inside (source : String) (s : TokenStream) : Prop :=
  ∃ before, source.toList = before ++ s.cursor.rest ∧ byteLength before = s.cursor.offset

theorem Inside.advance {source : String} {s : TokenStream} :
    Inside source s → Inside source s.advance := by
  rintro ⟨before, hsource, hlen⟩
  rcases hnext : s.cursor.next? with _ | ⟨t, c⟩
  · obtain ⟨-, hcursor, -⟩ := advance_of_none hnext
    refine ⟨source.toList, ?_, ?_⟩ <;> rw [hcursor]
    · rw [List.append_nil]
    · rw [hsource, byteLength_append, hlen]
  · obtain ⟨-, hcursor⟩ := advance_of_some hnext
    obtain ⟨-, gap, hrest, hstart, hoffset⟩ := Cursor.next?_eq_some hnext
    refine ⟨before ++ (gap ++ t.text.toList), ?_, ?_⟩ <;> rw [hcursor]
    · rw [hsource, hrest]
      simp only [List.append_assoc]
    · rw [byteLength_append, byteLength_append, hlen, hoffset, hstart, Nat.add_assoc]

/-- The latest token starts in the text, or the text ends. -/
theorem Inside.tokenOffset_le {source : String} {s : TokenStream} (h : Inside source s) :
    s.advance.tokenOffset ≤ byteLength source.toList := by
  obtain ⟨before, hsource, hlen⟩ := h.advance
  have hle : s.advance.tokenOffset ≤ s.advance.cursor.offset := by
    rcases hnext : s.cursor.next? with _ | ⟨t, c⟩
    · simp [TokenStream.advance, hnext]
    · obtain ⟨-, gap, -, -, hoffset⟩ := Cursor.next?_eq_some hnext
      simp [TokenStream.advance, hnext, hoffset]
  rw [hsource, byteLength_append]
  omega

theorem Inside.iterate {source : String} {s : TokenStream} (h : Inside source s) (i : Nat) :
    Inside source (TokenStream.advance^[i] s) := by
  induction i generalizing s with
  | zero => exact h
  | succ i ih => exact ih h.advance

theorem inside_of_mem_copies {source : String} {calls : List (CopyCall StreamCall)}
    {s : TokenStream} (h : s ∈ copies source calls) : Inside source s := by
  refine forall_mem_runCopies (P := Inside source) ?_ calls ?_ s h
  · rintro (_ | _) s hs
    · exact hs.advance
    · exact hs
  · rintro _ (_ | ⟨_, ⟨⟩⟩)
    exact ⟨[], rfl, rfl⟩

/-- A stream of a source text reports what another one reports of the text from some place on. -/
structure Continues (source : String) (k : Nat) (s s' : TokenStream) : Prop
    extends Agrees k s s' where
  /-- Where the latest token starts. -/
  start : s.tokenStart = laterBy k s'.tokenStart
  /-- No offset is cut down if all can be reported. -/
  start_of_le : byteLength source.toList ≤ maxOffset → s.tokenStart = s'.tokenStart + k

theorem Agrees.continues {source : String} {k : Nat} {s s' : TokenStream} (h : Agrees k s s')
    (hle : s.tokenOffset ≤ byteLength source.toList) : Continues source k s s' := by
  have hoffset := h.offset
  refine ⟨h, ?_, fun hsize => ?_⟩
  · rw [tokenStart, hoffset, tokenStart, laterBy, reportedOffset_add]
  · rw [tokenStart, tokenStart, reportedOffset_of_le (by omega), reportedOffset_of_le (by omega),
      hoffset]

end TokenStream

/-! ### Both together -/

/-- **Resuming is starting afresh.**  Whatever calls have been made on a new session and on copies
of it, a session on which `k` calls have succeeded stands at token `k` and parses the text from
there on.  Wherever calls have brought a new token stream and copies of it, further steps find the
tokens that a new stream finds in the text from there on.  Offsets that are too large to report are
cut down; no offset of a shorter text is. -/
theorem resume_eq_fresh (source : String) (options : ParseOptions) :
    (∀ calls, ∀ x ∈ Session.copies source options calls, x.1.Resumes source options x.2) ∧
    ∀ calls, ∀ s ∈ TokenStream.copies source calls, ∃ before after,
      source.toList = before ++ after ∧ byteLength before = s.cursor.offset ∧
      ∀ i, TokenStream.Continues source (byteLength before) (TokenStream.advance^[i + 1] s)
        (TokenStream.after (String.ofList after) (i + 1)) := by
  refine ⟨fun calls x hx => ?_, fun calls s hs => ?_⟩
  · rw [Session.eq_atToken_of_mem_copies hx]
    exact Session.resumes_atToken source options x.2
  · have hinside := TokenStream.inside_of_mem_copies hs
    have ⟨before, hsource, hlen⟩ := hinside
    refine ⟨before, s.cursor.rest, hsource, hlen, fun i => ?_⟩
    have hagrees : TokenStream.Agrees (byteLength before) (TokenStream.advance^[i + 1] s)
        (TokenStream.after (String.ofList s.cursor.rest) (i + 1)) :=
      TokenStream.agrees_iterate (by simp [TokenStream.ofString, Cursor.ofString, hlen]) i
    have hle := (hinside.iterate i).tokenOffset_le
    rw [← Function.iterate_succ_apply' TokenStream.advance] at hle
    exact hagrees.continues hle

/-- A copy that has moved past the first operation, with a failing call on the way, and a copy of a
stream that has moved past the first token. -/
theorem resume_eq_fresh_operation :
    ((Session.atToken "\x7ba\x7d#\nquery\x7bb\x7d" .unlimited 3, 3) ∈
      Session.copies "\x7ba\x7d#\nquery\x7bb\x7d" .unlimited
        [.call 0 .accept, .clone 0, .call 1 (.expect .name), .call 1 (.expect .name),
          .call 1 .accept] ∧
      Session.Resumes "\x7ba\x7d#\nquery\x7bb\x7d" .unlimited
        (Session.atToken "\x7ba\x7d#\nquery\x7bb\x7d" .unlimited 3) 3) ∧
    (TokenStream.after "a b" 1 ∈ TokenStream.copies "a b" [.clone 0, .call 1 .advance] ∧
      ∃ before after, "a b".toList = before ++ after ∧ byteLength before = 1 ∧
        ∀ i, TokenStream.Continues "a b" (byteLength before)
          (TokenStream.advance^[i + 1] (TokenStream.after "a b" 1))
          (TokenStream.after (String.ofList after) (i + 1))) := by
  have hsession : (Session.atToken "\x7ba\x7d#\nquery\x7bb\x7d" .unlimited 3, 3) ∈
      Session.copies "\x7ba\x7d#\nquery\x7bb\x7d" .unlimited
        [.call 0 .accept, .clone 0, .call 1 (.expect .name), .call 1 (.expect .name),
          .call 1 .accept] := by
    decide +kernel
  have hstream : TokenStream.after "a b" 1 ∈
      TokenStream.copies "a b" [.clone 0, .call 1 .advance] := by
    decide +kernel
  exact ⟨⟨hsession, (resume_eq_fresh _ _).1 _ _ hsession⟩,
    hstream, (resume_eq_fresh "a b" .unlimited).2 _ _ hstream⟩

/-! ### Texts that are too long to report all offsets -/

/-- The session that moves past two tokens. -/
theorem Session.atToken_two_mem_copies (source : String) (options : ParseOptions) :
    (atToken source options 2, 2) ∈
      copies source options [.call 0 .accept, .call 0 .accept] := by
  rw [← accept_atToken, ← accept_atToken]
  exact List.mem_cons_self

/-- At the text after a scalar type and spaces a session parses this text. -/
theorem Session.parse_scalarThen (n : Nat) (source : String) (options : ParseOptions) :
    (atToken (scalarThen n source) options 2).parse =
      resumed (laterBy (n + 9)) options (scalarThen n "").toList source.toList := by
  have hsource : (scalarThen n source).toList = (scalarThen n "").toList ++ source.toList := by
    rw [scalarThen_eq_append, String.toList_append]
  have hoffset : (Move.later (n + 9)).offset = (· + byteLength (scalarThen n "").toList) := by
    rw [byteLength_scalarThen]
    exact congrArg (fun k : Nat => (· + k)) (Nat.zero_add (n + 9)).symm
  have hmoved : Moved (.later (n + 9)) (tokens (String.ofList source.toList))
      ((tokens (scalarThen n source)).drop 2) := by
    rw [String.ofList_toList, tokens_scalarThen]
    exact moved_later _ _
  exact parse_of_moved hsource hoffset hmoved

/-- **Offsets are cut down.**  A session that has moved past the first type of a text stands at the
last place but five of which the offset can be reported.  It does not parse the text from there on
with each offset later by that place: the directive starts eight bytes after it. -/
theorem resume_cutDown :
    (Session.atToken (scalarThen (maxOffset - 14) "scalar B@c") .unlimited 2, 2) ∈
      Session.copies (scalarThen (maxOffset - 14) "scalar B@c") .unlimited
        [.call 0 .accept, .call 0 .accept] ∧
    scalarThen (maxOffset - 14) "scalar B@c" = scalarThen (maxOffset - 14) "" ++ "scalar B@c" ∧
    byteLength (scalarThen (maxOffset - 14) "").toList = 4294967290 ∧
    startOf (scalarThen (maxOffset - 14) "scalar B@c") 2 = 4294967290 ∧
    parse "scalar B@c" = .ok ⟨[.type ⟨none, ⟨"B", [⟨"c", [], 8⟩], .scalar⟩, 0⟩], 0⟩ ∧
    (Session.atToken (scalarThen (maxOffset - 14) "scalar B@c") .unlimited 2).parse ≠
      .ok (Document.relocate (· + 4294967290)
        ⟨[.type ⟨none, ⟨"B", [⟨"c", [], 8⟩], .scalar⟩, 0⟩], 0⟩) := by
  have hparse : parseWith .unlimited "scalar B@c" =
      .ok ⟨[.type ⟨none, ⟨"B", [⟨"c", [], 8⟩], .scalar⟩, 0⟩], 0⟩ := by decide +kernel
  have htokens : tokens "scalar B@c" ≠ [] := by decide +kernel
  have hlength : byteLength (scalarThen (maxOffset - 14) "").toList = 4294967290 := by
    rw [byteLength_scalarThen]
    rfl
  have hstart : startOf (scalarThen (maxOffset - 14) "scalar B@c") 2 = 4294967290 := by
    rw [startOf, tokens_scalarThen]
    decide +kernel
  refine ⟨Session.atToken_two_mem_copies _ _, scalarThen_eq_append _ _, hlength, hstart, hparse, ?_⟩
  rw [Session.parse_scalarThen, Session.resumed, String.ofList_toList, hparse]
  simp only [if_neg htokens]
  decide +kernel

end GraphQL
