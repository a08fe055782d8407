import GraphQL.Proofs.Lexical.Places
import GraphQL.Proofs.Parse.Copies

/-!
# The state of a token stream

What a token stream says about its latest token agrees with the source text, whatever calls have
been made on the stream and on copies of it (`TokenStream.consistent_of_mem_uses`): where the token
and the place reached are, what the value or the error of a string literal is, and whether there
are more tokens.  Nothing of an earlier token is left over.

Each call preserves that the latest token stands just before the place reached, and that its value
is there unless taken, or its error (`TokenStream.Steady`); all else follows from these.
-/

namespace GraphQL

/-! ### Values of string literals -/

/-- What the content between the delimiters of a string literal decodes to. -/
inductive LiteralDecodes : String → Except StringError String → Prop where
  /-- Triple quotes delimit a block string. -/
  | block (content : List Char) :
    LiteralDecodes (String.ofList ('"' :: '"' :: '"' :: content ++ ['"', '"', '"']))
      (decodeBlock (String.ofList content))
  /-- Single quotes delimit any other string. -/
  | quoted (content : List Char) (h : ¬ ['"', '"', '"'] <+: '"' :: content ++ ['"']) :
    LiteralDecodes (String.ofList ('"' :: content ++ ['"'])) (decodeQuoted (String.ofList content))

namespace Lexes

variable {source after : List Char} {l : Lexeme}

theorem literalDecodes_quoted {rest content : List Char}
    (hb : ¬ ['"', '"', '"'] <+: '"' :: rest) (hrest : rest = content ++ '"' :: after) :
    LiteralDecodes (String.ofList ('"' :: content ++ ['"']))
      (decodeQuoted (String.ofList content)) := by
  refine .quoted content fun h => hb (h.trans ⟨after, ?_⟩)
  rw [hrest, List.append_assoc]
  rfl

/-- The value of a string literal is its content decoded. -/
theorem literalDecodes_value (h : Lexes source l after) {value : String}
    (hl : l.value? = some value) : LiteralDecodes l.text (.ok value) := by
  cases h with
  | block hrest _ hv =>
    cases hl
    exact hv ▸ .block _
  | quoted hb hrest _ hv =>
    cases hl
    exact hv ▸ literalDecodes_quoted hb hrest
  | _ => cases hl

/-- A string literal without a value does not end, or its content does not decode. -/
theorem literalDecodes_error (h : Lexes source l after) {cause : StringError}
    (hl : l.error? = some cause) :
    cause = .unterminated ∨ LiteralDecodes l.text (.error cause) := by
  cases h with
  | badBlock hrest _ hv =>
    cases hl
    exact .inr (hv ▸ .block _)
  | badQuoted hb hrest _ hv =>
    cases hl
    exact .inr (hv ▸ literalDecodes_quoted hb hrest)
  | openBlock _ | openQuoted _ _ =>
    cases hl
    exact .inl rfl
  | _ => cases hl

end Lexes

theorem Lexeme.isSome_value?_iff (l : Lexeme) : l.value?.isSome ↔ l.kind = .string := by
  cases l <;> simp [value?, kind]

theorem Lexeme.isSome_error?_iff (l : Lexeme) : l.error?.isSome ↔ l.kind = .invalidString := by
  cases l <;> simp [error?, kind]

/-! ### The end of the text -/

/-- There is no further token where only ignored text is left. -/
theorem Cursor.next?_eq_none_iff {c : Cursor} : c.next? = none ↔ c.skipIgnored.rest = [] := by
  constructor
  · intro h
    rw [skipIgnored_of_next? h]
  · intro h
    rw [next?, h]
    rfl

namespace TokenStream

variable {source : String} {s : TokenStream} {taken : Bool}

theorem kind?_advance_eq_none_iff : s.advance.kind? = none ↔ s.cursor.next? = none := by
  rcases h : s.cursor.next? with _ | ⟨t, c⟩
  · simp [kind?, (advance_of_none h).1]
  · simp [kind?, (advance_of_some h).1]

theorem isDone_iff : s.isDone = true ↔ s.advance.kind? = none := by
  rw [isDone, List.isEmpty_iff, kind?_advance_eq_none_iff, Cursor.next?_eq_none_iff]

theorem isDone_advance (h : s.isDone = true) : s.advance.isDone = true := by
  have hnext := kind?_advance_eq_none_iff.1 (isDone_iff.1 h)
  rw [isDone, (advance_of_none hnext).2.1]
  rfl

/-! ### Calls -/

/-- A call that changes a token stream. -/
inductive Use where
  /-- Moves to the next token. -/
  | advance
  /-- Moves to the next token and hands it out. -/
  | next
  /-- Takes out the value of the latest token. -/
  | takeValue
  deriving DecidableEq, Repr

/-- A token stream after a call, and whether a value has been taken out since the latest step. -/
def use : Use → TokenStream × Bool → TokenStream × Bool
  | .advance, (s, _) => (s.advance, false)
  | .next, (s, _) => (s.next.2, false)
  | .takeValue, (s, _) => (s.takeValue.2, true)

/-- The token streams that calls on the stream of a source text and on copies of it lead to. -/
def uses (source : String) (calls : List (CopyCall Use)) : List (TokenStream × Bool) :=
  runCopies use calls [(ofString source, false)]

/-! ### What each call preserves -/

/-- The latest token, if there is one, stands just before the place reached, its value is there
unless taken, and its error is there. -/
structure Steady (source : String) (s : TokenStream) (taken : Bool) : Prop where
  source_eq : s.source = source
  place : ∃ before, source.toList = before ++ (s.tokenText.toList ++ s.cursor.rest) ∧
    s.tokenOffset = byteLength before ∧
    s.cursor.offset = byteLength (before ++ s.tokenText.toList)
  genuine : ∀ t ∈ s.token?, t.lexeme.Genuine
  value_eq : s.value? = if taken then none else s.token?.bind (·.lexeme.value?)
  error_eq : s.error? = s.token?.bind (·.lexeme.error?)

namespace Steady

theorem ofString (source : String) : Steady source (ofString source) false where
  source_eq := rfl
  place := ⟨[], rfl, rfl, rfl⟩
  genuine := by rintro _ ⟨⟩
  value_eq := rfl
  error_eq := rfl

theorem advance (h : Steady source s taken) : Steady source s.advance false := by
  obtain ⟨before, hsource, -, hoffset⟩ := h.place
  rw [← List.append_assoc] at hsource
  generalize before ++ s.tokenText.toList = pre at hsource hoffset
  rcases hnext : s.cursor.next? with _ | ⟨t, after⟩
  · -- The end of the text takes the place of a token, and nothing comes after it.
    have hend : s.cursor.offset + byteLength s.cursor.rest = byteLength source.toList := by
      rw [hsource, byteLength_append, hoffset]
    simp only [TokenStream.advance, hnext, Cursor.skipIgnored_of_next? hnext, hend]
    exact ⟨h.source_eq, ⟨source.toList, by simp [tokenText], rfl, by simp [tokenText]⟩,
      by simp, rfl, rfl⟩
  · obtain ⟨hgenuine, gap, hrest, hstart, hstop⟩ := Cursor.next?_eq_some hnext
    simp only [TokenStream.advance, hnext]
    refine ⟨h.source_eq, ⟨pre ++ gap, ?_, ?_, ?_⟩, ?_, rfl, rfl⟩
    · rw [hsource, hrest, List.append_assoc]
      rfl
    · rw [hstart, hoffset, byteLength_append]
    · rw [hstop, hstart, hoffset, byteLength_append, byteLength_append]
      rfl
    · rintro _ ⟨⟩
      exact hgenuine

theorem takeValue (h : Steady source s taken) : Steady source s.takeValue.2 true :=
  ⟨h.source_eq, h.place, h.genuine, rfl, h.error_eq⟩

end Steady

/-- Calls on a new token stream and on copies of it preserve what a new one has. -/
theorem steady_of_mem_uses {calls : List (CopyCall Use)} {x : TokenStream × Bool}
    (h : x ∈ uses source calls) : Steady source x.1 x.2 := by
  refine forall_mem_runCopies (P := fun x => Steady source x.1 x.2) ?_ calls ?_ x h
  · rintro (_ | _ | _) ⟨s, taken⟩ hs
    · exact hs.advance
    · exact hs.advance
    · exact hs.takeValue
  · rintro _ (_ | ⟨_, ⟨⟩⟩)
    exact .ofString source

/-! ### What a state says -/

/-- What a token stream says about its latest token and the place reached agrees with the source
text. -/
structure Consistent (source : String) (s : TokenStream) (taken : Bool) : Prop where
  /-- The text of the latest token stands between its start and the place reached, neither of them
  inside a character, and lines are counted up to there. -/
  place : ∃ before, source.toList = before ++ (s.tokenText.toList ++ s.cursor.rest) ∧
    s.tokenOffset = byteLength before ∧
    s.cursor.offset = byteLength (before ++ s.tokenText.toList) ∧
    s.tokenLine = 1 + before.count '\n' ∧
    s.line = 1 + (before ++ s.tokenText.toList).count '\n'
  /-- The place reached is between the start of the latest token and the end of the text. -/
  offsets : s.tokenOffset ≤ s.cursor.offset ∧ s.cursor.offset ≤ byteLength source.toList
  /-- The place reached is on no earlier line than the latest token. -/
  lines : s.tokenLine ≤ s.line
  /-- Without a token there is no text. -/
  text : s.kind? = none → s.tokenText = ""
  /-- Invalid strings alone have an error. -/
  error : s.error?.isSome ↔ s.kind? = some .invalidString
  /-- The error is that of decoding the content, unless the literal does not end. -/
  cause : ∀ cause ∈ s.error?,
    cause = .unterminated ∨ LiteralDecodes s.tokenText (.error cause)
  /-- Strings alone have a value, until it is taken. -/
  value : s.value?.isSome ↔ s.kind? = some .string ∧ taken = false
  /-- The value is that of decoding the content. -/
  decoded : ∀ value ∈ s.value?, LiteralDecodes s.tokenText (.ok value)

namespace Steady

theorem isSome_error?_iff (h : Steady source s taken) :
    s.error?.isSome ↔ s.kind? = some .invalidString := by
  rw [h.error_eq]
  rcases ht : s.token? with _ | t
  · simp [kind?, ht]
  · simpa [kind?, ht, Token.kind] using t.lexeme.isSome_error?_iff

theorem isSome_value?_iff (h : Steady source s taken) :
    s.value?.isSome ↔ s.kind? = some .string ∧ taken = false := by
  rw [h.value_eq]
  cases taken
  · rcases ht : s.token? with _ | t
    · simp [kind?, ht]
    · simpa [kind?, ht, Token.kind] using t.lexeme.isSome_value?_iff
  · simp

theorem lexes (h : Steady source s taken) {t : Token} (ht : s.token? = some t) :
    Lexes t.text.toList t.lexeme [] := by
  have hread := (h.genuine t ht).again .nil (.inl rfl)
  rw [List.append_nil] at hread
  exact Lexeme.read_eq_some_iff.1 hread

theorem consistent (h : Steady source s taken) : Consistent source s taken := by
  obtain ⟨before, hsource, hstart, hoffset⟩ := h.place
  have hle : s.tokenOffset ≤ s.cursor.offset := by
    rw [hstart, hoffset, byteLength_append]
    exact Nat.le_add_right _ _
  refine ⟨⟨before, hsource, hstart, hoffset, ?_, ?_⟩, ⟨hle, ?_⟩, lineAt_mono _ hle, ?_,
    h.isSome_error?_iff, ?_, h.isSome_value?_iff, ?_⟩
  · rw [tokenLine, h.source_eq, hstart, lineAt_append hsource]
  · rw [line, h.source_eq, hoffset, lineAt_append (by rw [hsource, List.append_assoc])]
  · rw [hoffset, hsource, ← List.append_assoc, byteLength_append (before ++ _)]
    exact Nat.le_add_right _ _
  · intro hkind
    rw [tokenText, Option.map_eq_none_iff.1 hkind]
    rfl
  · intro cause hcause
    rw [h.error_eq] at hcause
    obtain ⟨t, ht, hl⟩ := Option.bind_eq_some_iff.1 hcause
    rw [tokenText, ht]
    exact (h.lexes ht).literalDecodes_error hl
  · intro value hvalue
    rw [h.value_eq] at hvalue
    cases taken
    · obtain ⟨t, ht, hl⟩ := Option.bind_eq_some_iff.1 hvalue
      rw [tokenText, ht]
      exact (h.lexes ht).literalDecodes_value hl
    · cases hvalue

end Steady

/-- A stream that is done stays so, whatever calls are made on it and on copies of it. -/
theorem isDone_of_mem_runCopies (h : s.isDone = true) {calls : List (CopyCall Use)}
    {x : TokenStream × Bool} (hx : x ∈ runCopies use calls [(s, taken)]) :
    x.1.isDone = true := by
  refine forall_mem_runCopies (P := fun x => x.1.isDone = true) ?_ calls ?_ x hx
  · rintro (_ | _ | _) ⟨s, taken⟩ hs
    · exact isDone_advance hs
    · exact isDone_advance hs
    · exact hs
  · rintro _ (_ | ⟨_, ⟨⟩⟩)
    exact h

/-- **The state of a token stream is consistent**, whatever calls have been made on it and on
copies of it.  It is done exactly if the next step finds no token, and then no later step does. -/
theorem consistent_of_mem_uses (source : String) (calls : List (CopyCall Use)) {s : TokenStream}
    {taken : Bool} (h : (s, taken) ∈ uses source calls) :
    Consistent source s taken ∧ (s.isDone = true ↔ s.advance.kind? = none) ∧
      (s.isDone = true → ∀ calls, ∀ x ∈ runCopies use calls [(s, taken)],
        x.1.advance.kind? = none ∧ x.1.next.1 = none) := by
  refine ⟨(steady_of_mem_uses h).consistent, isDone_iff, fun hdone calls x hx => ?_⟩
  have hkind := isDone_iff.1 (isDone_of_mem_runCopies hdone hx)
  exact ⟨hkind, Option.map_eq_none_iff.1 hkind⟩

/-- A copy whose value is taken, at the end of a text with a comment. -/
theorem consistent_of_mem_uses_string :
    ∃ s, (s, true) ∈ uses "a \"b\" #" [.call 0 .next, .clone 0, .call 1 .advance,
        .call 1 .takeValue] ∧
      Consistent "a \"b\" #" s true ∧ (s.isDone = true ↔ s.advance.kind? = none) := by
  have h : (⟨"a \"b\" #", ⟨5, [' ', '#']⟩, some ⟨.string "\"b\"" "b", 2⟩, 2, none, none⟩, true) ∈
      uses "a \"b\" #" [.call 0 .next, .clone 0, .call 1 .advance, .call 1 .takeValue] := by
    decide +kernel
  obtain ⟨hconsistent, hdone, -⟩ := consistent_of_mem_uses _ _ h
  exact ⟨_, h, hconsistent, hdone⟩

end TokenStream

end GraphQL
