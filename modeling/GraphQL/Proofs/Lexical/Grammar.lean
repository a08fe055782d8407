import GraphQL.Proofs.Lexical.LongestMatch
import GraphQL.Proofs.Lexical.Tokens

/-!
# The lexical grammar

What the tokens of a text are, without reference to how it is scanned.  `Lexes` says which lexeme
stands at the start of a text: the longest name or number, a string literal up to the first quote
that closes it, a punctuator, or a single character if none of these starts.  `Scans` lays a whole
text out as lexemes with ignored units between.  Scanning a text finds this layout, and there is no
other (`tokens_eq_iff`).
-/

namespace GraphQL

/-- The lexeme at the start of a text, and the text after it. -/
inductive Lexes : List Char → Lexeme → List Char → Prop where
  /-- The longest name, if it is no keyword. -/
  | name {w after : List Char} (h : IsLongest LexicalText.name w (w ++ after))
    (hk : ∀ k : Keyword, k.text ≠ String.ofList w) :
    Lexes (w ++ after) (.name (String.ofList w)) after
  /-- The longest name, if it is a keyword. -/
  | keyword {k : Keyword} {after : List Char}
    (h : IsLongest LexicalText.name k.text.toList (k.text.toList ++ after)) :
    Lexes (k.text.toList ++ after) (.keyword k) after
  /-- The longest number, if it has neither fraction nor exponent. -/
  | int {w after : List Char} (h : IsLongest LexicalText.number w (w ++ after))
    (hw : w ∈ LexicalText.integer) : Lexes (w ++ after) (.int (String.ofList w)) after
  /-- The longest number, if it has a fraction or an exponent. -/
  | float {w after : List Char} (h : IsLongest LexicalText.number w (w ++ after))
    (hw : w ∈ LexicalText.float) : Lexes (w ++ after) (.float (String.ofList w)) after
  /-- A block string that has a value. -/
  | block {rest content after : List Char} {value : String}
    (hrest : rest = content ++ '"' :: '"' :: '"' :: after)
    (h : BlockUnits content ('"' :: '"' :: '"' :: after))
    (hv : decodeBlock (String.ofList content) = .ok value) :
    Lexes ('"' :: '"' :: '"' :: rest)
      (.string (String.ofList ('"' :: '"' :: '"' :: content ++ ['"', '"', '"'])) value) after
  /-- A block string that has no value. -/
  | badBlock {rest content after : List Char} {cause : StringError}
    (hrest : rest = content ++ '"' :: '"' :: '"' :: after)
    (h : BlockUnits content ('"' :: '"' :: '"' :: after))
    (hv : decodeBlock (String.ofList content) = .error cause) :
    Lexes ('"' :: '"' :: '"' :: rest)
      (.invalidString (String.ofList ('"' :: '"' :: '"' :: content ++ ['"', '"', '"'])) cause) after
  /-- A block string that does not end. -/
  | openBlock {rest : List Char} (h : BlockUnits rest []) :
    Lexes ('"' :: '"' :: '"' :: rest)
      (.invalidString (String.ofList ('"' :: '"' :: '"' :: rest)) .unterminated) []
  /-- A quoted string that has a value. -/
  | quoted {rest content after : List Char} {value : String}
    (hb : ¬ ['"', '"', '"'] <+: '"' :: rest) (hrest : rest = content ++ '"' :: after)
    (h : FirstCloses content) (hv : decodeQuoted (String.ofList content) = .ok value) :
    Lexes ('"' :: rest) (.string (String.ofList ('"' :: content ++ ['"'])) value) after
  /-- A quoted string that has no value. -/
  | badQuoted {rest content after : List Char} {cause : StringError}
    (hb : ¬ ['"', '"', '"'] <+: '"' :: rest) (hrest : rest = content ++ '"' :: after)
    (h : FirstCloses content) (hv : decodeQuoted (String.ofList content) = .error cause) :
    Lexes ('"' :: rest) (.invalidString (String.ofList ('"' :: content ++ ['"'])) cause) after
  /-- A quoted string that does not end. -/
  | openQuoted {rest : List Char} (hb : ¬ ['"', '"', '"'] <+: '"' :: rest)
    (h : NoneCloses rest) :
    Lexes ('"' :: rest) (.invalidString (String.ofList ('"' :: rest)) .unterminated) []
  /-- A punctuator. -/
  | punctuator {p : Punctuator} {after : List Char} :
    Lexes (p.text.toList ++ after) (.punctuator p) after
  /-- A character at which nothing else starts. -/
  | unknown {c : Char} {after : List Char} (hname : ∀ w ∈ LexicalText.name, ¬ w <+: c :: after)
    (hnumber : ∀ w ∈ LexicalText.number, ¬ w <+: c :: after) (hstring : c ≠ '"')
    (hpunct : ∀ p : Punctuator, ¬ p.text.toList <+: c :: after) :
    Lexes (c :: after) (.unknownCharacter c) after

/-- The tokens of a text from a byte offset on. -/
inductive Scans : Nat → List Char → List Token → Prop where
  /-- Only ignored units are left. -/
  | done {offset : Nat} {gap : List Char} (h : Gap gap []) : Scans offset gap []
  /-- A lexeme stands after all ignored units. -/
  | token {offset : Nat} {gap here after : List Char} {l : Lexeme} {ts : List Token}
    (hgap : Gap gap here) (hstart : ¬ StartsIgnored here) (hl : Lexes here l after)
    (h : Scans (offset + byteLength gap + byteLength l.text.toList) after ts) :
    Scans offset (gap ++ here) (⟨l, offset + byteLength gap⟩ :: ts)

namespace Lexes

open Lexeme

variable {source after : List Char} {l : Lexeme}

theorem read_of_longest_name {w : List Char} (h : IsLongest LexicalText.name w (w ++ after)) :
    read (w ++ after) = some (ofName (String.ofList w), after) := by
  obtain ⟨c, cs, hc, -, rfl⟩ := LexicalText.mem_name.1 h.mem
  have heq := (isLongest_name hc (cs ++ after)).unique h
  have hafter := List.takeWhile_append_dropWhile (p := isNamePart) (l := cs ++ after)
  obtain ⟨-, hcs⟩ := List.cons.inj heq
  rw [hcs] at hafter
  rw [List.cons_append, read_name hc, hcs, List.append_cancel_left hafter]

theorem read_of_longest_number {w : List Char} (h : IsLongest LexicalText.number w (w ++ after)) :
    ∃ n, numberParts? (w ++ after) = some n ∧ n.text = w ∧
      read (w ++ after) = some (ofNumber n, after) := by
  obtain ⟨n, hn, -⟩ := numberParts?_append_of_mem h.mem after
  obtain rfl := (numberParts?_isLongest hn).unique h
  refine ⟨n, hn, rfl, ?_⟩
  obtain ⟨c, rest, hsource, hc⟩ := numberParts?_first hn
  have hdrop : (c :: rest).drop n.text.length = after := by rw [← hsource, List.drop_left]
  rw [hsource] at hn ⊢
  rw [read_number hc hn, hdrop]

/-- The lexeme at the start of a text is read there. -/
theorem read (h : Lexes source l after) : Lexeme.read source = some (l, after) := by
  cases h with
  | name h hk => rw [read_of_longest_name h, ofName_of_forall_ne hk]
  | @keyword k _ h => rw [read_of_longest_name h, String.ofList_toList, ofName_text]
  | @int w _ h hw =>
    obtain ⟨n, hn, rfl, hread⟩ := read_of_longest_number h
    -- The number read is the text itself, which is not both an integer and a float.
    obtain ⟨-, hl⟩ | ⟨hfloat, -⟩ := kind_ofNumber n
    · rw [hread, hl]
    · exact absurd (float_of_numberParts hn hfloat) (LexicalText.not_mem_float hw)
  | @float w _ h hw =>
    obtain ⟨n, hn, rfl, hread⟩ := read_of_longest_number h
    obtain ⟨hint, -⟩ | ⟨-, hl⟩ := kind_ofNumber n
    · exact absurd hw (LexicalText.not_mem_float (integer_of_numberParts hn hint))
    · rw [hread, hl]
  | block hrest h hv | badBlock hrest h hv =>
    rw [read_string, readString_of_block, splitBlock_eq_some.2 ⟨hrest, h⟩]
    simp only [ofBlock, hv, ofLiteral]
  | openBlock h =>
    rw [read_string, readString_of_block, splitBlock_eq_none.2 h]
    rfl
  | quoted hb hrest h hv | badQuoted hb hrest h hv =>
    rw [read_string, readString_of_quoted fun r hr => hb ⟨r, by rw [hr]; rfl⟩,
      splitQuoted_eq_some.2 ⟨hrest, h⟩]
    simp only [ofQuoted, hv, ofLiteral]
  | openQuoted hb h =>
    rw [read_string, readString_of_quoted fun r hr => hb ⟨r, by rw [hr]; rfl⟩,
      splitQuoted_eq_none.2 h]
    rfl
  | @punctuator p => cases p <;> rfl
  | @unknown c after hname hnumber hstring hpunct =>
    -- Reading tries names, numbers and punctuators in turn, and none of them is there.
    have hc : isNameStart c = false := by
      by_contra hc
      exact hname [c] (LexicalText.mem_name.2 ⟨c, [], by simpa using hc, by simp, rfl⟩)
        ⟨after, rfl⟩
    have hp : Punctuator.ofChar? c = none := by
      cases hp : Punctuator.ofChar? c with
      | none => rfl
      | some p => exact absurd ⟨after, by rw [Punctuator.text_of_ofChar? hp]; rfl⟩ (hpunct p)
    simp only [Lexeme.read, hc, numberParts?_eq_none.2 hnumber, hstring, hp, Bool.false_eq_true,
      if_false]
    split
    · rfl
    · split
      · rename_i hdot
        subst hdot
        split
        · exact absurd ⟨_, rfl⟩ (hpunct .ellipsis)
        · rfl
      · rfl

theorem exists_of_name {c : Char} (hc : isNameStart c = true) (rest : List Char) :
    ∃ l after, Lexes (c :: rest) l after := by
  have hlongest := isLongest_name hc rest
  have hsplit : c :: rest = c :: rest.takeWhile isNamePart ++ rest.dropWhile isNamePart := by
    rw [List.cons_append, List.takeWhile_append_dropWhile]
  generalize c :: rest.takeWhile isNamePart = w at hlongest hsplit
  rw [hsplit] at hlongest ⊢
  -- A keyword takes precedence over a name of the same text.
  by_cases hk : ∃ k : Keyword, k.text = String.ofList w
  · obtain ⟨k, hk⟩ := hk
    obtain rfl : k.text.toList = w := by rw [hk, String.toList_ofList]
    exact ⟨_, _, .keyword hlongest⟩
  · exact ⟨_, _, .name hlongest (not_exists.1 hk)⟩

theorem exists_of_number {n : NumberParts} (hn : numberParts? source = some n) :
    ∃ l after, Lexes source l after := by
  obtain ⟨after, rfl⟩ := numberParts?_append hn
  have hlongest := numberParts?_isLongest hn
  cases hint : n.isInteger with
  | true => exact ⟨_, _, .int hlongest (integer_of_numberParts hn hint)⟩
  | false => exact ⟨_, _, .float hlongest (float_of_numberParts hn hint)⟩

theorem exists_of_block (rest : List Char) :
    ∃ l after, Lexes ('"' :: '"' :: '"' :: rest) l after := by
  rcases hs : splitBlock rest with _ | ⟨content, after⟩
  · exact ⟨_, _, .openBlock (splitBlock_eq_none.1 hs)⟩
  · obtain ⟨hrest, h⟩ := splitBlock_eq_some.1 hs
    cases hv : decodeBlock (String.ofList content) with
    | ok value => exact ⟨_, _, .block hrest h hv⟩
    | error cause => exact ⟨_, _, .badBlock hrest h hv⟩

theorem exists_of_quoted {rest : List Char} (hb : ¬ ['"', '"', '"'] <+: '"' :: rest) :
    ∃ l after, Lexes ('"' :: rest) l after := by
  rcases hs : splitQuoted rest with _ | ⟨content, after⟩
  · exact ⟨_, _, .openQuoted hb (splitQuoted_eq_none.1 hs)⟩
  · obtain ⟨hrest, h⟩ := splitQuoted_eq_some.1 hs
    cases hv : decodeQuoted (String.ofList content) with
    | ok value => exact ⟨_, _, .quoted hb hrest h hv⟩
    | error cause => exact ⟨_, _, .badQuoted hb hrest h hv⟩

/-- Some lexeme stands at the start of a text. -/
theorem exists_lexes (c : Char) (rest : List Char) : ∃ l after, Lexes (c :: rest) l after := by
  by_cases hname : isNameStart c = true
  · exact exists_of_name hname rest
  cases hnumber : numberParts? (c :: rest) with
  | some n => exact exists_of_number hnumber
  | none =>
    by_cases hstring : c = '"'
    · subst hstring
      by_cases hb : ['"', '"', '"'] <+: '"' :: rest
      · obtain ⟨rest, hrest⟩ := hb
        rw [← hrest]
        exact exists_of_block rest
      · exact exists_of_quoted hb
    by_cases hpunct : ∃ p : Punctuator, p.text.toList <+: c :: rest
    · obtain ⟨p, after, hafter⟩ := hpunct
      rw [← hafter]
      exact ⟨_, _, .punctuator⟩
    · -- Nothing of the language starts here.
      refine ⟨_, _, .unknown ?_ (numberParts?_eq_none.1 hnumber) hstring (not_exists.1 hpunct)⟩
      rintro w hw hpre
      obtain ⟨d, ds, hd, -, rfl⟩ := LexicalText.mem_name.1 hw
      obtain ⟨rfl, -⟩ := List.cons_prefix_cons.1 hpre
      exact hname hd

end Lexes

/-- What is read at the start of a text is the lexeme that stands there. -/
theorem Lexeme.read_eq_some_iff {source after : List Char} {l : Lexeme} :
    Lexeme.read source = some (l, after) ↔ Lexes source l after := by
  refine ⟨fun h => ?_, Lexes.read⟩
  rcases source with _ | ⟨c, rest⟩
  · cases h
  · obtain ⟨l', after', hl⟩ := Lexes.exists_lexes c rest
    -- Some lexeme stands there, and reading finds that one.
    rw [hl.read] at h
    cases h
    exact hl

theorem Lexeme.read_ne_none {source : List Char} (h : Lexeme.read source = none) :
    source = [] := by
  rcases source with _ | ⟨c, rest⟩
  · rfl
  · cases h

theorem Cursor.scans_tokens (c : Cursor) : Scans c.offset c.rest c.tokens := by
  induction c using tokens_induction with
  | h c ih =>
    obtain ⟨gap, here, hsource, hgap, hs⟩ := exists_gap c.rest
    obtain ⟨offset, source⟩ := c
    obtain rfl : source = gap ++ here := hsource
    rw [tokens_eq]
    have hnext := next?_of_gap hgap hs offset
    rcases hread : Lexeme.read here with _ | ⟨l, after⟩ <;> rw [hread] at hnext
    · obtain rfl := Lexeme.read_ne_none hread
      rw [hnext, List.append_nil]
      exact .done hgap
    · rw [hnext]
      exact .token hgap hs (Lexeme.read_eq_some_iff.1 hread) (ih _ _ hnext)

theorem Scans.tokens {offset : Nat} {source : List Char} {ts : List Token}
    (h : Scans offset source ts) : Cursor.tokens ⟨offset, source⟩ = ts := by
  induction h with
  | @done offset gap hgap =>
    have hnext := Cursor.next?_of_gap hgap not_startsIgnored_nil offset
    rw [List.append_nil] at hnext
    rw [Cursor.tokens_eq, hnext]
    rfl
  | token hgap hs hl _ ih =>
    rw [Cursor.tokens_eq, Cursor.next?_of_gap hgap hs, hl.read, Option.map_some]
    exact congrArg _ ih

/-- **The tokens of a text** are those of its layout by the lexical grammar, which is the only
one. -/
theorem tokens_eq_iff (source : String) (ts : List Token) :
    tokens source = ts ↔ Scans 0 source.toList ts := by
  constructor
  · rintro rfl
    exact Cursor.scans_tokens (Cursor.ofString source)
  · exact Scans.tokens

end GraphQL
