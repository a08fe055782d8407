import GraphQL.Proofs.Lexical.Concatenation
import GraphQL.Proofs.Literal.Block
import GraphQL.Proofs.Literal.Content

/-!
# Printing block strings

Texts can be written as block strings in two ways.  Line by line, with any indentation, triple
quotes get a backslash and nothing else changes (`blockLiteral`).  In one line, quotes, backslashes
and line breaks are written as escape sequences (`InLine`), which can be done to every text.
Scanning finds the text again, whatever comes after the literal (`isLiteralOf_printed`).
-/

namespace GraphQL

/-! ### Escaping triple quotes -/

/-- Writes a backslash before each triple quote, from left to right. -/
def escapeTripleQuotes : List Char → List Char
  | '"' :: '"' :: '"' :: rest => '\\' :: '"' :: '"' :: '"' :: escapeTripleQuotes rest
  | c :: rest => c :: escapeTripleQuotes rest
  | [] => []

/-- A character other than a quote parts a text in two that are escaped each by itself. -/
theorem escapeTripleQuotes_append {c : Char} (hc : c ≠ '"') (text rest : List Char) :
    escapeTripleQuotes (text ++ c :: rest) =
      escapeTripleQuotes text ++ c :: escapeTripleQuotes rest := by
  induction text using escapeTripleQuotes.induct with
  | case1 text ih => simp only [List.cons_append, escapeTripleQuotes, ih]
  | case2 d text hne ih =>
    rw [List.cons_append, escapeTripleQuotes, ih, escapeTripleQuotes, List.cons_append]
    · exact hne
    · -- A triple quote would have to go on over `c`.
      rintro s rfl hs
      rcases text with _ | ⟨a, _ | ⟨b, text⟩⟩
      · exact hc (List.cons.inj hs).1
      · exact hc (List.cons.inj (List.cons.inj hs).2).1
      · simp only [List.cons_append, List.cons.injEq] at hs
        obtain ⟨rfl, rfl, -⟩ := hs
        exact hne text rfl rfl
  | case3 =>
    rw [List.nil_append, escapeTripleQuotes]
    · rfl
    · rintro s rfl
      exact absurd rfl hc

theorem escapeTripleQuotes_of_not_mem {text : List Char} (h : '"' ∉ text) :
    escapeTripleQuotes text = text := by
  induction text using escapeTripleQuotes.induct with
  | case1 text ih => simp at h
  | case2 c text hne ih =>
    rw [escapeTripleQuotes, ih fun hmem => h (List.mem_cons_of_mem _ hmem)]
    exact hne
  | case3 => rfl

theorem escapeTripleQuotes_joinLines (lines : List (List Char)) :
    escapeTripleQuotes (joinLines lines) = joinLines (lines.map escapeTripleQuotes) := by
  induction lines using joinLines.induct with
  | case1 => rfl
  | case2 line => rfl
  | case3 line lines h ih =>
    rw [joinLines_cons line h, escapeTripleQuotes_append (by decide), ih, List.map_cons,
      joinLines_cons _ (by simpa using h)]

theorem unescape_escapeTripleQuotes {text : List Char} (h : '\\' ∉ text) :
    unescapeTripleQuotes (escapeTripleQuotes text) = text := by
  induction text using escapeTripleQuotes.induct with
  | case1 text ih =>
    have hrest : '\\' ∉ text := by simp_all
    rw [escapeTripleQuotes, unescapeTripleQuotes, ih hrest]
  | case2 c text hne ih =>
    rw [List.mem_cons, not_or] at h
    rw [escapeTripleQuotes, unescapeTripleQuotes_cons (Ne.symm h.1), ih h.2]
    exact hne
  | case3 => rfl

/-- A quote that an escaped text starts with is the first character of the text itself. -/
theorem eq_cons_of_quote_prefix {text p rest : List Char}
    (h : '"' :: p <+: escapeTripleQuotes text ++ rest) :
    text = [] ∨ ∃ text', text = '"' :: text' ∧ p <+: escapeTripleQuotes text' ++ rest := by
  cases text using escapeTripleQuotes.fun_cases with
  | case1 text => exact absurd (List.cons_prefix_cons.1 h).1 (by decide)
  | case2 c text hne =>
    rw [escapeTripleQuotes] at h
    · obtain ⟨rfl, hp⟩ := List.cons_prefix_cons.1 h
      exact .inr ⟨text, rfl, hp⟩
    · exact hne
  | case3 => exact .inl rfl

theorem getLast?_ne_of_cons {c d : Char} {text : List Char} (h : (c :: text).getLast? ≠ some d) :
    text.getLast? ≠ some d := by
  cases text with
  | nil => exact nofun
  | cons a text => rwa [List.getLast?_cons_cons] at h

/-- An escaped text is read in units up to the closing triple quote, unless a quote comes right
before that. -/
theorem blockUnits_escapeTripleQuotes {text : List Char} (hb : '\\' ∉ text)
    (hlast : text.getLast? ≠ some '"') (after : List Char) :
    BlockUnits (escapeTripleQuotes text) ('"' :: '"' :: '"' :: after) := by
  induction text using escapeTripleQuotes.induct with
  | case1 text ih =>
    have hrest : '\\' ∉ text := by simp_all
    exact .escaped
      (ih hrest (getLast?_ne_of_cons (getLast?_ne_of_cons (getLast?_ne_of_cons hlast))))
  | case2 c text hne ih =>
    rw [List.mem_cons, not_or] at hb
    have hunits := ih hb.2 (getLast?_ne_of_cons hlast)
    rw [escapeTripleQuotes]
    · refine .plain (fun hpre => ?_) (fun hpre => hb.1 (List.cons_prefix_cons.1 hpre).1) hunits
      -- Of three quotes in a row the last would be one of the closing ones.
      obtain ⟨rfl, hsecond⟩ := List.cons_prefix_cons.1 hpre
      obtain rfl | ⟨text, rfl, hthird⟩ := eq_cons_of_quote_prefix hsecond
      · exact hlast rfl
      · obtain rfl | ⟨text, rfl, -⟩ := eq_cons_of_quote_prefix hthird
        · exact hlast rfl
        · exact hne text rfl rfl
    · exact hne
  | case3 => exact .nil

theorem decodeEscapes_of_not_mem {text : List Char} (h : '\\' ∉ text) :
    decodeEscapes text = .ok text := by
  induction text with
  | nil => rfl
  | cons c text ih =>
    rw [List.mem_cons, not_or] at h
    rw [decodeEscapes_cons (Ne.symm h.1), ih h.2]
    rfl

/-! ### Literals -/

/-- The block string with the given content. -/
def blockString (content : List Char) : String :=
  String.ofList ('"' :: '"' :: '"' :: content ++ ['"', '"', '"'])

/-- Whether a text is a string literal with the given value, whatever comes after it. -/
def IsLiteralOf (literal v : String) : Prop :=
  ∀ rest : String, tokens (literal ++ rest) =
    ⟨.string literal v, 0⟩ :: (tokens rest).map (Token.relocate (· + byteLength literal.toList))

theorem isLiteralOf_blockString {content : List Char} {v : String}
    (h : ∀ after, BlockUnits content ('"' :: '"' :: '"' :: after))
    (hv : decodeBlock (String.ofList content) = .ok v) : IsLiteralOf (blockString content) v := by
  intro rest
  have htext : (blockString content ++ rest).toList =
      '"' :: '"' :: '"' :: (content ++ '"' :: '"' :: '"' :: rest.toList) := by
    simp [blockString]
  have hstart : ¬ StartsIgnored (blockString content ++ rest).toList := by
    rw [htext, startsIgnored_cons]
    decide
  have hlexes : Lexes (blockString content ++ rest).toList (.string (blockString content) v)
      ([] ++ rest.toList) := by
    rw [htext]
    exact .block rfl (h rest.toList) hv
  have htokens := tokens_of_lexes hstart hlexes .nil
  rwa [List.append_nil] at htokens

/-! ### Line by line -/

/-- Texts that can be written line by line: without backslashes, whose first and last lines are not
empty, and of which some line is flush left. -/
structure IsBlockText (v : List Char) : Prop where
  /-- No backslash would start an escape sequence. -/
  backslash : '\\' ∉ v
  /-- No carriage return would end a line. -/
  carriageReturn : '\r' ∉ v
  /-- The first line is not removed. -/
  first : ∀ line ∈ (v.splitOn '\n').head?, line ≠ []
  /-- The last line is not removed. -/
  last : ∀ line ∈ (v.splitOn '\n').getLast?, line ≠ []
  /-- Not all lines that hold more than spaces start with one. -/
  flush : ∃ line ∈ v.splitOn '\n', line ≠ [] ∧ line.head? ≠ some ' '

/-- The lines of a text in a block string of their own lines, all after so many spaces. -/
def blockLiteral (k : Nat) (v : String) : String :=
  blockString (joinLines ([] ::
    ((v.toList.splitOn '\n').map fun line => escapeTripleQuotes (List.replicate k ' ' ++ line)) ++
      [List.replicate k ' ']))

/-- The lines of a text after so many spaces each, between an empty line and one of spaces. -/
def indentedLines (k : Nat) (v : List Char) : List Char :=
  joinLines ([] :: (v.splitOn '\n' ++ [[]]).map (indent k))

theorem blockLiteral_eq (k : Nat) (v : String) :
    blockLiteral k v = blockString (escapeTripleQuotes (indentedLines k v.toList)) := by
  have hspaces : escapeTripleQuotes (indent k []) = List.replicate k ' ' := by
    rw [indent, List.append_nil]
    exact escapeTripleQuotes_of_not_mem (by simp)
  rw [indentedLines, escapeTripleQuotes_joinLines, List.map_cons, List.map_append, List.map_append,
    List.map_map, List.map_cons, List.map_nil, List.map_cons, List.map_nil, hspaces]
  rfl

theorem getLast?_indentedLines (k : Nat) (v : List Char) :
    (indentedLines k v).getLast? ≠ some '"' := by
  rw [indentedLines, List.map_append, ← List.cons_append, List.map_singleton,
    joinLines_concat (List.cons_ne_nil _ _),
    List.getLast?_append_of_ne_nil _ (List.cons_ne_nil _ _)]
  intro hquote
  simpa [indent] using List.mem_of_getLast? hquote

namespace IsBlockText

variable {v : List Char} (h : IsBlockText v)

include h

theorem backslash_not_mem_indentedLines (k : Nat) : '\\' ∉ indentedLines k v := by
  refine not_mem_joinLines (by decide) (List.forall_mem_cons.2 ⟨List.not_mem_nil, ?_⟩)
  rw [List.forall_mem_map, List.forall_mem_append, List.forall_mem_singleton]
  refine ⟨fun line hline hmem => ?_, by simp [indent]⟩
  obtain hspace | hmem := List.mem_append.1 hmem
  · exact absurd (List.eq_of_mem_replicate hspace) (by decide)
  · exact h.backslash (mem_of_mem_splitOn line hline _ hmem).1

theorem dedent_indentedLines (k : Nat) : dedent (indentedLines k v) = v := by
  have hbreak : ∀ line ∈ v.splitOn '\n', ∀ c ∈ line, isLineBreak c = false := by
    intro line hline c hc
    obtain ⟨hv, hlf⟩ := mem_of_mem_splitOn line hline c hc
    have hcr : c ≠ '\r' := ne_of_mem_of_not_mem hv h.carriageReturn
    simp [isLineBreak, hlf, hcr]
  obtain ⟨line, hline, hne, hspace⟩ := h.flush
  obtain ⟨c, line, rfl⟩ := List.exists_cons_of_ne_nil hne
  rw [indentedLines, dedent_indented k hbreak
    (fun l hl => List.isEmpty_eq_false_iff.2 (h.first l hl))
    (fun l hl => List.isEmpty_eq_false_iff.2 (h.last l hl)) hline (by simpa using hspace),
    joinLines_splitOn]

end IsBlockText

theorem isLiteralOf_blockLiteral {v : String} (h : IsBlockText v.toList) (k : Nat) :
    IsLiteralOf (blockLiteral k v) v := by
  have hbackslash := h.backslash_not_mem_indentedLines k
  have hdecode : decodeBlock (String.ofList (escapeTripleQuotes (indentedLines k v.toList))) =
      .ok v := by
    rw [decodeBlock, String.toList_ofList, unescape_escapeTripleQuotes hbackslash,
      h.dedent_indentedLines, decodeEscapes_of_not_mem h.backslash]
    exact congrArg Except.ok String.ofList_toList
  rw [blockLiteral_eq]
  exact isLiteralOf_blockString
    (blockUnits_escapeTripleQuotes hbackslash (getLast?_indentedLines k _)) hdecode

/-! ### In one line -/

/-- The characters that do not stand for themselves in one line. -/
def escapedInLine : List Char := ['"', '\\', '\n', '\r']

theorem mem_escapedInLine {c : Char} :
    c ∈ escapedInLine ↔ c = '"' ∨ c = '\\' ∨ c = '\n' ∨ c = '\r' := by
  simp [escapedInLine]

/-- How a character is written in one line: as itself, or by its number in four digits. -/
inductive WritesInLine : List Char → Char → Prop where
  /-- A character that stands for itself. -/
  | plain {c : Char} (hc : c ∉ escapedInLine) : WritesInLine [c] c
  /-- A character that does not. -/
  | unit {digits : List Char} {c : Char} (hc : c ∈ escapedInLine) (hlen : digits.length = 4)
    (hn : HexNumber digits c.toNat) : WritesInLine ('\\' :: 'u' :: digits) c

/-- A way to write a text in one line. -/
def InLine (content v : List Char) : Prop :=
  ∃ es, List.Forall₂ WritesInLine es v ∧ content = es.flatten

theorem WritesInLine.encodes {e : List Char} {c : Char} (h : WritesInLine e c) : Encodes e c := by
  cases h with
  | plain hc => exact .plain fun heq => hc (mem_escapedInLine.2 (.inr (.inl heq)))
  | unit hc hlen hn => exact .unit hlen hn

theorem HexNumber.not_mem_escapedInLine {digits : List Char} {n : Nat} (hn : HexNumber digits n)
    {c : Char} (hc : c ∈ digits) : c ∉ escapedInLine := by
  obtain ⟨d, hd⟩ := hn.exists_isHexDigit hc
  rw [← hexDigit?_eq_some] at hd
  intro hmem
  obtain rfl | rfl | rfl | rfl := mem_escapedInLine.1 hmem <;> cases hd

/-- What a character is written as is characters that stand for themselves, but for a backslash. -/
theorem WritesInLine.mem {e : List Char} {c : Char} (h : WritesInLine e c) :
    ∀ d ∈ e, d = '\\' ∨ d ∉ escapedInLine := by
  cases h with
  | plain hc => simpa using .inr hc
  | unit hc hlen hn =>
    rw [List.forall_mem_cons, List.forall_mem_cons]
    exact ⟨.inl rfl, .inr (by decide), fun d hd => .inr (hn.not_mem_escapedInLine hd)⟩

theorem exists_writesInLine (c : Char) : ∃ e, WritesInLine e c := by
  by_cases hc : c ∈ escapedInLine
  · obtain ⟨digits, hlen, hn⟩ : ∃ digits, digits.length = 4 ∧ HexNumber digits c.toNat := by
      obtain rfl | rfl | rfl | rfl := mem_escapedInLine.1 hc
      · exact ⟨['0', '0', '2', '2'], rfl, hexNumber?_eq_some.1 rfl⟩
      · exact ⟨['0', '0', '5', 'c'], rfl, hexNumber?_eq_some.1 rfl⟩
      · exact ⟨['0', '0', '0', 'a'], rfl, hexNumber?_eq_some.1 rfl⟩
      · exact ⟨['0', '0', '0', 'd'], rfl, hexNumber?_eq_some.1 rfl⟩
    exact ⟨_, .unit hc hlen hn⟩
  · exact ⟨[c], .plain hc⟩

/-- Every text can be written in one line. -/
theorem exists_inLine (v : List Char) : ∃ content, InLine content v := by
  induction v with
  | nil => exact ⟨[], [], .nil, rfl⟩
  | cons c v ih =>
    obtain ⟨e, he⟩ := exists_writesInLine c
    obtain ⟨_, es, hes, rfl⟩ := ih
    exact ⟨_, e :: es, .cons he hes, rfl⟩

theorem BlockUnits.append_of_forall {text more rest : List Char}
    (h : ∀ c ∈ text, c ∉ escapedInLine) (hmore : BlockUnits more rest) :
    BlockUnits (text ++ more) rest := by
  induction text with
  | nil => exact hmore
  | cons c text ih =>
    obtain ⟨hc, htext⟩ := List.forall_mem_cons.1 h
    refine .plain (fun hpre => hc ?_) (fun hpre => hc ?_) (ih htext) <;>
      rw [← (List.cons_prefix_cons.1 hpre).1] <;> decide

namespace InLine

variable {content v : List Char} (h : InLine content v)

include h

theorem encodesAll : EncodesAll content v := by
  obtain ⟨es, hes, rfl⟩ := h
  exact ⟨es, hes.imp fun _ _ he => he.encodes, rfl⟩

theorem mem : ∀ d ∈ content, d = '\\' ∨ d ∉ escapedInLine := by
  obtain ⟨es, hes, rfl⟩ := h
  induction hes with
  | nil => exact nofun
  | cons he _ ih => exact List.forall_mem_append.2 ⟨he.mem, ih⟩

theorem blockUnits (after : List Char) : BlockUnits content after := by
  obtain ⟨es, hes, rfl⟩ := h
  induction hes with
  | nil => exact .nil
  | cons he _ ih =>
    rw [List.flatten_cons]
    cases he with
    | plain hc => exact .append_of_forall (List.forall_mem_singleton.2 hc) ih
    | @unit digits _ _ _ hn =>
      have hdigits : ∀ d ∈ 'u' :: digits, d ∉ escapedInLine :=
        List.forall_mem_cons.2 ⟨by decide, fun d hd => hn.not_mem_escapedInLine hd⟩
      -- The backslash escapes no triple quote, because the letter comes after it.
      refine .plain (fun hpre => absurd (List.cons_prefix_cons.1 hpre).1 (by decide))
        (fun hpre => ?_) (.append_of_forall hdigits ih)
      have hu := (List.cons_prefix_cons.1 (List.cons_prefix_cons.1 hpre).2).1
      exact absurd hu (by decide)

end InLine

theorem isLiteralOf_inLine {content : List Char} {v : String} (h : InLine content v.toList) :
    IsLiteralOf (blockString content) v := by
  have hquote : '"' ∉ content := fun hmem => (h.mem _ hmem).elim (by decide) (by decide)
  have hline : ∀ c ∈ content, isLineBreak c = false := by
    intro c hc
    obtain rfl | hplain := h.mem c hc
    · rfl
    · simp_all [isLineBreak, escapedInLine]
  refine isLiteralOf_blockString (fun after => h.blockUnits _) ?_
  rw [decodeBlock, String.toList_ofList, unescapeTripleQuotes_of_not_mem hquote,
    dedent_of_line hline, decodeEscapes_of_encodesAll h.encodesAll]
  exact congrArg Except.ok String.ofList_toList

/-- **Printing block strings.**  A text that can be written line by line is the value of the literal
that does so, with any indentation.  Every text can be written in one line, and is the value of each
literal that does so.  What comes after the literal does not matter. -/
theorem isLiteralOf_printed (v : String) :
    (IsBlockText v.toList → ∀ k, IsLiteralOf (blockLiteral k v) v) ∧
      (∃ content, InLine content v.toList) ∧
      ∀ content, InLine content v.toList → IsLiteralOf (blockString content) v :=
  ⟨isLiteralOf_blockLiteral, exists_inLine _, fun _ => isLiteralOf_inLine⟩

/-- Line by line, an empty line, one of spaces and four quotes at the end; in one line, a quote at
the end. -/
theorem isLiteralOf_printed_quotes :
    IsLiteralOf (blockLiteral 2 "a\n\n  \n \"\"\"\"") "a\n\n  \n \"\"\"\"" ∧
      blockLiteral 2 "a\n\n  \n \"\"\"\"" =
        "\"\"\"\n  a\n  \n    \n   \\\"\"\"\"\n  \"\"\"" ∧
      IsLiteralOf (blockString "b\\u0022".toList) "b\"" := by
  refine ⟨(isLiteralOf_printed _).1 ?_ 2, by decide, (isLiteralOf_printed "b\"").2.2 _ ?_⟩
  · exact ⟨by decide, by decide, by decide, by decide, by decide⟩
  · have hquote : WritesInLine ['\\', 'u', '0', '0', '2', '2'] '"' :=
      .unit (by decide) rfl (hexNumber?_eq_some.1 rfl)
    exact ⟨_, .cons (.plain (by decide)) (.cons hquote .nil), rfl⟩

end GraphQL
