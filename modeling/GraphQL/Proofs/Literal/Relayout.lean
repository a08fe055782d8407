import GraphQL.Proofs.Literal.Dedent

/-!
# Block strings laid out in another way

The value of a block string does not depend on which line breaks part its lines, and moving all
lines but the first to the right by the same number of spaces does not change it either
(`decodeBlock_relayout`), if one of these lines holds more than spaces.  Lines of spaces alone are
no indentation, so without such a line the spaces stay.
-/

namespace GraphQL

/-! ### Line breaks -/

/-- The three line breaks. -/
inductive LineBreak where
  | lineFeed
  | carriageReturn
  /-- A carriage return and a line feed. -/
  | both
  deriving DecidableEq, Repr

/-- The characters of a line break. -/
def LineBreak.text : LineBreak → List Char
  | lineFeed => ['\n']
  | carriageReturn => ['\r']
  | both => ['\r', '\n']

namespace LineBreak

/-- Lines with line breaks of one sort between them. -/
def join (b : LineBreak) (lines : List (List Char)) : List Char := b.text.intercalate lines

theorem join_singleton (b : LineBreak) (line : List Char) : b.join [line] = line :=
  List.intercalate_singleton

theorem join_cons (b : LineBreak) (line : List Char) {lines : List (List Char)}
    (h : lines ≠ []) : b.join (line :: lines) = line ++ (b.text ++ b.join lines) := by
  obtain ⟨next, lines, rfl⟩ := List.exists_cons_of_ne_nil h
  rw [join, List.intercalate_cons_cons, List.append_assoc, join]

/-- After a carriage return no line feed comes that does not belong to it. -/
theorem head?_join_carriageReturn {lines : List (List Char)} (h : ∀ line ∈ lines, Unbroken line) :
    (carriageReturn.join lines).head? ≠ some '\n' := by
  cases lines with
  | nil => exact nofun
  | cons line lines =>
    by_cases hlines : lines = []
    · rw [hlines, join_singleton]
      exact fun hlf => (h line List.mem_cons_self).1 (List.mem_of_head? hlf)
    · rw [join_cons _ _ hlines]
      cases line with
      | nil => exact fun hlf => absurd (Option.some.inj hlf) (by decide)
      | cons c line =>
        exact fun hlf => (h _ List.mem_cons_self).1 (List.mem_of_head? hlf)

theorem cutsInto_join (b : LineBreak) {lines : List (List Char)} (hne : lines ≠ [])
    (h : ∀ line ∈ lines, Unbroken line) : CutsInto (b.join lines) lines := by
  induction lines with
  | nil => exact absurd rfl hne
  | cons line lines ih =>
    obtain ⟨hline, hrest⟩ := List.forall_mem_cons.1 h
    by_cases hlines : lines = []
    · rw [hlines, join_singleton]
      exact .last hline
    · rw [join_cons _ _ hlines]
      have hcut := ih hlines hrest
      cases b with
      | lineFeed => exact .lineFeed hline hcut
      | carriageReturn => exact .carriageReturn hline (head?_join_carriageReturn hrest) hcut
      | both => exact .both hline hcut

end LineBreak

/-! ### Escaped triple quotes -/

/-- A character other than a quote and a backslash parts a text in two, in each of which triple
quotes are escaped by themselves. -/
theorem unescapeTripleQuotes_append {c : Char} (hquote : c ≠ '"') (hbackslash : c ≠ '\\')
    (text rest : List Char) :
    unescapeTripleQuotes (text ++ c :: rest) =
      unescapeTripleQuotes text ++ c :: unescapeTripleQuotes rest := by
  induction text using unescapeTripleQuotes.induct with
  | case1 text ih => simp only [List.cons_append, unescapeTripleQuotes, ih]
  | case2 d text hne ih =>
    rw [List.cons_append, unescapeTripleQuotes, ih, unescapeTripleQuotes, List.cons_append]
    · exact hne
    · -- An escaped triple quote would have to go on over `c`.
      rintro s rfl hs
      rcases text with _ | ⟨a₁, _ | ⟨a₂, _ | ⟨a₃, text⟩⟩⟩
      all_goals simp only [List.cons_append, List.nil_append, List.cons.injEq] at hs
      · exact hquote hs.1
      · exact hquote hs.2.1
      · exact hquote hs.2.2.1
      · obtain ⟨rfl, rfl, rfl, -⟩ := hs
        exact hne text rfl rfl
  | case3 => exact unescapeTripleQuotes_cons hbackslash rest

theorem unescapeTripleQuotes_lineBreak (b : LineBreak) (line rest : List Char) :
    unescapeTripleQuotes (line ++ (b.text ++ rest)) =
      unescapeTripleQuotes line ++ (b.text ++ unescapeTripleQuotes rest) := by
  cases b <;> simp [LineBreak.text, unescapeTripleQuotes_append, unescapeTripleQuotes_cons]

theorem unescapeTripleQuotes_join (b : LineBreak) (lines : List (List Char)) :
    unescapeTripleQuotes (b.join lines) = b.join (lines.map unescapeTripleQuotes) := by
  induction lines with
  | nil => rfl
  | cons line lines ih =>
    by_cases hlines : lines = []
    · rw [hlines, List.map_singleton, LineBreak.join_singleton, LineBreak.join_singleton]
    · rw [List.map_cons, b.join_cons _ hlines, unescapeTripleQuotes_lineBreak, ih,
        b.join_cons _ (by simpa using hlines)]

theorem unescapeTripleQuotes_indent (k : Nat) (line : List Char) :
    unescapeTripleQuotes (indent k line) = indent k (unescapeTripleQuotes line) := by
  induction k with
  | zero => rfl
  | succ k ih => exact (unescapeTripleQuotes_cons (by decide) _).trans (congrArg (' ' :: ·) ih)

theorem unescapeTripleQuotes_sublist (text : List Char) :
    (unescapeTripleQuotes text).Sublist text := by
  induction text using unescapeTripleQuotes.induct with
  | case1 text ih =>
    rw [unescapeTripleQuotes]
    exact (((ih.cons_cons '"').cons_cons '"').cons_cons '"').cons '\\'
  | case2 c text hne ih =>
    rw [unescapeTripleQuotes]
    · exact ih.cons_cons c
    · exact hne
  | case3 => exact List.Sublist.refl _

theorem holdsMore_unescapeTripleQuotes (line : List Char) :
    holdsMore (unescapeTripleQuotes line) = holdsMore line := by
  induction line using unescapeTripleQuotes.induct with
  | case1 text ih => rfl
  | case2 c text hne ih =>
    rw [unescapeTripleQuotes]
    · exact congrArg (_ || ·) ih
    · exact hne
  | case3 => rfl

theorem Unbroken.unescapeTripleQuotes {line : List Char} (h : Unbroken line) :
    Unbroken (unescapeTripleQuotes line) :=
  ⟨fun hmem => h.1 ((unescapeTripleQuotes_sublist line).mem hmem),
    fun hmem => h.2 ((unescapeTripleQuotes_sublist line).mem hmem)⟩

/-! ### Indentation -/

theorem Unbroken.indent {line : List Char} (h : Unbroken line) (k : Nat) :
    Unbroken (indent k line) := by
  have hspaces : ∀ c, c ≠ ' ' → c ∉ List.replicate k ' ' :=
    fun c hc hmem => hc (List.eq_of_mem_replicate hmem)
  simp only [Unbroken, GraphQL.indent, List.mem_append, not_or]
  exact ⟨⟨hspaces _ (by decide), h.1⟩, hspaces _ (by decide), h.2⟩

theorem indentations_indent (k : Nat) (lines : List (List Char)) :
    indentations (lines.map (indent k)) = (indentations lines).map (k + ·) := by
  simp [indentations, List.filter_map, Function.comp_def, holdsMore_indent, indentation_indent]

/-- Lines that are moved to the right have more indentation in common, if they have any. -/
theorem commonIndent?_map_indent (k : Nat) (lines : List (List Char)) :
    commonIndent? (lines.map (indent k)) = (commonIndent? lines).map (k + ·) := by
  rw [commonIndent?_eq, commonIndent?_eq, indentations_indent]
  cases h : (indentations lines).min? with
  | none => rw [List.min?_eq_none_iff.1 h]; rfl
  | some n =>
    obtain ⟨hmem, hle⟩ := List.min?_eq_some_iff.1 h
    refine List.min?_eq_some_iff.2 ⟨List.mem_map_of_mem hmem, ?_⟩
    rw [List.forall_mem_map]
    exact fun m hm => Nat.add_le_add_left (hle m hm) k

theorem stripIndent_add_indent (k common : Nat) (line : List Char) :
    stripIndent (k + common) (indent k line) = stripIndent common line := by
  rw [stripIndent, stripIndent, indentation_indent, Nat.add_min_add_left, indent,
    ← List.drop_drop, List.drop_left' (List.length_replicate ..)]

/-- Lines after the first that are moved to the right lose this again, if one of them holds more
than spaces. -/
theorem stripCommonIndent_indent (k : Nat) (first : List Char) {others : List (List Char)}
    (h : ∃ line ∈ others, holdsMore line = true) :
    stripCommonIndent (first :: others.map (indent k)) = stripCommonIndent (first :: others) := by
  rw [stripCommonIndent, stripCommonIndent, commonIndent?_map_indent]
  cases hindent : commonIndent? others with
  | none =>
    obtain ⟨line, hline, hmore⟩ := h
    obtain ⟨c, hc, hne⟩ := holdsMore_iff.1 hmore
    exact absurd (commonIndent?_eq_none.1 hindent line hline c hc) hne
  | some common =>
    simp only [Option.map_some, List.map_map, Function.comp_def, stripIndent_add_indent]

/-! ### The value -/

/-- What is decoded of lines with line breaks of one sort between them. -/
theorem decodeBlock_join (b : LineBreak) {lines : List (List Char)}
    (h : ∀ line ∈ lines, Unbroken line) :
    decodeBlock (String.ofList (b.join lines)) = String.ofList <$> decodeEscapes
      (joinLines (trimEmptyLines (stripCommonIndent (lines.map unescapeTripleQuotes)))) := by
  rw [decodeBlock, String.toList_ofList, unescapeTripleQuotes_join, dedent_eq]
  cases lines with
  | nil => rfl
  | cons line lines =>
    have hunbroken : ∀ line' ∈ (line :: lines).map unescapeTripleQuotes, Unbroken line' :=
      List.forall_mem_map.2 fun line' hline => (h line' hline).unescapeTripleQuotes
    rw [List.map_cons] at hunbroken ⊢
    rw [(b.cutsInto_join (List.cons_ne_nil _ _) hunbroken).splitLines]

/-- **The layout of a block string does not matter.**  Its value, or the reason why it has none, is
the same with other line breaks.  If some line after the first holds more than spaces, it is also
the same with more spaces in front of all lines after the first. -/
theorem decodeBlock_relayout :
    (∀ lines : List (List Char), (∀ line ∈ lines, Unbroken line) → ∀ b b' : LineBreak,
      decodeBlock (String.ofList (b.join lines)) = decodeBlock (String.ofList (b'.join lines))) ∧
    ∀ (first : List Char) (others : List (List Char)),
      (∀ line ∈ first :: others, Unbroken line) → (∃ line ∈ others, ∃ c ∈ line, c ≠ ' ') →
      ∀ (k : Nat) (b b' : LineBreak), decodeBlock (String.ofList (b.join (first :: others))) =
        decodeBlock (String.ofList (b'.join (first :: others.map (indent k)))) := by
  refine ⟨fun lines h b b' => ?_, fun first others h hmore k b b' => ?_⟩
  · rw [decodeBlock_join b h, decodeBlock_join b' h]
  · obtain ⟨hfirst, hothers⟩ := List.forall_mem_cons.1 h
    have hindented : ∀ line ∈ first :: others.map (indent k), Unbroken line :=
      List.forall_mem_cons.2 ⟨hfirst, List.forall_mem_map.2 fun line hline =>
        Unbroken.indent (hothers line hline) k⟩
    have hunescaped : ∃ line ∈ others.map unescapeTripleQuotes, holdsMore line = true := by
      obtain ⟨line, hline, hc⟩ := hmore
      refine ⟨_, List.mem_map_of_mem hline, ?_⟩
      rwa [holdsMore_unescapeTripleQuotes, holdsMore_iff]
    -- It does not matter whether lines are moved before or after triple quotes are unescaped.
    have hcomm : unescapeTripleQuotes ∘ indent k = indent k ∘ unescapeTripleQuotes :=
      funext (unescapeTripleQuotes_indent k)
    rw [decodeBlock_join b h, decodeBlock_join b' hindented, List.map_cons, List.map_cons,
      List.map_map, hcomm, ← List.map_map, stripCommonIndent_indent k _ hunescaped]

/-- A line of one space between lines that start with two and three, an escaped triple quote, and an
escape sequence that stands for nothing. -/
theorem decodeBlock_relayout_spaces :
    decodeBlock "a\n  b\n \n   \\\"\"\"" = decodeBlock "a\r\n    b\r\n   \r\n     \\\"\"\"" ∧
      decodeBlock " \n\\q" = decodeBlock " \r\\q" := by
  have hlines : ∀ line ∈ ["a".toList, "  b".toList, " ".toList, "   \\\"\"\"".toList],
      Unbroken line := by simp [Unbroken]
  have hmore : ∃ line ∈ ["  b".toList, " ".toList, "   \\\"\"\"".toList], ∃ c ∈ line, c ≠ ' ' :=
    ⟨"  b".toList, List.mem_cons_self, 'b', by decide, by decide⟩
  have hbad : ∀ line ∈ [" ".toList, "\\q".toList], Unbroken line := by simp [Unbroken]
  exact ⟨decodeBlock_relayout.2 _ _ hlines hmore 2 .lineFeed .both,
    decodeBlock_relayout.1 _ hbad .lineFeed .carriageReturn⟩

end GraphQL
