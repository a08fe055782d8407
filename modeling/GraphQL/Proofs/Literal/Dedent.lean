import GraphQL.Proofs.Literal.Block
import Mathlib.Data.List.Forall2
import Mathlib.Data.List.TakeWhile
import Mathlib.Order.Bounds.Basic

/-!
# What removing indentation means

What de-indenting a text comes to, without reference to how it is done.  The text is cut into
lines (`CutsInto`), the lines after the first lose what indentation they have in common
(`Unindents`), the empty lines at both ends go (`Trims`), and line feeds join what is left.
De-indenting finds this text, and there is no other (`dedent_eq_iff`); so the result has no
carriage returns, and no line feeds at its ends.
-/

namespace GraphQL

/-! ### Lines -/

/-- A text without line feeds and carriage returns. -/
def Unbroken (line : List Char) : Prop := '\n' ∉ line ∧ '\r' ∉ line

/-- The lines of a text: it is cut at line feeds, at carriage returns, and at both in this order. -/
inductive CutsInto : List Char → List (List Char) → Prop where
  /-- The last line. -/
  | last {line : List Char} (h : Unbroken line) : CutsInto line [line]
  /-- A line and a line feed. -/
  | lineFeed {line rest : List Char} {lines : List (List Char)} (h : Unbroken line)
    (hrest : CutsInto rest lines) : CutsInto (line ++ '\n' :: rest) (line :: lines)
  /-- A line and a carriage return that no line feed follows. -/
  | carriageReturn {line rest : List Char} {lines : List (List Char)} (h : Unbroken line)
    (hlone : rest.head? ≠ some '\n') (hrest : CutsInto rest lines) :
    CutsInto (line ++ '\r' :: rest) (line :: lines)
  /-- A line, a carriage return and a line feed. -/
  | both {line rest : List Char} {lines : List (List Char)} (h : Unbroken line)
    (hrest : CutsInto rest lines) : CutsInto (line ++ '\r' :: '\n' :: rest) (line :: lines)

theorem unbroken_iff {line : List Char} :
    Unbroken line ↔ ∀ c ∈ line, isLineBreak c = false := by
  constructor
  · intro h c hc
    have hlf : c ≠ '\n' := fun heq => h.1 (heq ▸ hc)
    have hcr : c ≠ '\r' := fun heq => h.2 (heq ▸ hc)
    simp [isLineBreak, hlf, hcr]
  · intro h
    exact ⟨fun hlf => Bool.noConfusion (h _ hlf), fun hcr => Bool.noConfusion (h _ hcr)⟩

theorem splitLines_carriageReturn {rest : List Char} (h : rest.head? ≠ some '\n') :
    splitLines ('\r' :: rest) = [] :: splitLines rest := by
  rw [splitLines]
  rintro rest rfl
  exact h rfl

theorem CutsInto.splitLines {text : List Char} {lines : List (List Char)}
    (h : CutsInto text lines) : splitLines text = lines := by
  induction h with
  | last h => exact splitLines_of_forall (unbroken_iff.1 h)
  | lineFeed h _ ih =>
    rw [splitLines_append (unbroken_iff.1 h) (splitLines_lineFeed _), ih]
  | carriageReturn h hlone _ ih =>
    rw [splitLines_append (unbroken_iff.1 h) (splitLines_carriageReturn hlone), ih]
  | both h _ ih =>
    rw [splitLines_append (unbroken_iff.1 h) (by rw [GraphQL.splitLines]), ih]

theorem CutsInto.cons {c : Char} {text : List Char} {lines : List (List Char)}
    (hc : isLineBreak c = false) (h : CutsInto text lines) :
    CutsInto (c :: text) (pushFirst c lines) := by
  have hcons : ∀ {line : List Char}, Unbroken line → Unbroken (c :: line) := fun h =>
    unbroken_iff.2 (List.forall_mem_cons.2 ⟨hc, unbroken_iff.1 h⟩)
  cases h with
  | last h => exact .last (hcons h)
  | lineFeed h hrest => exact .lineFeed (hcons h) hrest
  | carriageReturn h hlone hrest => exact .carriageReturn (hcons h) hlone hrest
  | both h hrest => exact .both (hcons h) hrest

theorem cutsInto_splitLines (text : List Char) : CutsInto text (splitLines text) := by
  have hnil : Unbroken [] := ⟨List.not_mem_nil, List.not_mem_nil⟩
  induction text using splitLines.induct with
  | case1 => exact .last hnil
  | case2 rest ih =>
    rw [splitLines]
    exact .both hnil ih
  | case3 rest hlone ih =>
    have hhead : rest.head? ≠ some '\n' := by
      intro h
      obtain ⟨rest', rfl⟩ := List.head?_eq_some_iff.1 h
      exact hlone rest' rfl
    rw [splitLines_carriageReturn hhead]
    exact .carriageReturn hnil hhead ih
  | case4 rest ih =>
    rw [splitLines_lineFeed]
    exact .lineFeed hnil ih
  | case5 c rest _ hcr hlf ih =>
    have hc : isLineBreak c = false := by
      simp only [isLineBreak, Bool.or_eq_false_iff, decide_eq_false_iff_not]
      exact ⟨hlf, hcr⟩
    rw [splitLines_cons hc]
    exact ih.cons hc

/-- Splitting finds the lines of a text. -/
theorem splitLines_eq_iff {text : List Char} {lines : List (List Char)} :
    splitLines text = lines ↔ CutsInto text lines := by
  constructor
  · rintro rfl
    exact cutsInto_splitLines text
  · exact CutsInto.splitLines

theorem CutsInto.unbroken {text : List Char} {lines : List (List Char)}
    (h : CutsInto text lines) : ∀ line ∈ lines, Unbroken line := by
  induction h with
  | last h => exact List.forall_mem_singleton.2 h
  | lineFeed h _ ih | carriageReturn h _ _ ih | both h _ ih => exact List.forall_mem_cons.2 ⟨h, ih⟩

/-! ### Indentation -/

/-- A line starts with so many spaces, and no space comes after them. -/
def StartsWithSpaces (n : Nat) (line : List Char) : Prop :=
  ∃ rest, line = List.replicate n ' ' ++ rest ∧ rest.head? ≠ some ' '

/-- The numbers of spaces that the lines with more than spaces start with. -/
def Indents (lines : List (List Char)) : Set Nat :=
  {n | ∃ line ∈ lines, (∃ c ∈ line, c ≠ ' ') ∧ StartsWithSpaces n line}

/-- A line loses so many of the spaces that it starts with, or all if they are fewer. -/
def LosesSpaces (common : Nat) (line line' : List Char) : Prop :=
  ∃ n, StartsWithSpaces n line ∧ line = List.replicate (min common n) ' ' ++ line'

/-- Lines lose the indentation that they have in common. -/
inductive Unindents (lines : List (List Char)) : List (List Char) → Prop where
  /-- All lines lose as many spaces as any line with more than spaces starts with at least. -/
  | common {lines' : List (List Char)} {n : Nat} (hn : IsLeast (Indents lines) n)
    (h : List.Forall₂ (LosesSpaces n) lines lines') : Unindents lines lines'
  /-- Lines of spaces alone have nothing in common. -/
  | spaces (h : ∀ line ∈ lines, ∀ c ∈ line, c = ' ') : Unindents lines lines

theorem startsWithSpaces_iff {n : Nat} {line : List Char} :
    StartsWithSpaces n line ↔ indentation line = n := by
  constructor
  · rintro ⟨rest, rfl, hrest⟩
    have hzero : indentation rest = 0 := by
      rw [indentation_eq]
      cases rest with
      | nil => rfl
      | cons c rest => simpa using hrest
    exact (indentation_indent n rest).trans (by rw [hzero, Nat.add_zero])
  · rintro rfl
    have hspaces : line.takeWhile (· = ' ') = List.replicate (indentation line) ' ' :=
      List.eq_replicate_iff.2 ⟨(indentation_eq line).symm, fun c hc => by
        simpa using List.mem_takeWhile_imp hc⟩
    refine ⟨line.dropWhile (· = ' '), ?_, ?_⟩
    · rw [← hspaces, List.takeWhile_append_dropWhile]
    · intro hhead
      have hnot := List.head?_dropWhile_not (fun c => decide (c = ' ')) line
      rw [hhead] at hnot
      exact Bool.noConfusion hnot

theorem holdsMore_iff {line : List Char} : holdsMore line = true ↔ ∃ c ∈ line, c ≠ ' ' := by
  simp [holdsMore]

theorem mem_indentations {lines : List (List Char)} {n : Nat} :
    n ∈ indentations lines ↔ n ∈ Indents lines := by
  simp only [indentations, List.mem_map, List.mem_filter, holdsMore_iff, Indents,
    startsWithSpaces_iff, Set.mem_ofPred_eq, and_assoc]

theorem commonIndent?_eq_some {lines : List (List Char)} {n : Nat} :
    commonIndent? lines = some n ↔ IsLeast (Indents lines) n := by
  rw [commonIndent?_eq, List.min?_eq_some_iff]
  simp only [mem_indentations]
  rfl

theorem commonIndent?_eq_none {lines : List (List Char)} :
    commonIndent? lines = none ↔ ∀ line ∈ lines, ∀ c ∈ line, c = ' ' := by
  rw [commonIndent?_eq, List.min?_eq_none_iff, indentations, List.map_eq_nil_iff,
    List.filter_eq_nil_iff]
  simp [holdsMore]

theorem StartsWithSpaces.take {n m : Nat} {line : List Char} (h : StartsWithSpaces n line)
    (hm : m ≤ n) : line.take m = List.replicate m ' ' := by
  obtain ⟨rest, rfl, -⟩ := h
  rw [List.take_append_of_le_length (by rwa [List.length_replicate]), List.take_replicate,
    Nat.min_eq_left hm]

theorem stripIndent_eq_iff {common : Nat} {line line' : List Char} :
    stripIndent common line = line' ↔ LosesSpaces common line line' := by
  constructor
  · rintro rfl
    have hspaces : StartsWithSpaces (indentation line) line := startsWithSpaces_iff.2 rfl
    refine ⟨_, hspaces, ?_⟩
    rw [stripIndent, ← hspaces.take (Nat.min_le_right ..), List.take_append_drop]
  · rintro ⟨n, hn, hline⟩
    rw [stripIndent, startsWithSpaces_iff.1 hn, hline, List.drop_left' (List.length_replicate ..)]

theorem map_stripIndent_eq_iff {common : Nat} {lines lines' : List (List Char)} :
    lines.map (stripIndent common) = lines' ↔
      List.Forall₂ (LosesSpaces common) lines lines' := by
  rw [← List.forall₂_eq_eq_eq, List.forall₂_map_left_iff]
  simp only [stripIndent_eq_iff]

/-- Lines lose their common indentation. -/
theorem stripCommonIndent_eq_iff {first : List Char} {others others' : List (List Char)} :
    stripCommonIndent (first :: others) = first :: others' ↔ Unindents others others' := by
  rw [stripCommonIndent]
  cases hindent : commonIndent? others with
  | none =>
    have hspaces := commonIndent?_eq_none.1 hindent
    refine ⟨?_, ?_⟩
    · rintro ⟨⟩
      exact .spaces hspaces
    · rintro (⟨hn, -⟩ | -)
      · rw [commonIndent?_eq_some.2 hn] at hindent
        cases hindent
      · rfl
  | some common =>
    have hcommon := commonIndent?_eq_some.1 hindent
    simp only [List.cons.injEq, true_and, map_stripIndent_eq_iff]
    refine ⟨.common hcommon, ?_⟩
    rintro (⟨hn, h⟩ | h)
    · rwa [hcommon.unique hn]
    · rw [commonIndent?_eq_none.2 h] at hindent
      cases hindent

/-! ### Empty lines at the ends -/

/-- Some lines without the empty ones at both ends. -/
structure Trims (lines kept : List (List Char)) : Prop where
  /-- Only empty lines are left out, before the others and after them. -/
  ends : ∃ before after, lines = List.replicate before [] ++ kept ++ List.replicate after []
  /-- The first line kept is not empty. -/
  first : ∀ line ∈ kept.head?, line ≠ []
  /-- The last line kept is not empty. -/
  last : ∀ line ∈ kept.getLast?, line ≠ []

theorem dropWhile_isEmpty_replicate (n : Nat) (lines : List (List Char)) :
    (List.replicate n [] ++ lines).dropWhile List.isEmpty = lines.dropWhile List.isEmpty :=
  List.dropWhile_append_of_pos (by simp)

theorem exists_replicate_of_isEmpty (lines : List (List Char)) :
    ∃ n, lines = List.replicate n [] ++ lines.dropWhile List.isEmpty := by
  refine ⟨(lines.takeWhile List.isEmpty).length, ?_⟩
  have hempty : lines.takeWhile List.isEmpty =
      List.replicate (lines.takeWhile List.isEmpty).length [] :=
    List.eq_replicate_iff.2 ⟨rfl, fun line hline =>
      List.isEmpty_iff.1 (List.mem_takeWhile_imp hline)⟩
  rw [← hempty, List.takeWhile_append_dropWhile]

theorem ne_nil_of_head?_dropWhile {lines : List (List Char)} :
    ∀ line ∈ (lines.dropWhile List.isEmpty).head?, line ≠ [] := by
  intro line hline
  have hnot := List.head?_dropWhile_not List.isEmpty lines
  rw [hline] at hnot
  exact List.isEmpty_eq_false_iff.1 hnot

/-- Removing the empty lines at both ends leaves the lines between them. -/
theorem trimEmptyLines_eq_iff {lines kept : List (List Char)} :
    trimEmptyLines lines = kept ↔ Trims lines kept := by
  constructor
  · rintro rfl
    obtain ⟨before, hbefore⟩ := exists_replicate_of_isEmpty lines
    obtain ⟨after, hafter⟩ := exists_replicate_of_isEmpty (lines.dropWhile List.isEmpty).reverse
    have hends : lines.dropWhile List.isEmpty =
        trimEmptyLines lines ++ List.replicate after [] := by
      rw [← List.reverse_inj, hafter, List.reverse_append, List.reverse_replicate, trimEmptyLines,
        List.reverse_reverse]
    refine ⟨⟨before, after, ?_⟩, fun line hline => ?_, fun line hline => ?_⟩
    · rw [List.append_assoc, ← hends]
      exact hbefore
    · have hhead : line ∈ (lines.dropWhile List.isEmpty).head? := by
        rw [hends, List.head?_append, hline]
        rfl
      exact ne_nil_of_head?_dropWhile line hhead
    · rw [trimEmptyLines, List.getLast?_reverse] at hline
      exact ne_nil_of_head?_dropWhile line hline
  · rintro ⟨⟨before, after, rfl⟩, hfirst, hlast⟩
    rw [trimEmptyLines, List.append_assoc, dropWhile_isEmpty_replicate]
    cases kept with
    | nil =>
      have hall := dropWhile_isEmpty_replicate after []
      rw [List.append_nil] at hall
      rw [List.nil_append, hall]
      rfl
    | cons line kept =>
      have hline : line.isEmpty = false := List.isEmpty_eq_false_iff.2 (hfirst line rfl)
      rw [List.cons_append, List.dropWhile_cons_of_neg (by simp [hline]), ← List.cons_append,
        List.reverse_append, List.reverse_replicate, dropWhile_isEmpty_replicate,
        dropWhile_eq_self, List.reverse_reverse]
      rw [List.head?_reverse]
      exact fun l hl => List.isEmpty_eq_false_iff.2 (hlast l hl)

/-! ### The whole text -/

/-- What is left of a text without the common indentation of its lines and the empty lines at both
ends. -/
def Dedents (text result : List Char) : Prop :=
  ∃ first others others' kept, CutsInto text (first :: others) ∧ Unindents others others' ∧
    Trims (first :: others') kept ∧ result = ['\n'].intercalate kept

theorem exists_stripCommonIndent (first : List Char) (others : List (List Char)) :
    ∃ others', stripCommonIndent (first :: others) = first :: others' := by
  rw [stripCommonIndent]
  cases commonIndent? others with
  | none => exact ⟨_, rfl⟩
  | some common => exact ⟨_, rfl⟩

theorem dedents_iff {text result : List Char} : Dedents text result ↔ dedent text = result := by
  rw [dedent_eq]
  constructor
  · rintro ⟨first, others, others', kept, hcut, hunindent, htrim, rfl⟩
    rw [splitLines_eq_iff.2 hcut, stripCommonIndent_eq_iff.2 hunindent,
      trimEmptyLines_eq_iff.2 htrim, joinLines_eq_intercalate]
  · rintro rfl
    cases hlines : splitLines text with
    | nil => exact absurd (splitLines_eq_iff.1 hlines) nofun
    | cons first others =>
      obtain ⟨others', hothers⟩ := exists_stripCommonIndent first others
      refine ⟨first, others, others', _, splitLines_eq_iff.1 hlines,
        stripCommonIndent_eq_iff.1 hothers, trimEmptyLines_eq_iff.1 rfl, ?_⟩
      rw [hothers, joinLines_eq_intercalate]

/-! ### Line breaks in the result -/

theorem LosesSpaces.unbroken {common : Nat} {line line' : List Char}
    (h : LosesSpaces common line line') (hline : Unbroken line) : Unbroken line' := by
  obtain ⟨n, -, rfl⟩ := h
  exact ⟨fun hmem => hline.1 (List.mem_append_right _ hmem),
    fun hmem => hline.2 (List.mem_append_right _ hmem)⟩

theorem Unindents.unbroken {lines lines' : List (List Char)} (h : Unindents lines lines')
    (hlines : ∀ line ∈ lines, Unbroken line) : ∀ line ∈ lines', Unbroken line := by
  cases h with
  | spaces h => exact hlines
  | common hn h =>
    clear hn
    induction h with
    | nil => exact hlines
    | cons h _ ih =>
      obtain ⟨hline, hlines⟩ := List.forall_mem_cons.1 hlines
      exact List.forall_mem_cons.2 ⟨h.unbroken hline, ih hlines⟩

theorem Trims.subset {lines kept : List (List Char)} (h : Trims lines kept) : kept ⊆ lines := by
  obtain ⟨before, after, rfl⟩ := h.ends
  exact fun line hline => List.mem_append_left _ (List.mem_append_right _ hline)

theorem head?_joinLines_cons {line : List Char} (h : line ≠ []) (lines : List (List Char)) :
    (joinLines (line :: lines)).head? = line.head? := by
  by_cases hlines : lines = []
  · rw [hlines, joinLines]
  · rw [joinLines_cons line hlines, List.head?_append_of_ne_nil _ h]

theorem getLast?_joinLines_concat {line : List Char} (h : line ≠ []) (lines : List (List Char)) :
    (joinLines (lines ++ [line])).getLast? = line.getLast? := by
  by_cases hlines : lines = []
  · rw [hlines, List.nil_append, joinLines]
  · rw [joinLines_concat hlines, List.getLast?_append_of_ne_nil _ (List.cons_ne_nil _ _),
      List.getLast?_cons_of_ne_nil h]

/-- Lines that neither start nor end with an empty one have no line breaks at the ends when they are
joined. -/
theorem not_lineFeed_at_ends {kept : List (List Char)} (h : ∀ line ∈ kept, Unbroken line)
    (hfirst : ∀ line ∈ kept.head?, line ≠ []) (hlast : ∀ line ∈ kept.getLast?, line ≠ []) :
    (joinLines kept).head? ≠ some '\n' ∧ (joinLines kept).getLast? ≠ some '\n' := by
  constructor
  · cases kept with
    | nil => exact nofun
    | cons line lines =>
      rw [head?_joinLines_cons (hfirst line rfl)]
      exact fun hlf => (h line List.mem_cons_self).1 (List.mem_of_head? hlf)
  · obtain rfl | ⟨lines, line, rfl⟩ := List.eq_nil_or_concat' kept
    · exact nofun
    · rw [getLast?_joinLines_concat (hlast line List.getLast?_concat)]
      exact fun hlf => (h line (by simp)).1 (List.mem_of_getLast? hlf)

/-- **What de-indenting a text comes to.**  The text is cut at line feeds, carriage returns and both
in this order; all lines but the first lose as many spaces as those with more than spaces all start
with, or what they have; the empty lines at both ends go, and line feeds join the others.  This
leaves no carriage returns, and no line feeds at the ends. -/
theorem dedent_eq_iff (text : List Char) :
    (∀ result, dedent text = result ↔ Dedents text result) ∧ '\r' ∉ dedent text ∧
      (dedent text).head? ≠ some '\n' ∧ (dedent text).getLast? ≠ some '\n' := by
  obtain ⟨first, others, others', kept, hcut, hunindent, htrim, hresult⟩ :=
    dedents_iff.2 (rfl : dedent text = _)
  obtain ⟨hfirst, hothers⟩ := List.forall_mem_cons.1 hcut.unbroken
  have hkept : ∀ line ∈ kept, Unbroken line := fun line hline =>
    List.forall_mem_cons.2 ⟨hfirst, hunindent.unbroken hothers⟩ line (htrim.subset hline)
  rw [← joinLines_eq_intercalate] at hresult
  refine ⟨fun result => dedents_iff.symm, ?_, ?_⟩
  · rw [hresult]
    exact not_mem_joinLines (by decide) fun line hline => (hkept line hline).2
  · rw [hresult]
    exact not_lineFeed_at_ends hkept htrim.first htrim.last

/-- All line breaks, a line of spaces that is kept, and a common indentation of three spaces. -/
example : dedent "\r\n    a\r   b\n    \n\n".toList = " a\nb\n ".toList := by decide

end GraphQL
