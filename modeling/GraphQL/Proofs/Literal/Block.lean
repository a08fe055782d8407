import GraphQL.Literal.Block
import Mathlib.Data.List.Basic

/-!
# Lines and their indentation

What is done to the content of a block string before its escape sequences are decoded.  Splitting
inverts joining lines that have no line breaks (`splitLines_joinLines`), the common indentation is
the least one among the lines that hold more than spaces (`commonIndent?_eq`), and lines that are
indented by the same number of spaces lose just these (`dedent_indented`).
-/

namespace GraphQL

/-! ### Escaped triple quotes -/

theorem unescapeTripleQuotes_cons {c : Char} (h : c ≠ '\\') (rest : List Char) :
    unescapeTripleQuotes (c :: rest) = c :: unescapeTripleQuotes rest := by
  rw [unescapeTripleQuotes]
  rintro _ rfl
  exact absurd rfl h

theorem unescapeTripleQuotes_of_not_mem {text : List Char} (h : '"' ∉ text) :
    unescapeTripleQuotes text = text := by
  induction text using unescapeTripleQuotes.induct with
  | case1 rest ih => simp at h
  | case2 c rest hne ih =>
    rw [unescapeTripleQuotes, ih fun hmem => h (List.mem_cons_of_mem _ hmem)]
    exact hne
  | case3 => rfl

/-! ### Lines -/

theorem joinLines_cons (line : List Char) {lines : List (List Char)} (h : lines ≠ []) :
    joinLines (line :: lines) = line ++ '\n' :: joinLines lines := by
  rw [joinLines]
  exact h

theorem joinLines_eq_intercalate (lines : List (List Char)) :
    joinLines lines = ['\n'].intercalate lines := by
  induction lines using joinLines.induct with
  | case1 => rfl
  | case2 line => rw [joinLines, List.intercalate_singleton]
  | case3 line lines h ih =>
    obtain ⟨next, lines, rfl⟩ := List.exists_cons_of_ne_nil h
    rw [joinLines_cons line h, ih, List.intercalate_cons_cons, List.append_assoc,
      List.singleton_append]

theorem joinLines_concat {lines : List (List Char)} (h : lines ≠ []) (line : List Char) :
    joinLines (lines ++ [line]) = joinLines lines ++ '\n' :: line := by
  induction lines using joinLines.induct with
  | case1 => exact absurd rfl h
  | case2 first => rfl
  | case3 first lines hne ih =>
    rw [List.cons_append, joinLines_cons first (by simp), ih hne, joinLines_cons first hne,
      List.append_assoc, List.cons_append]

theorem not_mem_joinLines {c : Char} (hc : c ≠ '\n') {lines : List (List Char)}
    (h : ∀ line ∈ lines, c ∉ line) : c ∉ joinLines lines := by
  induction lines using joinLines.induct with
  | case1 => exact List.not_mem_nil
  | case2 line => exact h line List.mem_cons_self
  | case3 line lines hne ih =>
    obtain ⟨hline, hrest⟩ := List.forall_mem_cons.1 h
    rw [joinLines_cons line hne, List.mem_append, List.mem_cons, not_or, not_or]
    exact ⟨hline, hc, ih hrest⟩

/-- Joining the lines between line feeds gives the text back. -/
theorem joinLines_splitOn (text : List Char) : joinLines (text.splitOn '\n') = text := by
  rw [joinLines_eq_intercalate, List.intercalate_splitOn]

theorem mem_of_mem_splitOn {text : List Char} :
    ∀ line ∈ text.splitOn '\n', ∀ c ∈ line, c ∈ text ∧ c ≠ '\n' := by
  induction text with
  | nil => simp
  | cons d text ih =>
    have hlines : ∀ line ∈ text.splitOn '\n', ∀ c ∈ line, c ∈ d :: text ∧ c ≠ '\n' :=
      fun line hline c hc => (ih line hline c hc).imp_left (List.mem_cons_of_mem _)
    rw [List.splitOn_cons_eq_if_modifyHead]
    split
    · exact List.forall_mem_cons.2 ⟨nofun, hlines⟩
    · rename_i hd
      obtain ⟨first, others, hsplit⟩ :=
        List.exists_cons_of_ne_nil (List.splitOn_ne_nil '\n' text)
      rw [hsplit, List.forall_mem_cons] at hlines
      rw [hsplit, List.modifyHead_cons]
      have hfirst : ∀ c ∈ d :: first, c ∈ d :: text ∧ c ≠ '\n' :=
        List.forall_mem_cons.2 ⟨⟨List.mem_cons_self, by simpa using hd⟩, hlines.1⟩
      exact List.forall_mem_cons.2 ⟨hfirst, hlines.2⟩

theorem splitLines_cons {c : Char} (h : isLineBreak c = false) (rest : List Char) :
    splitLines (c :: rest) = pushFirst c (splitLines rest) := by
  simp only [isLineBreak, Bool.or_eq_false_iff, decide_eq_false_iff_not] at h
  rw [splitLines]
  · rintro _ rfl
    exact absurd rfl h.2
  · rintro rfl
    exact absurd rfl h.2
  · rintro rfl
    exact absurd rfl h.1

theorem splitLines_of_forall {line : List Char} (h : ∀ c ∈ line, isLineBreak c = false) :
    splitLines line = [line] := by
  induction line with
  | nil => rfl
  | cons c line ih =>
    obtain ⟨hc, hline⟩ := List.forall_mem_cons.1 h
    rw [splitLines_cons hc, ih hline, pushFirst]

theorem splitLines_lineFeed (rest : List Char) :
    splitLines ('\n' :: rest) = [] :: splitLines rest := by
  rw [splitLines]

/-- A line break ends the first line. -/
theorem splitLines_append {line rest : List Char} {lines : List (List Char)}
    (h : ∀ c ∈ line, isLineBreak c = false) (hrest : splitLines rest = [] :: lines) :
    splitLines (line ++ rest) = line :: lines := by
  induction line with
  | nil => exact hrest
  | cons c line ih =>
    obtain ⟨hc, hline⟩ := List.forall_mem_cons.1 h
    rw [List.cons_append, splitLines_cons hc, ih hline, pushFirst]

/-- Lines that are joined are found again. -/
theorem splitLines_joinLines {lines : List (List Char)} (hne : lines ≠ [])
    (h : ∀ line ∈ lines, ∀ c ∈ line, isLineBreak c = false) :
    splitLines (joinLines lines) = lines := by
  induction lines using joinLines.induct with
  | case1 => exact absurd rfl hne
  | case2 line => exact splitLines_of_forall (h line List.mem_cons_self)
  | case3 line lines hlines ih =>
    obtain ⟨hline, hrest⟩ := List.forall_mem_cons.1 h
    rw [joinLines_cons line hlines, splitLines_append hline (splitLines_lineFeed _),
      ih hlines hrest]

/-! ### Indentation -/

/-- The usual indentations are no exception. -/
theorem indentation_eq (line : List Char) :
    indentation line = (line.takeWhile (· = ' ')).length := by
  rw [indentation]
  fun_cases usualIndentation? line with
  | case1 c rest hc => simp [hc]
  | case2 c hc d rest hd =>
    obtain rfl := Decidable.not_not.1 hc
    simp [hd]
  | case3 | case4 | case5 => rfl

/-- Whether a line holds more than spaces. -/
def holdsMore (line : List Char) : Bool := line.any (· ≠ ' ')

/-- The indentations of the lines that hold more than spaces. -/
def indentations (lines : List (List Char)) : List Nat :=
  (lines.filter holdsMore).map indentation

theorem indentation_lt_iff {line : List Char} :
    indentation line < line.length ↔ holdsMore line = true := by
  rw [indentation_eq]
  induction line with
  | nil => simp [holdsMore]
  | cons c line ih =>
    by_cases hc : c = ' '
    · simpa [holdsMore, hc] using ih
    · simp [holdsMore, hc]

theorem indentations_cons (line : List Char) (lines : List (List Char)) :
    indentations (line :: lines) =
      if indentation line < line.length then indentation line :: indentations lines
      else indentations lines := by
  simp only [indentations, List.filter_cons, indentation_lt_iff]
  split <;> rfl

theorem commonIndentFrom_eq (least : Option Nat) (lines : List (List Char)) :
    commonIndentFrom least lines = (least.toList ++ indentations lines).min? := by
  induction lines generalizing least with
  | nil => cases least <;> rfl
  | cons line lines ih =>
    rw [commonIndentFrom, indentations_cons]
    by_cases hmore : indentation line < line.length
    · rw [if_pos hmore]
      cases least with
      | none => rw [if_pos ⟨hmore, rfl⟩, ih, Option.toList_some, Option.toList_none]; rfl
      | some m =>
        have hcons : (m :: indentation line :: indentations lines).min? =
            (min m (indentation line) :: indentations lines).min? := by
          rw [List.min?_cons', List.min?_cons', List.foldl_cons]
        -- The smaller of the two indentations is the one that is kept.
        by_cases hless : indentation line < m
        · rw [if_pos ⟨hmore, decide_eq_true hless⟩, ih]
          rw [Nat.min_eq_right (Nat.le_of_lt hless)] at hcons
          exact hcons.symm
        · rw [if_neg fun h => hless (of_decide_eq_true h.2), ih]
          rw [Nat.min_eq_left (Nat.le_of_not_lt hless)] at hcons
          exact hcons.symm
    · rw [if_neg hmore, if_neg fun h => hmore h.1, ih]

/-- The common indentation is the least one among the lines that hold more than spaces. -/
theorem commonIndent?_eq (lines : List (List Char)) :
    commonIndent? lines = (indentations lines).min? := by
  rw [commonIndent?, commonIndentFrom_eq, Option.toList_none, List.nil_append]

/-- A line with so many spaces in front. -/
def indent (k : Nat) (line : List Char) : List Char := List.replicate k ' ' ++ line

theorem indentation_indent (k : Nat) (line : List Char) :
    indentation (indent k line) = k + indentation line := by
  rw [indent, indentation_eq, List.takeWhile_append_of_pos (by simp), List.length_append,
    List.length_replicate, indentation_eq]

theorem holdsMore_indent (k : Nat) (line : List Char) :
    holdsMore (indent k line) = holdsMore line := by
  simp [holdsMore, indent]

theorem stripIndent_indent (k : Nat) (line : List Char) :
    stripIndent k (indent k line) = line := by
  rw [stripIndent, indentation_indent, Nat.min_eq_left (Nat.le_add_right _ _), indent,
    List.drop_left' (List.length_replicate ..)]

/-- The common indentation of lines that are indented is that much, if one of them starts with no
other space. -/
theorem commonIndent?_indent (k : Nat) {lines : List (List Char)} {line : List Char}
    {c : Char} (hmem : c :: line ∈ lines) (hc : c ≠ ' ') :
    commonIndent? (lines.map (indent k)) = some k := by
  rw [commonIndent?_eq, List.min?_eq_some_iff]
  constructor
  · refine List.mem_map.2
      ⟨indent k (c :: line), List.mem_filter.2 ⟨List.mem_map_of_mem hmem, ?_⟩, ?_⟩
    · rw [holdsMore_indent]
      simp [holdsMore, hc]
    · rw [indentation_indent, indentation_eq]
      simp [hc]
  · intro n hn
    obtain ⟨_, hline, rfl⟩ := List.mem_map.1 hn
    obtain ⟨line, -, rfl⟩ := List.mem_map.1 (List.mem_filter.1 hline).1
    rw [indentation_indent]
    exact Nat.le_add_right _ _

/-! ### Empty lines at the ends -/

theorem dropWhile_eq_self {α : Type} {p : α → Bool} {as : List α}
    (h : ∀ a ∈ as.head?, p a = false) : as.dropWhile p = as := by
  cases as with
  | nil => rfl
  | cons a as => exact List.dropWhile_cons_of_neg (by simp [h a rfl])

/-- An empty line before lines that have none at their ends, and one after them, are removed. -/
theorem trimEmptyLines_of_ends {lines : List (List Char)} (hne : lines ≠ [])
    (hfirst : ∀ line ∈ lines.head?, line.isEmpty = false)
    (hlast : ∀ line ∈ lines.getLast?, line.isEmpty = false) :
    trimEmptyLines ([] :: (lines ++ [[]])) = lines := by
  have hdrop : (lines ++ [[]]).dropWhile List.isEmpty = lines ++ [[]] := by
    refine dropWhile_eq_self ?_
    rwa [List.head?_append_of_ne_nil _ hne]
  rw [trimEmptyLines, List.dropWhile_cons_of_pos rfl, hdrop, List.reverse_append,
    List.reverse_singleton, List.singleton_append, List.dropWhile_cons_of_pos rfl,
    dropWhile_eq_self (by rwa [List.head?_reverse]), List.reverse_reverse]

/-! ### Removing indentation -/

/-- A single line that does not start with a space is no exception. -/
theorem dedent_eq (text : List Char) :
    dedent text = joinLines (trimEmptyLines (stripCommonIndent (splitLines text))) := by
  rw [dedent]
  split
  · rename_i h
    rw [Bool.and_eq_true, Bool.not_eq_true', List.any_eq_false] at h
    rw [splitLines_of_forall fun c hc => Bool.eq_false_iff.2 (h.1 c hc)]
    cases text <;> rfl
  · rfl

/-- A single line stays as it is. -/
theorem dedent_of_line {line : List Char} (h : ∀ c ∈ line, isLineBreak c = false) :
    dedent line = line := by
  rw [dedent_eq, splitLines_of_forall h]
  cases line <;> rfl

/-- Lines that are indented by the same number of spaces, between an empty line and one of spaces,
are found again if no more can be removed from them. -/
theorem dedent_indented (k : Nat) {lines : List (List Char)}
    (hbreak : ∀ line ∈ lines, ∀ c ∈ line, isLineBreak c = false)
    (hfirst : ∀ line ∈ lines.head?, line.isEmpty = false)
    (hlast : ∀ line ∈ lines.getLast?, line.isEmpty = false)
    {c : Char} {line : List Char} (hmem : c :: line ∈ lines) (hc : c ≠ ' ') :
    dedent (joinLines ([] :: (lines ++ [[]]).map (indent k))) = joinLines lines := by
  have hlines : ∀ line ∈ [] :: (lines ++ [[]]).map (indent k), ∀ c ∈ line,
      isLineBreak c = false := by
    simp only [indent, List.forall_mem_cons, List.forall_mem_map, List.forall_mem_append,
      List.forall_mem_replicate]
    exact ⟨nofun, fun line hline => ⟨.inr (by decide), hbreak line hline⟩,
      ⟨.inr (by decide), nofun⟩, nofun⟩
  have hstrip : ((lines ++ [[]]).map (indent k)).map (stripIndent k) = lines ++ [[]] := by
    simp [List.map_map, Function.comp_def, stripIndent_indent]
  rw [dedent_eq, splitLines_joinLines (List.cons_ne_nil _ _) hlines, stripCommonIndent,
    commonIndent?_indent k (List.mem_append_left _ hmem) hc]
  simp only [hstrip]
  rw [trimEmptyLines_of_ends (List.ne_nil_of_mem hmem) hfirst hlast]

end GraphQL
