import GraphQL.Proofs.Bytes.Escape
import GraphQL.Proofs.Literal.Dedent

/-!
# Lines and indentation, cut in the bytes

The common indentation of a block string is removed in the bytes of its content: the lines are cut
out between line breaks (`linesFrom`), each line but the first is cut after the spaces that it
loses (`stripLines`), and the lines between the first and the last that is not empty are kept
(`keptLines`).

Line breaks and spaces are ASCII characters, so that all cuts stand between characters, and the
result is that of `dedent` (`dedentBytes_eq`).
-/

namespace GraphQL

/-- The lines of a text from a byte offset on. -/
def linesFrom (text : List Char) : Nat → Nat → Checked (List (List Char))
  | 0, _ => .error .endless
  | bound + 1, pos => do
    let rest ← entriesFrom (utf8 text) pos
    match rest.findIdx? (onByte isLineBreak) with
    | none => return [← textFrom text pos]
    | some offset =>
      let line ← piece text pos (pos + offset)
      let stop ← entryAt (utf8 text) (pos + offset)
      let isPair := onByte (· = '\r') stop &&
        (utf8 text)[pos + offset + 1]?.any (onByte (· = '\n'))
      let lines ← linesFrom text bound (if isPair then pos + offset + 2 else pos + offset + 1)
      return line :: lines

/-- The number of spaces that some bytes start with. -/
def leadingSpaces (bytes : List UInt8) : Nat := indentation (bytes.map Char.ofUInt8)

/-- The least number of spaces that a line with more than spaces starts with, and `least` if there
is one. -/
def commonSpacesFrom (least : Option Nat) : List (List Char) → Option Nat
  | [] => least
  | line :: lines =>
    let spaces := leadingSpaces (utf8 line)
    if spaces < byteLength line ∧ least.all (spaces < ·) then commonSpacesFrom (some spaces) lines
    else commonSpacesFrom least lines

/-- Cuts the common spaces off all lines but the first. -/
def stripLines : List (List Char) → Checked (List (List Char))
  | [] => return []
  | first :: others =>
    match (commonSpacesFrom none others).filter (0 < ·) with
    | some common => do
      let others ← others.mapM fun line => textFrom line (min common (leadingSpaces (utf8 line)))
      return first :: others
    | none => return first :: others

/-- Whether a line is not empty. -/
def holdsText (line : List Char) : Bool := !line.isEmpty

/-- The lines from the first to the last that is not empty. -/
def keptLines (lines : List (List Char)) : Checked (List (List Char)) :=
  match lines.findIdx? holdsText with
  | none => return []
  | some first =>
    let fromEnd := lines.reverse.findIdx? holdsText
    let last := (fromEnd.map (lines.length - 1 - ·)).getD first
    entriesBetween lines first (last + 1)

/-- Removes the common indentation and the empty lines at both ends, in the bytes of a text. -/
def dedentBytes (text : List Char) : Checked (List Char) :=
  if ((utf8 text).findIdx? (onByte isLineBreak)).isNone && !(utf8 [' ']).isPrefixOf (utf8 text) then
    return text
  else do
    let lines ← linesFrom text (text.length + 1) 0
    let stripped ← stripLines lines
    let kept ← keptLines stripped
    return joinLines kept

/-- The value of a block string with the given content, decoded in its bytes. -/
def decodeBlockBytes (content : String) : Checked (Except StringError String) := do
  let text ← dedentBytes (unescapeTripleQuotes content.toList)
  decodeQuotedBytes (String.ofList text)

/-! ### Lines -/

theorem asciiClass_isLineBreak : AsciiClass isLineBreak := by
  intro c hc
  simp only [isLineBreak, Bool.or_eq_true, decide_eq_true_eq] at hc
  rcases hc with rfl | rfl <;> decide

/-- The lines after a line that ends with a line break. -/
theorem linesFrom_cons {front line rest : List Char} {c : Char} (hline : Unbroken line)
    (hc : isLineBreak c = true) (bound : Nat) :
    linesFrom (front ++ (line ++ c :: rest)) (bound + 1) (byteLength front) =
      (line :: ·) <$> linesFrom (front ++ (line ++ c :: rest)) bound
        (if c = '\r' ∧ rest.head? = some '\n' then byteLength front + byteLength line + 2
        else byteLength front + byteLength line + 1) := by
  obtain ⟨x, hx, hxc⟩ := utf8EncodeChar_of_lt (asciiClass_isLineBreak c hc)
  have hsplit : utf8 (front ++ (line ++ c :: rest)) = utf8 (front ++ line) ++ x :: utf8 rest := by
    rw [← List.append_assoc, utf8_append, utf8_cons, hx]
    rfl
  have hstop : entryAt (utf8 (front ++ (line ++ c :: rest))) (byteLength front + byteLength line) =
      .ok x := by
    rw [hsplit, ← byteLength_append, ← length_utf8, entryAt_append]
  have hnext : (utf8 (front ++ (line ++ c :: rest)))[byteLength front + byteLength line + 1]?.any
      (onByte (· = '\n')) = rest.head?.any (· = '\n') := by
    rw [hsplit, ← byteLength_append, ← length_utf8,
      List.getElem?_append_right (Nat.le_add_right _ 1), Nat.add_sub_cancel_left,
      List.getElem?_cons_succ, ← List.head?_eq_getElem?, any_head?_utf8 (asciiClass_eq (by decide))]
  rw [linesFrom, entriesFrom_utf8, Checked.ok_bind,
    findIdx?_utf8_append asciiClass_isLineBreak (unbroken_iff.1 hline) hc]
  simp only [piece_append, hstop, hnext, Checked.ok_bind, onByte, hxc, Bool.and_eq_true,
    decide_eq_true_eq, Option.any_eq_true, exists_eq_right]
  rfl

/-- The lines from a byte offset on are the lines of the text from there on. -/
theorem linesFrom_eq {front rest : List Char} {lines : List (List Char)} {bound : Nat}
    (h : CutsInto rest lines) (hbound : rest.length < bound) :
    linesFrom (front ++ rest) bound (byteLength front) = .ok lines := by
  induction h generalizing front bound with
  | last hline =>
    obtain ⟨bound, rfl⟩ := Nat.exists_eq_succ_of_ne_zero (Nat.ne_zero_of_lt hbound)
    rw [linesFrom, entriesFrom_utf8, Checked.ok_bind,
      findIdx?_utf8_of_forall asciiClass_isLineBreak (unbroken_iff.1 hline)]
    simp only [textFrom_append, Checked.ok_bind]
    rfl
  | @lineFeed line rest lines hline hrest ih =>
    obtain ⟨bound, rfl⟩ := Nat.exists_eq_succ_of_ne_zero (Nat.ne_zero_of_lt hbound)
    have hnext := @ih (front ++ (line ++ ['\n'])) bound (by simp at hbound; omega)
    rw [byteLength_append, byteLength_append, List.append_assoc, List.append_assoc,
      ← Nat.add_assoc] at hnext
    rw [linesFrom_cons hline rfl, if_neg (by simp)]
    exact congrArg _ hnext
  | @carriageReturn line rest lines hline hlone hrest ih =>
    obtain ⟨bound, rfl⟩ := Nat.exists_eq_succ_of_ne_zero (Nat.ne_zero_of_lt hbound)
    have hnext := @ih (front ++ (line ++ ['\r'])) bound (by simp at hbound; omega)
    rw [byteLength_append, byteLength_append, List.append_assoc, List.append_assoc,
      ← Nat.add_assoc] at hnext
    rw [linesFrom_cons hline rfl, if_neg fun h => hlone h.2]
    exact congrArg _ hnext
  | @both line rest lines hline hrest ih =>
    obtain ⟨bound, rfl⟩ := Nat.exists_eq_succ_of_ne_zero (Nat.ne_zero_of_lt hbound)
    have hnext := @ih (front ++ (line ++ ['\r', '\n'])) bound (by simp at hbound; omega)
    rw [byteLength_append, byteLength_append, List.append_assoc, List.append_assoc,
      ← Nat.add_assoc] at hnext
    rw [linesFrom_cons hline rfl, if_pos ⟨rfl, rfl⟩]
    exact congrArg _ hnext

/-- The lines from the start on are the lines of the text. -/
theorem linesFrom_zero (text : List Char) :
    linesFrom text (text.length + 1) 0 = .ok (splitLines text) :=
  @linesFrom_eq [] _ _ _ (cutsInto_splitLines text) (Nat.lt_succ_self _)

/-! ### Indentation -/

theorem leadingSpaces_utf8 (line : List Char) : leadingSpaces (utf8 line) = indentation line := by
  rw [leadingSpaces, indentation_eq, indentation_eq]
  induction line with
  | nil => rfl
  | cons c line ih =>
    by_cases hc : c = ' '
    · subst hc
      exact congrArg (· + 1) ih
    · obtain ⟨b, bs, hb, hfirst, -⟩ := utf8EncodeChar_eq_cons c
      have hspace : ¬ Char.ofUInt8 b = ' ' := fun h =>
        hc (of_decide_eq_true ((hfirst _ (asciiClass_eq (d := ' ') (by decide))).symm.trans
          (decide_eq_true h)))
      rw [utf8_cons, hb]
      simp [hspace, hc]

/-- A line has more bytes than spaces at its start if it has more characters. -/
theorem indentation_lt_byteLength_iff {line : List Char} :
    indentation line < byteLength line ↔ indentation line < line.length := by
  refine ⟨fun h => ?_, fun h => h.trans_le (length_le_byteLength line)⟩
  rw [indentation_lt_iff, holdsMore_iff]
  by_contra hspaces
  have hlength : byteLength line = line.length := byteLength_of_forall_lt fun c hc => by
    obtain rfl : c = ' ' := by
      by_contra hne
      exact hspaces ⟨c, hc, hne⟩
    decide
  rw [hlength, indentation_lt_iff, holdsMore_iff] at h
  exact hspaces h

theorem commonSpacesFrom_eq (least : Option Nat) (lines : List (List Char)) :
    commonSpacesFrom least lines = commonIndentFrom least lines := by
  induction lines generalizing least with
  | nil => rfl
  | cons line lines ih =>
    simp only [commonSpacesFrom, commonIndentFrom, leadingSpaces_utf8,
      indentation_lt_byteLength_iff, ih]

/-- A line can be cut after spaces that it starts with. -/
theorem textFrom_indentation (common : Nat) (line : List Char) :
    textFrom line (min common (leadingSpaces (utf8 line))) = .ok (stripIndent common line) := by
  rw [leadingSpaces_utf8, stripIndent]
  generalize hm : min common (indentation line) = m
  have hspaces : line.take m = List.replicate m ' ' :=
    (startsWithSpaces_iff.2 rfl).take (hm ▸ Nat.min_le_right _ _)
  have hbytes : byteLength (line.take m) = m := by
    rw [hspaces, byteLength_of_forall_lt, List.length_replicate]
    intro c hc
    rw [List.eq_of_mem_replicate hc]
    decide
  have hcut := textFrom_append (line.take m) (line.drop m)
  rwa [List.take_append_drop, hbytes] at hcut

theorem mapM_eq_ok {α β : Type} {f : α → Checked β} {g : α → β} {as : List α}
    (h : ∀ a ∈ as, f a = .ok (g a)) : as.mapM f = .ok (as.map g) := by
  induction as with
  | nil => rfl
  | cons a as ih =>
    rw [List.mapM_cons, h a List.mem_cons_self, ih fun b hb => h b (List.mem_cons_of_mem _ hb)]
    rfl

theorem stripLines_eq (lines : List (List Char)) :
    stripLines lines = .ok (stripCommonIndent lines) := by
  rcases lines with _ | ⟨first, others⟩
  · rfl
  · rw [stripLines, commonSpacesFrom_eq, stripCommonIndent, ← commonIndent?]
    cases commonIndent? others with
    | none => rfl
    | some common =>
      rcases common with _ | common
      · -- Nothing is cut off then, and nothing is removed.
        have hall : others.map (stripIndent 0) = others := by
          rw [List.map_congr_left (g := id) fun line _ => by simp [stripIndent], List.map_id]
        simp only [hall]
        rfl
      · have hsome : (some (common + 1)).filter (0 < ·) = some (common + 1) := by simp
        rw [hsome]
        simp only [mapM_eq_ok fun line _ => textFrom_indentation (common + 1) line,
          Checked.ok_bind]
        rfl

/-! ### Empty lines at the ends -/

theorem findIdx?_holdsText {lines : List (List Char)} (hne : lines ≠ [])
    (h : ∀ line ∈ lines.head?, line ≠ []) (n : Nat) :
    (List.replicate n [] ++ lines).findIdx? holdsText = some n := by
  obtain ⟨line, lines, rfl⟩ := List.exists_cons_of_ne_nil hne
  have hnone : (List.replicate n []).findIdx? holdsText = none :=
    List.findIdx?_eq_none_iff.2 fun line hline => by rw [List.eq_of_mem_replicate hline]; rfl
  have hline : holdsText line = true := by simpa [holdsText] using h line rfl
  rw [List.findIdx?_append, hnone, Option.none_or, List.findIdx?_cons, if_pos hline,
    Option.map_some, List.length_replicate, Nat.zero_add]

theorem keptLines_eq (lines : List (List Char)) :
    keptLines lines = .ok (trimEmptyLines lines) := by
  obtain ⟨⟨before, after, hends⟩, hfirst, hlast⟩ :=
    trimEmptyLines_eq_iff.1 (rfl : trimEmptyLines lines = _)
  generalize trimEmptyLines lines = kept at hends hfirst hlast
  subst hends
  by_cases hne : kept = []
  · subst hne
    have hnone : (List.replicate before [] ++ [] ++ List.replicate after []).findIdx? holdsText =
        none :=
      List.findIdx?_eq_none_iff.2 fun line hline => by
        obtain ⟨-, rfl⟩ : (before = 0 → after ≠ 0) ∧ line = [] := by simpa using hline
        rfl
    rw [keptLines, hnone]
    rfl
  · have hstart : (List.replicate before [] ++ kept ++ List.replicate after []).findIdx? holdsText =
        some before := by
      rw [List.append_assoc, findIdx?_holdsText]
      · simp [hne]
      · rwa [List.head?_append_of_ne_nil _ hne]
    have hend : (List.replicate before [] ++ kept ++ List.replicate after []).reverse.findIdx?
        holdsText = some after := by
      rw [List.reverse_append, List.reverse_append, List.reverse_replicate, List.reverse_replicate,
        findIdx?_holdsText]
      · simp [hne]
      · rwa [List.head?_append_of_ne_nil _ (List.reverse_ne_nil_iff.2 hne), List.head?_reverse]
    have hstop :
        (List.replicate before [] ++ kept ++ List.replicate after ([] : List Char)).length -
          1 - after + 1 = before + kept.length := by
      have hpos := List.length_pos_of_ne_nil hne
      simp only [List.length_append, List.length_replicate]
      omega
    have hcut := entriesBetween_append (List.replicate before []) kept (List.replicate after [])
    rw [List.length_replicate] at hcut
    rw [keptLines, hstart]
    simp only [hend, Option.map_some, Option.getD_some, hstop, hcut]

/-! ### The whole text -/

theorem dedentBytes_eq (text : List Char) : dedentBytes text = .ok (dedent text) := by
  have hspace : (utf8 [' ']).isPrefixOf (utf8 text) = (text.head? == some ' ') := by
    rw [Bool.eq_iff_iff, isPrefixOf_utf8, beq_iff_eq]
    rcases text with _ | ⟨c, text⟩ <;> simp [eq_comm]
  have hbreak : ((utf8 text).findIdx? (onByte isLineBreak)).isNone = !text.any isLineBreak := by
    rw [← Option.not_isSome, findIdx?_utf8 asciiClass_isLineBreak, Option.isSome_map,
      List.findIdx?_isSome]
  rw [dedentBytes, dedent, hspace, hbreak, ← bne, linesFrom_zero, Checked.ok_bind, stripLines_eq,
    Checked.ok_bind, keptLines_eq, Checked.ok_bind]
  split <;> rfl

theorem decodeBlockBytes_eq (content : String) :
    decodeBlockBytes content = .ok (decodeBlock content) := by
  rw [decodeBlockBytes, dedentBytes_eq, Checked.ok_bind, decodeQuotedBytes_eq, decodeBlock,
    decodeQuoted, String.toList_ofList]

end GraphQL
