import GraphQL.Proofs.Bytes.Ignored
import GraphQL.Proofs.Bytes.Lexeme

/-!
# Scanning the bytes of a text

The scanner skips ignored bytes, finds the token that starts there, and cuts its text out
(`scanBytes`).  It looks lines up by the line feeds before an offset (`lineAtBytes`).  Nothing in it
is out of range or cuts inside a character, and what it finds are the tokens and lines of the text
(`bytes_faultless`).
-/

namespace GraphQL

/-- A token as the scanner hands it out. -/
structure Scanned where
  /-- The kind of the token. -/
  kind : TokenKind
  /-- The text of the token. -/
  text : String
  /-- The byte offset of the text. -/
  offset : Nat
  /-- The value of a string literal. -/
  value? : Option String
  /-- Why a string literal has no value. -/
  error? : Option StringError
  deriving DecidableEq, Repr

/-- The token after any ignored text from an index on, and the index after it. -/
def scanNext (source : List Char) (pos : Nat) : Checked (Option (Scanned × Nat)) := do
  let start ← ignoredEnd (utf8 source) (source.length + 1) pos
  match ← foundAt source start with
  | none => return none
  | some found =>
    let text ← piece source start found.stop
    return some (⟨found.kind, String.ofList text, start, found.value?, found.error?⟩, found.stop)

/-- All tokens from an index on. -/
def scanFrom (source : List Char) : Nat → Nat → Checked (List Scanned)
  | 0, _ => .error .endless
  | bound + 1, pos => do
    match ← scanNext source pos with
    | none => return []
    | some (t, stop) => return t :: (← scanFrom source bound stop)

/-- All tokens of a source text. -/
def scanBytes (source : String) : Checked (List Scanned) :=
  scanFrom source.toList (source.length + 1) 0

/-- What the scanner tells of a token. -/
def Token.scanned (t : Token) : Scanned :=
  ⟨t.kind, t.text, t.offset, t.lexeme.value?, t.lexeme.error?⟩

/-! ### All tokens -/

/-- The bytes from the place of a cursor on hold the next token of the cursor. -/
theorem scanNext_eq {front : List Char} {c : Cursor} (h : c.offset = byteLength front) :
    scanNext (front ++ c.rest) c.offset =
      .ok (c.next?.map fun x => (x.1.scanned, x.2.offset)) := by
  obtain ⟨offset, rest⟩ := c
  obtain rfl : offset = byteLength front := h
  obtain ⟨gap, here, rfl, hgap, hstart⟩ := exists_gap rest
  have hlength : (gap ++ here).length < (front ++ (gap ++ here)).length + 1 := by
    simp only [List.length_append]
    omega
  have hfound := foundAt_eq (front ++ gap) here
  rw [List.append_assoc, byteLength_append] at hfound
  rw [scanNext, ignoredEnd_eq hlength, Checked.ok_bind, ignored_of_gap hgap hstart,
    byteLength_append, hfound, Checked.ok_bind, Cursor.next?_of_gap hgap hstart]
  cases hread : Lexeme.read here with
  | none => rfl
  | some x =>
    obtain ⟨l, after⟩ := x
    have hpiece := piece_append (front ++ gap) l.text.toList after
    rw [← (Lexeme.cutOff_of_read hread).append, List.append_assoc, byteLength_append] at hpiece
    simp only [Option.map_some, Lexeme.found, hpiece, Checked.ok_bind, String.ofList_toList]
    rfl

theorem scanFrom_eq {front : List Char} {c : Cursor} {bound : Nat}
    (h : c.offset = byteLength front) (hbound : c.rest.length < bound) :
    scanFrom (front ++ c.rest) bound c.offset = .ok (c.tokens.map Token.scanned) := by
  induction c using Cursor.tokens_induction generalizing front bound with
  | h c ih =>
    obtain ⟨bound, rfl⟩ := Nat.exists_eq_succ_of_ne_zero (Nat.ne_zero_of_lt hbound)
    rw [scanFrom, scanNext_eq h, Checked.ok_bind, Cursor.tokens_eq]
    cases hnext : c.next? with
    | none => rfl
    | some x =>
      obtain ⟨t, after⟩ := x
      obtain ⟨-, gap, hrest, hstart, hoffset⟩ := Cursor.next?_eq_some hnext
      have hlength := Cursor.length_of_next? hnext
      have hsplit : front ++ c.rest = (front ++ (gap ++ t.text.toList)) ++ after.rest := by
        rw [hrest]
        simp only [List.append_assoc]
      have hplace : after.offset = byteLength (front ++ (gap ++ t.text.toList)) := by
        rw [hoffset, hstart, h, byteLength_append, byteLength_append, Nat.add_assoc]
      have hafter := @ih t after hnext _ bound hplace (by omega)
      rw [← hsplit] at hafter
      simp only [Option.map_some, hafter, Checked.ok_bind]
      rfl

theorem scanBytes_eq (source : String) :
    scanBytes source = .ok ((tokens source).map Token.scanned) :=
  @scanFrom_eq [] (Cursor.ofString source) _ rfl
    (Nat.lt_succ_of_le (String.length_toList ▸ Nat.le.refl))

/-! ### Lines -/

/-- The line, counted from one, that holds the byte offset, by the bytes before it. -/
def lineAtBytes (source : String) (offset : Nat) : Checked Nat := do
  let bytes := utf8 source.toList
  let before ← entriesBetween bytes 0 (min offset bytes.length)
  return before.countP (onByte (· = '\n')) + 1

theorem countP_take_utf8 (text : List Char) (n : Nat) :
    ((utf8 text).take n).countP (onByte (· = '\n')) = lineFeedsBefore text n := by
  induction text generalizing n with
  | nil => simp [lineFeedsBefore]
  | cons c text ih =>
    rw [lineFeedsBefore]
    split
    · rename_i hzero
      rw [hzero, List.take_zero, List.countP_nil]
    · rename_i hpos
      have hclass : AsciiClass (· = '\n') := asciiClass_eq (by decide)
      rw [utf8_cons, List.take_append, List.countP_append, ih, String.length_utf8EncodeChar]
      congr 1
      split
      · rename_i hc
        subst hc
        have hbyte : String.utf8EncodeChar '\n' = [0x0A] := rfl
        obtain ⟨n, rfl⟩ := Nat.exists_eq_succ_of_ne_zero hpos
        rw [hbyte, List.take_succ_cons, List.take_nil]
        rfl
      · rename_i hc
        rw [List.countP_eq_zero]
        intro b hb
        rw [forall_onByte_of_class hclass (decide_eq_false hc) (List.mem_of_mem_take hb)]
        exact Bool.false_ne_true

theorem lineAtBytes_eq (source : String) (offset : Nat) :
    lineAtBytes source offset = .ok (lineAt source offset) := by
  have hbefore : entriesBetween (utf8 source.toList) 0 (min offset (utf8 source.toList).length) =
      .ok ((utf8 source.toList).take offset) := by
    rw [entriesBetween, if_pos ⟨Nat.zero_le _, Nat.min_le_right _ _⟩, List.drop_zero,
      ← List.take_eq_take_min]
  rw [lineAtBytes]
  simp only [hbefore, Checked.ok_bind, countP_take_utf8]
  rw [lineAt, Nat.add_comm]
  rfl

/-- **Working on the bytes of a text never goes out of range and never cuts inside a character.**
Whatever the text, scanning it, looking up the line of any offset, and decoding any content of a
quoted string or block string have results, and these are the tokens, the line and the value. -/
theorem bytes_faultless :
    (∀ source, scanBytes source = .ok ((tokens source).map Token.scanned)) ∧
    (∀ source offset, lineAtBytes source offset = .ok (lineAt source offset)) ∧
    (∀ content, decodeQuotedBytes content = .ok (decodeQuoted content)) ∧
    (∀ content, decodeBlockBytes content = .ok (decodeBlock content)) ∧
    (∀ text, linesFrom text (text.length + 1) 0 = .ok (splitLines text)) ∧
    ∀ text, dedentBytes text = .ok (dedent text) :=
  ⟨scanBytes_eq, lineAtBytes_eq, decodeQuotedBytes_eq, decodeBlockBytes_eq, linesFrom_zero,
    dedentBytes_eq⟩

end GraphQL
