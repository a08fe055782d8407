import GraphQL.Proofs.Bytes.Dedent
import GraphQL.Proofs.Bytes.Keyword
import GraphQL.Proofs.Bytes.Literal
import GraphQL.Proofs.Bytes.Number

/-!
# Tokens, found in the bytes

The first byte of a token tells what it is, and its end is searched for accordingly (`foundAt`).
Names and the contents of string literals are cut out of the text between the indices found.  What
is found is the lexeme that `Lexeme.read` cuts off (`foundAt_eq`).
-/

namespace GraphQL

/-- What the scanner finds at a place, and the index after it. -/
structure Found where
  /-- The kind of the token. -/
  kind : TokenKind
  /-- The index after the token. -/
  stop : Nat
  /-- The value of a string literal. -/
  value? : Option String
  /-- Why a string literal has no value. -/
  error? : Option StringError
  deriving DecidableEq, Repr

namespace Found

/-- A token that is no string literal. -/
def plain (kind : TokenKind) (stop : Nat) : Found := ⟨kind, stop, none, none⟩

/-- A string literal, given how its content decodes. -/
def ofLiteral (stop : Nat) : Except StringError String → Found
  | .ok value => ⟨.string, stop, some value, none⟩
  | .error cause => ⟨.invalidString, stop, none, some cause⟩

end Found

/-- The name that starts at an index. -/
def nameAt (source : List Char) (pos : Nat) : Checked Found := do
  let stop := runEnd isNamePart (utf8 source) (pos + 1)
  let name ← piece source pos stop
  match ← Keyword.ofBytes (utf8 name) with
  | some k => return .plain (.keyword k) stop
  | none => return .plain .name stop

/-- The number that starts at an index. -/
def numberAt (source : List Char) (pos : Nat) : Checked Found := do
  match ← numberEnd (utf8 source) pos with
  | some (stop, isInteger) => return .plain (if isInteger then .int else .float) stop
  | none => return .plain .unknownCharacter (pos + 1)

/-- The string literal whose content starts at an index, given where it closes, how many quotes
close it and how its content decodes. -/
def literalAt (source : List Char) (start : Nat) (close? : Option Nat) (quotes : Nat)
    (decode : String → Checked (Except StringError String)) : Checked Found :=
  match close? with
  | none => return ⟨.invalidString, (utf8 source).length, none, some .unterminated⟩
  | some close => do
    let content ← piece source start close
    let value ← decode (String.ofList content)
    return .ofLiteral (close + quotes) value

/-- The quoted string that starts at an index. -/
def quotedAt (source : List Char) (pos : Nat) : Checked Found := do
  let close? ← quoteEnd (utf8 source) (source.length + 1) (pos + 1)
  literalAt source (pos + 1) close? 1 decodeQuotedBytes

/-- The block string that starts at an index. -/
def blockAt (source : List Char) (pos : Nat) : Checked Found := do
  let start := pos + tripleQuote.length
  let close? ← blockEnd (utf8 source) start (source.length + 1) start
  literalAt source start close? tripleQuote.length decodeBlockBytes

/-- The ellipsis that starts at an index, or a full stop alone. -/
def dotsAt (source : List Char) (pos : Nat) : Checked Found := do
  let rest ← entriesFrom (utf8 source) pos
  if (utf8 ['.', '.', '.']).isPrefixOf rest then
    return .plain (.punctuator .ellipsis) (pos + 3)
  else return .plain .unknownCharacter (pos + 1)

/-- The unknown character that starts at an index. -/
def unknownAt (source : List Char) (pos : Nat) : Checked Found := do
  let rest ← textFrom source pos
  return .plain .unknownCharacter (pos + (rest.head?.map Char.utf8Size).getD 1)

/-- The token that starts at an index, if it is not the end of the text. -/
def foundAt (source : List Char) (pos : Nat) : Checked (Option Found) :=
  match (utf8 source)[pos]? with
  | none => return none
  | some b =>
    if onByte (fun c => c.isDigit || c = '-') b then some <$> numberAt source pos
    else if onByte isNameStart b then some <$> nameAt source pos
    else if onByte (· = '"') b then do
      let rest ← entriesFrom (utf8 source) pos
      if tripleQuote.isPrefixOf rest then some <$> blockAt source pos
      else some <$> quotedAt source pos
    else if onByte (· = '.') b then some <$> dotsAt source pos
    else
      match Punctuator.ofChar? (Char.ofUInt8 b) with
      | some p => return some (.plain (.punctuator p) (pos + 1))
      | none => some <$> unknownAt source pos

/-- What the scanner finds where a lexeme starts. -/
def Lexeme.found (start : Nat) (l : Lexeme) : Found :=
  ⟨l.kind, start + byteLength l.text.toList, l.value?, l.error?⟩

/-! ### What is found at an index -/

namespace Lexeme

theorem found_ofLiteral (start : Nat) (text : List Char) (value : Except StringError String) :
    (ofLiteral (String.ofList text) value).found start =
      Found.ofLiteral (start + byteLength text) value := by
  cases value <;> simp [ofLiteral, found, Found.ofLiteral, kind, Lexeme.text, value?, error?]

theorem found_ofName (start : Nat) (name : String) : (ofName name).found start =
    .plain ((Keyword.ofName? name).elim .name .keyword) (start + byteLength name.toList) := by
  have htext := text_ofName name
  unfold ofName at htext ⊢
  cases h : Keyword.ofName? name with
  | none => rfl
  | some k =>
    simp only [h] at htext
    rw [found, htext]
    rfl

theorem found_ofNumber (start : Nat) (n : NumberParts) : (ofNumber n).found start =
    .plain (if n.isInteger then .int else .float) (start + byteLength n.text) := by
  obtain ⟨hn, h⟩ | ⟨hn, h⟩ := kind_ofNumber n <;>
    simp [h, hn, found, kind, Lexeme.text, value?, error?, Found.plain]

theorem found_punctuator (start : Nat) (p : Punctuator) :
    (punctuator p).found start = .plain (.punctuator p) (start + byteLength p.text.toList) := rfl

theorem found_unknownCharacter (start : Nat) (c : Char) :
    (unknownCharacter c).found start = .plain .unknownCharacter (start + c.utf8Size) := by
  simp [found, kind, Lexeme.text, value?, error?, Found.plain, byteLength]

end Lexeme

theorem isAlphanum_lt {c : Char} (h : c.isAlphanum = true) : c.toNat < 128 := by
  -- Every letter or digit is one of a range of characters, which ends below 128.
  have hbelow : ∀ top : Char, top.toNat < 128 → c.val ≤ top.val → c.toNat < 128 :=
    fun _ htop h => (UInt32.le_iff_toNat_le.1 h).trans_lt htop
  rcases (Bool.or_eq_true _ _).mp h with h | h
  · rcases (Bool.or_eq_true _ _).mp h with h | h
    · exact hbelow 'Z' (by decide) (of_decide_eq_true h).2
    · exact hbelow 'z' (by decide) (of_decide_eq_true (Bool.and_eq_true_iff.1 h).2)
  · exact hbelow '9' (by decide) (of_decide_eq_true (Bool.and_eq_true_iff.1 h).2)

theorem asciiClass_isNamePart : AsciiClass isNamePart := by
  intro c hc
  simp only [isNamePart, Bool.or_eq_true, decide_eq_true_eq] at hc
  rcases hc with rfl | hc
  · decide
  · exact isAlphanum_lt hc

theorem asciiClass_isNameStart : AsciiClass isNameStart := by
  intro c hc
  simp only [isNameStart, Bool.or_eq_true, decide_eq_true_eq] at hc
  rcases hc with rfl | hc
  · decide
  · exact isAlphanum_lt (by rw [Char.isAlphanum, hc, Bool.true_or])

theorem asciiClass_number : AsciiClass fun c => c.isDigit || c = '-' := by
  intro c hc
  rcases (Bool.or_eq_true _ _).mp hc with hc | hc
  · exact asciiClass_isDigit c hc
  · exact asciiClass_eq (by decide) c hc

section

variable (front : List Char)

theorem nameAt_eq {c : Char} (hc : isNameStart c = true) (rest : List Char) :
    nameAt (front ++ c :: rest) (byteLength front) =
      .ok ((Lexeme.ofName (String.ofList (c :: rest.takeWhile isNamePart))).found
        (byteLength front)) := by
  have hstop : runEnd isNamePart (utf8 (front ++ c :: rest)) (byteLength front + 1) =
      byteLength front + byteLength (c :: rest.takeWhile isNamePart) := by
    rw [List.append_cons front, ← byteLength_concat front (asciiClass_isNameStart c hc),
      runEnd_utf8_append asciiClass_isNamePart, ← List.append_cons front, byteLength_append]
  have hpiece := piece_append front (c :: rest.takeWhile isNamePart) (rest.dropWhile isNamePart)
  rw [List.cons_append, List.takeWhile_append_dropWhile] at hpiece
  have hlookup := Keyword.ofBytes_eq_search (String.ofList (c :: rest.takeWhile isNamePart))
  rw [← Keyword.ofName?_eq_search, String.toList_ofList] at hlookup
  rw [nameAt]
  simp only [hstop, hpiece, Checked.ok_bind, hlookup]
  rw [Lexeme.found_ofName, String.toList_ofList]
  cases Keyword.ofName? (String.ofList (c :: rest.takeWhile isNamePart)) <;> rfl

theorem numberAt_eq {c : Char} (hc : (c.isDigit || c = '-') = true) (rest : List Char) :
    some <$> numberAt (front ++ c :: rest) (byteLength front) =
      .ok ((Lexeme.read (c :: rest)).map fun x => x.1.found (byteLength front)) := by
  rw [numberAt, numberEnd_utf8, Checked.ok_bind]
  cases hnumber : numberParts? (c :: rest) with
  | some n =>
    rw [Lexeme.read_number hc hnumber]
    simp only [Option.map_some, Lexeme.found_ofNumber, byteLength_append]
    rfl
  | none =>
    -- A digit always starts a number, so that only a minus sign is left alone.
    obtain rfl : c = '-' := by
      simp only [Bool.or_eq_true, decide_eq_true_eq] at hc
      exact hc.resolve_left fun hdigit => numberParts?_of_isDigit hdigit rest hnumber
    have hread : Lexeme.read ('-' :: rest) = some (.unknownCharacter '-', rest) := by
      simp only [Lexeme.read, hnumber]
      rfl
    rw [hread]
    simp only [Option.map_some, Option.map_none, Lexeme.found_unknownCharacter]
    rfl

theorem literalAt_eq (content after : List Char) (quotes : Nat)
    {decode : String → Checked (Except StringError String)}
    {value : String → Except StringError String} (h : ∀ s, decode s = .ok (value s)) :
    literalAt (front ++ (content ++ after)) (byteLength front)
      (some (byteLength front + byteLength content)) quotes decode =
        .ok (.ofLiteral (byteLength front + byteLength content + quotes)
          (value (String.ofList content))) := by
  rw [literalAt]
  simp only [piece_append, Checked.ok_bind, h]
  rfl

/-- A string literal that does not end takes the rest of the text. -/
theorem literalAt_none (here : List Char) (start quotes : Nat)
    (decode : String → Checked (Except StringError String)) :
    literalAt (front ++ here) start none quotes decode =
      .ok ((Lexeme.ofUnterminated here).found (byteLength front)) := by
  rw [literalAt, length_utf8, byteLength_append, Lexeme.found, Lexeme.ofUnterminated, Lexeme.text,
    String.toList_ofList]
  rfl

theorem quotedAt_eq {rest : List Char} (h : ∀ r, rest ≠ '"' :: '"' :: r) :
    quotedAt (front ++ '"' :: rest) (byteLength front) =
      .ok ((Lexeme.readString ('"' :: rest)).1.found (byteLength front)) := by
  have hclose := @quoteEnd_eq (utf8 (front ++ ['"'])) [] rest
    ((front ++ '"' :: rest).length + 1) (List.forall_mem_nil _) (by simp; omega)
  rw [List.nil_append, ← utf8_append, ← List.append_cons front, length_utf8,
    byteLength_concat front (by decide)] at hclose
  rw [quotedAt, hclose, Checked.ok_bind, Lexeme.readString_of_quoted h]
  cases hsplit : splitQuoted rest with
  | none => exact literalAt_none front _ _ _ _
  | some x =>
    obtain ⟨content, after⟩ := x
    have hliteral := literalAt_eq (front ++ ['"']) content ('"' :: after) 1 decodeQuotedBytes_eq
    rw [byteLength_concat front (by decide), ← List.append_cons front] at hliteral
    rw [splitQuoted_append hsplit]
    simp only [Option.map_some, List.length_nil, Nat.zero_add]
    have hwidth : byteLength ('"' :: content ++ ['"']) = 1 + byteLength content + 1 := by
      rw [byteLength_concat _ (by decide), byteLength]
      rfl
    rw [hliteral, Lexeme.ofQuoted, Lexeme.found_ofLiteral, hwidth, Nat.add_assoc, Nat.add_assoc,
      Nat.add_assoc]

theorem blockAt_eq (rest : List Char) :
    blockAt (front ++ '"' :: '"' :: '"' :: rest) (byteLength front) =
      .ok ((Lexeme.readString ('"' :: '"' :: '"' :: rest)).1.found (byteLength front)) := by
  have hstart : byteLength front + tripleQuote.length = byteLength (front ++ ['"', '"', '"']) := by
    rw [byteLength_append]
    rfl
  have hfront : front ++ '"' :: '"' :: '"' :: rest = (front ++ ['"', '"', '"']) ++ rest := by simp
  have hlast : (utf8 (front ++ ['"', '"', '"'])).getLast? = some 0x22 := by
    rw [utf8_append, ← tripleQuote_eq]
    simp [tripleQuote]
  have hclose := @blockEnd_eq (utf8 (front ++ ['"', '"', '"'])) [] rest
    (byteLength (front ++ ['"', '"', '"'])) ((front ++ '"' :: '"' :: '"' :: rest).length + 1)
    (by simp) (by rw [List.append_nil, hlast]; simp) (by rw [length_utf8]) (by simp; omega)
  rw [List.nil_append, ← utf8_append, ← hfront, length_utf8] at hclose
  rw [blockAt]
  simp only [hstart, hclose, Checked.ok_bind, Lexeme.readString_of_block]
  cases hsplit : splitBlock rest with
  | none => exact literalAt_none front _ _ _ _
  | some x =>
    obtain ⟨content, after⟩ := x
    have hliteral := literalAt_eq (front ++ ['"', '"', '"']) content ('"' :: '"' :: '"' :: after)
      tripleQuote.length decodeBlockBytes_eq
    rw [← splitBlock_append hsplit, ← hfront] at hliteral
    simp only [Option.map_some, List.length_nil, Nat.zero_add]
    have hwidth : byteLength ('"' :: '"' :: '"' :: content ++ ['"', '"', '"']) =
        3 + byteLength content + 3 := by
      rw [byteLength_append, byteLength, byteLength, byteLength]
      change 1 + (1 + (1 + byteLength content)) + 3 = _
      omega
    rw [hliteral, Lexeme.ofBlock, Lexeme.found_ofLiteral, hwidth, ← hstart]
    simp only [Nat.add_assoc]
    rfl

theorem dotsAt_eq (rest : List Char) :
    some <$> dotsAt (front ++ '.' :: rest) (byteLength front) =
      .ok ((Lexeme.read ('.' :: rest)).map fun x => x.1.found (byteLength front)) := by
  rw [dotsAt, entriesFrom_utf8, Checked.ok_bind]
  by_cases hdots : ['.', '.', '.'] <+: '.' :: rest
  · rw [if_pos (isPrefixOf_utf8.2 hdots)]
    obtain ⟨after, hafter⟩ := hdots
    obtain rfl : '.' :: '.' :: after = rest := (List.cons.inj hafter).2
    have hread : Lexeme.read ('.' :: '.' :: '.' :: after) = some (.punctuator .ellipsis, after) :=
      rfl
    rw [hread, Option.map_some, Lexeme.found_punctuator]
    rfl
  · rw [if_neg fun h => hdots (isPrefixOf_utf8.1 h)]
    have hread : Lexeme.read ('.' :: rest) = some (.unknownCharacter '.', rest) := by
      rw [Lexeme.read, if_neg (by decide), if_neg (by decide), if_neg (by decide), if_pos rfl]
      rintro after rfl
      exact hdots ⟨after, rfl⟩
    rw [hread, Option.map_some, Lexeme.found_unknownCharacter]
    rfl

theorem unknownAt_eq (c : Char) (rest : List Char) :
    unknownAt (front ++ c :: rest) (byteLength front) =
      .ok ((Lexeme.unknownCharacter c).found (byteLength front)) := by
  rw [unknownAt, textFrom_append, Checked.ok_bind, Lexeme.found_unknownCharacter]
  rfl

theorem Punctuator.toNat_lt_of_ofChar? {c : Char} (h : (Punctuator.ofChar? c).isSome) :
    c.toNat < 128 := by
  unfold Punctuator.ofChar? at h
  split at h <;> first | decide | cases h

/-- A string literal is told from a block string by what follows its first quote. -/
theorem stringAt_eq (rest : List Char) :
    (if tripleQuote.isPrefixOf (utf8 ('"' :: rest)) then
      blockAt (front ++ '"' :: rest) (byteLength front)
    else quotedAt (front ++ '"' :: rest) (byteLength front)) =
      .ok ((Lexeme.readString ('"' :: rest)).1.found (byteLength front)) := by
  by_cases hblock : ∃ r, rest = '"' :: '"' :: r
  · obtain ⟨rest, rfl⟩ := hblock
    have hquotes : tripleQuote.isPrefixOf (utf8 ('"' :: '"' :: '"' :: rest)) = true := by
      rw [tripleQuote_eq]
      exact isPrefixOf_utf8.2 ⟨rest, rfl⟩
    rw [if_pos hquotes, blockAt_eq]
  · have hquotes : ¬ tripleQuote.isPrefixOf (utf8 ('"' :: rest)) = true := by
      rw [tripleQuote_eq, isPrefixOf_utf8]
      rintro ⟨after, hafter⟩
      exact hblock ⟨after, (List.cons.inj hafter).2.symm⟩
    rw [if_neg hquotes, quotedAt_eq front fun r hr => hblock ⟨r, hr⟩]

/-- What is found at an index is the lexeme that is read there. -/
theorem foundAt_eq (here : List Char) :
    foundAt (front ++ here) (byteLength front) =
      .ok ((Lexeme.read here).map fun x => x.1.found (byteLength front)) := by
  rw [foundAt]
  rcases here with _ | ⟨c, rest⟩
  · have hnone : (utf8 (front ++ []))[byteLength front]? = none := by
      rw [List.append_nil, ← length_utf8, List.getElem?_length]
    rw [hnone]
    rfl
  · obtain ⟨b, hget, hfirst, bs, hb⟩ := exists_getElem?_utf8 front c rest
    have hpunctuator : Punctuator.ofChar? (Char.ofUInt8 b) = Punctuator.ofChar? c :=
      apply_ofUInt8 (fun _ h => Punctuator.toNat_lt_of_ofChar? h) hb
    rw [hget]
    simp only [hfirst _ asciiClass_number, hfirst _ asciiClass_isNameStart,
      hfirst _ (asciiClass_eq (d := '"') (by decide)),
      hfirst _ (asciiClass_eq (d := '.') (by decide)), hpunctuator, decide_eq_true_eq,
      entriesFrom_utf8, Checked.ok_bind]
    -- The first character tells the form of the token, in the same order as for reading.
    by_cases hnumber : (c.isDigit || c = '-') = true
    · rw [if_pos hnumber, numberAt_eq front hnumber]
    rw [if_neg hnumber]
    by_cases hname : isNameStart c = true
    · rw [if_pos hname, nameAt_eq front hname, Lexeme.read_name hname]
      rfl
    rw [if_neg hname]
    by_cases hquote : c = '"'
    · subst hquote
      have hstring := stringAt_eq front rest
      rw [if_pos rfl, Lexeme.read_string, Option.map_some, ← Except.map_ok, ← hstring]
      split <;> rfl
    rw [if_neg hquote]
    by_cases hdot : c = '.'
    · subst hdot
      rw [if_pos rfl]
      exact dotsAt_eq front rest
    rw [if_neg hdot]
    cases hp : Punctuator.ofChar? c with
    | none =>
      have hread : Lexeme.read (c :: rest) = some (.unknownCharacter c, rest) := by
        simp only [Lexeme.read, if_neg hname, if_neg hnumber, if_neg hquote, if_neg hdot, hp]
      simp only [unknownAt_eq, hread]
      rfl
    | some p =>
      have hread : Lexeme.read (c :: rest) = some (.punctuator p, rest) := by
        simp only [Lexeme.read, if_neg hname, if_neg hnumber, if_neg hquote, if_neg hdot, hp]
      have hwidth : byteLength [c] = 1 := byteLength_concat [] (by
        exact Punctuator.toNat_lt_of_ofChar? (Option.isSome_iff_exists.2 ⟨p, hp⟩))
      rw [hread, Option.map_some, Lexeme.found_punctuator, Punctuator.text_of_ofChar? hp, hwidth]
      rfl

end

end GraphQL
