import GraphQL.Proofs.Bytes.Cuts
import GraphQL.Proofs.Literal.Content

/-!
# Escape sequences, read in the bytes

The decoder of string literals looks for backslashes in the bytes of the content, tells the escape
sequences apart by the bytes at fixed offsets, and cuts the content after the bytes that each
escape sequence takes (`decodeQuotedBytes`).

An escape sequence that stands for a character is ASCII text, so that it takes as many bytes as
characters (`exists_of_readEscape`), and a cut after one that does not stands at its closing brace
or after four digits.  Hence no cut faults, and the decoder computes what `decodeQuoted` does
(`decodeQuotedBytes_eq`).
-/

namespace GraphQL

/-- Whether a character is a hexadecimal digit of either case. -/
def isHexDigit (c : Char) : Bool := (hexDigit? c).isSome

/-- The UTF-16 code unit that the four bytes from an index on denote. -/
def codeUnitAt? (bytes : List UInt8) (i : Nat) : Option Nat :=
  codeUnit? ((bytes.drop i).map Char.ofUInt8)

/-- What an escape sequence of a given width in bytes comes to: its character, or the cause that
quotes it. -/
def escapeOf (text : List Char) (cause : String → StringError) (width : Nat) :
    Option Char → Checked (Except StringError (Char × Nat))
  | some c => return .ok (c, width)
  | none => return .error (cause (String.ofList (← textTo text width)))

/-- Reads the escape sequence at the start of a text that begins with `\u` and a brace: the
character and the number of bytes that the escape sequence takes. -/
def bracedEscapeAt (text : List Char) : Checked (Except StringError (Char × Nat)) := do
  let digits ← entriesFrom (utf8 text) 3
  match digits.findIdx? (onByte (· = '\x7d')) with
  | none => return .error (.invalidUnicode (String.ofList (text.take 8)))
  | some close =>
    let hex ← piece text 3 (3 + close)
    let width := 3 + close + 1
    if byteLength hex < 4 || !(utf8 hex).all (onByte isHexDigit) then
      return .error (.invalidUnicode (String.ofList (← textTo text width)))
    else
      escapeOf text .invalidUnicode width ((hexNumber? hex).bind scalar?)

/-- Reads the escape sequence at the start of a text that begins with `\u` and no brace: the
character and the number of bytes that the escape sequence takes. -/
def unitEscapeAt (text : List Char) : Checked (Except StringError (Char × Nat)) :=
  match codeUnitAt? (utf8 text) 2 with
  | none => return .error (.invalidUnicode (String.ofList (text.take 6)))
  | some unit =>
    if isHighSurrogate unit then do
      let behind ← textFrom text 6
      let low :=
        if (utf8 ['\\', 'u']).isPrefixOf (utf8 behind) then codeUnitAt? (utf8 text) 8 else none
      match low.filter isLowSurrogate with
      | some low =>
        escapeOf text .unpairedSurrogate 12
          (scalar? (0x10000 + (unit - 0xD800) * 0x400 + (low - 0xDC00)))
      | none => return .error (.unpairedSurrogate (String.ofList (← textTo text 6)))
    else if isLowSurrogate unit then do
      return .error (.unpairedSurrogate (String.ofList (← textTo text 6)))
    else
      escapeOf text .invalidUnicode 6 (scalar? unit)

/-- Reads the escape sequence at the start of a text that begins with a backslash: the character
and the number of bytes that the escape sequence takes. -/
def escapeAt (text : List Char) : Checked (Except StringError (Char × Nat)) :=
  match (utf8 text)[1]? with
  | none => return .error (.invalidEscape (String.ofList (text.take 2)))
  | some b =>
    if onByte (· = 'u') b then
      if (utf8 text)[2]?.any (onByte (· = '\x7b')) then bracedEscapeAt text
      else unitEscapeAt text
    else
      match shortEscape? (Char.ofUInt8 b) with
      | some c => return .ok (c, 2)
      | none => return .error (.invalidEscape (String.ofList (text.take 2)))

/-- Decodes the rest of a content, after what is decoded already. -/
def decodeRest : Nat → List Char → List Char → Checked (Except StringError (List Char))
  | 0, _, _ => .error .endless
  | bound + 1, decoded, rest => do
    match (utf8 rest).findIdx? (onByte (· = '\\')) with
    | none => return .ok (decoded ++ rest)
    | some stop =>
      let front ← textTo rest stop
      let back ← textFrom rest stop
      match ← escapeAt back with
      | .ok (c, width) => decodeRest bound (decoded ++ front ++ [c]) (← textFrom back width)
      | .error cause => return .error cause

/-- The value of a quoted string literal with the given content, decoded in its bytes. -/
def decodeQuotedBytes (content : String) : Checked (Except StringError String) :=
  (String.ofList <$> ·) <$> decodeRest (content.length + 1) [] content.toList

/-! ### Hexadecimal digits -/

theorem asciiClass_isHexDigit : AsciiClass isHexDigit := by
  intro c hc
  obtain ⟨d, hd⟩ := Option.isSome_iff_exists.1 hc
  exact toNat_lt_of_hexDigit? hd

/-- The number that the first digits of a text denote, after those of `value`. -/
def leadingHex? (value : Nat) : Nat → List Char → Option Nat
  | 0, _ => some value
  | _ + 1, [] => none
  | n + 1, c :: text => do leadingHex? (16 * value + (← hexDigit? c)) n text

theorem codeUnit?_eq_leadingHex? (text : List Char) : codeUnit? text = leadingHex? 0 4 text := by
  rcases text with _ | ⟨a, _ | ⟨b, _ | ⟨c, _ | ⟨d, rest⟩⟩⟩⟩ <;>
    simp [codeUnit?, hexNumber?, hexNumberFrom?, leadingHex?]

theorem leadingHex?_utf8 (value n : Nat) (text : List Char) :
    leadingHex? value n ((utf8 text).map Char.ofUInt8) = leadingHex? value n text := by
  induction n generalizing value text with
  | zero => rfl
  | succ n ih =>
    rcases text with _ | ⟨c, text⟩
    · rfl
    · obtain ⟨b, bs, hb⟩ := List.exists_cons_of_ne_nil (String.utf8EncodeChar_ne_nil (c := c))
      have hdigit : hexDigit? (Char.ofUInt8 b) = hexDigit? c :=
        apply_ofUInt8 (f := hexDigit?) asciiClass_isHexDigit hb
      rw [utf8_cons, hb, List.cons_append, List.map_cons, leadingHex?, leadingHex?, hdigit]
      cases hc : hexDigit? c with
      | none => rfl
      | some d =>
        obtain ⟨x, hx, -⟩ := utf8EncodeChar_of_lt (toNat_lt_of_hexDigit? hc)
        obtain ⟨rfl, rfl⟩ : b = x ∧ bs = [] := by simpa [hb] using hx
        exact ih (16 * value + d) text

theorem codeUnit?_utf8 (text : List Char) :
    codeUnit? ((utf8 text).map Char.ofUInt8) = codeUnit? text := by
  rw [codeUnit?_eq_leadingHex?, leadingHex?_utf8, codeUnit?_eq_leadingHex?]

/-- The four bytes after some text denote a code unit if the four characters do. -/
theorem codeUnitAt?_append (front rest : List Char) :
    codeUnitAt? (utf8 (front ++ rest)) (byteLength front) = codeUnit? rest := by
  rw [codeUnitAt?, utf8_append, ← length_utf8, List.drop_left, codeUnit?_utf8]

theorem HexNumber.forall_lt {h : List Char} {n : Nat} (hn : HexNumber h n) :
    ∀ c ∈ h, c.toNat < 128 := by
  intro c hc
  obtain ⟨d, hd⟩ := hn.exists_isHexDigit hc
  exact toNat_lt_of_hexDigit? (hexDigit?_eq_some.2 hd)

/-- What holds anything but digits denotes no number. -/
theorem hexNumber?_eq_none {hex : List Char} (h : hex.all isHexDigit = false) :
    hexNumber? hex = none := by
  rw [Option.eq_none_iff_forall_ne_some]
  intro n hn
  refine Bool.eq_false_iff.1 h (List.all_eq_true.2 fun c hc => ?_)
  obtain ⟨d, hd⟩ := (hexNumber?_eq_some.1 hn).exists_isHexDigit hc
  exact Option.isSome_iff_exists.2 ⟨d, hexDigit?_eq_some.2 hd⟩

/-! ### One escape sequence -/

theorem escapeOf_none {text front : List Char} {width : Nat} (h : textTo text width = .ok front)
    (cause : String → StringError) :
    escapeOf text cause width none = .ok (.error (cause (String.ofList front))) := by
  rw [escapeOf, h, Checked.ok_bind]
  rfl

/-- Without a closing brace the escape sequence is quoted by its characters. -/
theorem bracedEscapeAt_of_forall {digits : List Char}
    (h : ∀ c ∈ digits, decide (c = '\x7d') = false) :
    bracedEscapeAt ('\\' :: 'u' :: '\x7b' :: digits) =
      .ok (readBracedEscape ('\\' :: 'u' :: '\x7b' :: digits) digits) := by
  have hbytes : entriesFrom (utf8 ('\\' :: 'u' :: '\x7b' :: digits)) 3 = .ok (utf8 digits) :=
    entriesFrom_utf8 ['\\', 'u', '\x7b'] digits
  have hall : digits.takeWhile (· ≠ '\x7d') = digits := by
    rw [List.takeWhile_eq_self_iff]
    exact fun d hd => by simpa using h d hd
  rw [bracedEscapeAt, hbytes, Checked.ok_bind,
    findIdx?_utf8_of_forall (asciiClass_eq (by decide)) h, readBracedEscape, hall]
  simp only [if_true]
  rfl

/-- The cut after the closing brace. -/
theorem textTo_bracedEscape (hex rest : List Char) :
    textTo ('\\' :: 'u' :: '\x7b' :: (hex ++ '\x7d' :: rest)) (3 + byteLength hex + 1) =
      .ok ('\\' :: 'u' :: '\x7b' :: (hex ++ ['\x7d'])) := by
  have hcut := textTo_append ('\\' :: 'u' :: '\x7b' :: (hex ++ ['\x7d'])) rest
  have hwidth : byteLength ('\\' :: 'u' :: '\x7b' :: (hex ++ ['\x7d'])) =
      3 + byteLength hex + 1 := by
    simp only [byteLength, byteLength_append]
    change 1 + (1 + (1 + (byteLength hex + (1 + 0)))) = 3 + byteLength hex + 1
    omega
  rw [hwidth] at hcut
  rw [← hcut]
  simp

/-- With a closing brace the digits are cut out of the text. -/
theorem bracedEscapeAt_append {hex : List Char} (h : ∀ c ∈ hex, decide (c = '\x7d') = false)
    (rest : List Char) :
    bracedEscapeAt ('\\' :: 'u' :: '\x7b' :: (hex ++ '\x7d' :: rest)) =
      .ok (readBracedEscape ('\\' :: 'u' :: '\x7b' :: (hex ++ '\x7d' :: rest))
        (hex ++ '\x7d' :: rest)) := by
  have hbytes : entriesFrom (utf8 ('\\' :: 'u' :: '\x7b' :: (hex ++ '\x7d' :: rest))) 3 =
      .ok (utf8 (hex ++ '\x7d' :: rest)) :=
    entriesFrom_utf8 ['\\', 'u', '\x7b'] (hex ++ '\x7d' :: rest)
  have hpiece : piece ('\\' :: 'u' :: '\x7b' :: (hex ++ '\x7d' :: rest)) 3
      (3 + byteLength hex) = .ok hex :=
    piece_append ['\\', 'u', '\x7b'] hex ('\x7d' :: rest)
  have hcut := textTo_bracedEscape hex rest
  have htake : ('\\' :: 'u' :: '\x7b' :: (hex ++ '\x7d' :: rest)).take (hex.length + 4) =
      '\\' :: 'u' :: '\x7b' :: (hex ++ ['\x7d']) := by
    rw [List.append_cons hex, ← List.cons_append, ← List.cons_append, ← List.cons_append]
    exact List.take_left' (by simp)
  have hdigits : (hex ++ '\x7d' :: rest).takeWhile (· ≠ '\x7d') = hex := by
    rw [List.takeWhile_append_of_pos fun d hd => by simpa using h d hd]
    simp
  rw [bracedEscapeAt, hbytes, Checked.ok_bind,
    findIdx?_utf8_append (asciiClass_eq (by decide)) h (decide_eq_true rfl), readBracedEscape]
  simp only [hpiece, Checked.ok_bind, hcut, all_utf8 asciiClass_isHexDigit, hdigits, htake]
  rw [if_neg (c := hex.length = (hex ++ '\x7d' :: rest).length) (by simp)]
  cases hall : hex.all isHexDigit with
  | true =>
    have hlength : byteLength hex = hex.length := byteLength_of_forall_lt fun d hd =>
      asciiClass_isHexDigit d (List.all_eq_true.1 hall d hd)
    have hwidth : 3 + hex.length + 1 = hex.length + 4 := by omega
    rw [hlength, hwidth] at hcut ⊢
    simp only [Bool.not_true, Bool.or_false, decide_eq_true_eq]
    split
    · rfl
    · cases (hexNumber? hex).bind scalar? with
      | some c => rfl
      | none => exact escapeOf_none hcut _
  | false =>
    rw [hexNumber?_eq_none hall]
    simp only [Bool.not_false, Bool.or_true, Option.bind_none, ite_self]
    rfl

theorem bracedEscapeAt_eq (digits : List Char) :
    bracedEscapeAt ('\\' :: 'u' :: '\x7b' :: digits) =
      .ok (readBracedEscape ('\\' :: 'u' :: '\x7b' :: digits) digits) := by
  obtain hnone | ⟨hex, c, rest, rfl, hhex, hc⟩ := forall_or_exists_append (· = '\x7d') digits
  · exact bracedEscapeAt_of_forall hnone
  · obtain rfl : c = '\x7d' := of_decide_eq_true hc
    exact bracedEscapeAt_append hhex rest

/-- The second half of a surrogate pair, eight bytes into a text. -/
theorem lowUnit_eq {hex rest : List Char} (h : byteLength ('\\' :: 'u' :: hex) = 6) :
    (if (utf8 ['\\', 'u']).isPrefixOf (utf8 rest) then
      codeUnitAt? (utf8 ('\\' :: 'u' :: (hex ++ rest))) 8 else none).filter isLowSurrogate =
        lowSurrogate? rest := by
  by_cases hstart : ['\\', 'u'] <+: rest
  · rw [if_pos (isPrefixOf_utf8.2 hstart)]
    obtain ⟨rest, rfl⟩ := hstart
    have hfront : byteLength ('\\' :: 'u' :: (hex ++ ['\\', 'u'])) = 8 := by
      rw [← List.cons_append, ← List.cons_append, byteLength_append, h]
      rfl
    have hunit := codeUnitAt?_append ('\\' :: 'u' :: (hex ++ ['\\', 'u'])) rest
    rw [hfront] at hunit
    rw [← List.append_assoc hex]
    exact congrArg (Option.filter isLowSurrogate) hunit
  · rw [if_neg fun h => hstart (isPrefixOf_utf8.1 h), lowSurrogate?]
    · rfl
    · rintro digits rfl
      exact hstart ⟨digits, rfl⟩

/-- The halves of a surrogate pair always stand for a character. -/
theorem scalar?_of_lowSurrogate? {unit low : Nat} {rest : List Char} (hhigh : isHighSurrogate unit)
    (hlow : lowSurrogate? rest = some low) :
    scalar? (0x10000 + (unit - 0xD800) * 0x400 + (low - 0xDC00)) =
      some (ofSurrogates unit low) := by
  obtain ⟨-, -, -, -, -, hlow⟩ := exists_of_lowSurrogate? hlow
  simp only [isHighSurrogate, Bool.and_eq_true, decide_eq_true_eq] at hhigh
  exact scalar?_eq_some.2 (toNat_ofSurrogates hhigh hlow)

/-- A code unit that is no half of a pair is the number of a character. -/
theorem scalar?_of_unit {unit : Nat} (hlt : unit < 16 ^ 4) (hhigh : ¬ isHighSurrogate unit)
    (hlow : ¬ isLowSurrogate unit) : scalar? unit = some (Char.ofNat unit) := by
  simp only [isHighSurrogate, isLowSurrogate, Bool.and_eq_true, decide_eq_true_eq] at hhigh hlow
  have hvalid : unit.isValidChar := by
    rcases Nat.lt_or_ge unit 0xD800 with hsmall | hlarge
    · exact .inl hsmall
    · exact .inr (by omega)
  rw [scalar?, if_pos hvalid]

theorem unitEscapeAt_eq (digits : List Char) :
    unitEscapeAt ('\\' :: 'u' :: digits) = .ok (readUnitEscape ('\\' :: 'u' :: digits) digits) := by
  have hunit : codeUnitAt? (utf8 ('\\' :: 'u' :: digits)) 2 = codeUnit? digits :=
    codeUnitAt?_append ['\\', 'u'] digits
  rw [unitEscapeAt, hunit, readUnitEscape]
  cases hdigits : codeUnit? digits with
  | none => rfl
  | some unit =>
    obtain ⟨hex, rest, rfl, hlen, hhex⟩ := exists_of_codeUnit? hdigits
    -- The escape sequence up to here is six ASCII characters.
    have hsix : ('\\' :: 'u' :: hex).length = 6 := congrArg (· + 2) hlen
    have hascii : byteLength ('\\' :: 'u' :: hex) = 6 := by
      rw [← hsix]
      refine byteLength_of_forall_lt (List.forall_mem_cons.2 ⟨by decide, ?_⟩)
      exact List.forall_mem_cons.2 ⟨by decide, hhex.forall_lt⟩
    have hto : textTo ('\\' :: 'u' :: (hex ++ rest)) 6 = .ok ('\\' :: 'u' :: hex) := by
      rw [← hascii]
      exact textTo_append ('\\' :: 'u' :: hex) rest
    have hfrom : textFrom ('\\' :: 'u' :: (hex ++ rest)) 6 = .ok rest := by
      rw [← hascii]
      exact textFrom_append ('\\' :: 'u' :: hex) rest
    have htake : ('\\' :: 'u' :: (hex ++ rest)).take 6 = '\\' :: 'u' :: hex := by
      rw [← hsix]
      exact List.take_left
    have hlt := hhex.lt
    rw [hlen] at hlt
    rw [List.drop_left' hlen, htake]
    simp only [hfrom, Checked.ok_bind, hto, lowUnit_eq hascii]
    split
    · rename_i hhigh
      cases hlow : lowSurrogate? rest with
      | none => rfl
      | some low =>
        simp only
        rw [scalar?_of_lowSurrogate? hhigh hlow]
        rfl
    · split
      · rfl
      · rename_i hhigh hlow
        rw [scalar?_of_unit hlt hhigh hlow]
        rfl

theorem toNat_lt_of_shortEscape? {c : Char} (h : (shortEscape? c).isSome) : c.toNat < 128 := by
  obtain ⟨d, hd⟩ := Option.isSome_iff_exists.1 h
  have hall : ∀ p ∈ shortEscapes, p.1.toNat < 128 := by decide
  exact hall _ (mem_shortEscapes.2 hd)

theorem escapeAt_eq (text : List Char) :
    escapeAt ('\\' :: text) = .ok (readEscape ('\\' :: text)) := by
  rcases text with _ | ⟨c, rest⟩
  · rfl
  · obtain ⟨b, bs, hb, hfirst, -⟩ := utf8EncodeChar_eq_cons c
    have hsecond : (utf8 ('\\' :: c :: rest))[1]? = some b := by
      rw [utf8_cons, utf8_cons, hb]
      rfl
    rw [escapeAt, hsecond]
    simp only [hfirst _ (asciiClass_eq (d := 'u') (by decide)), decide_eq_true_eq]
    by_cases hc : c = 'u'
    · subst hc
      rw [if_pos rfl]
      rcases rest with _ | ⟨d, digits⟩
      · exact unitEscapeAt_eq []
      · obtain ⟨x, xs, hx, hthird, -⟩ := utf8EncodeChar_eq_cons d
        have hbytes : (utf8 ('\\' :: 'u' :: d :: digits))[2]? = some x := by
          rw [utf8_cons, utf8_cons, utf8_cons, hx]
          rfl
        simp only [hbytes, Option.any_some, hthird _ (asciiClass_eq (d := '\x7b') (by decide)),
          decide_eq_true_eq]
        by_cases hd : d = '\x7b'
        · subst hd
          rw [if_pos rfl, bracedEscapeAt_eq]
          rfl
        · rw [if_neg hd, unitEscapeAt_eq, readEscape_unit (by simpa using hd)]
    · have hshort : shortEscape? (Char.ofUInt8 b) = shortEscape? c :=
        apply_ofUInt8 (fun _ hd => toNat_lt_of_shortEscape? hd) hb
      rw [if_neg hc, hshort, readEscape_short hc]
      cases shortEscape? c <;> rfl

/-! ### All escape sequences -/

/-- An encoding that starts with a backslash is ASCII text. -/
theorem Encodes.forall_lt {tail : List Char} {c : Char} (h : Encodes ('\\' :: tail) c) :
    ∀ d ∈ '\\' :: tail, d.toNat < 128 := by
  generalize he : '\\' :: tail = e at h
  cases h with
  | plain hc =>
    cases he
    exact absurd rfl hc
  | short hx =>
    have hletter := toNat_lt_of_shortEscape? (Option.isSome_iff_exists.2 ⟨c, mem_shortEscapes.1 hx⟩)
    exact List.forall_mem_cons.2 ⟨by decide, List.forall_mem_singleton.2 hletter⟩
  | unit hlen hc =>
    exact List.forall_mem_cons.2 ⟨by decide, List.forall_mem_cons.2 ⟨by decide, hc.forall_lt⟩⟩
  | pair hlen llen hc hh hl =>
    simp only [List.mem_cons, List.mem_append]
    rintro d (rfl | rfl | hd | rfl | rfl | hd)
    · decide
    · decide
    · exact hh.forall_lt d hd
    · decide
    · decide
    · exact hl.forall_lt d hd
  | braced hlen hc =>
    simp only [List.mem_cons, List.mem_append, List.not_mem_nil, or_false]
    rintro d (rfl | rfl | rfl | hd | rfl)
    · decide
    · decide
    · decide
    · exact hc.forall_lt d hd
    · decide

/-- An escape sequence that is read takes as many bytes as characters. -/
theorem exists_of_readEscape {text : List Char} {c : Char} {width : Nat}
    (h : readEscape ('\\' :: text) = .ok (c, width)) :
    ∃ tail rest, text = tail ++ rest ∧ tail.length + 1 = width ∧
      byteLength ('\\' :: tail) = width := by
  obtain ⟨e, he, rest, heq⟩ := encodes_of_readEscape h
  obtain ⟨tail, rfl⟩ : ∃ tail, e = '\\' :: tail := by
    obtain ⟨rfl, hc⟩ | htail := he.eq_or_eq_cons
    · exact absurd (List.cons.inj heq).1 hc
    · exact htail
  rw [← heq, readEscape_append he rfl] at h
  obtain ⟨-, rfl⟩ := Prod.mk.inj (Except.ok.inj h)
  exact ⟨tail, rest, (List.cons.inj heq).2.symm, rfl, byteLength_of_forall_lt he.forall_lt⟩

theorem decodeEscapes_append_of_forall {front : List Char} (h : ∀ c ∈ front, c ≠ '\\')
    (rest : List Char) : decodeEscapes (front ++ rest) = (front ++ ·) <$> decodeEscapes rest := by
  induction front with
  | nil => exact (id_map (decodeEscapes rest)).symm
  | cons c front ih =>
    rw [List.cons_append, decodeEscapes_cons (h c List.mem_cons_self),
      ih fun d hd => h d (List.mem_cons_of_mem _ hd)]
    cases decodeEscapes rest <;> rfl

theorem decodeRest_eq {bound : Nat} {rest : List Char} (hbound : rest.length < bound)
    (decoded : List Char) :
    decodeRest bound decoded rest = .ok ((decoded ++ ·) <$> decodeEscapes rest) := by
  induction bound generalizing rest decoded with
  | zero => exact absurd hbound (Nat.not_lt_zero _)
  | succ bound ih =>
    have hclass : AsciiClass (· = '\\') := asciiClass_eq (by decide)
    rw [decodeRest]
    obtain hnone | ⟨front, c, back, rfl, hfront, hc⟩ := forall_or_exists_append (· = '\\') rest
    · have hall := decodeEscapes_append_of_forall (fun c hc => of_decide_eq_false (hnone c hc)) []
      rw [List.append_nil] at hall
      rw [findIdx?_utf8_of_forall hclass hnone, hall]
      simp only [decodeEscapes, decodeEscapesFrom, Except.map_ok, List.append_nil]
      rfl
    · obtain rfl : c = '\\' := of_decide_eq_true hc
      rw [findIdx?_utf8_append hclass hfront hc,
        decodeEscapes_append_of_forall fun c hc => of_decide_eq_false (hfront c hc)]
      simp only [textTo_append, textFrom_append, Checked.ok_bind, escapeAt_eq]
      cases hread : readEscape ('\\' :: back) with
      | error cause =>
        rw [decodeEscapes_of_readEscape_error hread]
        rfl
      | ok result =>
        obtain ⟨c, width⟩ := result
        obtain ⟨tail, rest, rfl, hlength, hbytes⟩ := exists_of_readEscape hread
        have hcut : textFrom ('\\' :: (tail ++ rest)) width = .ok rest := by
          rw [← hbytes]
          exact textFrom_append ('\\' :: tail) rest
        have hshorter : rest.length < bound := by
          simp only [List.length_append, List.length_cons] at hbound
          omega
        rw [decodeEscapes_of_readEscape hread, List.drop_left' (by omega)]
        simp only [hcut, Checked.ok_bind, ih hshorter]
        cases decodeEscapes rest with
        | error cause => rfl
        | ok value => simp

/-- The decoder never cuts inside a character, and computes the value of the literal. -/
theorem decodeQuotedBytes_eq (content : String) :
    decodeQuotedBytes content = .ok (decodeQuoted content) := by
  rw [decodeQuotedBytes, decodeRest_eq (Nat.lt_succ_of_le (String.length_toList ▸ Nat.le.refl)),
    Except.map_ok, decodeQuoted]
  exact congrArg (fun value => Except.ok (String.ofList <$> value)) (id_map (decodeEscapes _))

end GraphQL
