import GraphQL.Proofs.Lexical.Tokens
import Mathlib.Data.List.Basic

/-!
# Searching the bytes of a text and cutting it

A program that keeps a text in its UTF-8 form searches the bytes for a place and cuts the text
there.  A byte can be looked up only inside the text, and a cut must not fall inside a character;
anything else is a fault (`ByteFault`), and so is a search that does not come to an end.

Bytes are searched for ASCII characters only (`AsciiClass`).  A byte of such a class is a character
by itself and never part of another one (`utf8EncodeChar_eq_cons`), so that searching the bytes
finds what searching the characters does (`findIdx?_utf8`, `runEnd_utf8`).
-/

namespace GraphQL

/-! ### Faults -/

/-- Why a computation on the bytes of a text has no result. -/
inductive ByteFault where
  /-- A place is beyond the end, or a piece ends before it starts. -/
  | outside
  /-- A cut falls inside a character. -/
  | inside
  /-- A loop runs more often than there are bytes. -/
  | endless
  deriving DecidableEq, Repr

/-- The result of a computation on the bytes of a text, or a fault. -/
abbrev Checked (α : Type) := Except ByteFault α

@[simp] theorem Checked.ok_bind {α β : Type} (a : α) (f : α → Checked β) :
    ((Except.ok a : Checked α) >>= f) = f a := by
  simp only [bind, Except.bind]

/-- The entry of a list at an index. -/
def entryAt {α : Type} (entries : List α) (i : Nat) : Checked α :=
  match entries[i]? with
  | some entry => .ok entry
  | none => .error .outside

/-- The entries of a list from an index on. -/
def entriesFrom {α : Type} (entries : List α) (i : Nat) : Checked (List α) :=
  if i ≤ entries.length then .ok (entries.drop i) else .error .outside

/-- The entries of a list between two indices. -/
def entriesBetween {α : Type} (entries : List α) (i j : Nat) : Checked (List α) :=
  if i ≤ j ∧ j ≤ entries.length then .ok ((entries.take j).drop i) else .error .outside

/-- Cuts a text in two at a byte offset. -/
def cutAt : List Char → Nat → Checked (List Char × List Char)
  | text, 0 => .ok ([], text)
  | [], _ + 1 => .error .outside
  | c :: text, n + 1 =>
    if c.utf8Size ≤ n + 1 then do
      let (front, back) ← cutAt text (n + 1 - c.utf8Size)
      return (c :: front, back)
    else .error .inside

/-- The text up to a byte offset. -/
def textTo (text : List Char) (stop : Nat) : Checked (List Char) := Prod.fst <$> cutAt text stop

/-- The text from a byte offset on. -/
def textFrom (text : List Char) (start : Nat) : Checked (List Char) := Prod.snd <$> cutAt text start

/-- The piece of a text between two byte offsets. -/
def piece (text : List Char) (start stop : Nat) : Checked (List Char) := do
  textFrom (← textTo text stop) start

section

variable {α : Type} {pre : List α} {entry : α} {rest : List α}

@[simp] theorem entryAt_append : entryAt (pre ++ entry :: rest) pre.length = .ok entry := by
  simp [entryAt]

theorem exists_entryAt {entries : List α} {i : Nat} (h : i < entries.length) :
    ∃ entry, entryAt entries i = .ok entry := by
  rw [entryAt, List.getElem?_eq_getElem h]
  exact ⟨_, rfl⟩

@[simp] theorem entriesFrom_append : entriesFrom (pre ++ rest) pre.length = .ok rest := by
  simp [entriesFrom]

@[simp] theorem entriesBetween_append (front middle back : List α) :
    entriesBetween (front ++ middle ++ back) front.length (front.length + middle.length) =
      .ok middle := by
  rw [entriesBetween, if_pos (by simp), ← List.length_append, List.take_left, List.drop_left]

end

theorem cutAt_append (front back : List Char) :
    cutAt (front ++ back) (byteLength front) = .ok (front, back) := by
  induction front with
  | nil => cases back <;> rfl
  | cons c front ih =>
    obtain ⟨n, hn⟩ : ∃ n, byteLength (c :: front) = n + 1 :=
      Nat.exists_eq_succ_of_ne_zero (Nat.ne_of_gt (Nat.add_pos_left c.utf8Size_pos _))
    have hle : c.utf8Size ≤ n + 1 := hn ▸ Nat.le_add_right _ _
    have hrest : n + 1 - c.utf8Size = byteLength front := by
      simp only [byteLength] at hn
      omega
    rw [hn, List.cons_append, cutAt, hrest, ih, if_pos hle]
    rfl

@[simp] theorem textTo_append (front back : List Char) :
    textTo (front ++ back) (byteLength front) = .ok front := by
  rw [textTo, cutAt_append, Except.map_ok]

@[simp] theorem textFrom_append (front back : List Char) :
    textFrom (front ++ back) (byteLength front) = .ok back := by
  rw [textFrom, cutAt_append, Except.map_ok]

/-- What stands between two cuts is cut out. -/
theorem piece_append (front middle back : List Char) :
    piece (front ++ (middle ++ back)) (byteLength front) (byteLength front + byteLength middle) =
      .ok middle := by
  rw [piece, ← byteLength_append, ← List.append_assoc, textTo_append, Checked.ok_bind,
    textFrom_append]

/-! ### The bytes of a text -/

/-- The UTF-8 form of a text. -/
def utf8 (text : List Char) : List UInt8 := text.flatMap String.utf8EncodeChar

@[simp] theorem utf8_nil : utf8 [] = [] := rfl

theorem utf8_cons (c : Char) (text : List Char) :
    utf8 (c :: text) = String.utf8EncodeChar c ++ utf8 text := rfl

@[simp] theorem utf8_append (xs ys : List Char) : utf8 (xs ++ ys) = utf8 xs ++ utf8 ys :=
  List.flatMap_append

@[simp] theorem length_utf8 (text : List Char) : (utf8 text).length = byteLength text := by
  induction text with
  | nil => rfl
  | cons c text ih =>
    rw [utf8_cons, List.length_append, String.length_utf8EncodeChar, ih, byteLength]

theorem length_le_byteLength (text : List Char) : text.length ≤ byteLength text := by
  induction text with
  | nil => exact Nat.le.refl
  | cons c text ih =>
    have hpos := c.utf8Size_pos
    simp only [List.length_cons, byteLength]
    omega

/-- A text starts with another if its bytes do. -/
theorem utf8_prefix_iff {xs ys : List Char} : utf8 xs <+: utf8 ys ↔ xs <+: ys := by
  constructor
  · rintro ⟨rest, h⟩
    refine List.isPrefix_of_utf8Encode_append_eq_utf8Encode rest.toByteArray ?_
    rw [List.utf8Encode, List.utf8Encode, ← List.toByteArray_append]
    exact congrArg List.toByteArray h
  · rintro ⟨rest, rfl⟩
    exact ⟨utf8 rest, (utf8_append xs rest).symm⟩

theorem isPrefixOf_utf8 {xs ys : List Char} :
    (utf8 xs).isPrefixOf (utf8 ys) = true ↔ xs <+: ys := by
  rw [List.isPrefixOf_iff_prefix, utf8_prefix_iff]

@[simp] theorem entriesFrom_utf8 (front rest : List Char) :
    entriesFrom (utf8 (front ++ rest)) (byteLength front) = .ok (utf8 rest) := by
  rw [utf8_append, ← length_utf8, entriesFrom_append]

theorem utf8_injective : Function.Injective utf8 := by
  intro xs ys h
  have hxy : xs <+: ys := utf8_prefix_iff.1 (h ▸ List.prefix_rfl)
  have hyx : ys <+: xs := utf8_prefix_iff.1 (h ▸ List.prefix_rfl)
  exact hxy.eq_of_length (Nat.le_antisymm hxy.length_le hyx.length_le)

/-! ### Classes of ASCII characters -/

/-- A class of ASCII characters. -/
def AsciiClass (p : Char → Bool) : Prop := ∀ c, p c = true → c.toNat < 128

/-- Whether a byte, taken as a character by itself, is of a class. -/
def onByte (p : Char → Bool) (b : UInt8) : Bool := p (Char.ofUInt8 b)

theorem asciiClass_eq {d : Char} (h : d.toNat < 128) : AsciiClass (· = d) := by
  intro c hc
  rwa [of_decide_eq_true hc]

theorem toNat_ofUInt8 (b : UInt8) : (Char.ofUInt8 b).toNat = b.toNat := rfl

theorem onByte_eq_false {p : Char → Bool} (h : AsciiClass p) {b : UInt8} (hb : 128 ≤ b.toNat) :
    onByte p b = false := by
  rw [Bool.eq_false_iff]
  intro hp
  have hlt := h _ hp
  rw [toNat_ofUInt8] at hlt
  omega

/-- An ASCII character is a single byte. -/
theorem utf8EncodeChar_of_lt {c : Char} (h : c.toNat < 128) :
    ∃ b, String.utf8EncodeChar c = [b] ∧ Char.ofUInt8 b = c := by
  have hsize : c.utf8Size = 1 := by
    rw [Char.utf8Size_eq_one_iff, UInt32.le_iff_toNat_le]
    exact Nat.le_of_lt_succ h
  refine ⟨c.toUInt8, String.utf8EncodeChar_eq_singleton hsize, ?_⟩
  apply Char.ext
  apply UInt32.toNat_inj.1
  change c.val.toNat % 256 = c.val.toNat
  exact Nat.mod_eq_of_lt (h.trans (by decide))

/-- No byte of any other character is an ASCII character. -/
theorem le_of_mem_utf8EncodeChar {c : Char} (h : 128 ≤ c.toNat) {b : UInt8}
    (hb : b ∈ String.utf8EncodeChar c) : 128 ≤ b.toNat := by
  have hsmall : ¬ c.val.toNat ≤ 127 := by
    change ¬ c.toNat ≤ 127
    omega
  rw [String.utf8EncodeChar, if_neg hsmall] at hb
  split at hb <;> try split at hb
  all_goals
    simp only [List.mem_cons, List.not_mem_nil, or_false] at hb
    rcases hb with rfl | rfl | rfl | rfl <;> rw [UInt8.toNat_ofNat'] <;> omega

/-- The first byte of a character tells whether it is of an ASCII class, and no other byte is. -/
theorem utf8EncodeChar_eq_cons (c : Char) : ∃ b bs, String.utf8EncodeChar c = b :: bs ∧
    (∀ p, AsciiClass p → onByte p b = p c) ∧ (∀ x ∈ bs, 128 ≤ x.toNat) := by
  by_cases h : c.toNat < 128
  · obtain ⟨b, hb, rfl⟩ := utf8EncodeChar_of_lt h
    exact ⟨b, [], hb, fun _ _ => rfl, fun _ hx => nomatch hx⟩
  · obtain ⟨b, bs, hb⟩ := List.exists_cons_of_ne_nil (String.utf8EncodeChar_ne_nil (c := c))
    have hall : ∀ x ∈ b :: bs, 128 ≤ x.toNat := fun x hx =>
      le_of_mem_utf8EncodeChar (Nat.le_of_not_lt h) (hb ▸ hx)
    refine ⟨b, bs, hb, fun p hp => ?_, fun x hx => hall x (List.mem_cons_of_mem _ hx)⟩
    rw [onByte_eq_false hp (hall b List.mem_cons_self), eq_comm, Bool.eq_false_iff]
    exact fun hc => h (hp c hc)

/-- A function that has results for ASCII characters only has the same result at the first byte of
a character as at the character. -/
theorem apply_ofUInt8 {α : Type} {f : Char → Option α}
    (hf : ∀ c, (f c).isSome → c.toNat < 128) {c : Char} {b : UInt8} {bs : List UInt8}
    (h : String.utf8EncodeChar c = b :: bs) : f (Char.ofUInt8 b) = f c := by
  by_cases hc : c.toNat < 128
  · obtain ⟨x, hx, rfl⟩ := utf8EncodeChar_of_lt hc
    rw [hx] at h
    rw [(List.cons.inj h).1]
  · have hnone : ∀ d : Char, 128 ≤ d.toNat → f d = none := fun d hd =>
      Option.not_isSome_iff_eq_none.1 fun hsome => absurd (hf d hsome) (Nat.not_lt.2 hd)
    have hb : 128 ≤ b.toNat :=
      le_of_mem_utf8EncodeChar (Nat.le_of_not_lt hc) (h ▸ List.mem_cons_self)
    rw [hnone (Char.ofUInt8 b) hb, hnone c (Nat.le_of_not_lt hc)]

/-- ASCII text has as many bytes as characters. -/
theorem byteLength_of_forall_lt {text : List Char} (h : ∀ c ∈ text, c.toNat < 128) :
    byteLength text = text.length := by
  induction text with
  | nil => rfl
  | cons c text ih =>
    obtain ⟨b, hb, -⟩ := utf8EncodeChar_of_lt (h c List.mem_cons_self)
    have hsize : c.utf8Size = 1 := by rw [← String.length_utf8EncodeChar, hb]; rfl
    rw [byteLength, hsize, ih fun d hd => h d (List.mem_cons_of_mem _ hd), List.length_cons,
      Nat.add_comm]

theorem forall_onByte_of_class {p : Char → Bool} (h : AsciiClass p) {c : Char} (hc : p c = false)
    {b : UInt8} (hb : b ∈ String.utf8EncodeChar c) : onByte p b = false := by
  obtain ⟨first, others, heq, hfirst, hothers⟩ := utf8EncodeChar_eq_cons c
  rw [heq] at hb
  obtain rfl | hb := List.mem_cons.1 hb
  · rw [hfirst p h, hc]
  · exact onByte_eq_false h (hothers b hb)

/-- The first byte of a text is of a class of ASCII characters if the first character is. -/
theorem any_head?_utf8 {p : Char → Bool} (h : AsciiClass p) (text : List Char) :
    (utf8 text).head?.any (onByte p) = text.head?.any p := by
  rcases text with _ | ⟨c, text⟩
  · rfl
  · obtain ⟨b, bs, hb, hfirst, -⟩ := utf8EncodeChar_eq_cons c
    rw [utf8_cons, hb]
    exact hfirst p h

/-- The bytes are of a class of ASCII characters if the characters are. -/
theorem all_utf8 {p : Char → Bool} (h : AsciiClass p) (text : List Char) :
    (utf8 text).all (onByte p) = text.all p := by
  induction text with
  | nil => rfl
  | cons c text ih =>
    obtain ⟨b, bs, hb, hfirst, -⟩ := utf8EncodeChar_eq_cons c
    rw [utf8_cons, List.all_append, ih, List.all_cons, hb, List.all_cons, hfirst p h]
    cases hc : p c with
    | true =>
      obtain ⟨d, hd, -⟩ := utf8EncodeChar_of_lt (h c hc)
      obtain ⟨rfl, rfl⟩ : b = d ∧ bs = [] := by simpa [hb] using hd
      simp
    | false => simp

/-! ### Searches -/

/-- A search for a class of ASCII characters in the bytes finds the first such character. -/
theorem findIdx?_utf8 {p : Char → Bool} (h : AsciiClass p) (text : List Char) :
    (utf8 text).findIdx? (onByte p) =
      (text.findIdx? p).map fun i => byteLength (text.take i) := by
  induction text with
  | nil => rfl
  | cons c text ih =>
    rw [utf8_cons, List.findIdx?_append, List.findIdx?_cons, ih, String.length_utf8EncodeChar]
    cases hc : p c with
    | true =>
      obtain ⟨b, bs, hb, hfirst, -⟩ := utf8EncodeChar_eq_cons c
      simp [hb, List.findIdx?_cons, hfirst p h, hc, byteLength]
    | false =>
      have hnone : (String.utf8EncodeChar c).findIdx? (onByte p) = none :=
        List.findIdx?_eq_none_iff.2 fun b hb => forall_onByte_of_class h hc hb
      rw [hnone]
      cases text.findIdx? p <;> simp [byteLength, Nat.add_comm]

/-- A text holds no character of a class, or can be split before the first of them. -/
theorem forall_or_exists_append (p : Char → Bool) (text : List Char) :
    (∀ c ∈ text, p c = false) ∨
      ∃ front c back, text = front ++ c :: back ∧ (∀ d ∈ front, p d = false) ∧ p c = true := by
  induction text with
  | nil => exact .inl fun c hc => nomatch hc
  | cons c text ih =>
    cases hc : p c with
    | true => exact .inr ⟨[], c, text, rfl, List.forall_mem_nil _, hc⟩
    | false =>
      obtain h | ⟨front, d, back, rfl, hfront, hd⟩ := ih
      · exact .inl (List.forall_mem_cons.2 ⟨hc, h⟩)
      · exact .inr ⟨c :: front, d, back, rfl, List.forall_mem_cons.2 ⟨hc, hfront⟩, hd⟩

theorem findIdx?_utf8_of_forall {p : Char → Bool} (h : AsciiClass p) {text : List Char}
    (htext : ∀ c ∈ text, p c = false) : (utf8 text).findIdx? (onByte p) = none := by
  rw [findIdx?_utf8 h, List.findIdx?_eq_none_iff.2 htext, Option.map_none]

theorem findIdx?_utf8_append {p : Char → Bool} (h : AsciiClass p) {front back : List Char}
    {c : Char} (hfront : ∀ d ∈ front, p d = false) (hc : p c = true) :
    (utf8 (front ++ c :: back)).findIdx? (onByte p) = some (byteLength front) := by
  rw [findIdx?_utf8 h, List.findIdx?_append, List.findIdx?_eq_none_iff.2 hfront, Option.none_or,
    List.findIdx?_cons, if_pos hc, Option.map_some, Option.map_some, Nat.zero_add, List.take_left]

/-- The index after the longest run of bytes of a class. -/
def runEnd (p : Char → Bool) (bytes : List UInt8) (pos : Nat) : Nat :=
  if h : pos < bytes.length then
    if onByte p bytes[pos] then runEnd p bytes (pos + 1) else pos
  else pos

/-- A run of bytes of a class of ASCII characters is a run of such characters. -/
theorem runEnd_utf8 {p : Char → Bool} (h : AsciiClass p) (pre : List UInt8) (text : List Char) :
    runEnd p (pre ++ utf8 text) pre.length =
      pre.length + byteLength (text.takeWhile p) := by
  induction text generalizing pre with
  | nil => simp [runEnd, byteLength]
  | cons c text ih =>
    obtain ⟨b, bs, hb, hfirst, -⟩ := utf8EncodeChar_eq_cons c
    have hbytes : pre ++ utf8 (c :: text) = pre ++ b :: (bs ++ utf8 text) := by
      rw [utf8_cons, hb, List.cons_append]
    rw [hbytes, runEnd, dif_pos (by simp)]
    simp only [List.getElem_append_right Nat.le.refl, Nat.sub_self, List.getElem_cons_zero,
      hfirst p h]
    cases hc : p c with
    | true =>
      -- The character is a single byte.
      obtain ⟨d, hd, -⟩ := utf8EncodeChar_of_lt (h c hc)
      obtain ⟨rfl, rfl⟩ : b = d ∧ bs = [] := by simpa [hb] using hd
      have hsize : c.utf8Size = 1 := by rw [← String.length_utf8EncodeChar, hb]; rfl
      have hstep := ih (pre ++ [b])
      rw [List.length_append, List.length_singleton, List.append_assoc] at hstep
      rw [if_pos rfl, List.takeWhile_cons_of_pos hc, byteLength, hsize, ← Nat.add_assoc]
      exact hstep
    | false => simp [hc, byteLength]

theorem runEnd_utf8_append {p : Char → Bool} (h : AsciiClass p) (front rest : List Char) :
    runEnd p (utf8 (front ++ rest)) (byteLength front) =
      byteLength (front ++ rest.takeWhile p) := by
  rw [utf8_append, ← length_utf8, runEnd_utf8 h, byteLength_append, length_utf8]

/-- Whether a byte of a class stands at an index. -/
def isAt (p : Char → Bool) (bytes : List UInt8) (i : Nat) : Bool := bytes[i]?.any (onByte p)

theorem isAt_utf8 {p : Char → Bool} (h : AsciiClass p) (front rest : List Char) :
    isAt p (utf8 (front ++ rest)) (byteLength front) = rest.head?.any p := by
  rw [isAt, utf8_append, ← length_utf8, List.getElem?_append_right Nat.le.refl, Nat.sub_self,
    ← List.head?_eq_getElem?, any_head?_utf8 h]

/-- The index after an ASCII character. -/
theorem byteLength_concat (front : List Char) {c : Char} (h : c.toNat < 128) :
    byteLength (front ++ [c]) = byteLength front + 1 := by
  rw [byteLength_append, byteLength_of_forall_lt (List.forall_mem_singleton.2 h),
    List.length_singleton]

/-- The first byte of a text that is not empty. -/
theorem exists_getElem?_utf8 (front : List Char) (c : Char) (rest : List Char) :
    ∃ b, (utf8 (front ++ c :: rest))[byteLength front]? = some b ∧
      (∀ p, AsciiClass p → onByte p b = p c) ∧
      ∃ bs, String.utf8EncodeChar c = b :: bs := by
  obtain ⟨b, bs, hb, hfirst, -⟩ := utf8EncodeChar_eq_cons c
  refine ⟨b, ?_, hfirst, bs, hb⟩
  rw [utf8_append, ← length_utf8, List.getElem?_append_right Nat.le.refl, Nat.sub_self, utf8_cons,
    hb]
  rfl

end GraphQL
