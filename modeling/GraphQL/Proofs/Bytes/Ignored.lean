import GraphQL.Proofs.Bytes.Dedent

/-!
# Where ignored text ends, found in the bytes

Ignored bytes are skipped one by one, comments up to the next line break, and a byte order mark,
the only ignored character that is not ASCII, by its three bytes (`ignoredEnd`).  What is skipped
is the ignored text (`ignoredEnd_eq`).
-/

namespace GraphQL

/-- Whether a character is an ignored ASCII character. -/
def isAsciiBlank (c : Char) : Bool := c = ' ' || c = '\t' || c = '\n' || c = '\r' || c = ','

/-- The bytes of a byte order mark. -/
def byteOrderMark : List UInt8 := utf8 ['\uFEFF']

/-- The index after the ignored bytes at an index. -/
def ignoredEnd (bytes : List UInt8) : Nat → Nat → Checked Nat
  | 0, _ => .error .endless
  | bound + 1, pos =>
    match bytes[pos]? with
    | none => return pos
    | some b =>
      if onByte isAsciiBlank b then ignoredEnd bytes bound (pos + 1)
      else if onByte (· = '#') b then do
        let rest ← entriesFrom bytes pos
        match rest.findIdx? (onByte isLineBreak) with
        | some offset => ignoredEnd bytes bound (pos + offset)
        | none => ignoredEnd bytes bound bytes.length
      else if b = 0xEF then do
        let rest ← entriesFrom bytes pos
        if byteOrderMark.isPrefixOf rest then ignoredEnd bytes bound (pos + byteOrderMark.length)
        else return pos
      else return pos

theorem asciiClass_isAsciiBlank : AsciiClass isAsciiBlank := by
  intro c hc
  simp only [isAsciiBlank, Bool.or_eq_true, decide_eq_true_eq, or_assoc] at hc
  rcases hc with rfl | rfl | rfl | rfl | rfl <;> decide

theorem isBlank_eq (c : Char) : isBlank c = (isAsciiBlank c || c = '\uFEFF') := rfl

theorem isLineBreak_iff {c : Char} : isLineBreak c = true ↔ IsLineEnd c := by
  simp [isLineBreak, IsLineEnd]

/-- The end of a comment is the next line break, or the end of the text. -/
theorem findIdx?_comment {body rest : List Char} (hbody : ∀ c ∈ body, ¬ IsLineEnd c)
    (hend : ∀ c ∈ rest.head?, IsLineEnd c) :
    (utf8 ('#' :: (body ++ rest))).findIdx? (onByte isLineBreak) =
      if rest = [] then none else some (byteLength ('#' :: body)) := by
  have hnone : ∀ c ∈ '#' :: body, isLineBreak c = false := List.forall_mem_cons.2
    ⟨rfl, fun c hc => Bool.eq_false_iff.2 fun h => hbody c hc (isLineBreak_iff.1 h)⟩
  rcases rest with _ | ⟨c, rest⟩
  · rw [List.append_nil, findIdx?_utf8_of_forall asciiClass_isLineBreak hnone, if_pos rfl]
  · rw [if_neg (List.cons_ne_nil _ _), ← List.cons_append,
      findIdx?_utf8_append asciiClass_isLineBreak hnone (isLineBreak_iff.2 (hend c rfl))]

theorem byteOrderMark_isPrefixOf {c : Char} {rest : List Char} :
    byteOrderMark.isPrefixOf (utf8 (c :: rest)) = true ↔ c = '\uFEFF' := by
  rw [byteOrderMark, isPrefixOf_utf8, List.cons_prefix_cons]
  exact ⟨fun h => h.1.symm, fun h => ⟨h.symm, List.nil_prefix⟩⟩

section

variable (bound : Nat) (front : List Char)

/-- An ignored ASCII character is skipped. -/
theorem ignoredEnd_blank {c : Char} (hc : isAsciiBlank c = true) (rest : List Char) :
    ignoredEnd (utf8 (front ++ c :: rest)) (bound + 1) (byteLength front) =
      ignoredEnd (utf8 ((front ++ [c]) ++ rest)) bound (byteLength (front ++ [c])) := by
  obtain ⟨b, hget, hfirst, -⟩ := exists_getElem?_utf8 front c rest
  rw [ignoredEnd, hget, byteLength_concat front (asciiClass_isAsciiBlank c hc),
    ← List.append_cons front]
  simp only [hfirst _ asciiClass_isAsciiBlank, hc, if_true]

/-- A comment is skipped as a whole. -/
theorem ignoredEnd_comment {body rest : List Char} (hbody : ∀ c ∈ body, ¬ IsLineEnd c)
    (hend : ∀ c ∈ rest.head?, IsLineEnd c) :
    ignoredEnd (utf8 (front ++ '#' :: (body ++ rest))) (bound + 1) (byteLength front) =
      ignoredEnd (utf8 ((front ++ '#' :: body) ++ rest)) bound
        (byteLength (front ++ '#' :: body)) := by
  obtain ⟨b, hget, hfirst, -⟩ := exists_getElem?_utf8 front '#' (body ++ rest)
  have hsplit : front ++ '#' :: (body ++ rest) = (front ++ '#' :: body) ++ rest := by simp
  rw [ignoredEnd, hget]
  simp only [hfirst _ asciiClass_isAsciiBlank, hfirst _ (asciiClass_eq (d := '#') (by decide)),
    entriesFrom_utf8, Checked.ok_bind, findIdx?_comment hbody hend]
  rw [if_neg (by decide), if_pos (by decide)]
  by_cases hrest : rest = []
  · rw [if_pos hrest, hsplit, hrest, List.append_nil]
    simp only [length_utf8]
  · rw [if_neg hrest, hsplit]
    simp only [byteLength_append]

/-- A byte order mark is skipped. -/
theorem ignoredEnd_mark (rest : List Char) :
    ignoredEnd (utf8 (front ++ '\uFEFF' :: rest)) (bound + 1) (byteLength front) =
      ignoredEnd (utf8 ((front ++ ['\uFEFF']) ++ rest)) bound
        (byteLength (front ++ ['\uFEFF'])) := by
  obtain ⟨b, hget, hfirst, bs, hb⟩ := exists_getElem?_utf8 front '\uFEFF' rest
  obtain rfl : b = 0xEF := (List.cons.inj hb).1.symm
  rw [ignoredEnd, hget, ← List.append_cons front, byteLength_append]
  simp only [entriesFrom_utf8, Checked.ok_bind]
  rw [if_neg (by decide), if_neg (by decide), if_pos trivial,
    if_pos (byteOrderMark_isPrefixOf.2 rfl)]
  rfl

/-- Anything else is not skipped. -/
theorem ignoredEnd_of_not_startsIgnored {rest : List Char} (h : ¬ StartsIgnored rest) :
    ignoredEnd (utf8 (front ++ rest)) (bound + 1) (byteLength front) = .ok (byteLength front) := by
  rw [ignoredEnd]
  rcases rest with _ | ⟨c, rest⟩
  · have hnone : (utf8 (front ++ []))[byteLength front]? = none := by
      rw [List.append_nil, ← length_utf8, List.getElem?_length]
    rw [hnone]
    rfl
  · obtain ⟨b, hget, hfirst, -⟩ := exists_getElem?_utf8 front c rest
    simp only [startsIgnored_cons, isBlank_eq, Bool.or_eq_true, decide_eq_true_eq, not_or] at h
    obtain ⟨⟨hblank, hmark⟩, hcomment⟩ := h
    rw [hget]
    simp only [hfirst _ asciiClass_isAsciiBlank, hfirst _ (asciiClass_eq (d := '#') (by decide)),
      decide_eq_true_eq, entriesFrom_utf8, Checked.ok_bind]
    rw [if_neg hblank, if_neg hcomment, if_neg fun h => hmark (byteOrderMark_isPrefixOf.1 h),
      ite_self]
    rfl

end

/-- What is skipped is the ignored text. -/
theorem ignoredEnd_eq {bound : Nat} {front rest : List Char} (hbound : rest.length < bound) :
    ignoredEnd (utf8 (front ++ rest)) bound (byteLength front) =
      .ok (byteLength (front ++ ignored rest)) := by
  induction bound generalizing front rest with
  | zero => exact absurd hbound (Nat.not_lt_zero _)
  | succ bound ih =>
    by_cases hstart : StartsIgnored rest
    · rcases rest with _ | ⟨c, rest⟩
      · exact absurd hstart not_startsIgnored_nil
      · have hshorter : rest.length < bound := Nat.lt_of_succ_lt_succ hbound
        simp only [startsIgnored_cons, isBlank_eq, Bool.or_eq_true, decide_eq_true_eq] at hstart
        obtain (hblank | rfl) | rfl := hstart
        · have hignored := ignored_blank (c := c) (by rw [isBlank_eq, hblank, Bool.true_or]) rest
          rw [ignoredEnd_blank bound front hblank, ih hshorter, hignored, ← List.append_cons]
        · rw [ignoredEnd_mark, ih hshorter, ignored_blank rfl, ← List.append_cons]
        · obtain ⟨body, rest, rfl, hbody, hend⟩ := exists_lineEnd rest
          have hrest : rest.length < bound := by
            rw [List.length_append] at hshorter
            omega
          rw [ignoredEnd_comment bound front hbody hend, ih hrest, ignored_comment hbody hend,
            List.append_assoc, List.cons_append]
    · rw [ignoredEnd_of_not_startsIgnored bound front hstart, ignored_of_not_startsIgnored hstart,
        List.append_nil]

end GraphQL
