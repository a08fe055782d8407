import GraphQL.Proofs.Bytes.Cuts

/-!
# Where string literals end, found in the bytes

The closing quotes of a string literal can be searched for in the bytes of the text.  In a quoted
string, the search stops at quotes and backslashes, and goes on after the *byte* that follows a
backslash, which may be inside a character (`quoteEnd`).  In a block string, the search stops at
triple quotes, and goes on after those that a backslash precedes (`blockEnd`).

Both searches find the end that the units of the literal tell (`quoteEnd_eq`, `blockEnd_eq`).  The
invariant is that the search could have started some bytes later: in a quoted string none of these
is a quote or a backslash, in a block string no triple quote starts at any of them.
-/

namespace GraphQL

/-! ### Quoted strings -/

/-- The characters at which the search for a closing quote stops. -/
def stopsQuoted (c : Char) : Bool := c = '"' || c = '\\'

/-- The index of the quote that closes a quoted string, searched for from an index on. -/
def quoteEnd (bytes : List UInt8) : Nat → Nat → Checked (Option Nat)
  | 0, _ => .error .endless
  | bound + 1, pos => do
    let rest ← entriesFrom bytes pos
    match rest.findIdx? (onByte stopsQuoted) with
    | none => return none
    | some offset =>
      let stop ← entryAt bytes (pos + offset)
      if onByte (· = '"') stop then return some (pos + offset)
      else quoteEnd bytes bound (min (pos + offset + 2) bytes.length)

theorem asciiClass_stopsQuoted : AsciiClass stopsQuoted := by
  intro c hc
  simp only [stopsQuoted, Bool.or_eq_true, decide_eq_true_eq] at hc
  rcases hc with rfl | rfl <;> decide

theorem findIdx?_append_of_forall {p : Char → Bool} {skipped : List UInt8}
    (h : ∀ b ∈ skipped, onByte p b = false) (rest : List UInt8) :
    (skipped ++ rest).findIdx? (onByte p) =
      (rest.findIdx? (onByte p)).map (· + skipped.length) := by
  rw [List.findIdx?_append, List.findIdx?_eq_none_iff.2 h, Option.none_or]

/-- The search finds the first quote or backslash after the skipped bytes. -/
theorem quoteEnd_of_stop {pre skipped : List UInt8} {c : Char} {after : List Char} {x : UInt8}
    (hskipped : ∀ b ∈ skipped, onByte stopsQuoted b = false) (hc : stopsQuoted c = true)
    (hx : String.utf8EncodeChar c = [x]) (bound : Nat) :
    quoteEnd (pre ++ (skipped ++ utf8 (c :: after))) (bound + 1) pre.length =
      if onByte (· = '"') x then .ok (some (pre.length + skipped.length))
      else quoteEnd (pre ++ (skipped ++ utf8 (c :: after))) bound
        (min (pre.length + skipped.length + 2)
          (pre ++ (skipped ++ utf8 (c :: after))).length) := by
  have hfind : (skipped ++ utf8 (c :: after)).findIdx? (onByte stopsQuoted) =
      some skipped.length := by
    rw [findIdx?_append_of_forall hskipped, findIdx?_utf8 asciiClass_stopsQuoted,
      List.findIdx?_cons, if_pos hc, Option.map_some, Option.map_some, List.take_zero, byteLength,
      Nat.zero_add]
  have hentry : entryAt (pre ++ (skipped ++ utf8 (c :: after))) (pre.length + skipped.length) =
      .ok x := by
    rw [utf8_cons, hx, ← List.append_assoc, ← List.length_append]
    exact entryAt_append
  rw [quoteEnd, entriesFrom_append, Checked.ok_bind, hfind]
  simp only [hentry, Checked.ok_bind]
  rfl

/-- After a backslash the search goes on behind the next byte, which may be inside a character. -/
theorem quoteEnd_backslash {pre skipped tail : List UInt8} {after : List Char} {b : UInt8}
    (hskipped : ∀ b ∈ skipped, onByte stopsQuoted b = false) (hafter : utf8 after = b :: tail)
    (bound : Nat) :
    quoteEnd (pre ++ (skipped ++ utf8 ('\\' :: after))) (bound + 1) pre.length =
      quoteEnd ((pre ++ (skipped ++ [0x5C, b])) ++ tail) bound
        (pre ++ (skipped ++ [0x5C, b])).length := by
  have hsplit : pre ++ (skipped ++ utf8 ('\\' :: after)) =
      (pre ++ (skipped ++ [0x5C, b])) ++ tail := by
    rw [utf8_cons, hafter]
    simp only [List.append_assoc]
    rfl
  have hnext : min (pre.length + skipped.length + 2)
      (pre ++ (skipped ++ utf8 ('\\' :: after))).length =
        (pre ++ (skipped ++ [0x5C, b])).length := by
    rw [hsplit]
    simp only [List.length_append, List.length_cons, List.length_nil]
    omega
  rw [quoteEnd_of_stop hskipped rfl rfl, if_neg (by decide), hnext, hsplit]

/-- A backslash at the end has nothing to take with it. -/
theorem quoteEnd_backslash_nil {pre skipped : List UInt8}
    (hskipped : ∀ b ∈ skipped, onByte stopsQuoted b = false) (bound : Nat) :
    quoteEnd (pre ++ (skipped ++ utf8 ['\\'])) (bound + 2) pre.length = .ok none := by
  have hlast : pre ++ (skipped ++ utf8 ['\\']) = (pre ++ (skipped ++ [0x5C])) ++ [] :=
    (List.append_nil _).symm
  have hnext : min (pre.length + skipped.length + 2)
      (pre ++ (skipped ++ utf8 ['\\'])).length = (pre ++ (skipped ++ [0x5C])).length := by
    rw [hlast]
    simp only [List.length_append, List.length_cons, List.length_nil]
    omega
  rw [quoteEnd_of_stop hskipped rfl rfl, if_neg (by decide), hnext, hlast, quoteEnd,
    entriesFrom_append]
  rfl

/-- Searching after some bytes that are neither quotes nor backslashes finds the closing quote. -/
theorem quoteEnd_eq {pre skipped : List UInt8} {after : List Char} {bound : Nat}
    (hskipped : ∀ b ∈ skipped, onByte stopsQuoted b = false) (hbound : after.length < bound) :
    quoteEnd (pre ++ (skipped ++ utf8 after)) bound pre.length =
      .ok ((splitQuoted after).map fun x => pre.length + (skipped.length + byteLength x.1)) := by
  induction after using splitQuoted.induct generalizing pre skipped bound with
  | case1 rest =>
    obtain ⟨bound, rfl⟩ := Nat.exists_eq_succ_of_ne_zero (Nat.ne_zero_of_lt hbound)
    rw [quoteEnd_of_stop hskipped rfl rfl, if_pos (by decide), splitQuoted]
    rfl
  | case2 c rest ih =>
    obtain ⟨bound, rfl⟩ := Nat.exists_eq_succ_of_ne_zero (Nat.ne_zero_of_lt hbound)
    -- The search goes on inside the character, whose other bytes are skipped.
    obtain ⟨b, bs, hb, -, hbs⟩ := utf8EncodeChar_eq_cons c
    have hafter : utf8 (c :: rest) = b :: (bs ++ utf8 rest) := by
      rw [utf8_cons, hb, List.cons_append]
    have hsize : c.utf8Size = bs.length + 1 := by
      rw [← String.length_utf8EncodeChar, hb, List.length_cons]
    have hshorter : rest.length < bound := by
      simp only [List.length_cons] at hbound
      omega
    rw [quoteEnd_backslash hskipped hafter,
      ih (fun x hx => onByte_eq_false asciiClass_stopsQuoted (hbs x hx)) hshorter, splitQuoted,
      Option.map_map]
    refine congrArg (fun f => Except.ok (Option.map f (splitQuoted rest))) (funext fun x => ?_)
    simp only [List.length_append, List.length_cons, List.length_nil, Function.comp_apply,
      byteLength, hsize, show ('\\' : Char).utf8Size = 1 from rfl]
    omega
  | case3 c rest hquote hbackslash ih =>
    cases hc : stopsQuoted c with
    | true =>
      obtain rfl : c = '\\' := by
        simp only [stopsQuoted, Bool.or_eq_true, decide_eq_true_eq] at hc
        exact hc.resolve_left hquote
      obtain rfl : rest = [] := by
        rcases rest with _ | ⟨d, rest⟩
        · rfl
        · exact (hbackslash d rest rfl rfl).elim
      obtain ⟨bound, rfl⟩ := Nat.exists_eq_add_of_lt hbound
      rw [List.length_singleton, Nat.add_comm 1 bound, quoteEnd_backslash_nil hskipped]
      rfl
    | false =>
      have hskipped' : ∀ b ∈ skipped ++ String.utf8EncodeChar c, onByte stopsQuoted b = false := by
        intro b hb
        obtain hb | hb := List.mem_append.1 hb
        · exact hskipped b hb
        · exact forall_onByte_of_class asciiClass_stopsQuoted hc hb
      have hshorter : rest.length < bound := by
        simp only [List.length_cons] at hbound
        omega
      rw [utf8_cons, ← List.append_assoc skipped, ih hskipped' hshorter,
        splitQuoted.eq_3 c rest hquote hbackslash, Option.map_map]
      refine congrArg (fun f => Except.ok (Option.map f (splitQuoted rest))) (funext fun x => ?_)
      simp only [List.length_append, String.length_utf8EncodeChar, Function.comp_apply, byteLength]
      omega
  | case4 =>
    obtain ⟨bound, rfl⟩ := Nat.exists_eq_succ_of_ne_zero (Nat.ne_zero_of_lt hbound)
    rw [quoteEnd, entriesFrom_append, Checked.ok_bind, findIdx?_append_of_forall hskipped]
    rfl

/-! ### Block strings -/

/-- The first index at which a pattern that is not empty occurs. -/
def indexOf? (pattern : List UInt8) : List UInt8 → Option Nat
  | [] => none
  | b :: bytes =>
    if pattern.isPrefixOf (b :: bytes) then some 0 else (indexOf? pattern bytes).map (· + 1)

/-- The bytes of a triple quote. -/
def tripleQuote : List UInt8 := [0x22, 0x22, 0x22]

/-- Whether a backslash stands before an index that is not the first of the content. -/
def isEscapedAt (bytes : List UInt8) (start pos : Nat) : Checked Bool :=
  if start < pos then do
    let previous ← entryAt bytes (pos - 1)
    return previous = 0x5C
  else return false

/-- The index of the triple quote that closes a block string, searched for from an index on; the
content of the string begins at `start`. -/
def blockEnd (bytes : List UInt8) (start : Nat) : Nat → Nat → Checked (Option Nat)
  | 0, _ => .error .endless
  | bound + 1, pos => do
    let rest ← entriesFrom bytes pos
    match indexOf? tripleQuote rest with
    | none => return none
    | some offset =>
      if ← isEscapedAt bytes start (pos + offset) then
        blockEnd bytes start bound (pos + offset + 3)
      else return some (pos + offset)

theorem isEscapedAt_append (front back : List UInt8) (start : Nat) :
    isEscapedAt (front ++ back) start front.length =
      .ok (decide (start < front.length ∧ front.getLast? = some 0x5C)) := by
  by_cases h : start < front.length
  · obtain ⟨init, x, rfl⟩ := (List.eq_nil_or_concat front).resolve_left
      (List.ne_nil_of_length_pos (Nat.zero_lt_of_lt h))
    rw [List.concat_eq_append] at h ⊢
    have hprevious : (init ++ [x]).length - 1 = init.length := by simp
    have hentry : entryAt (init ++ [x] ++ back) ((init ++ [x]).length - 1) = .ok x := by
      rw [hprevious, List.append_assoc, List.singleton_append, entryAt_append]
    rw [isEscapedAt, if_pos h, hentry, Checked.ok_bind]
    simp only [h, true_and, List.getLast?_concat, Option.some.injEq]
    rfl
  · rw [isEscapedAt, if_neg h]
    simp only [h, false_and, decide_false]
    rfl

/-- Bytes that are no quotes start no triple quote. -/
theorem indexOf?_append_of_forall {skipped : List UInt8} (h : ∀ b ∈ skipped, b ≠ 0x22)
    (rest : List UInt8) :
    indexOf? tripleQuote (skipped ++ rest) =
      (indexOf? tripleQuote rest).map (· + skipped.length) := by
  induction skipped with
  | nil => simp
  | cons b skipped ih =>
    have hb : (tripleQuote.isPrefixOf (b :: (skipped ++ rest))) = false := by
      simp [tripleQuote, List.isPrefixOf, (h b List.mem_cons_self).symm]
    rw [List.cons_append, indexOf?, hb, ih fun x hx => h x (List.mem_cons_of_mem _ hx),
      Option.map_map]
    simp [Function.comp_def, Nat.add_assoc]

theorem tripleQuote_eq : tripleQuote = utf8 ['"', '"', '"'] := rfl

theorem indexOf?_utf8_quotes (rest : List Char) :
    indexOf? tripleQuote (utf8 ('"' :: '"' :: '"' :: rest)) = some 0 := rfl

/-- A character at which no triple quote starts is passed by the search. -/
theorem indexOf?_utf8_cons {c : Char} {rest : List Char} (h : ¬ ['"', '"', '"'] <+: c :: rest) :
    indexOf? tripleQuote (utf8 (c :: rest)) =
      (indexOf? tripleQuote (utf8 rest)).map (· + (String.utf8EncodeChar c).length) := by
  obtain ⟨b, bs, hb, -, hbs⟩ := utf8EncodeChar_eq_cons c
  have hother : ∀ x ∈ bs, x ≠ 0x22 := by
    rintro x hx rfl
    exact absurd (hbs _ hx) (by decide)
  have hstart : tripleQuote.isPrefixOf (b :: (bs ++ utf8 rest)) = false := by
    rw [Bool.eq_false_iff]
    intro hprefix
    refine h (isPrefixOf_utf8.1 ?_)
    rwa [← tripleQuote_eq, utf8_cons, hb]
  rw [utf8_cons, hb, List.cons_append, indexOf?, hstart, indexOf?_append_of_forall hother,
    Option.map_map]
  simp [Function.comp_def, Nat.add_assoc]

/-- The last byte of a character is a backslash only if the character is. -/
theorem eq_backslash_of_getLast? {c : Char} {front : List UInt8}
    (h : (front ++ String.utf8EncodeChar c).getLast? = some 0x5C) : c = '\\' := by
  have hmem : (0x5C : UInt8) ∈ String.utf8EncodeChar c := by
    rw [List.getLast?_append_of_ne_nil _ String.utf8EncodeChar_ne_nil] at h
    exact List.mem_of_getLast? h
  by_contra hc
  have hclass : AsciiClass (· = '\\') := by
    intro d hd
    rw [of_decide_eq_true hd]
    decide
  exact absurd (forall_onByte_of_class hclass (decide_eq_false hc) hmem) (by decide)

/-- The search finds the first triple quote, and passes it if a backslash stands before it. -/
theorem blockEnd_of_indexOf? {pre front back : List UInt8} (start bound : Nat)
    (hfound : indexOf? tripleQuote (front ++ back) = some front.length) :
    blockEnd (pre ++ (front ++ back)) start (bound + 1) pre.length =
      if start < (pre ++ front).length ∧ (pre ++ front).getLast? = some 0x5C then
        blockEnd (pre ++ (front ++ back)) start bound ((pre ++ front).length + 3)
      else .ok (some (pre ++ front).length) := by
  have hescaped := isEscapedAt_append (pre ++ front) back start
  rw [List.append_assoc, List.length_append] at hescaped
  rw [blockEnd, entriesFrom_append, Checked.ok_bind, hfound, List.length_append]
  simp only [hescaped, Checked.ok_bind, decide_eq_true_eq]
  rfl

/-- An escaped triple quote is passed: the search stops after the backslash, and goes on after the
triple quote. -/
theorem blockEnd_escaped {pre skipped : List UInt8} {rest : List Char} {start : Nat}
    (hskipped : indexOf? tripleQuote (skipped ++ utf8 ('\\' :: '"' :: '"' :: '"' :: rest)) =
      (indexOf? tripleQuote (utf8 ('\\' :: '"' :: '"' :: '"' :: rest))).map (· + skipped.length))
    (hstart : start ≤ pre.length) (bound : Nat) :
    blockEnd (pre ++ (skipped ++ utf8 ('\\' :: '"' :: '"' :: '"' :: rest))) start (bound + 1)
        pre.length =
      blockEnd ((pre ++ (skipped ++ [0x5C]) ++ tripleQuote) ++ utf8 rest) start bound
        (pre ++ (skipped ++ [0x5C]) ++ tripleQuote).length := by
  have hfront : skipped ++ utf8 ('\\' :: '"' :: '"' :: '"' :: rest) =
      (skipped ++ [0x5C]) ++ utf8 ('"' :: '"' :: '"' :: rest) := by
    simp only [List.append_assoc]
    rfl
  have hfound : indexOf? tripleQuote ((skipped ++ [0x5C]) ++ utf8 ('"' :: '"' :: '"' :: rest)) =
      some (skipped ++ [0x5C]).length := by
    rw [← hfront, hskipped, indexOf?_utf8_cons (by simp), indexOf?_utf8_quotes,
      List.length_append, Nat.add_comm skipped.length]
    rfl
  have hescaped : start < (pre ++ (skipped ++ [0x5C])).length ∧
      (pre ++ (skipped ++ [0x5C])).getLast? = some 0x5C := by
    rw [← List.append_assoc, List.getLast?_concat]
    simp only [List.length_append, List.length_singleton, and_true]
    omega
  have hnext : pre ++ ((skipped ++ [0x5C]) ++ utf8 ('"' :: '"' :: '"' :: rest)) =
      (pre ++ (skipped ++ [0x5C]) ++ tripleQuote) ++ utf8 rest := by
    simp only [List.append_assoc]
    rfl
  have hstop : (pre ++ (skipped ++ [0x5C])).length + 3 =
      (pre ++ (skipped ++ [0x5C]) ++ tripleQuote).length := by
    rw [@List.length_append _ _ tripleQuote]
    rfl
  rw [hfront, blockEnd_of_indexOf? start bound hfound, if_pos hescaped, hnext, hstop]

/-- Searching after some bytes at which no triple quote starts finds the closing triple quote. -/
theorem blockEnd_eq {pre skipped : List UInt8} {after : List Char} {start bound : Nat}
    (hskipped : indexOf? tripleQuote (skipped ++ utf8 after) =
      (indexOf? tripleQuote (utf8 after)).map (· + skipped.length))
    (hlast : (pre ++ skipped).getLast? = some 0x5C → ¬ ['"', '"', '"'] <+: after)
    (hstart : start ≤ pre.length) (hbound : after.length < bound) :
    blockEnd (pre ++ (skipped ++ utf8 after)) start bound pre.length =
      .ok ((splitBlock after).map fun x => pre.length + (skipped.length + byteLength x.1)) := by
  induction after using splitBlock.induct generalizing pre skipped bound with
  | case1 rest =>
    obtain ⟨bound, rfl⟩ := Nat.exists_eq_succ_of_ne_zero (Nat.ne_zero_of_lt hbound)
    have hfound : indexOf? tripleQuote (skipped ++ utf8 ('"' :: '"' :: '"' :: rest)) =
        some skipped.length := by
      rw [hskipped, indexOf?_utf8_quotes, Option.map_some, Nat.zero_add]
    rw [blockEnd_of_indexOf? start bound hfound, if_neg fun h => hlast h.2 ⟨rest, rfl⟩,
      List.length_append]
    rfl
  | case2 rest ih =>
    obtain ⟨bound, rfl⟩ := Nat.exists_eq_succ_of_ne_zero (Nat.ne_zero_of_lt hbound)
    have hshorter : rest.length < bound := by
      simp only [List.length_cons] at hbound
      omega
    have hrest := @ih (pre ++ (skipped ++ [0x5C]) ++ tripleQuote) [] bound (by simp)
      (by simp [tripleQuote]) (by simp; omega) hshorter
    rw [blockEnd_escaped hskipped hstart]
    refine hrest.trans ?_
    rw [splitBlock, Option.map_map]
    refine congrArg (fun f => Except.ok (Option.map f (splitBlock rest))) (funext fun x => ?_)
    simp only [List.length_append, List.length_cons, List.length_nil, Function.comp_apply,
      byteLength, tripleQuote, show ('\\' : Char).utf8Size = 1 from rfl,
      show ('"' : Char).utf8Size = 1 from rfl]
    omega
  | case3 c rest hquotes hescaped ih =>
    have hnone : ¬ ['"', '"', '"'] <+: c :: rest := by
      rintro ⟨back, hback⟩
      simp only [List.cons_append, List.nil_append, List.cons.injEq] at hback
      exact hquotes back hback.1.symm hback.2.symm
    have hskipped' : indexOf? tripleQuote ((skipped ++ String.utf8EncodeChar c) ++ utf8 rest) =
        (indexOf? tripleQuote (utf8 rest)).map
          (· + (skipped ++ String.utf8EncodeChar c).length) := by
      rw [List.append_assoc, ← utf8_cons, hskipped, indexOf?_utf8_cons hnone, Option.map_map]
      simp [Function.comp_def, Nat.add_comm, Nat.add_assoc]
    have hlast' : (pre ++ (skipped ++ String.utf8EncodeChar c)).getLast? = some 0x5C →
        ¬ ['"', '"', '"'] <+: rest := by
      rintro h ⟨back, rfl⟩
      rw [← List.append_assoc] at h
      exact hescaped back (eq_backslash_of_getLast? h) rfl
    have hshorter : rest.length < bound := by
      simp only [List.length_cons] at hbound
      omega
    rw [utf8_cons, ← List.append_assoc skipped, ih hskipped' hlast' hstart hshorter,
      splitBlock.eq_3 c rest hquotes hescaped, Option.map_map]
    refine congrArg (fun f => Except.ok (Option.map f (splitBlock rest))) (funext fun x => ?_)
    simp only [List.length_append, String.length_utf8EncodeChar, Function.comp_apply, byteLength]
    omega
  | case4 =>
    obtain ⟨bound, rfl⟩ := Nat.exists_eq_succ_of_ne_zero (Nat.ne_zero_of_lt hbound)
    rw [blockEnd, entriesFrom_append, Checked.ok_bind, hskipped]
    rfl

end GraphQL
