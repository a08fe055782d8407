import GraphQL.Lexical.Tokens
import GraphQL.Proofs.Lexical.Ignored
import GraphQL.Proofs.Lexical.Lexeme

/-!
# The tokens of a text

The tokens of a text are genuine lexemes at their places (`Cursor.mem_tokens`), so the line of a
token counts the line feeds before it (`lineAt_append`).  Any genuine lexemes, other than
string literals that do not end, are the lexemes of some text: their own texts with blanks
between (`tokens_spaced`).
-/

namespace GraphQL

theorem byteLength_append (xs ys : List Char) :
    byteLength (xs ++ ys) = byteLength xs + byteLength ys := by
  induction xs with
  | nil => simp [byteLength]
  | cons x xs ih => simp [byteLength, ih, Nat.add_assoc]

/-! ### One token after the other -/

namespace Cursor

theorem skipIgnored_of_gap {gap here : List Char} (h : Gap gap here) (hs : ¬ StartsIgnored here)
    (offset : Nat) : skipIgnored ⟨offset, gap ++ here⟩ = ⟨offset + byteLength gap, here⟩ := by
  rw [skipIgnored, ignored_of_gap h hs, skip, List.take_left, List.drop_left]

/-- The next token is what is read after the ignored units. -/
theorem next?_of_gap {gap here : List Char} (h : Gap gap here) (hs : ¬ StartsIgnored here)
    (offset : Nat) : next? ⟨offset, gap ++ here⟩ = (Lexeme.read here).map fun (l, after) =>
      (⟨l, offset + byteLength gap⟩,
        ⟨offset + byteLength gap + byteLength l.text.toList, after⟩) := by
  rw [next?, skipIgnored_of_gap h hs]
  rcases Lexeme.read here with _ | ⟨l, after⟩ <;> rfl

/-- A token and the text around it. -/
theorem next?_eq_some {c c' : Cursor} {t : Token} (h : c.next? = some (t, c')) :
    t.lexeme.Genuine ∧ ∃ gap, c.rest = gap ++ (t.text.toList ++ c'.rest) ∧
      t.offset = c.offset + byteLength gap ∧
      c'.offset = t.offset + byteLength t.text.toList := by
  obtain ⟨gap, here, hsource, hgap, hs⟩ := exists_gap c.rest
  obtain ⟨offset, source⟩ := c
  obtain rfl : source = gap ++ here := hsource
  rw [next?_of_gap hgap hs, Option.map_eq_some_iff] at h
  obtain ⟨⟨l, after⟩, hread, heq⟩ := h
  obtain ⟨rfl, rfl⟩ := Prod.mk.inj heq
  have hcut := Lexeme.cutOff_of_read hread
  refine ⟨?_, gap, congrArg (gap ++ ·) hcut.append, rfl, rfl⟩
  rcases here with _ | ⟨d, here⟩
  · cases hread
  · rw [startsIgnored_cons, not_or, Bool.not_eq_true] at hs
    exact hcut.genuine hs.1 hs.2

theorem length_of_next? {c c' : Cursor} {t : Token} (h : c.next? = some (t, c')) :
    c'.rest.length < c.rest.length := by
  obtain ⟨hg, gap, hr, -, -⟩ := next?_eq_some h
  obtain ⟨d, ds, hd, -⟩ := hg.first
  rw [hr, Token.text, hd]
  simp
  omega

theorem takeTokens_succ {n : Nat} {c : Cursor} (h : c.rest.length ≤ n) :
    c.takeTokens (n + 1) = c.takeTokens n := by
  induction n generalizing c with
  | zero =>
    rw [takeTokens, takeTokens]
    rcases hc : c.next? with _ | ⟨t, c'⟩
    · rfl
    · have := length_of_next? hc
      omega
  | succ n ih =>
    rw [takeTokens, takeTokens]
    rcases hc : c.next? with _ | ⟨t, c'⟩
    · rfl
    · have := length_of_next? hc
      simp only [ih (show c'.rest.length ≤ n by omega)]

theorem takeTokens_of_le {n : Nat} {c : Cursor} (h : c.rest.length ≤ n) :
    c.takeTokens n = c.tokens := by
  induction n, h using Nat.le_induction with
  | base => rfl
  | succ n h ih => rw [takeTokens_succ h, ih]

/-- The tokens from a place on: the next one, and those after it. -/
theorem tokens_eq (c : Cursor) :
    c.tokens = match c.next? with
      | none => []
      | some (t, after) => t :: after.tokens := by
  have h := takeTokens_of_le (Nat.le_succ c.rest.length)
  rw [← h, takeTokens]
  rcases hc : c.next? with _ | ⟨t, c'⟩
  · rfl
  · have := length_of_next? hc
    simp only [takeTokens_of_le (show c'.rest.length ≤ c.rest.length by omega)]

theorem tokens_induction {motive : Cursor → Prop}
    (h : ∀ c, (∀ t c', c.next? = some (t, c') → motive c') → motive c) (c : Cursor) : motive c := by
  induction hlen : c.rest.length using Nat.strongRecOn generalizing c with
  | ind n ih => exact h c fun t c' hc => ih _ (hlen ▸ length_of_next? hc) c' rfl

/-- Each token is a genuine lexeme at its place. -/
theorem mem_tokens {t : Token} {c : Cursor} (ht : t ∈ c.tokens) :
    t.lexeme.Genuine ∧ ∃ pre post, c.rest = pre ++ post ∧ t.offset = c.offset + byteLength pre := by
  induction c using tokens_induction with
  | h c ih =>
    rw [tokens_eq] at ht
    rcases hc : c.next? with _ | ⟨t', c'⟩ <;> rw [hc] at ht
    · simp at ht
    · obtain ⟨hg, gap, hr, hs, ho⟩ := next?_eq_some hc
      rcases List.mem_cons.1 ht with rfl | ht
      · exact ⟨hg, gap, _, hr, hs⟩
      · obtain ⟨hg', pre, post, hr', hs'⟩ := ih t' c' hc ht
        refine ⟨hg', gap ++ (t'.text.toList ++ pre), post, ?_, ?_⟩
        · rw [hr, hr']
          simp
        · rw [hs', ho, hs, byteLength_append, byteLength_append]
          omega

end Cursor

/-- Each token of a text is a genuine lexeme at its place. -/
theorem mem_tokens {source : String} {t : Token} (h : t ∈ tokens source) :
    t.lexeme.Genuine ∧
      ∃ pre post, source.toList = pre ++ post ∧ t.offset = byteLength pre := by
  obtain ⟨hg, pre, post, hr, hs⟩ := Cursor.mem_tokens h
  exact ⟨hg, pre, post, hr, by simpa [Cursor.ofString] using hs⟩

theorem genuine_of_mem_lexemes {source : String} {l : Lexeme}
    (h : l ∈ (tokens source).map Token.lexeme) : l.Genuine := by
  obtain ⟨t, ht, rfl⟩ := List.mem_map.1 h
  exact (mem_tokens ht).1

/-! ### Lines -/

theorem lineFeedsBefore_append (pre post : List Char) :
    lineFeedsBefore (pre ++ post) (byteLength pre) = pre.count '\n' := by
  induction pre with
  | nil => cases post <;> simp [lineFeedsBefore, byteLength]
  | cons c cs ih =>
    have hpos : c.utf8Size + byteLength cs ≠ 0 := by
      have := c.utf8Size_pos
      omega
    rw [List.cons_append, byteLength, lineFeedsBefore, if_neg hpos, Nat.add_sub_cancel_left, ih,
      List.count_cons, Nat.add_comm]
    simp

/-- The line of a place is one more than the number of line feeds before it. -/
theorem lineAt_append {source : String} {pre post : List Char} (h : source.toList = pre ++ post) :
    lineAt source (byteLength pre) = 1 + pre.count '\n' := by
  rw [lineAt, h, lineFeedsBefore_append]

/-! ### Texts for lexemes -/

/-- The texts of some lexemes, each after a blank. -/
def spaced : List Lexeme → List Char
  | [] => []
  | l :: ls => ' ' :: (l.text.toList ++ spaced ls)

theorem blankFirst_spaced (ls : List Lexeme) : BlankFirst (spaced ls) := by
  cases ls with
  | nil => exact .nil
  | cons l ls =>
    intro c hc
    cases hc
    rfl

theorem Lexeme.Genuine.not_startsIgnored {l : Lexeme} (h : l.Genuine) (rest : List Char) :
    ¬ StartsIgnored (l.text.toList ++ rest) := by
  obtain ⟨c, cs, hc, hb, hh⟩ := h.first
  rw [hc, List.cons_append, startsIgnored_cons, hb]
  simpa using hh

theorem next?_spaced {l : Lexeme} (hg : l.Genuine) (hl : l.error? ≠ some .unterminated)
    (ls : List Lexeme) (offset : Nat) :
    ∃ t after, Cursor.next? ⟨offset, spaced (l :: ls)⟩ = some (t, after) ∧ t.lexeme = l ∧
      after.rest = spaced ls := by
  have hnext := Cursor.next?_of_gap (.blank rfl .nil : Gap [' '] _)
    (hg.not_startsIgnored (spaced ls)) offset
  rw [hg.again (blankFirst_spaced ls) (.inr hl)] at hnext
  exact ⟨_, _, hnext, rfl, rfl⟩

/-- **Lexemes have a text**: genuine lexemes, none of them a string literal that does not end, are
the lexemes of their own texts with blanks between. -/
theorem tokens_spaced {ls : List Lexeme}
    (h : ∀ l ∈ ls, l.Genuine ∧ l.error? ≠ some .unterminated) :
    (tokens (String.ofList (spaced ls))).map Token.lexeme = ls := by
  suffices hc : ∀ offset, (Cursor.tokens ⟨offset, spaced ls⟩).map Token.lexeme = ls by
    simpa [tokens, Cursor.ofString] using hc 0
  induction ls with
  | nil => exact fun _ => rfl
  | cons l ls ih =>
    intro offset
    obtain ⟨hg, hl⟩ := h l List.mem_cons_self
    obtain ⟨t, ⟨offset', rest⟩, hn, rfl, rfl⟩ := next?_spaced hg hl ls offset
    rw [Cursor.tokens_eq, hn, List.map_cons, ih (fun l' h' => h l' (List.mem_cons_of_mem _ h'))]

end GraphQL
