import GraphQL.Proofs.Lexical.Grammar
import GraphQL.Token.Stream
import Mathlib.Logic.Function.Iterate

/-!
# Tokens tile a text

Tokens and the ignored text between them make up the whole text: each token is the text between its
offsets, and between one token and the next there is ignored text only (`Tiles`).  A token stream
hands out these tokens one after the other, and from then on stays at the end of the text
(`tokens_tile`).
-/

namespace GraphQL

/-- A text, from a byte offset on, is ignored text and tokens in turn. -/
inductive Tiles : Nat → List Char → List Token → Prop where
  /-- Ignored text is left. -/
  | done {offset : Nat} {gap : List Char} (h : Gap gap []) : Tiles offset gap []
  /-- Ignored text as far as it goes, then a token, then the rest. -/
  | token {offset : Nat} {gap rest : List Char} {t : Token} {ts : List Token}
    (hgap : Gap gap (t.text.toList ++ rest)) (hnext : ¬ StartsIgnored (t.text.toList ++ rest))
    (htext : t.text ≠ "") (hstart : t.start = offset + byteLength gap)
    (hstop : t.stop = t.start + byteLength t.text.toList) (h : Tiles t.stop rest ts) :
    Tiles offset (gap ++ (t.text.toList ++ rest)) (t :: ts)

/-- A text stands between two byte offsets of another, neither of them inside a character. -/
def IsSlice (source : List Char) (start stop : Nat) (text : List Char) : Prop :=
  ∃ pre post, source = pre ++ (text ++ post) ∧ start = byteLength pre ∧
    stop = byteLength (pre ++ text)

theorem byteLength_pos {text : String} (h : text ≠ "") : 0 < byteLength text.toList := by
  rcases ht : text.toList with _ | ⟨c, cs⟩
  · exact absurd (String.toList_eq_nil_iff.1 ht) h
  · exact Nat.add_pos_left c.utf8Size_pos _

theorem Lexes.text {source after : List Char} {l : Lexeme} (h : Lexes source l after)
    (hs : ¬ StartsIgnored source) : source = l.text.toList ++ after ∧ l.text ≠ "" := by
  have hcut := Lexeme.cutOff_of_read h.read
  refine ⟨hcut.append, ?_⟩
  rcases source with _ | ⟨c, source⟩
  · cases h.read
  · rw [startsIgnored_cons, not_or, Bool.not_eq_true] at hs
    obtain ⟨d, ds, hd, -, -⟩ := (hcut.genuine hs.1 hs.2).first
    intro hnil
    rw [hnil] at hd
    cases hd

/-- A token that ends at an offset that is reported reports both its offsets as they are. -/
theorem Token.start_stop_of_le {t : Token}
    (h : t.offset + byteLength t.text.toList ≤ maxOffset) :
    t.start = t.offset ∧ t.stop = t.offset + byteLength t.text.toList := by
  have hstart : t.start = t.offset := reportedOffset_of_le (Nat.le_of_add_right_le h)
  exact ⟨hstart, by rw [Token.stop, hstart, endOffset, reportedOffset_of_le h]⟩

theorem Scans.tiles {offset : Nat} {source : List Char} {ts : List Token}
    (h : Scans offset source ts) (hsize : offset + byteLength source ≤ maxOffset) :
    Tiles offset source ts := by
  induction h with
  | done hgap => exact .done hgap
  | @token offset gap here after l ts hgap hs hl _ ih =>
    obtain ⟨rfl, htext⟩ := hl.text hs
    rw [byteLength_append, byteLength_append] at hsize
    -- Offsets that fit are not cut down to the greatest one.
    have hle : offset + byteLength gap + byteLength l.text.toList ≤ maxOffset := by omega
    obtain ⟨hstart, hstop⟩ := @Token.start_stop_of_le ⟨l, offset + byteLength gap⟩ hle
    have hrest : Tiles (Token.stop ⟨l, offset + byteLength gap⟩) after ts := by
      rw [hstop]
      exact ih (by omega)
    exact .token (t := ⟨l, offset + byteLength gap⟩) hgap hs htext hstart
      (by rw [hstop, hstart]) hrest

namespace Tiles

variable {offset : Nat} {source : List Char} {ts : List Token}

theorem length_le (h : Tiles offset source ts) : ts.length ≤ byteLength source := by
  induction h with
  | done _ => exact Nat.zero_le _
  | token _ _ htext _ _ _ ih =>
    have hpos := byteLength_pos htext
    rw [List.length_cons, byteLength_append, byteLength_append]
    omega

theorem slice (h : Tiles offset source ts) {t : Token} (ht : t ∈ ts) :
    ∃ start stop, t.start = offset + start ∧ t.stop = offset + stop ∧
      IsSlice source start stop t.text.toList := by
  induction h with
  | done _ => cases ht
  | @token offset gap rest u ts _ _ _ hstart hstop _ ih =>
    rcases List.mem_cons.1 ht with rfl | ht
    · refine ⟨_, _, hstart, ?_, gap, rest, rfl, rfl, rfl⟩
      rw [hstop, hstart, byteLength_append]
      omega
    · obtain ⟨_, _, hs, he, pre, post, rfl, rfl, rfl⟩ := ih ht
      refine ⟨_, _, ?_, ?_, gap ++ (u.text.toList ++ pre), post, by simp, rfl, rfl⟩
      · rw [hs, hstop, hstart]
        simp only [byteLength_append]
        omega
      · rw [he, hstop, hstart]
        simp only [byteLength_append]
        omega

theorem offset_le (h : Tiles offset source ts) {t : Token} (ht : t ∈ ts) : offset ≤ t.start := by
  obtain ⟨start, -, hstart, -⟩ := h.slice ht
  omega

/-- No token starts before the end of one that comes earlier. -/
theorem pairwise (h : Tiles offset source ts) : ts.Pairwise fun t u => t.stop ≤ u.start := by
  induction h with
  | done _ => exact .nil
  | token _ _ _ _ _ h ih => exact .cons (fun _ => h.offset_le) ih

end Tiles

/-! ### Token streams -/

theorem Cursor.skipIgnored_of_next? {c : Cursor} (h : c.next? = none) :
    c.skipIgnored = ⟨c.offset + byteLength c.rest, []⟩ := by
  obtain ⟨gap, here, hsource, hgap, hs⟩ := exists_gap c.rest
  obtain ⟨offset, source⟩ := c
  obtain rfl : source = gap ++ here := hsource
  rw [next?_of_gap hgap hs, Option.map_eq_none_iff] at h
  obtain rfl := Lexeme.read_ne_none h
  rw [skipIgnored_of_gap hgap hs, List.append_nil]

namespace TokenStream

/-- The stream of a text after some steps. -/
def after (source : String) (steps : Nat) : TokenStream := advance^[steps] (ofString source)

theorem advance_of_some {s : TokenStream} {t : Token} {after : Cursor}
    (h : s.cursor.next? = some (t, after)) :
    s.advance.token? = some t ∧ s.advance.cursor = after := by
  rw [advance, h]
  exact ⟨rfl, rfl⟩

theorem advance_of_none {s : TokenStream} (h : s.cursor.next? = none) :
    s.advance.token? = none ∧
      s.advance.cursor = ⟨s.cursor.offset + byteLength s.cursor.rest, []⟩ ∧
      s.advance.tokenOffset = s.cursor.offset + byteLength s.cursor.rest := by
  rw [advance, h, Cursor.skipIgnored_of_next? h]
  exact ⟨rfl, rfl, rfl⟩

/-- Each step moves to the next token. -/
theorem token?_iterate_advance (s : TokenStream) (k : Nat) :
    (advance^[k + 1] s).token? = s.cursor.tokens[k]? := by
  induction k generalizing s with
  | zero =>
    rw [Cursor.tokens_eq]
    rcases h : s.cursor.next? with _ | ⟨t, after⟩
    · exact (advance_of_none h).1
    · exact (advance_of_some h).1
  | succ k ih =>
    rw [Function.iterate_succ_apply, ih, Cursor.tokens_eq s.cursor]
    rcases h : s.cursor.next? with _ | ⟨t, after⟩
    · rw [(advance_of_none h).2.1]
      rfl
    · rw [(advance_of_some h).2]
      rfl

/-- After the last token each step stays at the end of the text. -/
theorem cursor_iterate_advance (s : TokenStream) {k : Nat} (hk : s.cursor.tokens.length ≤ k) :
    (advance^[k + 1] s).cursor = ⟨s.cursor.offset + byteLength s.cursor.rest, []⟩ ∧
      (advance^[k + 1] s).tokenOffset = s.cursor.offset + byteLength s.cursor.rest := by
  induction k generalizing s with
  | zero =>
    rcases h : s.cursor.next? with _ | ⟨t, after⟩
    · exact (advance_of_none h).2
    · rw [Cursor.tokens_eq, h] at hk
      cases hk
  | succ k ih =>
    rw [Function.iterate_succ_apply]
    rcases h : s.cursor.next? with _ | ⟨t, after⟩
    · obtain ⟨-, hcursor, -⟩ := advance_of_none h
      have hend := ih s.advance (by rw [hcursor]; exact Nat.zero_le _)
      rwa [hcursor] at hend
    · obtain ⟨-, hcursor⟩ := advance_of_some h
      rw [Cursor.tokens_eq, h, List.length_cons] at hk
      have hend := ih s.advance (by rw [hcursor]; omega)
      obtain ⟨-, gap, hrest, hstart, hoffset⟩ := Cursor.next?_eq_some h
      -- The end of the text is the same seen from after the token.
      have htotal : after.offset + byteLength after.rest =
          s.cursor.offset + byteLength s.cursor.rest := by
        rw [hoffset, hstart, hrest, byteLength_append, byteLength_append]
        omega
      rwa [hcursor, htotal] at hend

end TokenStream

/-- **Tokens tile a text** of less than 4 GiB.  There are no more tokens than bytes.  The text is
ignored text and tokens in turn, each token is the text between its offsets, and none starts before
the end of an earlier one.  A token stream hands out these tokens, and then stays at the end. -/
theorem tokens_tile (source : String) (h : byteLength source.toList ≤ maxOffset) :
    (tokens source).length ≤ byteLength source.toList ∧
      Tiles 0 source.toList (tokens source) ∧
      (∀ t ∈ tokens source, IsSlice source.toList t.start t.stop t.text.toList) ∧
      (tokens source).Pairwise (fun t u => t.stop ≤ u.start) ∧
      ∀ k, (TokenStream.after source (k + 1)).token? = (tokens source)[k]? ∧
        ((tokens source).length ≤ k → (TokenStream.after source (k + 1)).kind? = none ∧
          (TokenStream.after source (k + 1)).tokenStart = byteLength source.toList ∧
          (TokenStream.after source (k + 1)).cursor.offset = byteLength source.toList) := by
  have htiles : Tiles 0 source.toList (tokens source) :=
    (Cursor.scans_tokens (Cursor.ofString source)).tiles (by simpa [Cursor.ofString] using h)
  have htoken (k : Nat) : (TokenStream.after source (k + 1)).token? = (tokens source)[k]? :=
    TokenStream.token?_iterate_advance (.ofString source) k
  refine ⟨htiles.length_le, htiles, ?_, htiles.pairwise, fun k => ⟨htoken k, fun hk => ?_⟩⟩
  · intro t ht
    obtain ⟨start, stop, hstart, hstop, hslice⟩ := htiles.slice ht
    rwa [hstart, hstop, Nat.zero_add, Nat.zero_add]
  · obtain ⟨hcursor, hstart⟩ := TokenStream.cursor_iterate_advance (.ofString source) hk
    have hsum : (TokenStream.ofString source).cursor.offset +
        byteLength (TokenStream.ofString source).cursor.rest = byteLength source.toList :=
      Nat.zero_add _
    rw [hsum] at hcursor hstart
    refine ⟨?_, ?_, congrArg Cursor.offset hcursor⟩
    · rw [TokenStream.kind?, htoken, List.getElem?_eq_none hk, Option.map_none]
    · exact (congrArg reportedOffset hstart).trans (reportedOffset_of_le h)

/-- A text with a comment at its end. -/
theorem tokens_tile_comment : byteLength "a, b # c".toList ≤ maxOffset ∧
    Tiles 0 "a, b # c".toList (tokens "a, b # c") :=
  ⟨by decide, (tokens_tile "a, b # c" (by decide)).2.1⟩

end GraphQL
