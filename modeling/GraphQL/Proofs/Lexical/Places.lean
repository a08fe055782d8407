import GraphQL.Proofs.Lexical.Tiling
import GraphQL.Proofs.Tree.Relocation

/-!
# Places in a text

Where a text is read from changes the offsets of its tokens and nothing else (`Cursor.tokens_add`),
and text before it moves its lines down by the line feeds there (`lineAt_add`).

The text of a token stands at its offset, and from there on the text has the tokens that are left
(`Scans.drop`).  So tokens come in the order of their offsets (`Scans.pairwise_offset`), and in the
order of the offsets that they report if the text is not too long (`Scans.pairwise_start`).
-/

namespace GraphQL

/-! ### Offsets -/

theorem Cursor.next?_add (offset k : Nat) (source : List Char) :
    Cursor.next? ⟨offset + k, source⟩ = (Cursor.next? ⟨offset, source⟩).map
      fun (t, c) => (t.relocate (· + k), ⟨c.offset + k, c.rest⟩) := by
  obtain ⟨gap, here, rfl, hgap, hs⟩ := exists_gap source
  rw [next?_of_gap hgap hs, next?_of_gap hgap hs, Option.map_map]
  congr 1
  funext ⟨l, after⟩
  simp only [Function.comp_apply, Token.relocate, Prod.mk.injEq, Token.mk.injEq, Cursor.mk.injEq,
    true_and, and_true]
  omega

/-- Tokens read from a later offset on are the same, but later. -/
theorem Cursor.tokens_add (offset k : Nat) (source : List Char) :
    Cursor.tokens ⟨offset + k, source⟩ =
      (Cursor.tokens ⟨offset, source⟩).map (Token.relocate (· + k)) := by
  induction hc : (⟨offset, source⟩ : Cursor) using tokens_induction generalizing offset source with
  | h c ih =>
    subst hc
    rw [tokens_eq, next?_add, tokens_eq ⟨offset, source⟩]
    rcases hnext : next? ⟨offset, source⟩ with _ | ⟨t, c'⟩
    · rfl
    · exact congrArg (t.relocate _ :: ·) (ih t c' hnext c'.offset c'.rest rfl)

/-! ### Lines -/

theorem lineFeedsBefore_add (pre post : List Char) (offset : Nat) :
    lineFeedsBefore (pre ++ post) (byteLength pre + offset) =
      pre.count '\n' + lineFeedsBefore post offset := by
  induction pre with
  | nil => simp [byteLength]
  | cons c cs ih =>
    have hpos : c.utf8Size + byteLength cs + offset ≠ 0 := by
      have := c.utf8Size_pos
      omega
    have hsub : c.utf8Size + byteLength cs + offset - c.utf8Size = byteLength cs + offset := by
      omega
    rw [List.cons_append, byteLength, lineFeedsBefore, if_neg hpos, hsub, ih, List.count_cons]
    by_cases hc : c = '\n'
    · simp only [hc, if_true, beq_self_eq_true]
      omega
    · simp [hc]

/-- A line in a text is as much later in a longer text as there are line feeds before. -/
theorem lineAt_add {source : String} {pre post : List Char} (h : source.toList = pre ++ post)
    (offset : Nat) : lineAt source (offset + byteLength pre) =
      lineAt (String.ofList post) offset + pre.count '\n' := by
  rw [lineAt, lineAt, h, String.toList_ofList, Nat.add_comm offset, lineFeedsBefore_add]
  omega

theorem lineFeedsBefore_mono (cs : List Char) {offset offset' : Nat} (h : offset ≤ offset') :
    lineFeedsBefore cs offset ≤ lineFeedsBefore cs offset' := by
  induction cs generalizing offset offset' with
  | nil => exact Nat.le.refl
  | cons c cs ih =>
    rw [lineFeedsBefore, lineFeedsBefore]
    by_cases h0 : offset = 0
    · rw [if_pos h0]
      exact Nat.zero_le _
    · rw [if_neg h0, if_neg (show offset' ≠ 0 by omega)]
      exact Nat.add_le_add_left (ih (Nat.sub_le_sub_right h _)) _

/-- Later places are not on earlier lines. -/
theorem lineAt_mono (source : String) {offset offset' : Nat} (h : offset ≤ offset') :
    lineAt source offset ≤ lineAt source offset' :=
  Nat.add_le_add_left (lineFeedsBefore_mono _ h) 1

/-! ### Tokens -/

namespace Scans

variable {offset : Nat} {source : List Char} {ts : List Token}

/-- The text of a token stands at its offset, and from there on are the tokens that are left. -/
theorem drop (h : Scans offset source ts) {k : Nat} {t : Token} (ht : ts[k]? = some t) :
    ∃ pre post, source = pre ++ (t.text.toList ++ post) ∧ t.offset = offset + byteLength pre ∧
      Scans (offset + byteLength pre) (t.text.toList ++ post) (ts.drop k) := by
  induction h generalizing k with
  | done h => simp at ht
  | @token offset gap here after l ts hgap hs hl h ih =>
    obtain ⟨rfl, -⟩ := hl.text hs
    cases k with
    | zero =>
      cases ht
      exact ⟨gap, after, rfl, rfl, @Scans.token _ [] _ _ _ _ .nil hs hl h⟩
    | succ k =>
      obtain ⟨pre, post, rfl, hstart, hscans⟩ := ih ht
      have hoffset : offset + byteLength (gap ++ (l.text.toList ++ pre)) =
          offset + byteLength gap + byteLength l.text.toList + byteLength pre := by
        rw [byteLength_append, byteLength_append]
        omega
      rw [← hoffset] at hstart hscans
      exact ⟨gap ++ (l.text.toList ++ pre), post, by simp, hstart, hscans⟩

theorem slice (h : Scans offset source ts) {t : Token} (ht : t ∈ ts) :
    ∃ pre post, source = pre ++ (t.text.toList ++ post) ∧ t.offset = offset + byteLength pre := by
  obtain ⟨k, hk⟩ := List.mem_iff_getElem?.1 ht
  obtain ⟨pre, post, hsource, hstart, -⟩ := h.drop hk
  exact ⟨pre, post, hsource, hstart⟩

/-- Each token stands after those before it. -/
theorem pairwise_offset (h : Scans offset source ts) : ts.Pairwise (·.offset < ·.offset) := by
  induction h with
  | done _ => exact .nil
  | token _ hs hl h ih =>
    refine .cons (fun t ht => ?_) ih
    obtain ⟨pre, post, -, hstart⟩ := h.slice ht
    have hpos := byteLength_pos (hl.text hs).2
    rw [hstart]
    change _ + byteLength _ < _
    omega

theorem offset_le (h : Scans offset source ts) {t : Token} (ht : t ∈ ts) :
    t.offset ≤ offset + byteLength source := by
  obtain ⟨pre, post, rfl, hoffset⟩ := h.slice ht
  rw [byteLength_append]
  omega

/-- The reported offset of a token is the true one, if the text is not too long to report it. -/
theorem start_eq (h : Scans offset source ts) (hsize : offset + byteLength source ≤ maxOffset)
    {t : Token} (ht : t ∈ ts) : t.start = t.offset :=
  reportedOffset_of_le ((h.offset_le ht).trans hsize)

theorem pairwise_start (h : Scans offset source ts)
    (hsize : offset + byteLength source ≤ maxOffset) : ts.Pairwise (·.start < ·.start) :=
  h.pairwise_offset.imp_of_mem fun ht hu hlt => by
    rwa [h.start_eq hsize ht, h.start_eq hsize hu]

end Scans

theorem offset_le_of_mem_tokens {source : String} {t : Token} (ht : t ∈ tokens source) :
    t.offset ≤ byteLength source.toList :=
  ((Cursor.scans_tokens (Cursor.ofString source)).offset_le ht).trans (Nat.zero_add _).le

/-- Tokens that are moved to later offsets report these, if none is too large to report. -/
theorem moved_exactly_tokens {source : String} {k : Nat}
    (h : byteLength source.toList + k ≤ maxOffset) :
    Moved (.exactly k) (tokens source) ((tokens source).map (Token.relocate (· + k))) :=
  moved_exactly fun _ ht => (Nat.add_le_add_right (offset_le_of_mem_tokens ht) k).trans h

section

variable {source : String} (hsize : byteLength source.toList ≤ maxOffset)

include hsize

theorem start_eq_offset_of_mem_tokens {t : Token} (ht : t ∈ tokens source) : t.start = t.offset :=
  (Cursor.scans_tokens (Cursor.ofString source)).start_eq ((Nat.zero_add _).trans_le hsize) ht

theorem pairwise_start_tokens : (tokens source).Pairwise (·.start < ·.start) :=
  (Cursor.scans_tokens (Cursor.ofString source)).pairwise_start ((Nat.zero_add _).trans_le hsize)

end

end GraphQL
