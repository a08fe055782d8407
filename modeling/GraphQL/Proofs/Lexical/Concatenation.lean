import GraphQL.Proofs.Lexical.Places

/-!
# Tokens of texts put together

A line feed parts texts: it is in no name, number or punctuator, it ends a comment, and only a
string literal that does not end would go on after it.  So if all string literals of a text end, its
lexemes are the same with a line feed and more text after it (`Lexes.append_lineFeed`), and the
tokens of two texts with a line feed between are those of the first and then those of the second
(`tokens_append_lineFeed`).  Between a keyword and a text a space will do (`tokens_keyword_append`).
Any number of spaces before a text only make its tokens come later (`tokens_spaces_append`).
-/

namespace GraphQL

/-! ### Texts without line feeds -/

theorem LexicalText.lineFeed_not_mem_name {w : List Char} (h : w ∈ name) : '\n' ∉ w := by
  obtain ⟨c, cs, hc, hcs, rfl⟩ := mem_name.1 h
  rw [List.mem_cons, not_or]
  refine ⟨?_, fun hmem => absurd (hcs _ hmem) (by decide)⟩
  rintro rfl
  exact absurd hc (by decide)

theorem LexicalText.lineFeed_not_mem_digits {w : List Char} (h : ∀ c ∈ w, c.isDigit = true) :
    '\n' ∉ w :=
  fun hmem => absurd (h _ hmem) (by decide)

theorem LexicalText.lineFeed_not_mem_number {w : List Char} (h : w ∈ number) : '\n' ∉ w := by
  have hdigits : ∀ {ds}, ds ∈ digits → '\n' ∉ ds := by
    intro ds hds
    obtain ⟨c, cs, hc, hcs, rfl⟩ := mem_digits.1 hds
    exact lineFeed_not_mem_digits (List.forall_mem_cons.2 ⟨hc, hcs⟩)
  have hcons : ∀ {c : Char} {cs : List Char}, c ≠ '\n' → '\n' ∉ cs → '\n' ∉ c :: cs :=
    fun hc hcs hmem => (List.mem_cons.1 hmem).elim (hc ∘ Eq.symm) hcs
  obtain ⟨_, hif, e, he, rfl⟩ := Language.mem_mul.1 h
  obtain ⟨i, hi, f, hf, rfl⟩ := Language.mem_mul.1 hif
  rw [mem_one_add] at he hf
  rw [List.mem_append, List.mem_append, not_or, not_or]
  refine ⟨⟨?_, ?_⟩, ?_⟩
  · obtain hn | ⟨n, hn, rfl⟩ := mem_integer.1 hi
    · exact lineFeed_not_mem_digits (isDigit_of_mem_natural hn)
    · exact hcons (by decide) (lineFeed_not_mem_digits (isDigit_of_mem_natural hn))
  · obtain rfl | hf := hf
    · exact List.not_mem_nil
    · obtain ⟨ds, hds, rfl⟩ := mem_fraction.1 hf
      exact hcons (by decide) (hdigits hds)
  · obtain rfl | he := he
    · exact List.not_mem_nil
    · obtain ⟨c, v, hc, hv, rfl⟩ := mem_exponent.1 he
      refine hcons (by rcases hc with rfl | rfl <;> decide) ?_
      obtain hv | ⟨sign, ds, hsign, hds, rfl⟩ := hv
      · exact hdigits hv
      · exact hcons (by rcases hsign with rfl | rfl <;> decide) (hdigits hds)

theorem Punctuator.lineFeed_not_mem_text (p : Punctuator) : '\n' ∉ p.text.toList := by
  cases p <;> decide

/-- Of a text with a line feed after it, what has no line feed starts the text itself. -/
theorem prefix_of_prefix_append_lineFeed {w source rest : List Char} (hw : '\n' ∉ w)
    (h : w <+: source ++ '\n' :: rest) : w <+: source := by
  obtain hpre | ⟨more, rfl⟩ := List.prefix_or_prefix_of_prefix h (List.prefix_append source _)
  · exact hpre
  · rw [List.prefix_append_right_inj] at h
    cases more with
    | nil => rw [List.append_nil]
    | cons c more =>
      obtain ⟨rfl, -⟩ := List.cons_prefix_cons.1 h
      exact absurd (List.mem_append_right source List.mem_cons_self) hw

theorem IsLongest.append_lineFeed {L : Language Char} {w source : List Char}
    (h : IsLongest L w source) (hL : ∀ v ∈ L, '\n' ∉ v) (rest : List Char) :
    IsLongest L w (source ++ '\n' :: rest) where
  mem := h.mem
  starts := h.starts.trans (List.prefix_append _ _)
  length_le v hv hpre := h.length_le v hv (prefix_of_prefix_append_lineFeed (hL v hv) hpre)

/-! ### Lexemes and gaps before a line feed -/

/-- A lexeme that ends stands there also with a line feed and more after the text. -/
theorem Lexes.append_lineFeed {source after : List Char} {l : Lexeme} (h : Lexes source l after)
    (hl : l.error? ≠ some .unterminated) (rest : List Char) :
    Lexes (source ++ '\n' :: rest) l (after ++ '\n' :: rest) := by
  have hquotes : '\n' ∉ ['"', '"', '"'] := by decide
  cases h with
  | name h hk =>
    have h := h.append_lineFeed (fun _ => LexicalText.lineFeed_not_mem_name) rest
    rw [List.append_assoc] at h ⊢
    exact .name h hk
  | keyword h =>
    have h := h.append_lineFeed (fun _ => LexicalText.lineFeed_not_mem_name) rest
    rw [List.append_assoc] at h ⊢
    exact .keyword h
  | int h hw =>
    have h := h.append_lineFeed (fun _ => LexicalText.lineFeed_not_mem_number) rest
    rw [List.append_assoc] at h ⊢
    exact .int h hw
  | float h hw =>
    have h := h.append_lineFeed (fun _ => LexicalText.lineFeed_not_mem_number) rest
    rw [List.append_assoc] at h ⊢
    exact .float h hw
  | block hrest h hv =>
    exact .block (by rw [hrest]; simp) (h.before_quotes _) hv
  | badBlock hrest h hv =>
    exact .badBlock (by rw [hrest]; simp) (h.before_quotes _) hv
  | quoted hb hrest h hv =>
    exact .quoted (fun hpre => hb (prefix_of_prefix_append_lineFeed hquotes hpre))
      (by rw [hrest]; simp) h hv
  | badQuoted hb hrest h hv =>
    exact .badQuoted (fun hpre => hb (prefix_of_prefix_append_lineFeed hquotes hpre))
      (by rw [hrest]; simp) h hv
  | openBlock h | openQuoted hb h => exact absurd rfl hl
  | punctuator =>
    rw [List.append_assoc]
    exact .punctuator
  | unknown hname hnumber hstring hpunct =>
    refine .unknown (fun w hw hpre => hname w hw ?_) (fun w hw hpre => hnumber w hw ?_) hstring
      fun p hpre => hpunct p ?_
    · exact prefix_of_prefix_append_lineFeed (LexicalText.lineFeed_not_mem_name hw) hpre
    · exact prefix_of_prefix_append_lineFeed (LexicalText.lineFeed_not_mem_number hw) hpre
    · exact prefix_of_prefix_append_lineFeed p.lineFeed_not_mem_text hpre

/-- Ignored units stay what they are with a line feed and more after the text. -/
theorem Gap.append_lineFeed {gap here : List Char} (h : Gap gap here) (rest : List Char) :
    Gap gap (here ++ '\n' :: rest) := by
  induction h with
  | nil => exact .nil
  | blank hc _ ih => exact .blank hc ih
  | @comment body gap here hbody hend _ ih =>
    refine .comment hbody ?_ ih
    rw [← List.append_assoc]
    rcases hgap : gap ++ here with _ | ⟨c, cs⟩
    · -- The comment ends at the line feed.
      simp [IsLineEnd]
    · simpa [hgap] using hend

theorem Gap.append {gap gap' rest : List Char} (h : Gap gap (gap' ++ rest)) (h' : Gap gap' rest) :
    Gap (gap ++ gap') rest := by
  generalize hhere : gap' ++ rest = here at h
  induction h with
  | nil => exact h'
  | blank hc _ ih => exact .blank hc (ih hhere)
  | comment hbody hend _ ih =>
    subst hhere
    rw [List.cons_append, List.append_assoc]
    exact .comment hbody (by rwa [List.append_assoc]) (ih rfl)

/-! ### Tokens of two texts -/

theorem Scans.prepend {offset : Nat} {gap source : List Char} {ts : List Token}
    (h : Scans (offset + byteLength gap) source ts) (hgap : Gap gap source) :
    Scans offset (gap ++ source) ts := by
  cases h with
  | done h =>
    rw [← List.append_nil source] at hgap
    exact .done (hgap.append h)
  | @token _ gap' here after l ts hgap' hs hl h =>
    have hlen : offset + byteLength (gap ++ gap') = offset + byteLength gap + byteLength gap' := by
      rw [byteLength_append, Nat.add_assoc]
    rw [← hlen] at h ⊢
    rw [← List.append_assoc]
    exact .token (hgap.append hgap') hs hl h

theorem Scans.append_lineFeed {offset : Nat} {xs ys : List Char} {ts us : List Token}
    (h : Scans offset xs ts) (hts : ∀ t ∈ ts, t.lexeme.error? ≠ some .unterminated)
    (h' : Scans (offset + (byteLength xs + 1)) ys us) :
    Scans offset (xs ++ '\n' :: ys) (ts ++ us) := by
  induction h with
  | done hgap =>
    have hlf : Gap ['\n'] ys := .blank rfl .nil
    have hgap := hgap.append_lineFeed ys
    rw [List.nil_append] at hgap
    refine Scans.prepend (@Scans.prepend _ ['\n'] _ _ ?_ hlf) hgap
    rwa [Nat.add_assoc]
  | @token offset gap here after l ts hgap hs hl _ ih =>
    obtain ⟨hlex, hts⟩ := List.forall_mem_cons.1 hts
    have htext := hl.text hs
    have hs' : ¬ StartsIgnored (here ++ '\n' :: ys) := by
      obtain ⟨c, cs, hc⟩ := List.exists_cons_of_ne_nil (mt String.toList_eq_nil_iff.1 htext.2)
      rw [htext.1, hc, List.cons_append, startsIgnored_cons] at hs
      rwa [htext.1, hc, List.cons_append, List.cons_append, startsIgnored_cons]
    have hoffset : offset + (byteLength (gap ++ here) + 1) =
        offset + byteLength gap + byteLength l.text.toList + (byteLength after + 1) := by
      rw [htext.1, byteLength_append, byteLength_append]
      omega
    rw [hoffset] at h'
    rw [List.append_assoc, List.cons_append]
    exact .token (hgap.append_lineFeed ys) hs' (hl.append_lineFeed hlex ys) (ih hts h')

/-- The tokens of a text that stands at a later place. -/
theorem scans_tokens_add (source : String) (k : Nat) :
    Scans (0 + k) source.toList ((tokens source).map (Token.relocate (· + k))) := by
  have h := Cursor.scans_tokens ⟨0 + k, source.toList⟩
  rwa [Cursor.tokens_add] at h

/-- **Tokens of two texts.**  With a line feed between them, two texts have the tokens of the first
and then those of the second, if no string literal of the first goes on to its end. -/
theorem tokens_append_lineFeed {a b : String}
    (ha : ∀ t ∈ tokens a, t.lexeme.error? ≠ some .unterminated) :
    tokens (a ++ "\n" ++ b) =
      tokens a ++ (tokens b).map (Token.relocate (· + (byteLength a.toList + 1))) := by
  have hscans := (Cursor.scans_tokens (Cursor.ofString a)).append_lineFeed ha
    (scans_tokens_add b (byteLength a.toList + 1))
  rw [tokens_eq_iff, String.toList_append, String.toList_append, List.append_assoc]
  exact hscans

/-! ### Spaces before a text -/

/-- A text of so many spaces. -/
def spaces (n : Nat) : String := String.ofList (List.replicate n ' ')

theorem byteLength_spaces (n : Nat) : byteLength (spaces n).toList = n := by
  rw [spaces, String.toList_ofList]
  induction n with
  | zero => rfl
  | succ n ih =>
    rw [List.replicate_succ, byteLength, ih, Nat.add_comm]
    rfl

theorem gap_spaces (n : Nat) (rest : List Char) : Gap (spaces n).toList rest := by
  rw [spaces, String.toList_ofList]
  induction n with
  | zero => exact .nil
  | succ n ih => exact .blank rfl ih

theorem tokens_spaces_append (n : Nat) (source : String) :
    tokens (spaces n ++ source) = (tokens source).map (Token.relocate (· + n)) := by
  have hrest := scans_tokens_add source (byteLength (spaces n).toList)
  rw [byteLength_spaces] at hrest
  rw [tokens_eq_iff, String.toList_append]
  refine Scans.prepend ?_ (gap_spaces n source.toList)
  rwa [byteLength_spaces]

/-- A scalar type, and on the next line, after so many spaces, further text. -/
def scalarThen (n : Nat) (source : String) : String := "scalar A" ++ "\n" ++ (spaces n ++ source)

theorem scalarThen_eq_append (n : Nat) (source : String) :
    scalarThen n source = scalarThen n "" ++ source := by
  simp only [scalarThen, String.append_assoc, String.empty_append]

theorem byteLength_scalarThen (n : Nat) (source : String) :
    byteLength (scalarThen n source).toList = byteLength source.toList + (n + 9) := by
  have hscalar : byteLength ("scalar A" ++ "\n").toList = 9 := by decide
  rw [scalarThen, String.toList_append, byteLength_append, hscalar, String.toList_append,
    byteLength_append, byteLength_spaces]
  omega

theorem tokens_scalarThen (n : Nat) (source : String) : tokens (scalarThen n source) =
    ⟨.keyword .scalar, 0⟩ :: ⟨.name "A", 7⟩ ::
      (tokens source).map (Token.relocate (· + (n + 9))) := by
  have hscalar : tokens "scalar A" = [⟨.keyword .scalar, 0⟩, ⟨.name "A", 7⟩] := by decide +kernel
  have hmoved : Token.relocate (· + 9) ∘ Token.relocate (· + n) =
      Token.relocate (· + (n + 9)) := by
    funext t
    simp only [Function.comp_apply, Token.relocate, Nat.add_assoc]
  rw [scalarThen, tokens_append_lineFeed (by rw [hscalar]; decide), hscalar, tokens_spaces_append,
    List.map_map, ← hmoved]
  rfl

/-! ### Keywords before a text -/

theorem Lexeme.genuine_keyword (k : Keyword) : (Lexeme.keyword k).Genuine := by
  have hread : read k.text.toList = some (.keyword k, []) := by
    cases k <;> rfl
  obtain ⟨c, cs, hc, hblank, hhash⟩ :
      ∃ c cs, k.text.toList = c :: cs ∧ isBlank c = false ∧ c ≠ '#' := by
    cases k <;> exact ⟨_, _, rfl, by decide, by decide⟩
  have hcut := cutOff_of_read hread
  rw [hc] at hcut
  exact hcut.genuine hblank hhash

/-- A lexeme that stands at the start of a text comes before the tokens of what is left, which may
be parted from it by ignored text. -/
theorem tokens_of_lexes {l : Lexeme} {gap : List Char} {text source : String}
    (hs : ¬ StartsIgnored text.toList) (hl : Lexes text.toList l (gap ++ source.toList))
    (hgap : Gap gap source.toList) :
    tokens text =
      ⟨l, 0⟩ :: (tokens source).map (Token.relocate (· + byteLength (l.text.toList ++ gap))) := by
  have hrest := scans_tokens_add source (byteLength (l.text.toList ++ gap))
  rw [byteLength_append, ← Nat.add_assoc] at hrest
  rw [tokens_eq_iff, byteLength_append]
  exact @Scans.token 0 [] _ _ _ _ .nil hs hl (hrest.prepend hgap)

/-- With a space between them, a keyword comes before the tokens of a text. -/
theorem tokens_keyword_append (k : Keyword) (source : String) :
    tokens (k.text ++ " " ++ source) = ⟨.keyword k, 0⟩ ::
      (tokens source).map (Token.relocate (· + byteLength (k.text.toList ++ [' ']))) := by
  have hg := Lexeme.genuine_keyword k
  have htext : (k.text ++ " " ++ source).toList = k.text.toList ++ ([' '] ++ source.toList) := by
    simp
  have hstart : ¬ StartsIgnored (k.text ++ " " ++ source).toList := by
    rw [htext]
    exact hg.not_startsIgnored _
  have hlexes : Lexes (k.text ++ " " ++ source).toList (.keyword k) ([' '] ++ source.toList) := by
    rw [htext]
    refine Lexeme.read_eq_some_iff.1 (hg.again (fun c hc => ?_) (.inr nofun))
    cases hc
    rfl
  exact tokens_of_lexes hstart hlexes (.blank rfl .nil)

end GraphQL
