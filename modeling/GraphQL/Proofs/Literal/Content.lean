import GraphQL.Proofs.Literal.Escape

/-!
# What quoted strings stand for

A text can be written in a string literal in many ways, one character after the other
(`EncodesAll`).  Decoding inverts every one of them and accepts nothing else
(`decodeQuoted_iff`).  Where no encoding starts, decoding stops with an error that quotes the text
from there on (`StuckAt`).

Both follow from how decoding treats the start of a text: an encoding is replaced by its character,
whatever comes after it (`decodeEscapes_append`), and a text that starts with none is refused
(`decodeEscapes_eq_error`).
-/

namespace GraphQL

/-- A text that writes some characters, one after the other. -/
def EncodesAll (content v : List Char) : Prop :=
  ∃ es, List.Forall₂ Encodes es v ∧ content = es.flatten

/-- What is left of a text from the first backslash on at which no encoding starts. -/
structure StuckAt (content rest : List Char) : Prop where
  /-- What comes before can be read. -/
  read : ∃ before v, EncodesAll before v ∧ content = before ++ rest
  /-- A backslash comes next. -/
  backslash : rest.head? = some '\\'
  /-- No encoding starts there. -/
  noEncoding : ∀ e c, Encodes e c → ¬ e <+: rest

theorem decodeEscapesFrom_eq_drop (skip : Nat) (text : List Char) :
    decodeEscapesFrom skip text = decodeEscapes (text.drop skip) := by
  induction text generalizing skip with
  | nil => cases skip <;> rfl
  | cons c text ih =>
    cases skip with
    | zero => rfl
    | succ skip => exact ih skip

theorem decodeEscapes_cons {c : Char} (h : c ≠ '\\') (rest : List Char) :
    decodeEscapes (c :: rest) = (c :: ·) <$> decodeEscapes rest := by
  rw [decodeEscapes, decodeEscapesFrom, if_neg h, decodeEscapesFrom_eq_drop, List.drop_zero]

theorem decodeEscapes_of_readEscape {rest : List Char} {c : Char} {width : Nat}
    (h : readEscape ('\\' :: rest) = .ok (c, width)) :
    decodeEscapes ('\\' :: rest) = (c :: ·) <$> decodeEscapes (rest.drop (width - 1)) := by
  rw [decodeEscapes, decodeEscapesFrom, if_pos rfl, h]
  exact congrArg ((c :: ·) <$> ·) (decodeEscapesFrom_eq_drop _ _)

theorem decodeEscapes_of_readEscape_error {rest : List Char} {e : StringError}
    (h : readEscape ('\\' :: rest) = .error e) : decodeEscapes ('\\' :: rest) = .error e := by
  rw [decodeEscapes, decodeEscapesFrom, if_pos rfl, h]

theorem Encodes.eq_or_eq_cons {e : List Char} {c : Char} (h : Encodes e c) :
    e = [c] ∧ c ≠ '\\' ∨ ∃ tail, e = '\\' :: tail := by
  cases h with
  | plain hc => exact .inl ⟨rfl, hc⟩
  | _ => exact .inr ⟨_, rfl⟩

theorem Encodes.ne_nil {e : List Char} {c : Char} (h : Encodes e c) : e ≠ [] := by
  cases h <;> exact List.cons_ne_nil _ _

/-- An encoding at the start of a text is replaced by its character. -/
theorem decodeEscapes_append {e : List Char} {c : Char} (h : Encodes e c) (rest : List Char) :
    decodeEscapes (e ++ rest) = (c :: ·) <$> decodeEscapes rest := by
  obtain ⟨rfl, hc⟩ | ⟨tail, rfl⟩ := h.eq_or_eq_cons
  · exact decodeEscapes_cons hc rest
  · have hread := readEscape_append h rfl rest
    rw [List.cons_append] at hread ⊢
    rw [decodeEscapes_of_readEscape hread, List.length_cons, Nat.add_sub_cancel, List.drop_left]

theorem decodeEscapes_flatten_append {es : List (List Char)} {v : List Char}
    (h : List.Forall₂ Encodes es v) (rest : List Char) :
    decodeEscapes (es.flatten ++ rest) = (v ++ ·) <$> decodeEscapes rest := by
  induction h with
  | nil => cases hrest : decodeEscapes rest <;> simp [hrest]
  | cons hc _ ih =>
    rw [List.flatten_cons, List.append_assoc, decodeEscapes_append hc, ih]
    cases decodeEscapes rest <;> rfl

/-- A text that starts with no encoding is refused. -/
theorem decodeEscapes_eq_error {rest : List Char} (hne : rest ≠ [])
    (h : ∀ e c, Encodes e c → ¬ e <+: rest) :
    rest.head? = some '\\' ∧ ∃ e t, decodeEscapes rest = .error e ∧ e.quoted? = some t ∧
      t ≠ "" ∧ t.toList <+: rest := by
  obtain ⟨c, rest, rfl⟩ := List.exists_cons_of_ne_nil hne
  have hc : c = '\\' := by
    by_contra hc
    exact h [c] c (.plain hc) ⟨rest, rfl⟩
  subst hc
  refine ⟨rfl, ?_⟩
  cases hread : readEscape ('\\' :: rest) with
  | ok r =>
    obtain ⟨e, he, hpre⟩ := encodes_of_readEscape hread
    exact absurd hpre (h e r.1 he)
  | error e =>
    obtain ⟨n, hn⟩ := quoted_of_readEscape hread
    refine ⟨e, _, decodeEscapes_of_readEscape_error hread, hn, ?_, ?_⟩
    · simp
    · simpa using List.take_prefix (n + 1) ('\\' :: rest)

theorem EncodesAll.append {e content v : List Char} {c : Char} (he : Encodes e c)
    (h : EncodesAll content v) : EncodesAll (e ++ content) (c :: v) := by
  obtain ⟨es, hes, rfl⟩ := h
  exact ⟨e :: es, .cons he hes, rfl⟩

/-- A text can be read to its end, or up to the first backslash at which no encoding starts. -/
theorem encodesAll_or_stuckAt (content : List Char) :
    (∃ v, EncodesAll content v) ∨ ∃ rest, StuckAt content rest := by
  induction hn : content.length using Nat.strong_induction_on generalizing content with
  | _ n ih =>
    subst hn
    by_cases hnil : content = []
    · exact .inl ⟨[], [], .nil, hnil⟩
    -- What follows an encoding is shorter, and one encoding more goes before what is read of it.
    by_cases hstart : ∃ e c, Encodes e c ∧ e <+: content
    · obtain ⟨e, c, he, rest, rfl⟩ := hstart
      have hlt : rest.length < (e ++ rest).length := by
        rw [List.length_append]
        have := List.length_pos_of_ne_nil he.ne_nil
        omega
      obtain ⟨v, hv⟩ | ⟨stuck, ⟨before, v, hv, rfl⟩, hback, hno⟩ := ih _ hlt rest rfl
      · exact .inl ⟨c :: v, hv.append he⟩
      · exact .inr ⟨stuck, ⟨e ++ before, c :: v, hv.append he, by simp⟩, hback, hno⟩
    · have hno : ∀ e c, Encodes e c → ¬ e <+: content := fun e c he hpre =>
        hstart ⟨e, c, he, hpre⟩
      exact .inr ⟨content, ⟨[], [], ⟨[], .nil, rfl⟩, rfl⟩, (decodeEscapes_eq_error hnil hno).1, hno⟩

/-- Two texts that start with an encoding each and are the same start with the same one. -/
theorem Encodes.eq_of_append_eq {e e' rest rest' : List Char} {c c' : Char} (h : Encodes e c)
    (h' : Encodes e' c') (heq : e ++ rest = e' ++ rest') : e = e' := by
  have hlen : e.length = e'.length := by
    obtain ⟨rfl, hc⟩ | ⟨tail, rfl⟩ := h.eq_or_eq_cons <;>
      obtain ⟨rfl, hc'⟩ | ⟨tail', rfl⟩ := h'.eq_or_eq_cons
    · rfl
    · exact absurd (List.cons.inj heq).1 hc
    · exact absurd (List.cons.inj heq).1.symm hc'
    · -- Reading the escape sequence tells how long it is.
      have hread := readEscape_append h rfl rest
      rw [heq, readEscape_append h' rfl rest'] at hread
      exact (Prod.mk.inj (Except.ok.inj hread)).2.symm
  exact (List.append_inj heq hlen).1

theorem eq_of_flatten_append_eq {es es' : List (List Char)} {v v' rest rest' : List Char}
    (h : List.Forall₂ Encodes es v) (h' : List.Forall₂ Encodes es' v')
    (hno : ∀ e c, Encodes e c → ¬ e <+: rest) (hno' : ∀ e c, Encodes e c → ¬ e <+: rest')
    (heq : es.flatten ++ rest = es'.flatten ++ rest') : rest = rest' := by
  -- The induction is on the encodings read the first way; each is also the next one read the
  -- second way.
  induction h generalizing es' v' with
  | nil =>
    cases h' with
    | nil => exact heq
    | cons he' _ => exact absurd ⟨_, by simpa using heq.symm⟩ (hno _ _ he')
  | cons he _ ih =>
    cases h' with
    | nil => exact absurd ⟨_, by simpa using heq⟩ (hno' _ _ he)
    | cons he' hes' =>
      simp only [List.flatten_cons, List.append_assoc] at heq
      obtain rfl := he.eq_of_append_eq he' heq
      exact ih hes' (List.append_cancel_left heq)

/-- There is one place at most where a text cannot be read on. -/
theorem StuckAt.unique {content rest rest' : List Char} (h : StuckAt content rest)
    (h' : StuckAt content rest') : rest' = rest := by
  obtain ⟨⟨_, v, ⟨es, hes, rfl⟩, heq⟩, -, hno⟩ := h
  obtain ⟨⟨_, v', ⟨es', hes', rfl⟩, heq'⟩, -, hno'⟩ := h'
  exact eq_of_flatten_append_eq hes' hes hno' hno (heq'.symm.trans heq)

theorem decodeEscapes_of_encodesAll {content v : List Char} (h : EncodesAll content v) :
    decodeEscapes content = .ok v := by
  obtain ⟨es, hes, rfl⟩ := h
  have hdec := decodeEscapes_flatten_append hes []
  rw [List.append_nil] at hdec
  rw [hdec]
  exact congrArg Except.ok (List.append_nil v)

/-- Where a text cannot be read on, decoding stops and quotes what comes next. -/
theorem StuckAt.exists_error {content rest : List Char} (h : StuckAt content rest) :
    ∃ e t, decodeEscapes content = .error e ∧ e.quoted? = some t ∧ t ≠ "" ∧
      t.toList <+: rest := by
  obtain ⟨⟨_, v, ⟨es, hes, rfl⟩, rfl⟩, hback, hno⟩ := h
  have hne : rest ≠ [] := by
    rintro rfl
    cases hback
  obtain ⟨-, e, t, herr, hquoted⟩ := decodeEscapes_eq_error hne hno
  exact ⟨e, t, by rw [decodeEscapes_flatten_append hes, herr]; rfl, hquoted⟩

theorem decodeEscapes_eq_ok {content v : List Char} :
    decodeEscapes content = .ok v ↔ EncodesAll content v := by
  refine ⟨fun h => ?_, decodeEscapes_of_encodesAll⟩
  obtain ⟨v', hv'⟩ | ⟨rest, hstuck⟩ := encodesAll_or_stuckAt content
  · rw [decodeEscapes_of_encodesAll hv', Except.ok.injEq] at h
    rwa [← h]
  · obtain ⟨e, t, herr, -⟩ := hstuck.exists_error
    rw [herr] at h
    cases h

/-- **What quoted strings stand for.**  The content of a quoted string has a value if and only if it
writes the characters of the value, one after the other, each in any of its encodings.  Otherwise
reading it from left to right stops at one place, the first backslash at which no encoding starts,
and the error quotes what comes next there. -/
theorem decodeQuoted_iff (content : String) :
    (∀ v, decodeQuoted content = .ok v ↔ EncodesAll content.toList v.toList) ∧
    ((∀ v, ¬ EncodesAll content.toList v) →
      ∃ rest, (∀ rest', StuckAt content.toList rest' ↔ rest' = rest) ∧
        ∃ e t, decodeQuoted content = .error e ∧ e.quoted? = some t ∧ t ≠ "" ∧
          t.toList <+: rest) := by
  constructor
  · intro v
    rw [← decodeEscapes_eq_ok, decodeQuoted]
    cases decodeEscapes content.toList with
    | ok w =>
      simp only [Functor.map, Except.map, Except.ok.injEq]
      exact ⟨fun h => by rw [← h, String.toList_ofList], fun h => by rw [h, String.ofList_toList]⟩
    | error e => simp [Functor.map, Except.map]
  · intro hnone
    obtain ⟨v, hv⟩ | ⟨rest, hstuck⟩ := encodesAll_or_stuckAt content.toList
    · exact absurd hv (hnone v)
    · obtain ⟨e, t, herr, hquoted⟩ := hstuck.exists_error
      refine ⟨rest, fun rest' => ⟨hstuck.unique, ?_⟩, e, t, ?_, hquoted⟩
      · rintro rfl
        exact hstuck
      · rw [decodeQuoted, herr]
        rfl

/-- The content `a\q` cannot be read on at its backslash. -/
theorem decodeQuoted_iff_unknown :
    (∀ v, ¬ EncodesAll "a\\q".toList v) ∧
      ∃ rest, (∀ rest', StuckAt "a\\q".toList rest' ↔ rest' = rest) ∧
        ∃ e t, decodeQuoted "a\\q" = .error e ∧ e.quoted? = some t ∧ t ≠ "" ∧
          t.toList <+: rest := by
  have hnone : ∀ v, ¬ EncodesAll "a\\q".toList v := fun v hv => by
    rw [← decodeEscapes_eq_ok] at hv
    cases hv
  exact ⟨hnone, (decodeQuoted_iff "a\\q").2 hnone⟩

end GraphQL
