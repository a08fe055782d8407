import GraphQL.Proofs.Grammar.Covers

/-!
# Completeness of the grammar of operations

The rules for values, types, operations and fragments cover the forms of their trees: they derive
every well-formed tree within the nesting budget from every spelling of it.
-/

namespace GraphQL

open Rule.Covers Rule.Spells

section

variable {b : Nat} (hc : ∀ n : Nest, Rule.Covers b n.form (.nest n))

/-! ### Values and types -/

theorem covers_variableUse : Rule.Covers b Variable.form Rule.variableUse := by
  rintro v _ ⟨⟨u, hu, w, hw, rfl⟩, hv, hd⟩
  exact located (map Variable.mk ((punct hu).seqRight (name ⟨hw, hv, hd⟩)))

theorem covers_namedType : Rule.Covers b NamedType.form Rule.namedType := by
  rintro t w ⟨hw, ht, hd⟩
  exact located (map NamedType.mk (name ⟨hw, ht, hd⟩))

include hc

theorem covers_namedValue : Rule.Covers b NamedValue.form Rule.namedValue := by
  rintro a _ ⟨⟨_, ⟨u, hu, v, hv, rfl⟩, w, hw, rfl⟩, ⟨hx, ha⟩, hd⟩
  exact located (seq
    (map NamedValue.mk (Rule.Spells.seqLeft (name ⟨hu, hx, Nat.zero_le _⟩) (punct hv)))
    (hc .value ⟨hw, ha, hd⟩))

theorem covers_arguments : Rule.Covers b NamedValue.form.parenthesized Rule.arguments :=
  (covers_namedValue hc).parenthesized

theorem covers_directives : Rule.Covers b Directive.form.each Rule.directives := by
  refine each ?_ ?_
  · rintro d _ ⟨⟨_, ⟨u, hu, v, hv, rfl⟩, w, hw, rfl⟩, ⟨hx, hargs⟩, hd⟩
    exact located (seq (map Directive.mk ((punct hu).seqRight (name ⟨hv, hx, Nat.zero_le _⟩)))
      (covers_arguments hc ⟨hw, hargs, hd⟩))
  · rintro d _ ⟨_, ⟨_, rfl, _, _, rfl⟩, _, _, rfl⟩
    rfl

theorem covers_defaultValue : Rule.Covers b defaultForm Rule.defaultValue := by
  refine optional (F := { Value.form with
    spelling := fun v => Spellings.punct .equals * v.spelling }) ?_ ?_
  · rintro v _ ⟨⟨u, hu, w, hw, rfl⟩, hv, hd⟩
    exact (punct hu).seqRight (hc .value ⟨hw, hv, hd⟩)
  · rintro d _ ⟨_, rfl, _, _, rfl⟩
    rfl

omit hc in
/-- A value that is a single token. -/
theorem spells_scalar {l : Lexeme} (hl : isScalarKind l.kind = true)
    (h : ∀ p, ¬ headIs (· == .punctuator p) [l]) :
    valueBody.Spells b (Value.ofToken l.bare) [l] := by
  have htoken : (Rule.token isScalarKind valueStart).Spells b l.bare [l] := ⟨rfl, hl⟩
  exact no (h _) (no (h _) (no (h _) (map Value.ofToken htoken) (nomatch ·)) (nomatch ·))
    (nomatch ·)

omit hc in
theorem ofToken_ofName {x : String} (h : x ≠ "true" ∧ x ≠ "false" ∧ x ≠ "null") :
    Value.ofToken (Lexeme.ofName x).bare = .enum ⟨x, 0⟩ := by
  have htext := Lexeme.text_ofName x
  rw [Lexeme.ofName] at htext ⊢
  split at htext
  · rename_i k hk
    cases k with
    | boolTrue => exact absurd htext.symm h.1
    | boolFalse => exact absurd htext.symm h.2.1
    | null => exact absurd htext.symm h.2.2
    | _ => exact congrArg (fun x => Value.enum ⟨x, 0⟩) htext
  · rfl

theorem spells_valueBody {v : Value} {w : List Lexeme} (h : Value.form.Fits (b + 1) v w) :
    valueBody.Spells b (v.relocate toZero) w := by
  obtain ⟨hs, hv, hd⟩ := h
  cases v with
  | var v =>
    refine yes ?_ (map Value.var (covers_variableUse ⟨hs, hv, Nat.zero_le _⟩))
    obtain ⟨_, rfl, _, _, rfl⟩ := hs
    rfl
  | int text start | float text start =>
    obtain rfl := hs
    exact spells_scalar rfl fun _ h => nomatch h
  | string value block start =>
    obtain ⟨text, rfl, rfl⟩ := hs
    exact spells_scalar rfl fun _ h => nomatch h
  | boolean value start =>
    cases value <;> obtain rfl := hs <;> exact spells_scalar rfl fun _ h => nomatch h
  | null start =>
    obtain rfl := hs
    exact spells_scalar rfl fun _ h => nomatch h
  | enum e =>
    obtain rfl := hs
    have hscalar : isScalarKind (Lexeme.ofName e.value).kind = true := by
      have h := Lexeme.isNameLike_ofName e.value
      cases hk : (Lexeme.ofName e.value).kind <;> rw [hk] at h <;> first | rfl | cases h
    have h : valueBody.Spells b _ _ :=
      spells_scalar hscalar fun p => not_headIs_ofName p e.value []
    rwa [ofToken_ofName hv.2] at h
  | list vs start =>
    change w ∈ Value.spelling _ at hs
    rw [Value.spelling_list] at hs
    have he : (Rule.enclosed .bracketOpen .bracketClose Rule.value).Spells b _ w :=
      (hc .value).enclosed ⟨hs, (Value.wellFormed_list vs start).1 hv,
        Nat.le_of_succ_le_succ ((Value.depth_list vs start).ge.trans hd)⟩
    rw [Value.relocate, Value.relocateList_eq]
    obtain ⟨_, ⟨_, rfl, _, _, rfl⟩, _, _, rfl⟩ := hs
    exact no (nomatch ·) (yes rfl (located (map Value.list he))) (nomatch ·)
  | object fs start =>
    change w ∈ Value.spelling _ at hs
    rw [Value.spelling_object] at hs
    have he : (Rule.enclosed .braceOpen .braceClose Rule.namedValue).Spells b _ w :=
      (covers_namedValue hc).enclosed ⟨hs, (Value.wellFormed_object fs start).1 hv,
        Nat.le_of_succ_le_succ ((Value.depth_object fs start).ge.trans hd)⟩
    rw [Value.relocate, Value.relocateFields_eq]
    obtain ⟨_, ⟨_, rfl, _, _, rfl⟩, _, _, rfl⟩ := hs
    exact no (nomatch ·) (no (nomatch ·) (yes rfl (located (map Value.object he))) (nomatch ·))
      (nomatch ·)

theorem spells_nullableType {t : TypeRef} {w : List Lexeme} (h : TypeRef.form.Fits (b + 1) t w)
    (ht : t.isNonNull = false) : nullableType.Spells b (t.relocate toZero) w := by
  obtain ⟨hs, hwf, hd⟩ := h
  cases t with
  | named t =>
    obtain rfl := hs
    have htoken : (Rule.token TokenKind.isNameLike [.name, .punctuator .bracketOpen]).Spells b _
        [Lexeme.ofName t.name] := ⟨rfl, Lexeme.isNameLike_ofName t.name⟩
    have h := map (fun t : Token => TypeRef.named ⟨t.text, t.start⟩) htoken
    have htext : (Lexeme.ofName t.name).bare.text = t.name := Lexeme.text_ofName t.name
    rw [htext] at h
    exact no (not_headIs_ofName _ _ _) h (nomatch ·)
  | list item start =>
    obtain ⟨_, ⟨u, hu, v, hv, rfl⟩, w, hw, rfl⟩ := hs
    have h := (punct hu).seqRight (hc .typeRef ⟨hv, hwf, Nat.le_of_succ_le_succ hd⟩)
    have hl := map TypeRef.list (Rule.Spells.seqLeft h (punct hw))
    refine yes ?_ (located hl)
    obtain rfl := hu
    rfl
  | nonNull inner start => cases ht

theorem spells_typeRefBody {t : TypeRef} {w : List Lexeme} (h : TypeRef.form.Fits (b + 1) t w) :
    typeRefBody.Spells b (t.relocate toZero) w := by
  obtain ⟨hs, hwf, hd⟩ := h
  have hbang : Rule.Covers b (Form.flag (Spellings.punct .bang))
      (Rule.present (.punctuator .bang)) := flag
  let f : TypeRef → Bool → TypeRef := fun t bang => if bang then .nonNull t t.start else t
  cases hb : t.isNonNull with
  | false =>
    have h := seq (map f (spells_nullableType hc ⟨hs, hwf, hd⟩ hb))
      (hbang (a := false) ⟨rfl, trivial, Nat.zero_le _⟩)
    rwa [List.append_nil] at h
  | true =>
    cases t with
    | nonNull inner start =>
      obtain ⟨u, hu, v, hv, rfl⟩ := hs
      have h := seq (map f (spells_nullableType hc ⟨hu, hwf.1, hd⟩ hwf.2))
        (hbang (a := true) ⟨hv, trivial, Nat.zero_le _⟩)
      have hstart : (inner.relocate toZero).start = toZero start := TypeRef.start_relocate ..
      rw [TypeRef.relocate, ← hstart]
      exact h
    | _ => cases hb

/-! ### Operations and fragments -/

omit hc in
theorem covers_typeCondition : Rule.Covers b TypeCondition.form typeCondition := by
  rintro c _ ⟨⟨u, hu, v, hv, rfl⟩, hwf, hd⟩
  exact located (map TypeCondition.mk ((keyword hu).seqRight
    (covers_namedType ⟨hv, hwf, Nat.zero_le _⟩)))

omit hc in
theorem spells_fieldName {alias? : Option String} {x : String} {w : List Lexeme}
    (hs : w ∈ aliasSpelling alias? * Spellings.named x) (ha : ∀ a ∈ alias?, ValidName a)
    (hx : ValidName x) : fieldName.Spells b (alias?, x) w := by
  obtain ⟨u, hu, v, hv, rfl⟩ := hs
  have hname : Rule.Covers b { Form.name with
      spelling := fun x => Spellings.punct .colon * Spellings.named x }
      (Rule.punct .colon *> Rule.name) := by
    rintro y _ ⟨⟨c, hc, z, hz, rfl⟩, hy, hd⟩
    exact (punct hc).seqRight (name ⟨hz, hy, hd⟩)
  have hopt : Rule.Covers b _ (Rule.optional (· == .punctuator .colon) _) := hname.optional <| by
    rintro y _ ⟨_, rfl, _, _, rfl⟩
    rfl
  cases alias? with
  | none =>
    obtain rfl : u = [] := hu
    have h : fieldName.Spells b (none, x) (v ++ []) := seq (map _ (name ⟨hv, hx, Nat.zero_le _⟩))
      (hopt (a := none) ⟨rfl, fun _ h => (Option.not_mem_none _ h).elim, Nat.zero_le _⟩)
    rwa [List.append_nil] at h
  | some a =>
    obtain ⟨u, hu, c, hc, rfl⟩ := hu
    have h : fieldName.Spells b (some a, x) (u ++ (c ++ v)) :=
      seq (map _ (name ⟨hu, ha a rfl, Nat.zero_le _⟩))
        (hopt (a := some x) ⟨⟨c, hc, v, hv, rfl⟩, fun _ h => Option.mem_some_iff.1 h ▸ hx,
          Nat.zero_le _⟩)
    rwa [← List.append_assoc] at h

theorem covers_selections? :
    Rule.Covers b selectionSetForm.part
      (Rule.optional (· == .punctuator .braceOpen) Rule.selectionSet) := by
  refine (hc .selectionSet).optional ?_
  rintro sels _ ⟨_, ⟨_, rfl, _, _, rfl⟩, _, _, rfl⟩
  rfl

theorem spells_field {f : Field Selection} {w : List Lexeme}
    (h : Selection.form.Fits b (.field f) w) : field.Spells b (f.relocate toZero) w := by
  obtain ⟨hs, hwf, hd⟩ := h
  change w ∈ (Selection.field f).spelling at hs
  rw [Selection.spelling_field] at hs
  obtain ⟨_, ⟨_, ⟨u, hu, v, hv, rfl⟩, y, hy, rfl⟩, z, hz, rfl⟩ := hs
  obtain ⟨ha, hx, hargs, hdirs, hsels⟩ := (Selection.wellFormed_field f).1 hwf
  have hd := (Selection.depth_field f).ge.trans hd
  simp only [max_le_iff] at hd
  exact located (seq (seq (seq (map _ (spells_fieldName hu ha hx))
    (covers_arguments hc ⟨hv, hargs, hd.1⟩)) (covers_directives hc ⟨hy, hdirs, hd.2.1⟩))
    (covers_selections? hc ⟨hz, hsels, hd.2.2⟩))

omit hc in
theorem covers_typeCondition? :
    Rule.Covers b TypeCondition.form.part (Rule.optional (· == .keyword .on) typeCondition) := by
  refine covers_typeCondition.optional ?_
  rintro c _ ⟨_, rfl, _, _, rfl⟩
  rfl

omit hc in
/-- Selections that start with an ellipsis. -/
theorem spells_ellipsis {g : Nat → Selection} {u w : List Lexeme}
    (hu : u ∈ Spellings.punct .ellipsis)
    (h : (Rule.branch startsInline inlineFragment fragmentSpread).Spells b g w) :
    selection.Spells b (g 0) (u ++ w) := by
  refine yes ?_ (located ((punct hu).seqRight h))
  obtain rfl := hu
  rfl

omit hc in
theorem headIs_startsInline {c? : Option TypeCondition} {dirs : List Directive}
    {sels : List Selection} {u v w : List Lexeme}
    (hu : u ∈ Spellings.part TypeCondition.spelling c?)
    (hv : v ∈ Spellings.each Directive.spelling dirs) (hw : w ∈ selectionSetSpelling sels) :
    headIs startsInline (u ++ v ++ w) := by
  rcases c? with _ | c
  · obtain rfl : u = [] := hu
    rcases dirs with _ | ⟨d, dirs⟩
    · obtain rfl : v = [] := hv
      obtain ⟨_, ⟨_, rfl, _, _, rfl⟩, _, _, rfl⟩ := hw
      rfl
    · obtain ⟨_, ⟨_, ⟨_, rfl, _, _, rfl⟩, _, _, rfl⟩, _, _, rfl⟩ := hv
      rfl
  · obtain ⟨_, rfl, _, _, rfl⟩ := hu
    rfl

omit hc in
theorem not_headIs_startsInline {x : String} (hx : x ≠ Keyword.on.text) (w : List Lexeme) :
    ¬ headIs startsInline (Lexeme.ofName x :: w) := by
  intro h
  have hk : startsInline (Lexeme.ofName x).kind = true := h
  rw [Lexeme.ofName] at hk
  split at hk
  · rename_i k hkey
    cases k with
    | on => exact hx (Keyword.text_of_ofName? hkey).symm
    | _ => cases hk
  · cases hk

omit hc in
/-- A field starts with a name. -/
theorem exists_ofName_of_mem_spelling {f : Field Selection} {w : List Lexeme}
    (h : w ∈ (Selection.field f).spelling) : ∃ x v, w = Lexeme.ofName x :: v := by
  rw [Selection.spelling_field] at h
  obtain ⟨_, ⟨_, ⟨_, ⟨u, hu, _, rfl, rfl⟩, _, _, rfl⟩, _, _, rfl⟩, _, _, rfl⟩ := h
  cases ha : f.alias? with
  | none =>
    rw [ha] at hu
    obtain rfl : u = [] := hu
    exact ⟨f.name, _, rfl⟩
  | some a =>
    rw [ha] at hu
    obtain ⟨_, rfl, _, _, rfl⟩ := hu
    exact ⟨a, _, rfl⟩

theorem covers_selection : Rule.Covers b Selection.form selection := by
  intro s w h
  change selection.Spells b (s.relocate toZero) w
  cases s with
  | field f =>
    rw [Selection.relocate_field]
    have hf := map Selection.field (spells_field hc h)
    obtain ⟨x, v, rfl⟩ := exists_ofName_of_mem_spelling h.spelled
    exact no (not_headIs_ofName _ x v) hf (nomatch ·)
  | spread s =>
    obtain ⟨⟨_, ⟨e, he, _, rfl, rfl⟩, v, hv, rfl⟩, ⟨⟨-, hon⟩, hdirs⟩, hd⟩ := h
    have htoken : (Rule.token TokenKind.isNameLike
        [.name, .keyword .on, .punctuator .atSign, .punctuator .braceOpen]).Spells b _
        [Lexeme.ofName s.fragment] := ⟨rfl, Lexeme.isNameLike_ofName s.fragment⟩
    have hs : fragmentSpread.Spells b _ ([Lexeme.ofName s.fragment] ++ v) :=
      seq (map _ htoken) (covers_directives hc ⟨hv, hdirs, hd⟩)
    -- Reading takes the name of the fragment from the text of its token.
    have htext : (Lexeme.ofName s.fragment).bare.text = s.fragment := Lexeme.text_ofName s.fragment
    have h := spells_ellipsis he (no (not_headIs_startsInline hon v) hs (nomatch ·))
    rw [htext] at h
    rw [Selection.relocate_spread]
    beta_reduce
    rw [List.append_assoc]
    exact h
  | inline i =>
    obtain ⟨hs, hwf, hd⟩ := h
    change w ∈ (Selection.inline i).spelling at hs
    rw [Selection.spelling_inline] at hs
    obtain ⟨_, ⟨_, ⟨e, he, u, hu, rfl⟩, v, hv, rfl⟩, y, hy, rfl⟩ := hs
    obtain ⟨hcond, hdirs, hsels⟩ := (Selection.wellFormed_inline i).1 hwf
    obtain ⟨hd, hd'⟩ := max_le_iff.1 ((Selection.depth_inline i).ge.trans hd)
    rw [Selection.relocate_inline]
    beta_reduce
    rw [List.append_assoc e, List.append_assoc e]
    exact spells_ellipsis he (yes (headIs_startsInline hu hv hy) (seq (seq (map _
      (covers_typeCondition? ⟨hu, hcond, depthOf_le.2 fun _ _ => Nat.zero_le _⟩))
      (covers_directives hc ⟨hv, hdirs, hd⟩))
      (hc .selectionSet ⟨hy, hsels, hd'⟩)))

theorem spells_selectionSetBody {sels : List Selection} {w : List Lexeme}
    (h : selectionSetForm.Fits (b + 1) sels w) :
    selectionSetBody.Spells b (sels.map (Selection.relocate toZero)) w :=
  (covers_selection hc).enclosed ⟨h.spelled, h.wellFormed, Nat.le_of_succ_le_succ h.shallow⟩

omit hc in
theorem covers_operationType : Rule.Covers b OperationType.form operationType := by
  rintro t _ ⟨rfl, -, -⟩
  have htoken : (Rule.token isOperationKeyword
      [.keyword .query, .keyword .mutation, .keyword .subscription]).Spells b _
      [Lexeme.keyword t.keyword] := ⟨rfl, by cases t <;> rfl⟩
  have h := map (fun t : Token => (OperationType.ofKind? t.kind).getD .query) htoken
  cases t <;> exact h

theorem covers_variableDefinition : Rule.Covers b VariableDefinition.form variableDefinition := by
  rintro v _ ⟨⟨_, ⟨_, ⟨_, ⟨u, hu, c, hc', rfl⟩, w, hw, rfl⟩, y, hy, rfl⟩, z, hz, rfl⟩,
    ⟨hv, ht, hdef, hdirs⟩, hd⟩
  obtain ⟨hd, hd'⟩ := max_le_iff.1 hd
  obtain ⟨hd', hd''⟩ := max_le_iff.1 hd'
  exact located (seq (seq (seq (map VariableDefinition.mk
    (Rule.Spells.seqLeft (covers_variableUse ⟨hu, hv, Nat.zero_le _⟩) (punct hc')))
    (hc .typeRef ⟨hw, ht, hd⟩)) (covers_defaultValue hc ⟨hy, hdef, hd'⟩))
    (covers_directives hc ⟨hz, hdirs, hd''⟩))

omit hc in
theorem spells_operationName {x? : Option String} {w : List Lexeme}
    (hs : w ∈ Spellings.part Spellings.named x?) (hx : ∀ x ∈ x?, ValidName x) :
    (Rule.optional TokenKind.isNameLike Rule.name).Spells b x? w := by
  have hname : Rule.Covers b Form.name.part (Rule.optional TokenKind.isNameLike Rule.name) := by
    refine name.optional ?_
    rintro x _ rfl
    exact Lexeme.isNameLike_ofName x
  have h := hname ⟨hs, hx, depthOf_le.2 fun _ _ => Nat.zero_le _⟩
  cases x? <;> exact h

theorem spells_keywordOperation {o : Operation} {w : List Lexeme} (hs : w ∈ o.keywordSpelling)
    (hwf : o.WellFormed) (hd : o.depth ≤ b) :
    keywordOperation.Spells b (fun start => ⟨o.type, false, o.name?,
      o.variableDefinitions.map (VariableDefinition.relocate toZero),
      o.directives.map (Directive.relocate toZero), o.selections.map (Selection.relocate toZero),
      start⟩) w := by
  obtain ⟨_, ⟨_, ⟨_, ⟨u, hu, v, hv, rfl⟩, w, hw, rfl⟩, y, hy, rfl⟩, z, hz, rfl⟩ := hs
  obtain ⟨hd, hd'⟩ := max_le_iff.1 hd
  obtain ⟨hd', hd''⟩ := max_le_iff.1 hd'
  exact seq (seq (seq (seq (map _ (covers_operationType ⟨hu, trivial, Nat.zero_le _⟩))
    (spells_operationName hv hwf.name))
    ((covers_variableDefinition hc).parenthesized ⟨hw, hwf.variableDefinitions, hd⟩))
    (covers_directives hc ⟨hy, hwf.directives, hd'⟩)) (hc .selectionSet ⟨hz, hwf.selections, hd''⟩)

omit hc in
theorem headIs_isOperationKeyword {o : Operation} {w : List Lexeme} (h : w ∈ o.keywordSpelling) :
    headIs isOperationKeyword w := by
  obtain ⟨_, ⟨_, ⟨_, ⟨_, rfl, _, _, rfl⟩, _, _, rfl⟩, _, _, rfl⟩, _, _, rfl⟩ := h
  cases o.type <;> rfl

omit hc in
theorem headIs_braceOpen {sels : List Selection} {w : List Lexeme}
    (h : w ∈ selectionSetSpelling sels) : headIs (· == .punctuator .braceOpen) w := by
  obtain ⟨_, ⟨_, rfl, _, _, rfl⟩, _, _, rfl⟩ := h
  rfl

theorem covers_operation : Rule.Covers b Operation.form operation := by
  rintro ⟨type, shorthand, name?, vars, dirs, sels, start⟩ w ⟨hs, hwf, hd⟩
  obtain ⟨rfl, ⟨rfl, rfl, rfl, rfl⟩, hw⟩ | ⟨rfl, hw⟩ := Operation.mem_spelling.1 hs
  · have hsels := hc .selectionSet ⟨hw, hwf.selections, (max_le_iff.1 (max_le_iff.1 hd).2).2⟩
    have hno : ¬ headIs isOperationKeyword w :=
      not_headIs_of_headIs (headIs_braceOpen hw) (by decide)
    exact located (no hno (map _ hsels) fun _ => rfl)
  · exact located (yes (headIs_isOperationKeyword hw) (spells_keywordOperation hc hw hwf hd))

theorem covers_fragment : Rule.Covers b Fragment.form fragment := by
  rintro f _ ⟨⟨_, ⟨_, ⟨_, ⟨k, hk, u, hu, rfl⟩, v, hv, rfl⟩, w, hw, rfl⟩, y, hy, rfl⟩,
    ⟨⟨hx, hon⟩, hcond, hdirs, hsels⟩, hd⟩
  obtain ⟨hd, hd'⟩ := max_le_iff.1 hd
  have hname : (Rule.nameExcept [.on]).Spells b f.name u :=
    nameExcept ⟨hu, ⟨hx, by rintro _ (_ | ⟨_, ⟨⟩⟩); exact hon⟩, Nat.zero_le _⟩
  exact located (seq (seq (seq (map Fragment.mk ((keyword hk).seqRight hname))
    (covers_typeCondition ⟨hv, hcond, Nat.zero_le _⟩)) (covers_directives hc ⟨hw, hdirs, hd⟩))
    (hc .selectionSet ⟨hy, hsels, hd'⟩))

end

end GraphQL
