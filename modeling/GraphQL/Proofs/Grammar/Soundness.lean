import GraphQL.Proofs.Grammar.Renders
import GraphQL.Proofs.Reading.Document
import GraphQL.Proofs.Reading.TypeDeclaration

/-!
# What the grammar derives is spelled

Each rule of the grammar derives well-formed trees only, from lexemes that spell them, and within
the nesting budget.  There is one lemma for each rule; for the nesting constructs they are put
together by induction on the budget (`renders_nest`), for a whole document along its definitions
(`spelled_of_derivesDocument`).
-/

namespace GraphQL

open Rule.Renders Language

section

variable {b : Nat} (hn : ∀ n : Nest, Rule.Renders b (n.form.Fits b) (.nest n))

/-! ### Values and types -/

theorem renders_variableUse : Rule.Renders b (Variable.form.Fits b) Rule.variableUse := by
  refine located (map ?_ (punct.seqRight name))
  rintro x w ⟨hs, hx, hd⟩ s
  exact ⟨hs, hx, hd⟩

theorem renders_namedType : Rule.Renders b (NamedType.form.Fits b) Rule.namedType := by
  refine located (map ?_ name)
  rintro x w ⟨hs, hx, hd⟩ s
  exact ⟨hs, hx, hd⟩

include hn

theorem renders_value : Rule.Renders b (Value.form.Fits b) Rule.value := hn .value

theorem renders_typeRef : Rule.Renders b (TypeRef.form.Fits b) Rule.typeRef := hn .typeRef

theorem renders_selectionSet : Rule.Renders b (selectionSetForm.Fits b) Rule.selectionSet :=
  hn .selectionSet

theorem renders_namedValue : Rule.Renders b (NamedValue.form.Fits b) Rule.namedValue := by
  refine located (seq (map ?_ (name.seqLeft punct)) (renders_value hn))
  rintro x u ⟨hu, hx, -⟩ v w ⟨hw, hv, hd⟩ s
  exact ⟨append_mem_mul hu hw, ⟨hx, hv⟩, hd⟩

theorem renders_directives : Rule.Renders b (Directive.form.each.Fits b) Rule.directives := by
  refine whileAt (located (seq (map ?_ (punct.seqRight name))
    (renders_namedValue hn).parenthesized))
  rintro x u ⟨hu, hx, -⟩ args w ⟨hw, hargs, hd⟩ s
  exact ⟨append_mem_mul hu hw, ⟨hx, hargs⟩, hd⟩

theorem renders_defaultValue : Rule.Renders b (defaultForm.Fits b) Rule.defaultValue :=
  (punct.seqRight (renders_value hn)).optional

omit hn in
theorem fits_ofToken {t : Token} (hg : t.lexeme.Genuine) (ht : isScalarKind t.kind = true) :
    Value.form.Fits (b + 1) (Value.ofToken t) [t.lexeme] := by
  obtain ⟨l, start⟩ := t
  have hname := hg.eq_ofName
  have hnumber := hg.number_text
  cases l with
  | punctuator p | unknownCharacter c | invalidString text cause => cases ht
  | int text => exact ⟨rfl, hnumber.1 rfl, Nat.le_add_left ..⟩
  | float text => exact ⟨rfl, hnumber.2 rfl, Nat.le_add_left ..⟩
  | string text value => exact ⟨⟨text, rfl, rfl⟩, trivial, Nat.le_add_left ..⟩
  | name text =>
    obtain ⟨hl, hv⟩ := hname rfl
    -- The text of a keyword would have been read as the keyword.
    have hne : ∀ k : Keyword, text ≠ k.text := by
      rintro k rfl
      rw [Lexeme.text, Lexeme.ofName_text] at hl
      cases hl
    exact ⟨congrArg (fun l => [l]) hl, ⟨hv, hne .boolTrue, hne .boolFalse, hne .null⟩,
      Nat.le_add_left ..⟩
  | keyword k =>
    obtain ⟨hl, hv⟩ := hname rfl
    have hne : ∀ j : Keyword, k ≠ j → k.text ≠ j.text :=
      fun j hj h => hj (Keyword.text_injective h)
    cases k with
    | boolTrue | boolFalse | null => exact ⟨rfl, trivial, Nat.le_add_left ..⟩
    | _ =>
      exact ⟨congrArg (fun l => [l]) hl,
        ⟨hv, hne .boolTrue (by decide), hne .boolFalse (by decide), hne .null (by decide)⟩,
        Nat.le_add_left ..⟩

theorem renders_valueBody : Rule.Renders b (Value.form.Fits (b + 1)) valueBody := by
  refine branch (map ?_ renders_variableUse) <|
    branch (located (map ?_ (renders_value hn).enclosed)) <|
    branch (located (map ?_ (renders_namedValue hn).enclosed)) <| map ?_ token
  · rintro v w ⟨hs, hv, -⟩
    exact ⟨hs, hv, Nat.le_add_left ..⟩
  · rintro vs w ⟨hs, hv, hd⟩ start
    refine ⟨?_, (Value.wellFormed_list vs start).2 hv,
      (Value.depth_list vs start).trans_le (Nat.succ_le_succ hd)⟩
    change w ∈ (Value.list vs start).spelling
    rw [Value.spelling_list]
    exact hs
  · rintro fs w ⟨hs, hv, hd⟩ start
    refine ⟨?_, (Value.wellFormed_object fs start).2 hv,
      (Value.depth_object fs start).trans_le (Nat.succ_le_succ hd)⟩
    change w ∈ (Value.object fs start).spelling
    rw [Value.spelling_object]
    exact hs
  · rintro t _ ⟨rfl, hg, ht⟩
    exact fits_ofToken hg ht

theorem renders_nullableType :
    Rule.Renders b (fun t w => TypeRef.form.Fits (b + 1) t w ∧ t.isNonNull = false)
      nullableType := by
  refine branch (located (map ?_ ((punct.seqRight (renders_typeRef hn)).seqLeft punct))) <|
    map ?_ token
  · rintro t w ⟨hs, ht, hd⟩ s
    exact ⟨⟨hs, ht, Nat.succ_le_succ hd⟩, rfl⟩
  · rintro t _ ⟨rfl, hg, ht⟩
    obtain ⟨hl, hv⟩ := hg.eq_ofName ht
    exact ⟨⟨congrArg (fun l => [l]) hl, hv, Nat.le_add_left ..⟩, rfl⟩

theorem renders_typeRefBody : Rule.Renders b (TypeRef.form.Fits (b + 1)) typeRefBody := by
  refine seq (map ?_ (renders_nullableType hn)) (present punct)
  rintro t u ⟨⟨hs, ht, hd⟩, hb⟩ (_ | _) v ⟨hv, -, -⟩
  · rw [show v = [] from hv, List.append_nil]
    exact ⟨hs, ht, hd⟩
  · exact ⟨append_mem_mul hs hv, ⟨ht, hb⟩, hd⟩

/-! ### Operations and fragments -/

omit hn in
theorem renders_typeCondition : Rule.Renders b (TypeCondition.form.Fits b) typeCondition := by
  refine located (map ?_ (keyword.seqRight renders_namedType))
  rintro t w ⟨hs, ht, hd⟩ s
  exact ⟨hs, ht, hd⟩

omit hn in
theorem renders_fieldName :
    Rule.Renders b (fun (x : Option String × String) w =>
      w ∈ aliasSpelling x.1 * Spellings.named x.2 ∧ (∀ a ∈ x.1, ValidName a) ∧ ValidName x.2)
      fieldName := by
  refine seq (map ?_ name) (punct.seqRight name).optional
  rintro x u ⟨hu, hx, -⟩ (_ | y) v ⟨hv, hy, -⟩
  · rw [show v = [] from hv, List.append_nil]
    exact ⟨mem_mul.2 ⟨[], rfl, u, hu, rfl⟩, (fun _ h => nomatch h), hx⟩
  · obtain ⟨c, hc, v, hv, rfl⟩ := hv
    rw [← List.append_assoc]
    exact ⟨append_mem_mul (append_mem_mul hu hc) hv, fun _ h => Option.mem_some_iff.1 h ▸ hx,
      hy y rfl⟩

theorem renders_field :
    Rule.Renders b (fun f w => Selection.form.Fits b (.field f) w) field := by
  refine located (seq (seq (seq (map ?_ renders_fieldName)
    (renders_namedValue hn).parenthesized) (renders_directives hn))
    (renders_selectionSet hn).optional)
  rintro ⟨alias?, x⟩ u ⟨hu, ha, hx⟩ args v ⟨hv, hargs, hd⟩ dirs w ⟨hw, hdirs, hd'⟩ sels? z
    ⟨hz, hsels, hd''⟩ s
  let f : Field Selection := ⟨alias?, x, args, dirs, sels?, s⟩
  refine ⟨?_, (Selection.wellFormed_field f).2 ⟨ha, hx, hargs, hdirs, hsels⟩,
    (Selection.depth_field f).trans_le (max_le hd (max_le hd' hd''))⟩
  change _ ∈ (Selection.field f).spelling
  rw [Selection.spelling_field]
  exact append_mem_mul (append_mem_mul (append_mem_mul hu hv) hw) hz

theorem renders_inlineFragment :
    Rule.Renders b (fun g w => ∀ s, Selection.form.Fits b (g s) (.punctuator .ellipsis :: w))
      inlineFragment := by
  refine seq (seq (map ?_ renders_typeCondition.optional) (renders_directives hn))
    (renders_selectionSet hn)
  rintro c? u ⟨hu, hc, -⟩ dirs v ⟨hv, hdirs, hd⟩ sels w ⟨hw, hsels, hd'⟩ s
  let i : InlineFragment Selection := ⟨c?, dirs, sels, s⟩
  refine ⟨?_, (Selection.wellFormed_inline i).2 ⟨hc, hdirs, hsels⟩,
    (Selection.depth_inline i).trans_le (max_le hd hd')⟩
  change _ ∈ (Selection.inline i).spelling
  rw [Selection.spelling_inline]
  have he : [Lexeme.punctuator .ellipsis] ∈ Spellings.punct .ellipsis := rfl
  exact append_mem_mul (append_mem_mul (append_mem_mul he hu) hv) hw

theorem renders_fragmentSpread :
    Rule.Renders b (fun g w => (∀ l ∈ w.head?, startsInline l.kind = false) →
      ∀ s, Selection.form.Fits b (g s) (.punctuator .ellipsis :: w)) fragmentSpread := by
  refine seq (map ?_ token) (renders_directives hn)
  rintro t _ ⟨rfl, hg, ht⟩ dirs v ⟨hv, hdirs, hd⟩ hon s
  obtain ⟨hl, hx⟩ := hg.eq_ofName ht
  -- The keyword `on` after an ellipsis would have started an inline fragment.
  have hne : t.lexeme.text ≠ Keyword.on.text := by
    intro h
    rw [h, Lexeme.ofName_text] at hl
    rw [hl] at hon
    exact Bool.noConfusion (hon _ rfl)
  refine ⟨?_, ⟨⟨hx, hne⟩, hdirs⟩, hd⟩
  have he : [Lexeme.punctuator .ellipsis] ∈ Spellings.punct .ellipsis := rfl
  have hf : [t.lexeme] ∈ Spellings.named t.lexeme.text := congrArg (fun l => [l]) hl
  exact append_mem_mul (append_mem_mul he hf) hv

theorem renders_selection : Rule.Renders b (Selection.form.Fits b) selection := by
  refine branch (located (seq (map ?_ punct)
    (branchElse (renders_inlineFragment hn) (renders_fragmentSpread hn)))) <|
    map (fun _ _ h => h) (renders_field hn)
  rintro _ _ rfl g w h s
  exact h s

theorem renders_selectionSetBody :
    Rule.Renders b (selectionSetForm.Fits (b + 1)) selectionSetBody := by
  intro next sels w hw h
  obtain ⟨hs, hp, hd⟩ := (renders_selection hn).enclosed hw h
  exact ⟨hs, hp, Nat.succ_le_succ hd⟩

omit hn in
theorem renders_operationType : Rule.Renders b (OperationType.form.Fits b) operationType := by
  refine map ?_ token
  rintro ⟨l, start⟩ _ ⟨rfl, -, ht⟩
  refine ⟨?_, trivial, Nat.zero_le _⟩
  cases l with
  | keyword k => cases k <;> first | rfl | cases ht
  | _ => cases ht

theorem renders_variableDefinition :
    Rule.Renders b (VariableDefinition.form.Fits b) variableDefinition := by
  refine located (seq (seq (seq (map ?_ (renders_variableUse.seqLeft punct))
    (renders_typeRef hn)) (renders_defaultValue hn)) (renders_directives hn))
  rintro v u ⟨hu, hv, -⟩ t w ⟨hw, ht, hd⟩ d? y ⟨hy, hdef, hd'⟩ dirs z ⟨hz, hdirs, hd''⟩ s
  exact ⟨append_mem_mul (append_mem_mul (append_mem_mul hu hw) hy) hz, ⟨hv, ht, hdef, hdirs⟩,
    max_le hd (max_le hd' hd'')⟩

theorem renders_keywordOperation :
    Rule.Renders b (fun g w => ∀ s, Operation.form.Fits b (g s) w) keywordOperation := by
  refine seq (seq (seq (seq (map ?_ renders_operationType) name.optional)
    (renders_variableDefinition hn).parenthesized) (renders_directives hn))
    (renders_selectionSet hn)
  rintro t u ⟨hu, -, -⟩ x? v ⟨hv, hx, -⟩ vs w ⟨hw, hvs, hd⟩ dirs y ⟨hy, hdirs, hd'⟩ sels z
    ⟨hz, hsels, hd''⟩ s
  have hs : u ++ v ++ w ++ y ++ z ∈
      Operation.keywordSpelling ⟨t, false, x?, vs, dirs, sels, s⟩ :=
    append_mem_mul (append_mem_mul (append_mem_mul (append_mem_mul hu hv) hw) hy) hz
  exact ⟨Operation.mem_spelling.2 (.inr ⟨rfl, hs⟩), ⟨nofun, hx, hvs, hdirs, hsels⟩,
    max_le hd (max_le hd' hd'')⟩

theorem renders_shorthandOperation :
    Rule.Renders b (fun g w => ∀ s, Operation.form.Fits b (g s) w) shorthandOperation := by
  refine map ?_ (renders_selectionSet hn)
  rintro sels w ⟨hw, hsels, hd⟩ s
  have hplain : Operation.IsPlainQuery ⟨.query, true, none, [], [], sels, s⟩ :=
    ⟨rfl, rfl, rfl, rfl⟩
  exact ⟨Operation.mem_spelling.2 (.inl ⟨rfl, hplain, hw⟩),
    ⟨fun _ => hplain, nofun, nofun, nofun, hsels⟩,
    max_le (Nat.zero_le _) (max_le (Nat.zero_le _) hd)⟩

theorem renders_operation : Rule.Renders b (Operation.form.Fits b) operation :=
  located (branch (renders_keywordOperation hn) (renders_shorthandOperation hn))

theorem renders_fragment : Rule.Renders b (Fragment.form.Fits b) fragment := by
  refine located (seq (seq (seq (map ?_ (keyword.seqRight nameExcept))
    renders_typeCondition) (renders_directives hn)) (renders_selectionSet hn))
  rintro x u ⟨hu, ⟨hx, hon⟩, -⟩ c v ⟨hv, hc, -⟩ dirs w ⟨hw, hdirs, hd⟩ sels z ⟨hz, hsels, hd'⟩ s
  exact ⟨append_mem_mul (append_mem_mul (append_mem_mul hu hv) hw) hz,
    ⟨⟨hx, hon .on (by simp)⟩, hc, hdirs, hsels⟩, max_le hd hd'⟩

/-! ### The type system -/

omit hn in
theorem renders_description : Rule.Renders b (descriptionForm.Fits b) description := by
  refine branch (map (R := fun x w => w ∈ Spellings.literal x) ?_ (map ?_ token)) (done ?_)
  · exact fun x w h => ⟨h, trivial, Nat.zero_le _⟩
  · rintro ⟨l, start⟩ _ ⟨rfl, -, ht⟩
    cases l <;> first | exact ⟨_, rfl⟩ | cases ht
  · exact ⟨rfl, trivial, Nat.zero_le _⟩

theorem renders_inputValueDefinition :
    Rule.Renders b (InputValueDefinition.form.Fits b) inputValueDefinition := by
  refine located (seq (seq (seq (seq (map ?_ renders_description) (name.seqLeft punct))
    (renders_typeRef hn)) (renders_defaultValue hn)) (renders_directives hn))
  rintro d? u ⟨hu, -, -⟩ x v ⟨hv, hx, -⟩ t w ⟨hw, ht, hd⟩ v? y ⟨hy, hdef, hd'⟩ dirs z
    ⟨hz, hdirs, hd''⟩ s
  refine ⟨?_, ⟨hx, ht, hdef, hdirs⟩, max_le hd (max_le hd' hd'')⟩
  have h := append_mem_mul (append_mem_mul (append_mem_mul (append_mem_mul hu hv) hw) hy) hz
  rwa [← mul_assoc] at h

theorem renders_fieldDefinition :
    Rule.Renders b (FieldDefinition.form.Fits b) fieldDefinition := by
  refine located (seq (seq (seq (seq (map ?_ renders_description) name)
    (renders_inputValueDefinition hn).parenthesized) (punct.seqRight (renders_typeRef hn)))
    (renders_directives hn))
  rintro d? u ⟨hu, -, -⟩ x v ⟨hv, hx, -⟩ args w ⟨hw, hargs, hd⟩ t y ⟨hy, ht, hd'⟩ dirs z
    ⟨hz, hdirs, hd''⟩ s
  refine ⟨?_, ⟨hx, hargs, ht, hdirs⟩, max_le hd (max_le hd' hd'')⟩
  have h := append_mem_mul (append_mem_mul (append_mem_mul (append_mem_mul hu hv) hw) hy) hz
  rwa [← mul_assoc] at h

omit hn in
theorem renders_enumValue : Rule.Renders b (EnumValue.form.Fits b) enumValue := by
  refine located (map ?_ nameExcept)
  rintro x w ⟨hs, ⟨hx, hne⟩, hd⟩ s
  exact ⟨hs, ⟨hx, hne .boolTrue (by simp), hne .boolFalse (by simp), hne .null (by simp)⟩, hd⟩

theorem renders_enumValueDefinition :
    Rule.Renders b (EnumValueDefinition.form.Fits b) enumValueDefinition := by
  refine located (seq (seq (map ?_ renders_description) renders_enumValue)
    (renders_directives hn))
  rintro d? u ⟨hu, -, -⟩ e v ⟨hv, he, -⟩ dirs w ⟨hw, hdirs, hd⟩ s
  exact ⟨append_mem_mul (append_mem_mul hu hv) hw, ⟨he, hdirs⟩, hd⟩

omit hn in
theorem renders_furtherInterface :
    Rule.Renders b (fun t w => (∀ l ∈ w.head?, continuesInterfaces l.kind = true) →
      { NamedType.form with spelling := furtherInterface }.Fits b t w)
      (Rule.present (.punctuator .ampersand) *> Rule.namedType) := by
  refine seq (map ?_ (present punct)) renders_namedType
  rintro (_ | _) u ⟨hu, -, -⟩ t v ⟨hv, ht, hd⟩ hhead
  · rw [show u = [] from hu, List.nil_append] at hhead ⊢
    refine ⟨mem_mul.2 ⟨[], .inr ?_, v, hv, rfl⟩, ht, hd⟩
    cases hk : Keyword.ofName? t.name with
    | none => rfl
    | some k =>
      rw [show v = [Lexeme.ofName t.name] from hv, Lexeme.ofName, hk] at hhead
      exact Bool.noConfusion (hhead _ rfl)
  · exact ⟨append_mem_mul (.inl hu) hv, ht, hd⟩

omit hn in
theorem renders_interfaces : Rule.Renders b (interfacesForm.Fits b) interfaces := by
  refine map ?_ (optional (F := interfacesForm) (after (keyword.both (skipped punct))
    (seq (map ?_ renders_namedType) (whileAtStart renders_furtherInterface))))
  · rintro (_ | ts) w ⟨hs, ht, hd⟩
    · exact ⟨hs, (fun _ h => nomatch h), Nat.zero_le _⟩
    · exact ⟨hs, ht ts rfl, hd⟩
  · rintro t u ⟨hu, ht, -⟩ ts v ⟨hv, hts, -⟩ w hw
    refine ⟨?_, List.forall_mem_cons.2 ⟨ht, hts⟩, deepest_le.2 fun _ _ => Nat.zero_le _⟩
    rw [← List.append_assoc]
    exact append_mem_mul (append_mem_mul hw hu) hv

omit hn in
/-- Alternatives after lexemes that come before them. -/
theorem renders_alternatives {α : Type} {F : Form α} {item : Rule α}
    (h : Rule.Renders b (F.Fits b) item) :
    Rule.Renders b (fun as w => as ≠ [] ∧ F.alternatives.Fits b as w) (alternatives item) := by
  refine after (skipped punct) (seq (map ?_ h) (whileAt (punct.seqRight h)))
  rintro a u ⟨hu, ha, hd⟩ as v ⟨hv, has, hd'⟩ w hw
  refine ⟨List.cons_ne_nil _ _, ?_, List.forall_mem_cons.2 ⟨ha, has⟩, max_le hd hd'⟩
  rw [← List.append_assoc]
  exact append_mem_mul (append_mem_mul hw hu) hv

omit hn in
theorem renders_unionMembers : Rule.Renders b (membersForm.Fits b) unionMembers := by
  refine map ?_ (optional (F := membersForm) (seq (map ?_ punct)
    (renders_alternatives renders_namedType)))
  · rintro (_ | ts) w ⟨hs, ht, hd⟩
    · exact ⟨hs, (fun _ h => nomatch h), Nat.zero_le _⟩
    · exact ⟨hs, ht ts rfl, hd⟩
  · rintro _ u hu (_ | ⟨t, ts⟩) v ⟨hne, hv, ht, hd⟩
    · exact absurd rfl hne
    · exact ⟨append_mem_mul hu hv, ht, hd⟩

/-- An object or an interface, from the keyword `k` on. -/
theorem renders_objectDeclaration {k : Keyword}
    {body : List NamedType → Option (List FieldDefinition) → TypeBody}
    (hs : ∀ x dirs ts fs?, TypeDeclaration.spelling ⟨x, dirs, body ts fs?⟩ =
      Spellings.keyword k * Spellings.named x * interfacesSpelling ts *
        Spellings.each Directive.spelling dirs *
        Spellings.part (Spellings.braced FieldDefinition.spelling) fs?)
    (hwf : ∀ ts fs?, (body ts fs?).WellFormed ↔
      (∀ t ∈ ts, ValidName t.name) ∧ ∀ fs ∈ fs?, ∀ f ∈ fs, f.WellFormed)
    (hd : ∀ ts fs?, (body ts fs?).depth = depthOf (deepest FieldDefinition.depth) fs?) :
    Rule.Renders b (TypeDeclaration.form.Fits b)
      (Rule.keyword k *> objectDeclaration body) := by
  refine after keyword (seq (seq (seq (map ?_ name) renders_interfaces) (renders_directives hn))
    (renders_fieldDefinition hn).enclosed.optional)
  rintro x u ⟨hu, hx, -⟩ ts v ⟨hv, ht, -⟩ dirs w ⟨hw, hdirs, hd'⟩ fs? y ⟨hy, hf, hd''⟩ z hz
  refine ⟨?_, ⟨hx, hdirs, (hwf ts fs?).2 ⟨ht, hf⟩⟩, max_le hd' ((hd ts fs?).trans_le hd'')⟩
  have h := append_mem_mul (append_mem_mul (append_mem_mul (append_mem_mul hz hu) hv) hw) hy
  simp only [← List.append_assoc]
  change _ ∈ TypeDeclaration.spelling _
  rw [hs]
  exact h

theorem renders_typeDeclaration {expected : List TokenKind} :
    Rule.Renders b (TypeDeclaration.form.Fits b) (typeDeclaration expected) := by
  refine branch ?_ <| branch ?_ <| branch ?_ <| branch ?_ <| branch ?_ <| branch ?_ stuck
  · refine after keyword (seq (map ?_ name) (renders_directives hn))
    rintro x u ⟨hu, hx, -⟩ dirs v ⟨hv, hdirs, hd⟩ z hz
    rw [← List.append_assoc]
    exact ⟨append_mem_mul (append_mem_mul hz hu) hv, ⟨hx, hdirs, trivial⟩,
      max_le hd (Nat.zero_le _)⟩
  · exact renders_objectDeclaration hn (fun _ _ _ _ => rfl) (fun _ _ => Iff.rfl) fun _ _ => rfl
  · exact renders_objectDeclaration hn (fun _ _ _ _ => rfl) (fun _ _ => Iff.rfl) fun _ _ => rfl
  · refine after keyword (seq (seq (map ?_ name) (renders_directives hn)) renders_unionMembers)
    rintro x u ⟨hu, hx, -⟩ dirs v ⟨hv, hdirs, hd⟩ ts w ⟨hw, ht, -⟩ z hz
    simp only [← List.append_assoc]
    exact ⟨append_mem_mul (append_mem_mul (append_mem_mul hz hu) hv) hw, ⟨hx, hdirs, ht⟩,
      max_le hd (Nat.zero_le _)⟩
  · refine after keyword (seq (seq (map ?_ name) (renders_directives hn))
      (renders_enumValueDefinition hn).enclosed.optional)
    rintro x u ⟨hu, hx, -⟩ dirs v ⟨hv, hdirs, hd⟩ vs? w ⟨hw, hvs, hd'⟩ z hz
    simp only [← List.append_assoc]
    exact ⟨append_mem_mul (append_mem_mul (append_mem_mul hz hu) hv) hw, ⟨hx, hdirs, hvs⟩,
      max_le hd hd'⟩
  · refine after keyword (seq (seq (map ?_ name) (renders_directives hn))
      (renders_inputValueDefinition hn).enclosed.optional)
    rintro x u ⟨hu, hx, -⟩ dirs v ⟨hv, hdirs, hd⟩ fs? w ⟨hw, hf, hd'⟩ z hz
    simp only [← List.append_assoc]
    exact ⟨append_mem_mul (append_mem_mul (append_mem_mul hz hu) hv) hw, ⟨hx, hdirs, hf⟩,
      max_le hd hd'⟩

omit hn in
theorem renders_rootOperationType :
    Rule.Renders b (RootOperationType.form.Fits b) rootOperationType := by
  refine located (seq (map ?_ (renders_operationType.seqLeft punct)) renders_namedType)
  rintro t u ⟨hu, -, -⟩ n v ⟨hv, hx, hd⟩ s
  exact ⟨append_mem_mul hu hv, hx, hd⟩

omit hn in
theorem renders_place :
    Rule.Renders b (DirectiveLocation.form.Fits b) (.place DirectiveLocation.ofToken?) := by
  rintro next p w - ⟨⟨l, offset⟩, rfl, ht, hp⟩
  obtain ⟨hwf, hx, -⟩ := DirectiveLocation.ofToken?_eq_some.1 hp
  refine ⟨?_, hwf, Nat.zero_le _⟩
  cases l with
  | name x => exact congrArg (fun x => [Lexeme.name x]) hx.symm
  | _ => cases ht

theorem renders_directiveDefinition :
    Rule.Renders b (fun f w => ∀ d?, ∀ u ∈ descriptionSpelling d?, ∀ s,
      Definition.form.Fits b (.directive (f d? s)) (u ++ w))
      (Rule.keyword .directive *> directiveDefinition) := by
  refine after keyword (seq (seq (seq (map ?_ (punct.seqRight name))
    (renders_inputValueDefinition hn).parenthesized) ((present keyword).seqLeft keyword))
    (renders_alternatives renders_place))
  rintro x u ⟨hu, hx, -⟩ args v ⟨hv, hargs, hd⟩ rep w ⟨hw, -, -⟩ ls y ⟨hne, hy, hls, -⟩ k hk d? z
    hz s
  refine ⟨?_, ⟨hx, hargs, hne, hls⟩, hd⟩
  have h := append_mem_mul (append_mem_mul (append_mem_mul (append_mem_mul
    (append_mem_mul hz hk) hu) hv) hw) hy
  simp only [← List.append_assoc]
  change _ ∈ DirectiveDefinition.spelling _
  rw [DirectiveDefinition.spelling, mul_assoc (_ * _) (Spellings.punct _),
    mul_assoc (_ * _) (ite ..)]
  exact h

theorem renders_describedDefinition :
    Rule.Renders b (fun g w => ∀ d?, ∀ u ∈ descriptionSpelling d?, ∀ s,
      Definition.form.Fits b (g d? s) (u ++ w)) describedDefinition := by
  refine branch (seq (map ?_ (keyword.seqRight (renders_directives hn)))
    renders_rootOperationType.enclosed) <|
    branch (map (fun _ _ h => h) (renders_directiveDefinition hn)) <|
    map ?_ (typeDefinition_eq ▸ renders_typeDeclaration hn)
  · rintro dirs u ⟨hu, hdirs, hd⟩ roots v ⟨hv, hroots, -⟩ d? z hz s
    refine ⟨?_, ⟨hdirs, hroots⟩, hd⟩
    have h := append_mem_mul (append_mem_mul hz hu) hv
    rw [← mul_assoc, List.append_assoc] at h
    exact h
  · rintro t w ⟨hw, ht, hd⟩ d? z hz s
    exact ⟨append_mem_mul hz hw, ht, hd⟩

theorem renders_typeSystemDefinition :
    Rule.Renders b (Definition.form.Fits b) typeSystemDefinition := by
  refine located (seq (map ?_ renders_description) (renders_describedDefinition hn))
  rintro d? u ⟨hu, -, -⟩ g w h s
  exact h d? u hu s

theorem renders_typeSystemExtension :
    Rule.Renders b (Definition.form.Fits b) typeSystemExtension := by
  refine located (after keyword (branch (seq (map ?_ (keyword.seqRight (renders_directives hn)))
    renders_rootOperationType.enclosed.optional)
    (map ?_ (typeExtension_eq ▸ renders_typeDeclaration hn))))
  · rintro dirs u ⟨hu, hdirs, hd⟩ roots? v ⟨hv, hroots, -⟩ z hz s
    have h : v ∈ (if roots?.getD [] = [] then 1 else 0) +
        Spellings.braced RootOperationType.spelling (roots?.getD []) := by
      cases roots? with
      | none => exact .inl hv
      | some roots => exact .inr hv
    refine ⟨?_, ⟨hdirs, ?_⟩, hd⟩
    · have h' := append_mem_mul (append_mem_mul hz hu) h
      rw [← mul_assoc, List.append_assoc] at h'
      exact h'
    · cases roots? with
      | none => exact fun _ h => nomatch h
      | some roots => exact hroots roots rfl
  · rintro t w ⟨hw, ht, hd⟩ z hz s
    exact ⟨append_mem_mul hz hw, ht, hd⟩

theorem renders_definition : Rule.Renders b (Definition.form.Fits b) definition :=
  branch (map (fun _ _ h => ⟨h.1, h.2, h.3⟩) (renders_fragment hn)) <|
    branch (map (fun _ _ h => ⟨h.1, h.2, h.3⟩) (renders_operation hn)) <|
    branch (renders_typeSystemExtension hn) <| branch (renders_typeSystemDefinition hn) stuck

end

/-! ### Documents -/

/-- The nesting constructs derive only what fits, by induction on the nesting budget. -/
theorem renders_nest (b : Nat) (n : Nest) : Rule.Renders b (n.form.Fits b) (.nest n) := by
  induction b generalizing n with
  | zero => exact fun _ _ _ _ h => h.elim
  | succ b ih =>
    intro next a w hw h
    cases n with
    | selectionSet => exact renders_selectionSetBody ih hw h
    | value => exact renders_valueBody ih hw h
    | typeRef => exact renders_typeRefBody ih hw h

/-- The definitions of a document are spelled one after the other. -/
theorem fits_of_derivesDocument {b : Nat} {ds : List Definition} {ts : List Token}
    (hts : ∀ t ∈ ts, t.lexeme.Genuine) (h : DerivesDocument b ds ts) :
    Definition.form.each.Fits b ds (ts.map Token.lexeme) := by
  induction ds generalizing ts with
  | nil =>
    obtain rfl := h
    exact ⟨rfl, (fun _ h => nomatch h), Nat.zero_le _⟩
  | cons d ds ih =>
    obtain ⟨u, v, rfl, hu, hv⟩ := h
    rw [List.forall_mem_append] at hts
    obtain ⟨hs, hd, hdepth⟩ := renders_definition (renders_nest b) hts.1 hu
    obtain ⟨hs', hds, hdepth'⟩ := ih hts.2 hv
    rw [List.map_append]
    exact ⟨append_mem_mul hs hs', List.forall_mem_cons.2 ⟨hd, hds⟩, max_le hdepth hdepth'⟩

end GraphQL
