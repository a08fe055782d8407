import GraphQL.Proofs.Grammar.Placement
import GraphQL.Proofs.Reading.Document
import GraphQL.Proofs.Reading.TypeDeclaration

/-!
# What the grammar derives is laid out

Each rule of the grammar keeps the offset of the first token of a node, the children of the node
come in the order in which their tokens do, and the tokens of a type spell it.  So every layout
relates the nodes to their tokens.  There is one lemma for each rule; for the nesting constructs
they are put together by induction on the budget (`placed_nest`), for a whole document along its
definitions (`Layout.of_derivesDocument`).
-/

namespace GraphQL

open Rule.Yields Layout

/-- How the trees of a nesting construct are laid out: a value is a node, a selection set is a list
of nodes, and a type is spelled by its tokens. -/
def Nest.Placed (L : List Node → List Token → Prop) : (n : Nest) → n.Tree → List Token → Prop
  | .selectionSet => fun sels w => L (sels.map Node.selection) w
  | .value => fun v w => L [.value v] w
  | .typeRef => fun t w => t.SpelledBy w

section

variable {L : List Node → List Token → Prop} [Layout L] {b : Nat}
  (hn : ∀ n : Nest, Rule.Yields b (n.Placed L) (.nest n))

/-! ### Values and types -/

variable (L) in
theorem places_variableUse : Rule.Places L b (fun v => [.value (.var v)]) Rule.variableUse :=
  located rfl (fun _ => rfl) (map (fun _ _ hw _ => .told rfl rfl hw nil) (leads punct))

omit [Layout L] in
theorem spelledBy_namedType :
    Rule.Yields b (fun t w => (TypeRef.named t).SpelledBy w) Rule.namedType := by
  refine atFirst rfl (map ?_ nameToken)
  rintro _ _ ⟨t, rfl, hname, rfl⟩ _ ⟨⟩
  exact .named hname

variable (L) in
theorem places_namedType : Rule.Places L b (fun t => [.typeRef (.named t)]) Rule.namedType :=
  fun _ _ _ h => type (spelledBy_namedType h)

include hn

omit [Layout L] in
theorem places_value : Rule.Places L b (fun v => [.value v]) Rule.value := hn .value

theorem places_typeRef : Rule.Places L b (fun t => [.typeRef t]) Rule.typeRef :=
  fun _ _ _ h => type (hn .typeRef h)

omit [Layout L] in
theorem places_selectionSet : Rule.Places L b (List.map Node.selection) Rule.selectionSet :=
  hn .selectionSet

/-- An argument or a field of an object value. -/
theorem places_namedValue (node : NamedValue Value → Node) (hnode : ∀ v, (node v).isType = false)
    (hstart : ∀ v, (node v).start = v.start) (htext : ∀ v, (node v).leadingText? = none)
    (hchildren : ∀ v, (node v).children = [.value v.value]) :
    Rule.Places L b (fun v => [node v]) Rule.namedValue := by
  refine locatedSilent rfl hnode (seq (map ?_ any) (places_value hn))
  rintro x u - v w hw s
  exact ⟨hstart _, htext _, by rw [hchildren]; exact prepend u hw⟩

theorem places_arguments : Rule.Places L b (List.map Node.argument) Rule.arguments :=
  parenthesized (places_namedValue hn _ (fun _ => rfl) (fun _ => rfl) (fun _ => rfl) fun _ => rfl)

theorem places_directives : Rule.Places L b (List.map Node.directive) Rule.directives := by
  refine whileAt (located rfl (fun _ => rfl) (seq (map ?_ (leads punct)) (places_arguments hn)))
  rintro x u hu args v hv s
  exact .told rfl rfl (hu.extend v) (prepend u hv)

theorem places_defaultValue :
    Rule.Places L b (fun v? => v?.toList.map Node.value) Rule.defaultValue :=
  optional _ (fun _ => rfl) rfl (seqRight (places_value hn))

omit hn in
/-- A value that is a single token starts with the text of the token. -/
theorem layout_ofToken {t : Token} (ht : isScalarKind t.kind = true) :
    L [.value (.ofToken t)] [t] := by
  obtain ⟨l, start⟩ := t
  suffices h : (Node.value (.ofToken ⟨l, start⟩)).StandsAt ⟨l, start⟩ ∧
      (Node.value (.ofToken ⟨l, start⟩)).children = [] from
    node rfl h.1 (by rw [h.2]; exact nil)
  cases l with
  | punctuator p | unknownCharacter c | invalidString text cause => cases ht
  | string text value =>
    refine ⟨⟨rfl, ?_⟩, rfl⟩
    rintro _ ⟨⟩ hg
    obtain ⟨cs, hcs⟩ := List.head?_eq_some_iff.1 (hg.string_text rfl)
    exact ⟨cs, hcs.symm⟩
  | keyword k => cases k <;> exact ⟨⟨rfl, by rintro _ ⟨⟩ -; exact List.prefix_rfl⟩, rfl⟩
  | _ => exact ⟨⟨rfl, by rintro _ ⟨⟩ -; exact List.prefix_rfl⟩, rfl⟩

theorem places_valueBody : Rule.Places L b (fun v => [.value v]) valueBody := by
  refine branch (map (fun _ _ h => h) (places_variableUse L)) <|
    branch (locatedSilent rfl (fun _ => rfl) (map ?_ (enclosed (places_value hn)))) <|
    branch (locatedSilent rfl (fun _ => rfl) (map ?_ (enclosed
      (places_namedValue hn .objectField (fun _ => rfl) (fun _ => rfl) (fun _ => rfl)
        fun _ => rfl)))) <|
    map ?_ token
  · exact fun vs w hw s => ⟨rfl, rfl, hw⟩
  · exact fun fs w hw s => ⟨rfl, rfl, hw⟩
  · rintro t _ ⟨rfl, ht⟩
    exact layout_ofToken ht

omit [Layout L] in
theorem spelledBy_nullableType : Rule.Yields b TypeRef.SpelledBy nullableType := by
  refine branch (atFirst rfl (map ?_ (between (hn .typeRef)))) (map ?_ token)
  · rintro item _ ⟨o, u, c, rfl, ho, hu, hc⟩ _ ⟨⟩
    exact .list ho hu hc
  · rintro t _ ⟨rfl, hname⟩
    exact .named hname

omit [Layout L] in
theorem spelledBy_typeRefBody : Rule.Yields b TypeRef.SpelledBy typeRefBody := by
  refine seq (map ?_ (spelledBy_nullableType hn)) present
  rintro t u ht _ _ (⟨rfl, bang, rfl, hbang⟩ | ⟨rfl, rfl⟩)
  · exact .nonNull ht hbang
  · rwa [List.append_nil]

/-! ### Operations and fragments -/

omit hn in
variable (L) in
theorem places_typeCondition :
    Rule.Places L b (fun c => [.typeCondition c]) typeCondition :=
  locatedSilent rfl (fun _ => rfl) (map (fun _ _ hw _ => ⟨rfl, rfl, hw⟩)
    (seqRight (places_namedType L)))

omit hn [Layout L] in
theorem leads_fieldName : Rule.Yields b (fun x w => Leads (x.1.getD x.2) w) fieldName := by
  refine seq (map ?_ name) any
  rintro x u hu (_ | y) v -
  · exact hu.extend v
  · exact hu.extend v

theorem places_field : Rule.Places L b (fun f => [.selection (.field f)]) field := by
  refine located rfl (fun _ => rfl) (seq (seq (seq (map ?_ leads_fieldName) (places_arguments hn))
    (places_directives hn))
    (optional (fun sels? => (sels?.getD []).map Node.selection) (fun _ => rfl) rfl
      (places_selectionSet hn)))
  rintro ⟨alias?, x⟩ t ht args u hu dirs v hv sels? w hw s
  have hleads := ((ht.extend u).extend v).extend w
  exact .told rfl rfl hleads (append (append (prepend t hu) hv) hw)

theorem silent_inlineFragment :
    Rule.Yields b (fun g w => ∀ s, (Node.selection (g s)).Silent L s w) inlineFragment := by
  refine seq (seq (map ?_ (optional (fun c? => c?.toList.map Node.typeCondition)
    (fun _ => rfl) rfl (places_typeCondition L))) (places_directives hn)) (places_selectionSet hn)
  rintro c? u hu dirs v hv sels w hw s
  exact ⟨rfl, rfl, append (append hu hv) hw⟩

theorem silent_fragmentSpread :
    Rule.Yields b (fun g w => ∀ s, (Node.selection (g s)).Silent L s w) fragmentSpread := by
  refine seq (map ?_ any) (places_directives hn)
  rintro t u - dirs v hv s
  exact ⟨rfl, rfl, prepend u hv⟩

theorem places_selection : Rule.Places L b (fun s => [.selection s]) selection :=
  branch (locatedSilent rfl (fun _ => rfl) (after (fun _ u _ h s => (h s).prepend u)
    (branch (silent_inlineFragment hn) (silent_fragmentSpread hn)))) <|
    map (fun _ _ h => h) (places_field hn)

theorem places_selectionSetBody : Rule.Places L b (List.map Node.selection) selectionSetBody :=
  enclosed (places_selection hn)

theorem places_variableDefinition :
    Rule.Places L b (fun v => [.variableDefinition v]) variableDefinition := by
  refine locatedSilent rfl (fun _ => rfl) (seq (seq (seq (map ?_ (seqLeft (places_variableUse L)))
    (places_typeRef hn)) (places_defaultValue hn)) (places_directives hn))
  rintro x t ht type u hu v? v hv dirs w hw s
  exact ⟨rfl, rfl, append (append (append ht hu) hv) hw⟩

theorem silent_keywordOperation :
    Rule.Yields b (fun g w => ∀ s, (Node.definition (.operation (g s))).Silent L s w)
      keywordOperation := by
  refine seq (seq (seq (seq (map ?_ any) any) (parenthesized (places_variableDefinition hn)))
    (places_directives hn)) (places_selectionSet hn)
  rintro type u - x? v - vs w hw dirs y hy sels z hz s
  exact ⟨rfl, rfl, append (append (prepend (u ++ v) hw) hy) hz⟩

omit [Layout L] in
theorem silent_shorthandOperation :
    Rule.Yields b (fun g w => ∀ s, (Node.definition (.operation (g s))).Silent L s w)
      shorthandOperation :=
  map (fun _ _ hw _ => ⟨rfl, rfl, hw⟩) (places_selectionSet hn)

theorem places_operation :
    Rule.Places L b (fun o => [.definition (.operation o)]) operation :=
  locatedSilent rfl (fun _ => rfl)
    (branch (silent_keywordOperation hn) (silent_shorthandOperation hn))

theorem places_fragment :
    Rule.Places L b (fun f => [.definition (.fragment f)]) fragment := by
  refine locatedSilent rfl (fun _ => rfl) (seq (seq (seq (map ?_ any) (places_typeCondition L))
    (places_directives hn)) (places_selectionSet hn))
  rintro x u - c v hv dirs w hw sels z hz s
  exact ⟨rfl, rfl, append (append (prepend u hv) hw) hz⟩

/-! ### The type system -/

theorem places_inputValueDefinition :
    Rule.Places L b (fun i => [.inputValueDefinition i]) inputValueDefinition := by
  refine locatedSilent rfl (fun _ => rfl) (seq (seq (seq (seq (map ?_ any) any)
    (places_typeRef hn)) (places_defaultValue hn)) (places_directives hn))
  rintro d? u - x v - type w hw v? y hy dirs z hz s
  exact ⟨rfl, rfl, append (append (prepend (u ++ v) hw) hy) hz⟩

theorem places_fieldDefinition :
    Rule.Places L b (fun f => [.fieldDefinition f]) fieldDefinition := by
  refine locatedSilent rfl (fun _ => rfl) (seq (seq (seq (seq (map ?_ any) any)
    (parenthesized (places_inputValueDefinition hn))) (seqRight (places_typeRef hn)))
    (places_directives hn))
  rintro d? u - x v - args w hw type y hy dirs z hz s
  have h := append (append (prepend (u ++ v) hw) hy) hz
  rw [List.append_assoc] at h
  exact ⟨rfl, rfl, h⟩

omit hn in
variable (L) in
theorem places_enumValue : Rule.Places L b (fun e => [.value (.enum e)]) enumValue :=
  located rfl (fun _ => rfl) (map (fun _ _ hw _ => .told rfl rfl hw nil) nameExcept)

theorem places_enumValueDefinition :
    Rule.Places L b (fun e => [.enumValueDefinition e]) enumValueDefinition := by
  refine locatedSilent rfl (fun _ => rfl) (seq (seq (map ?_ any) (places_enumValue L))
    (places_directives hn))
  rintro d? u - e v hv dirs w hw s
  exact ⟨rfl, rfl, append (prepend u hv) hw⟩

omit hn in
variable (L) in
theorem places_interfaces : Rule.Places L b (List.map (Node.typeRef ∘ .named)) interfaces := by
  refine map (fun _ _ h => h) (optional (fun ts? => (ts?.getD []).map _)
    (fun _ => rfl) rfl (seqRight (seq (map ?_ (places_namedType L))
      (whileAt (seqRight (places_namedType L))))))
  rintro t u hu ts v hv
  exact append hu hv

omit hn in
theorem places_alternatives {α : Type} {node : α → Node} {item : Rule α}
    (h : Rule.Places L b (fun a => [node a]) item) :
    Rule.Places L b (List.map node) (alternatives item) := by
  refine seqRight (seq (map ?_ h) (whileAt (seqRight h)))
  rintro a u hu as v hv
  exact append hu hv

omit hn in
variable (L) in
theorem places_unionMembers : Rule.Places L b (List.map (Node.typeRef ∘ .named)) unionMembers :=
  map (fun _ _ h => h) (optional (fun ts? => (ts?.getD []).map _) (fun _ => rfl) rfl
    (seqRight (places_alternatives (places_namedType L))))

theorem places_objectDeclaration {body : List NamedType → Option (List FieldDefinition) → TypeBody}
    (hbody : ∀ x dirs ts fs?, TypeDeclaration.children ⟨x, dirs, body ts fs?⟩ =
      ts.map (Node.typeRef ∘ .named) ++ dirs.map Node.directive ++
        (fs?.getD []).map Node.fieldDefinition) :
    Rule.Places L b TypeDeclaration.children (objectDeclaration body) := by
  refine seq (seq (seq (map ?_ any) (places_interfaces L)) (places_directives hn))
    (enclosed? (places_fieldDefinition hn))
  rintro x u - ts v hv dirs w hw fs? z hz
  rw [hbody]
  exact append (append (prepend u hv) hw) hz

theorem places_typeDeclaration {expected : List TokenKind} :
    Rule.Places L b TypeDeclaration.children (typeDeclaration expected) := by
  refine branch (seqRight (seq (map ?_ any) (places_directives hn))) <|
    branch (seqRight (places_objectDeclaration hn fun _ _ _ _ => rfl)) <|
    branch (seqRight (places_objectDeclaration hn fun _ _ _ _ => rfl)) <|
    branch (seqRight (seq (seq (map ?_ any) (places_directives hn)) (places_unionMembers L))) <|
    branch (seqRight (seq (seq (map ?_ any) (places_directives hn))
      (enclosed? (places_enumValueDefinition hn)))) <|
    branch (seqRight (seq (seq (map ?_ any) (places_directives hn))
      (enclosed? (places_inputValueDefinition hn)))) stuck
  · exact fun x u _ dirs v hv => prepend u hv
  · exact fun x u _ dirs v hv ts w hw => append (prepend u hv) hw
  · exact fun x u _ dirs v hv vs? w hw => append (prepend u hv) hw
  · exact fun x u _ dirs v hv fs? w hw => append (prepend u hv) hw

omit hn in
variable (L) in
theorem places_rootOperationType :
    Rule.Places L b (fun r => [.rootOperationType r]) rootOperationType := by
  refine locatedSilent rfl (fun _ => rfl) (seq (map ?_ any) (places_namedType L))
  rintro o u - t v hv s
  exact ⟨rfl, rfl, prepend u hv⟩

omit hn in
variable (L) in
theorem places_place :
    Rule.Places L b (fun l => [.directiveLocation l]) (.place DirectiveLocation.ofToken?) := by
  rintro next l w ⟨t, rfl, -, hl⟩
  obtain ⟨-, htext, hstart⟩ := DirectiveLocation.ofToken?_eq_some.1 hl
  refine node rfl ⟨hstart, ?_⟩ nil
  rintro _ ⟨⟩ -
  rw [htext]

theorem silent_directiveDefinition :
    Rule.Yields b (fun f w => ∀ d? s, (Node.definition (.directive (f d? s))).Silent L s w)
      directiveDefinition := by
  refine seq (seq (seq (map ?_ any) (parenthesized (places_inputValueDefinition hn))) any)
    (places_alternatives (places_place L))
  rintro x u - args v hv rep w - ls z hz d? s
  exact ⟨rfl, rfl, append (extend (prepend u hv) w) hz⟩

theorem silent_describedDefinition :
    Rule.Yields b (fun g w => ∀ d? s, (Node.definition (g d? s)).Silent L s w)
      describedDefinition := by
  refine branch (seq (map ?_ (seqRight (places_directives hn)))
      (enclosed (places_rootOperationType L))) <|
    branch (map (fun _ _ h => h)
      (after (fun _ u _ h d? s => (h d? s).prepend u) (silent_directiveDefinition hn))) <|
    map (fun _ _ h d? s => ⟨rfl, rfl, h⟩) (typeDefinition_eq ▸ places_typeDeclaration hn)
  rintro dirs u hu roots v hv d? s
  exact ⟨rfl, rfl, append hu hv⟩

theorem places_typeSystemDefinition :
    Rule.Places L b (fun d => [.definition d]) typeSystemDefinition := by
  refine locatedSilent rfl (fun _ => rfl) (seq (map ?_ any) (silent_describedDefinition hn))
  rintro d? u - g v hg s
  exact (hg d? s).prepend u

theorem places_typeSystemExtension :
    Rule.Places L b (fun d => [.definition d]) typeSystemExtension := by
  refine locatedSilent rfl (fun _ => rfl) (after (fun _ u _ h s => (h s).prepend u)
    (branch (seq (map ?_ (seqRight (places_directives hn)))
      (enclosed? (places_rootOperationType L)))
      (map (fun _ _ h s => ⟨rfl, rfl, h⟩) (typeExtension_eq ▸ places_typeDeclaration hn))))
  rintro dirs u hu roots? v hv s
  exact ⟨rfl, rfl, append hu hv⟩

theorem places_definition : Rule.Places L b (fun d => [.definition d]) definition :=
  branch (map (fun _ _ h => h) (places_fragment hn)) <|
    branch (map (fun _ _ h => h) (places_operation hn)) <|
    branch (places_typeSystemExtension hn) <| branch (places_typeSystemDefinition hn) stuck

end

/-! ### Documents -/

section

variable {L : List Node → List Token → Prop} [Layout L]

/-- The nesting constructs are laid out, by induction on the nesting budget. -/
theorem placed_nest (b : Nat) (n : Nest) : Rule.Yields b (n.Placed L) (.nest n) := by
  induction b generalizing n with
  | zero => exact fun _ _ _ h => h.elim
  | succ b ih =>
    intro next a w h
    cases n with
    | selectionSet => exact places_selectionSetBody ih h
    | value => exact places_valueBody ih h
    | typeRef => exact spelledBy_typeRefBody ih h

/-- The definitions of a document are laid out one after the other. -/
theorem Layout.of_derivesDocument {b : Nat} {ds : List Definition} {ts : List Token}
    (h : DerivesDocument b ds ts) : L (ds.map Node.definition) ts := by
  induction ds generalizing ts with
  | nil => exact nil
  | cons d ds ih =>
    obtain ⟨u, v, rfl, hu, hv⟩ := h
    exact append (places_definition (placed_nest b) hu) (ih hv)

end

theorem laidOut_of_derivesDocument {b : Nat} {ds : List Definition} {ts : List Token}
    (h : DerivesDocument b ds ts) : LaidOut (ds.map Node.definition) ts :=
  Layout.of_derivesDocument h

end GraphQL
