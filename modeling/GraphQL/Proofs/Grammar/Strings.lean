import GraphQL.Proofs.Grammar.Positions
import GraphQL.Proofs.Reading.Kinds
import GraphQL.Proofs.Tree.Strings

/-!
# What the grammar derives keeps the strings

A string literal is accepted in two places only: as a value, and as the description that a
definition may start with.  Most other rules are *free of strings* (`Rule.stringFree`): all their
tokens are of other kinds.  So the nodes of a tree keep the strings of the tokens from which it is
derived.  As for the layout of nodes there is one lemma for each rule that is not free of strings;
they are put together by induction on the nesting budget (`keeps_nest`) and then along the
definitions of a document (`keepsStrings_of_derivesDocument`).
-/

namespace GraphQL

open Rule.Yields (map seq branch done token stuck repeats closes atFirst)

variable {α β : Type}

/-! ### Rules without strings -/

/-- Whether no token of a rule can be a string literal. -/
def Rule.stringFree (r : Rule α) : Bool :=
  r.spares .string && !r.mentions .value && !r.mentions .selectionSet

theorem Rule.noStrings_of_derives {nested : (n : Nest) → Derivable n.Tree}
    (ht : ∀ ⦃next : Set TokenKind⦄ ⦃t : TypeRef⦄ ⦃w : List Token⦄,
      nested .typeRef next t w → NoStrings w)
    {r : Rule α} (hr : r.stringFree = true) {next : Set TokenKind} {a : α} {w : List Token}
    (h : r.Derives nested next a w) : NoStrings w := by
  simp only [stringFree, Bool.and_eq_true, Bool.not_eq_true'] at hr
  obtain ⟨⟨hspares, hvalue⟩, hsels⟩ := hr
  refine kind_ne_of_derives (fun n hn => ?_) hspares h
  cases n with
  | typeRef => exact ht
  | value => exact absurd hn (by simp [hvalue])
  | selectionSet => exact absurd hn (by simp [hsels])

/-- No token of a type is a string literal, by induction on the nesting budget. -/
theorem noStrings_typeRef (b : Nat) :
    Rule.Yields b (fun _ w => NoStrings w) Rule.typeRef := by
  induction b with
  | zero => exact fun _ _ _ h => h.elim
  | succ b ih => exact fun _ _ _ h => Rule.noStrings_of_derives ih (r := typeRefBody) (by decide) h

theorem Rule.Yields.noStrings {b : Nat} {r : Rule α} (hr : r.stringFree = true) :
    Yields b (fun _ w => NoStrings w) r :=
  fun _ _ _ h => noStrings_of_derives (noStrings_typeRef b) hr h

/-- What holds after tokens without strings holds after those of a rule without strings. -/
theorem Rule.Yields.afterNoStrings {b : Nat} {r : Rule β} {r' : Rule α}
    {R : α → List Token → Prop} (hr : r.stringFree = true) (h : Yields b R r')
    (hR : ∀ a u v, NoStrings u → R a v → R a (u ++ v)) : Yields b R (r *> r') :=
  seq (map (fun _ u hu a v hv => hR a u v hu hv) (noStrings hr)) h

/-- A rule without strings that is not empty. -/
theorem Rule.Yields.leadsNoStrings {b : Nat} {r : Rule α} (hr : r.stringFree = true)
    (hnull : r.nullable = false) : Yields b (fun _ w => LeadsNoString w ∧ NoStrings w) r := by
  intro next a w h
  have hw : NoStrings w := noStrings hr h
  obtain ⟨t, w, rfl⟩ := List.exists_cons_of_ne_nil (h.ne_nil hnull)
  exact ⟨⟨t, w, rfl, hw t List.mem_cons_self⟩, hw⟩

/-- A rule that is not empty and does not start with a string literal. -/
theorem Rule.Yields.leadsNoString {b : Nat} {r : Rule α} (hst : r.steady = true)
    (hnull : r.nullable = false) (hs : r.starts .string = false) :
    Yields b (fun _ w => LeadsNoString w) r := by
  intro next a w h
  obtain ⟨t, w, rfl⟩ := List.exists_cons_of_ne_nil (h.ne_nil hnull)
  refine ⟨t, w, rfl, fun hk => ?_⟩
  have hstarts := h.starts hst
  rw [hk, hs] at hstarts
  exact Bool.noConfusion hstarts

theorem Rule.Yields.both {b : Nat} {r : Rule α} {R S : α → List Token → Prop} (hR : Yields b R r)
    (hS : Yields b S r) : Yields b (fun a w => R a w ∧ S a w) r :=
  fun _ _ _ h => ⟨hR h, hS h⟩

/-! ### Rules that keep strings -/

section

variable {b : Nat} {nodes : α → List Node} {node : α → Node}

/-- A rule without strings, whose nodes need none. -/
theorem keeps_free {r : Rule α} (hr : r.stringFree = true) (h : ∀ a, KeepsStrings (nodes a) []) :
    Rule.Places KeepsStrings b nodes r :=
  fun _ a _ hd => (h a).within (Rule.Yields.noStrings hr hd)

theorem keeps_seqRight {r : Rule β} {r' : Rule α} (hr : r.stringFree = true)
    (h : Rule.Places KeepsStrings b nodes r') : Rule.Places KeepsStrings b nodes (r *> r') :=
  .afterNoStrings hr h fun _ _ _ hu hv => .prepend hu hv

theorem keeps_located {r : Rule (Nat → α)}
    (h : Rule.Yields b (fun g w => ∀ s, KeepsStrings (nodes (g s)) w) r) :
    Rule.Places KeepsStrings b nodes (.located r) := by
  rintro next _ w ⟨g, hg, rfl⟩
  exact h hg _

theorem keeps_optional {test : TokenKind → Bool} {r : Rule α} (nodes' : Option α → List Node)
    (hsome : ∀ a, nodes' (some a) = nodes a) (hnone : nodes' none = [])
    (h : Rule.Places KeepsStrings b nodes r) :
    Rule.Places KeepsStrings b nodes' (Rule.optional test r) :=
  branch (map (fun a _ ha => by rwa [hsome]) h) (done (by rw [hnone]; exact .nil nofun))

theorem keeps_whileAt {test : TokenKind → Bool} {item : Rule α}
    (h : Rule.Places KeepsStrings b (fun a => [node a]) item) :
    Rule.Places KeepsStrings b (List.map node) (.whileAt test item) :=
  repeats (.nil nofun) KeepsStrings.append h

theorem keeps_enclosed {opening closing : Punctuator} {item : Rule α}
    (h : Rule.Places KeepsStrings b (fun a => [node a]) item) :
    Rule.Places KeepsStrings b (List.map node) (Rule.enclosed opening closing item) := by
  refine keeps_seqRight (by rfl) (closes (fun t ht => .nil fun t' ht' hk => ?_)
    KeepsStrings.append h)
  rw [List.mem_singleton.1 ht', ht] at hk
  cases hk

theorem keeps_enclosed? {opening closing : Punctuator} {item : Rule α}
    (h : Rule.Places KeepsStrings b (fun a => [node a]) item) :
    Rule.Places KeepsStrings b (fun as? => (as?.getD []).map node)
      (Rule.enclosed? opening closing item) :=
  keeps_optional _ (fun _ => rfl) rfl (keeps_enclosed h)

theorem keeps_parenthesized {item : Rule α}
    (h : Rule.Places KeepsStrings b (fun a => [node a]) item) :
    Rule.Places KeepsStrings b (List.map node) (Rule.parenthesized item) :=
  map (fun _ _ ha => ha) (keeps_enclosed? h)

end

/-- A node that is to have a given description and to start at a given offset, with children that
keep the strings of some tokens. -/
structure Node.Follows (n : Node) (d? : Option String) (start : Nat) (w : List Token) : Prop where
  /-- The description is that of the node. -/
  description?_eq : n.description? = some d?
  /-- The node starts at the offset. -/
  start_eq : n.start = start
  /-- The children keep the strings. -/
  children : KeepsStrings n.children w

theorem Node.Follows.keeps {n : Node} {d? : Option String} {t : Token} {u w : List Token}
    (h : n.Follows d? t.start w) (hd : Describes d? u) (hw : LeadsNoString w)
    (ht : t ∈ (u ++ w).head?) : KeepsStrings [n] (u ++ w) := by
  refine hd.keeps h.description?_eq (fun t' ht' => ?_) hw h.children
  obtain rfl := Option.mem_unique ht ht'
  exact h.start_eq

theorem describes_description (b : Nat) : Rule.Yields b Describes description := by
  refine branch (map (fun _ _ h => h) (map ?_ token)) (done .absent)
  rintro ⟨l, offset⟩ _ ⟨rfl, ht⟩
  cases l with
  | string text v => exact .literal text v offset
  | _ => cases ht

section

variable {b : Nat} (hn : ∀ n : Nest, Rule.Yields b (n.Placed KeepsStrings) (.nest n))

/-! ### Values -/

theorem keeps_variableUse :
    Rule.Places KeepsStrings b (fun v => [.value (.var v)]) Rule.variableUse :=
  keeps_free (by decide) fun _ => .leaf rfl rfl rfl nofun

theorem keeps_typeCondition :
    Rule.Places KeepsStrings b (fun c => [.typeCondition c]) typeCondition :=
  keeps_free (by decide) fun c => .parent (.typeRef (.named c.type)) rfl rfl

theorem keeps_interfaces :
    Rule.Places KeepsStrings b (List.map (Node.typeRef ∘ .named)) interfaces :=
  keeps_free (by decide) (.map_nil fun t => .typeRef (.named t))

theorem keeps_unionMembers :
    Rule.Places KeepsStrings b (List.map (Node.typeRef ∘ .named)) unionMembers :=
  keeps_free (by decide) (.map_nil fun t => .typeRef (.named t))

theorem keeps_rootOperationType :
    Rule.Places KeepsStrings b (fun r => [.rootOperationType r]) rootOperationType :=
  keeps_free (by decide) fun r => .parent (.typeRef (.named r.type)) rfl rfl

theorem keeps_places :
    Rule.Places KeepsStrings b (List.map Node.directiveLocation)
      (alternatives (.place DirectiveLocation.ofToken?)) :=
  keeps_free (by decide) (.map_nil fun _ => .leaf rfl rfl rfl nofun)

theorem keepsStrings_ofToken {t : Token} (ht : isScalarKind t.kind = true) :
    KeepsStrings [.value (.ofToken t)] [t] := by
  obtain ⟨l, offset⟩ := t
  have hw : l.kind ≠ .string → NoStrings [⟨l, offset⟩] := fun hl => List.forall_mem_singleton.2 hl
  cases l with
  | string text v => exact .string text v offset
  | punctuator p | unknownCharacter c | invalidString text cause => cases ht
  | int text | float text | name text => exact .leaf rfl rfl rfl (hw nofun)
  | keyword k => cases k <;> exact .leaf rfl rfl rfl (hw nofun)

include hn

/-- An argument or a field of an object value. -/
theorem keeps_namedValue (node : NamedValue Value → Node)
    (hnode : ∀ v w, KeepsStrings [.value v.value] w → KeepsStrings [node v] w) :
    Rule.Places KeepsStrings b (fun v => [node v]) Rule.namedValue := by
  refine keeps_located (seq (map ?_ (.noStrings (by decide))) (places_value hn))
  rintro x u hu v w hw s
  exact hnode _ _ (.prepend hu hw)

theorem keeps_arguments : Rule.Places KeepsStrings b (List.map Node.argument) Rule.arguments :=
  keeps_parenthesized (keeps_namedValue hn .argument fun _ _ h => .parent h rfl rfl)

theorem keeps_directives :
    Rule.Places KeepsStrings b (List.map Node.directive) Rule.directives := by
  refine keeps_whileAt (keeps_located (seq (map ?_ (.noStrings (by decide))) (keeps_arguments hn)))
  rintro x u hu args v hv s
  exact .parent (.prepend hu hv) rfl rfl

theorem keeps_defaultValue :
    Rule.Places KeepsStrings b (fun v? => v?.toList.map Node.value) Rule.defaultValue :=
  keeps_optional _ (fun _ => rfl) rfl (keeps_seqRight (by decide) (places_value hn))

theorem keeps_valueBody : Rule.Places KeepsStrings b (fun v => [.value v]) valueBody := by
  refine branch (map (fun _ _ h => h) keeps_variableUse) <|
    branch (keeps_located (map ?_ (keeps_enclosed (places_value hn)))) <|
    branch (keeps_located (map ?_ (keeps_enclosed
      (keeps_namedValue hn .objectField fun _ _ h => .parent h rfl rfl)))) <|
    map ?_ token
  · exact fun vs w hw s => .parent hw rfl rfl
  · exact fun fs w hw s => .parent hw rfl rfl
  · rintro t _ ⟨rfl, ht⟩
    exact keepsStrings_ofToken ht

/-! ### Operations and fragments -/

theorem keeps_field : Rule.Places KeepsStrings b (fun f => [.selection (.field f)]) field := by
  refine keeps_located (seq (seq (seq (map ?_ (.noStrings (by decide))) (keeps_arguments hn))
    (keeps_directives hn))
    (keeps_optional (fun sels? => (sels?.getD []).map Node.selection) (fun _ => rfl) rfl
      (places_selectionSet hn)))
  rintro ⟨alias?, x⟩ t ht args u hu dirs v hv sels? w hw s
  exact .parent (.append (.append (.prepend ht hu) hv) hw) rfl rfl

theorem keeps_inlineFragment :
    Rule.Yields b (fun g w => ∀ s, KeepsStrings [.selection (g s)] w) inlineFragment := by
  refine seq (seq (map ?_ (keeps_optional (fun c? => c?.toList.map Node.typeCondition)
    (fun _ => rfl) rfl keeps_typeCondition)) (keeps_directives hn)) (places_selectionSet hn)
  rintro c? u hu dirs v hv sels w hw s
  exact .parent (.append (.append hu hv) hw) rfl rfl

theorem keeps_fragmentSpread :
    Rule.Yields b (fun g w => ∀ s, KeepsStrings [.selection (g s)] w) fragmentSpread := by
  refine seq (map ?_ (.noStrings (by decide))) (keeps_directives hn)
  rintro t u hu dirs v hv s
  exact .parent (.prepend hu hv) rfl rfl

theorem keeps_selection : Rule.Places KeepsStrings b (fun s => [.selection s]) selection :=
  branch (keeps_located (.afterNoStrings (by decide)
    (branch (keeps_inlineFragment hn) (keeps_fragmentSpread hn))
    fun _ _ _ hu h s => .prepend hu (h s))) <|
    map (fun _ _ h => h) (keeps_field hn)

theorem keeps_selectionSetBody :
    Rule.Places KeepsStrings b (List.map Node.selection) selectionSetBody :=
  keeps_enclosed (keeps_selection hn)

theorem keeps_variableDefinition :
    Rule.Places KeepsStrings b (fun v => [.variableDefinition v]) variableDefinition := by
  refine keeps_located (seq (seq (seq (map ?_ (.noStrings (by decide))) (.noStrings (by decide)))
    (keeps_defaultValue hn)) (keeps_directives hn))
  rintro x t ht type u hu v? v hv dirs w hw s
  have hvar : KeepsStrings [.value (.var x)] t := .leaf rfl rfl rfl ht
  have htype : KeepsStrings [.typeRef type] u := .within (.typeRef type) hu
  exact .parent (.append (.append (.append hvar htype) hv) hw) rfl rfl

theorem keeps_keywordOperation :
    Rule.Yields b (fun g w => ∀ s, KeepsStrings [.definition (.operation (g s))] w)
      keywordOperation := by
  refine seq (seq (seq (seq (map ?_ (.noStrings (by decide))) (.noStrings (by decide)))
    (keeps_parenthesized (keeps_variableDefinition hn))) (keeps_directives hn))
    (places_selectionSet hn)
  rintro type u hu x? v hv vs w hw dirs y hy sels z hz s
  exact .parent (.append (.append (.prepend (List.forall_mem_append.2 ⟨hu, hv⟩) hw) hy) hz) rfl rfl

theorem keeps_shorthandOperation :
    Rule.Yields b (fun g w => ∀ s, KeepsStrings [.definition (.operation (g s))] w)
      shorthandOperation :=
  map (fun _ _ hw _ => .parent hw rfl rfl) (places_selectionSet hn)

theorem keeps_operation :
    Rule.Places KeepsStrings b (fun o => [.definition (.operation o)]) operation :=
  keeps_located (branch (keeps_keywordOperation hn) (keeps_shorthandOperation hn))

theorem keeps_fragment :
    Rule.Places KeepsStrings b (fun f => [.definition (.fragment f)]) fragment := by
  refine keeps_located (seq (seq (seq (map ?_ (.noStrings (by decide))) keeps_typeCondition)
    (keeps_directives hn)) (places_selectionSet hn))
  rintro x u hu c v hv dirs w hw sels z hz s
  exact .parent (.append (.append (.prepend hu hv) hw) hz) rfl rfl

/-! ### The type system -/

theorem keeps_inputValueDefinition :
    Rule.Places KeepsStrings b (fun i => [.inputValueDefinition i]) inputValueDefinition := by
  refine atFirst rfl (seq (seq (seq (seq (map ?_ (describes_description b))
    (.leadsNoStrings (by decide) rfl)) (.noStrings (by decide))) (keeps_defaultValue hn))
    (keeps_directives hn))
  rintro d? u hd x v ⟨hlead, hv⟩ type w hw v? y hy dirs z hz t ht
  have htype : KeepsStrings [.typeRef type] w := .within (.typeRef type) hw
  have hchildren := ((htype.prepend hv).append hy).append hz
  simp only [List.append_assoc] at ht hchildren ⊢
  exact Node.Follows.keeps ⟨rfl, rfl, hchildren⟩ hd (hlead.extend _) ht

theorem keeps_fieldDefinition :
    Rule.Places KeepsStrings b (fun f => [.fieldDefinition f]) fieldDefinition := by
  refine atFirst rfl (seq (seq (seq (seq (map ?_ (describes_description b))
    (.leadsNoStrings (by decide) rfl)) (keeps_parenthesized (keeps_inputValueDefinition hn)))
    (.noStrings (by decide))) (keeps_directives hn))
  rintro d? u hd x v ⟨hlead, hv⟩ args w hw type y hy dirs z hz t ht
  have htype : KeepsStrings [.typeRef type] y := .within (.typeRef type) hy
  have hchildren := (hw.prepend hv).append (htype.append hz)
  simp only [List.append_assoc] at ht hchildren ⊢
  exact Node.Follows.keeps ⟨rfl, rfl, hchildren⟩ hd (hlead.extend _) ht

theorem keeps_enumValueDefinition :
    Rule.Places KeepsStrings b (fun e => [.enumValueDefinition e]) enumValueDefinition := by
  refine atFirst rfl (seq (seq (map ?_ (describes_description b))
    (.leadsNoStrings (by decide) rfl)) (keeps_directives hn))
  rintro d? u hd e v ⟨hlead, hv⟩ dirs w hw t ht
  have hvalue : KeepsStrings [.value (.enum e)] v := .leaf rfl rfl rfl hv
  have hchildren := hvalue.append hw
  simp only [List.append_assoc] at ht ⊢
  exact Node.Follows.keeps ⟨rfl, rfl, hchildren⟩ hd (hlead.extend _) ht

theorem keeps_objectDeclaration {body : List NamedType → Option (List FieldDefinition) → TypeBody}
    (hbody : ∀ x dirs ts fs?, TypeDeclaration.children ⟨x, dirs, body ts fs?⟩ =
      ts.map (Node.typeRef ∘ .named) ++ dirs.map Node.directive ++
        (fs?.getD []).map Node.fieldDefinition) :
    Rule.Places KeepsStrings b TypeDeclaration.children (objectDeclaration body) := by
  refine seq (seq (seq (map ?_ (.noStrings (by decide))) keeps_interfaces) (keeps_directives hn))
    (keeps_enclosed? (keeps_fieldDefinition hn))
  rintro x u hu ts v hv dirs w hw fs? z hz
  rw [hbody]
  exact .append (.append (.prepend hu hv) hw) hz

theorem keeps_typeDeclaration {expected : List TokenKind} :
    Rule.Places KeepsStrings b TypeDeclaration.children (typeDeclaration expected) := by
  have hname : Rule.Yields b (fun _ w => NoStrings w) Rule.name := .noStrings (by decide)
  refine branch (keeps_seqRight (by decide) (seq (map ?_ hname) (keeps_directives hn))) <|
    branch (keeps_seqRight (by decide) (keeps_objectDeclaration hn fun _ _ _ _ => rfl)) <|
    branch (keeps_seqRight (by decide) (keeps_objectDeclaration hn fun _ _ _ _ => rfl)) <|
    branch (keeps_seqRight (by decide)
      (seq (seq (map ?_ hname) (keeps_directives hn)) keeps_unionMembers)) <|
    branch (keeps_seqRight (by decide) (seq (seq (map ?_ hname) (keeps_directives hn))
      (keeps_enclosed? (keeps_enumValueDefinition hn)))) <|
    branch (keeps_seqRight (by decide) (seq (seq (map ?_ hname) (keeps_directives hn))
      (keeps_enclosed? (keeps_inputValueDefinition hn)))) stuck
  · exact fun x u hu dirs v hv => .prepend hu hv
  · exact fun x u hu dirs v hv ts w hw => .append (.prepend hu hv) hw
  · exact fun x u hu dirs v hv vs? w hw => .append (.prepend hu hv) hw
  · exact fun x u hu dirs v hv fs? w hw => .append (.prepend hu hv) hw

theorem follows_directiveDefinition :
    Rule.Yields b (fun f w => ∀ d? s, (Node.definition (.directive (f d? s))).Follows d? s w)
      directiveDefinition := by
  refine seq (seq (seq (map ?_ (.noStrings (by decide)))
    (keeps_parenthesized (keeps_inputValueDefinition hn))) (.noStrings (by decide))) keeps_places
  rintro x u hu args v hv rep w hw ls z hz d? s
  exact ⟨rfl, rfl, .append (.extend (.prepend hu hv) hw) hz⟩

theorem follows_describedDefinition :
    Rule.Yields b (fun g w => ∀ d? s, (Node.definition (g d? s)).Follows d? s w)
      describedDefinition := by
  refine branch (seq (map ?_ (keeps_seqRight (by decide) (keeps_directives hn)))
      (keeps_enclosed keeps_rootOperationType)) <|
    branch (map (fun _ _ h => h) (.afterNoStrings (by decide) (follows_directiveDefinition hn)
      fun _ _ _ hu h d? s => ⟨(h d? s).1, (h d? s).2, .prepend hu (h d? s).3⟩)) <|
    map (fun _ _ h d? s => ⟨rfl, rfl, h⟩) (typeDefinition_eq ▸ keeps_typeDeclaration hn)
  rintro dirs u hu roots v hv d? s
  exact ⟨rfl, rfl, .append hu hv⟩

theorem keeps_typeSystemDefinition :
    Rule.Places KeepsStrings b (fun d => [.definition d]) typeSystemDefinition := by
  refine atFirst rfl (seq (map ?_ (describes_description b))
    (.both (follows_describedDefinition hn) (.leadsNoString (by decide) rfl (by decide))))
  rintro d? u hd g v ⟨hg, hlead⟩ t ht
  exact (hg d? t.start).keeps hd hlead ht

theorem keeps_typeSystemExtension :
    Rule.Places KeepsStrings b (fun d => [.definition d]) typeSystemExtension := by
  refine keeps_located (.afterNoStrings (by decide)
    (branch (seq (map ?_ (keeps_seqRight (by decide) (keeps_directives hn)))
      (keeps_enclosed? keeps_rootOperationType))
      (map ?_ (typeExtension_eq ▸ keeps_typeDeclaration hn)))
    fun _ _ _ hu h s => .prepend hu (h s))
  · rintro dirs u hu roots? v hv s
    exact .parent (.append hu hv) rfl rfl
  · exact fun declaration w h s => .parent h rfl rfl

theorem keeps_definition : Rule.Places KeepsStrings b (fun d => [.definition d]) definition :=
  branch (map (fun _ _ h => h) (keeps_fragment hn)) <|
    branch (map (fun _ _ h => h) (keeps_operation hn)) <|
    branch (keeps_typeSystemExtension hn) <| branch (keeps_typeSystemDefinition hn) stuck

end

/-! ### Documents -/

/-- The nesting constructs keep the strings, by induction on the nesting budget. -/
theorem keeps_nest (b : Nat) (n : Nest) : Rule.Yields b (n.Placed KeepsStrings) (.nest n) := by
  induction b generalizing n with
  | zero => exact fun _ _ _ h => h.elim
  | succ b ih =>
    intro next a w h
    cases n with
    | selectionSet => exact keeps_selectionSetBody ih h
    | value => exact keeps_valueBody ih h
    | typeRef => exact spelledBy_typeRefBody ih h

/-- **No string is lost**: the nodes of a document keep the strings of its tokens. -/
theorem keepsStrings_of_derivesDocument {b : Nat} {ds : List Definition} {ts : List Token}
    (h : DerivesDocument b ds ts) : KeepsStrings (ds.map Node.definition) ts := by
  induction ds generalizing ts with
  | nil =>
    obtain rfl := h
    exact .nil nofun
  | cons d ds ih =>
    obtain ⟨u, v, rfl, hu, hv⟩ := h
    exact .append (keeps_definition (keeps_nest b) hu) (ih hv)

end GraphQL
