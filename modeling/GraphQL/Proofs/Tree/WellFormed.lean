import GraphQL.Grammar.TypeSystem
import GraphQL.Proofs.Lexical.Text

/-!
# Well-formed trees

What the types of the trees leave open: names and numbers have the text of names and numbers, no
fragment is called `on`, no bare name that stands for a value is `true`, `false` or `null`, no
non-null type wraps another, an operation written as a bare selection set says nothing else, and a
directive can stand somewhere, at places that are known.
-/

namespace GraphQL

/-- Whether a text is a name; keywords are names. -/
def ValidName (x : String) : Prop := x.toList ∈ LexicalText.name

/-- A name that can be that of a fragment. -/
def ValidFragmentName (x : String) : Prop := ValidName x ∧ x ≠ "on"

/-- A name that can stand for a value. -/
def EnumValue.WellFormed (e : EnumValue) : Prop :=
  ValidName e.value ∧ e.value ≠ "true" ∧ e.value ≠ "false" ∧ e.value ≠ "null"

mutual

/-- Well-formed values. -/
def Value.WellFormed : Value → Prop
  | .var v => ValidName v.name
  | .int text _ => text.toList ∈ LexicalText.integer
  | .float text _ => text.toList ∈ LexicalText.float
  | .string _ _ _ | .boolean _ _ | .null _ => True
  | .enum e => e.WellFormed
  | .list vs _ => Value.WellFormedList vs
  | .object fs _ => Value.WellFormedFields fs

/-- Lists of well-formed values. -/
def Value.WellFormedList : List Value → Prop
  | [] => True
  | v :: vs => v.WellFormed ∧ Value.WellFormedList vs

/-- Lists of well-formed named values. -/
def Value.WellFormedFields : List (NamedValue Value) → Prop
  | [] => True
  | ⟨x, v, _⟩ :: fs => (ValidName x ∧ v.WellFormed) ∧ Value.WellFormedFields fs

end

/-- Well-formed named values. -/
def NamedValue.WellFormed (a : NamedValue Value) : Prop := ValidName a.name ∧ a.value.WellFormed

theorem Value.wellFormed_list (vs : List Value) (start : Nat) :
    (Value.list vs start).WellFormed ↔ ∀ v ∈ vs, v.WellFormed := by
  rw [Value.WellFormed]
  induction vs with
  | nil => simp [Value.WellFormedList]
  | cons v vs ih => simp [Value.WellFormedList, ih]

theorem Value.wellFormed_object (fs : List (NamedValue Value)) (start : Nat) :
    (Value.object fs start).WellFormed ↔ ∀ f ∈ fs, f.WellFormed := by
  rw [Value.WellFormed]
  induction fs with
  | nil => simp [Value.WellFormedFields]
  | cons f fs ih => simp [Value.WellFormedFields, ih, NamedValue.WellFormed]

/-- Whether a type is non-null. -/
def TypeRef.isNonNull : TypeRef → Bool
  | nonNull _ _ => true
  | _ => false

/-- Well-formed references to types. -/
def TypeRef.WellFormed : TypeRef → Prop
  | named t => ValidName t.name
  | list item _ => item.WellFormed
  | nonNull inner _ => inner.WellFormed ∧ inner.isNonNull = false

/-- Well-formed directives. -/
def Directive.WellFormed (d : Directive) : Prop :=
  ValidName d.name ∧ ∀ a ∈ d.arguments, a.WellFormed

mutual

/-- Well-formed selections. -/
def Selection.WellFormed : Selection → Prop
  | .field ⟨alias?, x, args, dirs, sels?, _⟩ =>
    (∀ a ∈ alias?, ValidName a) ∧ ValidName x ∧ (∀ a ∈ args, a.WellFormed) ∧
      (∀ d ∈ dirs, d.WellFormed) ∧ Selection.WellFormedOption sels?
  | .spread ⟨x, dirs, _⟩ => ValidFragmentName x ∧ ∀ d ∈ dirs, d.WellFormed
  | .inline ⟨condition?, dirs, sels, _⟩ =>
    (∀ c ∈ condition?, ValidName c.type.name) ∧ (∀ d ∈ dirs, d.WellFormed) ∧
      Selection.WellFormedList sels

/-- Selection sets of well-formed selections, or none at all. -/
def Selection.WellFormedOption : Option (List Selection) → Prop
  | none => True
  | some sels => Selection.WellFormedList sels

/-- Lists of well-formed selections. -/
def Selection.WellFormedList : List Selection → Prop
  | [] => True
  | s :: ss => s.WellFormed ∧ Selection.WellFormedList ss

end

theorem Selection.wellFormedList_iff (ss : List Selection) :
    Selection.WellFormedList ss ↔ ∀ s ∈ ss, s.WellFormed := by
  induction ss with
  | nil => simp [Selection.WellFormedList]
  | cons s ss ih => simp [Selection.WellFormedList, ih]

theorem Selection.wellFormed_field (f : Field Selection) :
    (Selection.field f).WellFormed ↔
      (∀ a ∈ f.alias?, ValidName a) ∧ ValidName f.name ∧ (∀ a ∈ f.arguments, a.WellFormed) ∧
        (∀ d ∈ f.directives, d.WellFormed) ∧ ∀ sels ∈ f.selections?, ∀ s ∈ sels, s.WellFormed := by
  obtain ⟨alias?, x, args, dirs, _ | sels, start⟩ := f <;>
    simp [Selection.WellFormed, Selection.WellFormedOption, Selection.wellFormedList_iff]

theorem Selection.wellFormed_inline (i : InlineFragment Selection) :
    (Selection.inline i).WellFormed ↔
      (∀ c ∈ i.condition?, ValidName c.type.name) ∧ (∀ d ∈ i.directives, d.WellFormed) ∧
        ∀ s ∈ i.selections, s.WellFormed := by
  rw [Selection.WellFormed, Selection.wellFormedList_iff]

/-- Well-formed definitions of variables. -/
def VariableDefinition.WellFormed (v : VariableDefinition) : Prop :=
  ValidName v.var.name ∧ v.type.WellFormed ∧ (∀ d ∈ v.default?, d.WellFormed) ∧
    ∀ d ∈ v.directives, d.WellFormed

/-- Whether an operation says nothing that a bare selection set does not: it is a query without
name, variables and directives. -/
def Operation.IsPlainQuery (o : Operation) : Prop :=
  o.type = .query ∧ o.name? = none ∧ o.variableDefinitions = [] ∧ o.directives = []

instance (o : Operation) : Decidable o.IsPlainQuery :=
  inferInstanceAs (Decidable (_ ∧ _ ∧ _ ∧ _))

/-- Well-formed operations. -/
structure Operation.WellFormed (o : Operation) : Prop where
  /-- A bare selection set stands for a plain query. -/
  shorthand : o.isShorthand = true → o.IsPlainQuery
  /-- The name, if there is one. -/
  name : ∀ x ∈ o.name?, ValidName x
  /-- The variables. -/
  variableDefinitions : ∀ v ∈ o.variableDefinitions, v.WellFormed
  /-- The directives. -/
  directives : ∀ d ∈ o.directives, d.WellFormed
  /-- The selections. -/
  selections : ∀ s ∈ o.selections, s.WellFormed

/-- Well-formed fragments. -/
def Fragment.WellFormed (f : Fragment) : Prop :=
  ValidFragmentName f.name ∧ ValidName f.condition.type.name ∧
    (∀ d ∈ f.directives, d.WellFormed) ∧ ∀ s ∈ f.selections, s.WellFormed

/-- Well-formed definitions of input values. -/
def InputValueDefinition.WellFormed (v : InputValueDefinition) : Prop :=
  ValidName v.name ∧ v.type.WellFormed ∧ (∀ d ∈ v.default?, d.WellFormed) ∧
    ∀ d ∈ v.directives, d.WellFormed

/-- Well-formed definitions of fields. -/
def FieldDefinition.WellFormed (f : FieldDefinition) : Prop :=
  ValidName f.name ∧ (∀ v ∈ f.arguments, v.WellFormed) ∧ f.type.WellFormed ∧
    ∀ d ∈ f.directives, d.WellFormed

/-- Well-formed definitions of enumeration values. -/
def EnumValueDefinition.WellFormed (v : EnumValueDefinition) : Prop :=
  v.value.WellFormed ∧ ∀ d ∈ v.directives, d.WellFormed

/-- Well-formed declarations of what a type consists of. -/
def TypeBody.WellFormed : TypeBody → Prop
  | scalar => True
  | object interfaces fields? | interface interfaces fields? =>
    (∀ t ∈ interfaces, ValidName t.name) ∧ ∀ fs ∈ fields?, ∀ f ∈ fs, f.WellFormed
  | union members => ∀ t ∈ members, ValidName t.name
  | enum values? => ∀ vs ∈ values?, ∀ v ∈ vs, v.WellFormed
  | inputObject fields? => ∀ fs ∈ fields?, ∀ f ∈ fs, f.WellFormed

/-- Well-formed declarations of types. -/
def TypeDeclaration.WellFormed (t : TypeDeclaration) : Prop :=
  ValidName t.name ∧ (∀ d ∈ t.directives, d.WellFormed) ∧ t.body.WellFormed

/-- Well-formed places for directives: their names are known. -/
def DirectiveLocation.WellFormed : DirectiveLocation → Prop
  | executable name _ => name ∈ executablePlaces
  | typeSystem name _ => name ∈ typeSystemPlaces

theorem notMem_executablePlaces {name : String} (h : name ∈ typeSystemPlaces) :
    name ∉ executablePlaces := by
  revert name
  decide

/-- A token names a place just when the place is known by the text of the token. -/
theorem DirectiveLocation.ofToken?_eq_some {t : Token} {l : DirectiveLocation} :
    ofToken? t = some l ↔ l.WellFormed ∧ l.name = t.text ∧ l.start = t.start := by
  cases l with
  | executable name start =>
    simp only [ofToken?, WellFormed, DirectiveLocation.name, DirectiveLocation.start,
      List.contains_iff_mem]
    split_ifs with he ht <;> grind
  | typeSystem name start =>
    simp only [ofToken?, WellFormed, DirectiveLocation.name, DirectiveLocation.start,
      List.contains_iff_mem]
    have := @notMem_executablePlaces name
    split_ifs with he ht <;> grind

/-- Well-formed definitions. -/
def Definition.WellFormed : Definition → Prop
  | operation o => o.WellFormed
  | fragment f => f.WellFormed
  | schema s => (∀ d ∈ s.directives, d.WellFormed) ∧ ∀ r ∈ s.roots, ValidName r.type.name
  | schemaExtension e =>
    (∀ d ∈ e.directives, d.WellFormed) ∧ ∀ r ∈ e.roots, ValidName r.type.name
  | directive d =>
    ValidName d.name ∧ (∀ v ∈ d.arguments, v.WellFormed) ∧ d.locations ≠ [] ∧
      ∀ l ∈ d.locations, l.WellFormed
  | type t => t.declaration.WellFormed
  | typeExtension e => e.declaration.WellFormed

/-- Documents of well-formed definitions. -/
def Document.WellFormed (d : Document) : Prop := ∀ x ∈ d.definitions, x.WellFormed

end GraphQL
