import GraphQL.Token.Basic
import GraphQL.Tree.Document
import Mathlib.Data.List.Forall2

/-!
# Moving trees

A tree keeps where its parts start.  `relocate f` changes each such offset by `f` and nothing
else; `Document.origin` moves all to zero, so two documents with the same origin are equal in
every field but the offsets.

A token keeps its true offset, a tree only the offset that is reported.  So a `Move` tells both
where tokens go and what becomes of the offsets in trees, and tokens are `Moved` if they report what
it tells: later in a source they do if reports are cut down again (`moved_later`), or if there is
nothing to cut down (`moved_exactly`).
-/

namespace GraphQL

variable (f : Nat → Nat)

/-- A token at another place. -/
def Token.relocate (t : Token) : Token := ⟨t.lexeme, f t.offset⟩

@[simp] theorem Token.kind_relocate (t : Token) : (t.relocate f).kind = t.kind := rfl

@[simp] theorem Token.text_relocate (t : Token) : (t.relocate f).text = t.text := rfl

@[simp] theorem Token.value_relocate (t : Token) : (t.relocate f).value = t.value := rfl

@[simp] theorem Token.offset_relocate (t : Token) : (t.relocate f).offset = f t.offset := rfl

@[simp] theorem Token.lexeme_relocate (t : Token) : (t.relocate f).lexeme = t.lexeme := rfl

/-- A lexeme as a token at offset zero. -/
def Lexeme.bare (l : Lexeme) : Token := ⟨l, 0⟩

/-- The offset zero, for whatever offset. -/
def toZero : Nat → Nat := fun _ => 0

theorem map_relocate_toZero (ts : List Token) :
    ts.map (Token.relocate toZero) = (ts.map Token.lexeme).map Lexeme.bare := by
  simp [Token.relocate, Lexeme.bare, toZero]

/-- The offset that is reported so many bytes after a place, of which the offset is reported. -/
def laterBy (k start : Nat) : Nat := reportedOffset (start + k)

/-! ### Moves -/

/-- A way to move tokens, and a way to move what they report for their starts. -/
structure Move where
  /-- Where a token goes. -/
  offset : Nat → Nat
  /-- What becomes of a reported offset. -/
  start : Nat → Nat

/-- To the place so many bytes later in a source. -/
def Move.later (k : Nat) : Move := ⟨(· + k), laterBy k⟩

/-- To the place so many bytes later, where offsets need not be cut down. -/
def Move.exactly (k : Nat) : Move := ⟨(· + k), (· + k)⟩

/-- To offset zero. -/
def Move.zero : Move := ⟨toZero, toZero⟩

/-- A token is moved, and so is what it reports. -/
structure Token.Moved (m : Move) (t u : Token) : Prop where
  /-- The lexeme is kept. -/
  eq : u = t.relocate m.offset
  /-- The report is moved. -/
  start : u.start = m.start t.start

namespace Token.Moved

variable {m : Move} {t u : Token} (h : t.Moved m u)

include h

theorem lexeme : u.lexeme = t.lexeme := by rw [h.eq, lexeme_relocate]

theorem kind : u.kind = t.kind := by rw [h.eq, kind_relocate]

theorem text : u.text = t.text := by rw [h.eq, text_relocate]

theorem value : u.value = t.value := by rw [h.eq, value_relocate]

end Token.Moved

/-- Tokens are moved one by one. -/
abbrev Moved (m : Move) : List Token → List Token → Prop := List.Forall₂ (Token.Moved m)

theorem Moved.eq_map {m : Move} {ts us : List Token} (h : Moved m ts us) :
    us = ts.map (Token.relocate m.offset) := by
  induction h with
  | nil => rfl
  | cons ht _ ih => rw [ht.eq, ih, List.map_cons]

theorem moved_map {m : Move} {ts : List Token}
    (h : ∀ t ∈ ts, reportedOffset (m.offset t.offset) = m.start t.start) :
    Moved m ts (ts.map (Token.relocate m.offset)) :=
  List.forall₂_map_right_iff.2 (List.forall₂_same.2 fun t ht => ⟨rfl, h t ht⟩)

theorem moved_later (k : Nat) (ts : List Token) :
    Moved (.later k) ts (ts.map (Token.relocate (· + k))) :=
  moved_map fun t _ => (reportedOffset_add t.offset k).symm

theorem moved_exactly {k : Nat} {ts : List Token} (h : ∀ t ∈ ts, t.offset + k ≤ maxOffset) :
    Moved (.exactly k) ts (ts.map (Token.relocate (· + k))) := by
  refine moved_map fun t ht => (reportedOffset_of_le (h t ht)).trans ?_
  exact congrArg (· + k) (reportedOffset_of_le (Nat.le_of_add_right_le (h t ht))).symm

theorem moved_zero (ts : List Token) : Moved .zero ts (ts.map (Token.relocate toZero)) :=
  moved_map fun _ _ => rfl

/-! ### Values and types -/

/-- A variable at another place. -/
def Variable.relocate (v : Variable) : Variable := ⟨v.name, f v.start⟩

/-- A bare name at another place. -/
def EnumValue.relocate (e : EnumValue) : EnumValue := ⟨e.value, f e.start⟩

mutual

/-- A value at another place. -/
def Value.relocate : Value → Value
  | .var v => .var (v.relocate f)
  | .int text start => .int text (f start)
  | .float text start => .float text (f start)
  | .string value block start => .string value block (f start)
  | .boolean value start => .boolean value (f start)
  | .null start => .null (f start)
  | .enum e => .enum (e.relocate f)
  | .list vs start => .list (Value.relocateList vs) (f start)
  | .object fs start => .object (Value.relocateFields fs) (f start)

/-- Values at other places. -/
def Value.relocateList : List Value → List Value
  | [] => []
  | v :: vs => v.relocate :: Value.relocateList vs

/-- Named values at other places. -/
def Value.relocateFields : List (NamedValue Value) → List (NamedValue Value)
  | [] => []
  | ⟨x, v, start⟩ :: fs => ⟨x, v.relocate, f start⟩ :: Value.relocateFields fs

end

/-- A named value at another place. -/
def NamedValue.relocate (a : NamedValue Value) : NamedValue Value :=
  ⟨a.name, a.value.relocate f, f a.start⟩

theorem Value.relocateList_eq (vs : List Value) :
    Value.relocateList f vs = vs.map (Value.relocate f) := by
  induction vs with
  | nil => rw [Value.relocateList, List.map_nil]
  | cons v vs ih => rw [Value.relocateList, List.map_cons, ih]

theorem Value.relocateFields_eq (fs : List (NamedValue Value)) :
    Value.relocateFields f fs = fs.map (NamedValue.relocate f) := by
  induction fs with
  | nil => rw [Value.relocateFields, List.map_nil]
  | cons a fs ih => rw [Value.relocateFields, List.map_cons, ih, NamedValue.relocate]

/-- A named type at another place. -/
def NamedType.relocate (t : NamedType) : NamedType := ⟨t.name, f t.start⟩

/-- A reference to a type at another place. -/
def TypeRef.relocate : TypeRef → TypeRef
  | named t => named (t.relocate f)
  | list item start => list item.relocate (f start)
  | nonNull inner start => nonNull inner.relocate (f start)

theorem TypeRef.start_relocate (t : TypeRef) : (t.relocate f).start = f t.start := by
  cases t <;> rfl

/-! ### Operations and fragments -/

/-- A directive at another place. -/
def Directive.relocate (d : Directive) : Directive :=
  ⟨d.name, d.arguments.map (NamedValue.relocate f), f d.start⟩

/-- A type condition at another place. -/
def TypeCondition.relocate (c : TypeCondition) : TypeCondition := ⟨c.type.relocate f, f c.start⟩

mutual

/-- A selection at another place. -/
def Selection.relocate : Selection → Selection
  | .field ⟨alias?, x, args, dirs, sels?, start⟩ =>
    .field ⟨alias?, x, args.map (NamedValue.relocate f), dirs.map (Directive.relocate f),
      Selection.relocateOption sels?, f start⟩
  | .spread ⟨x, dirs, start⟩ => .spread ⟨x, dirs.map (Directive.relocate f), f start⟩
  | .inline ⟨condition?, dirs, sels, start⟩ =>
    .inline ⟨condition?.map (TypeCondition.relocate f), dirs.map (Directive.relocate f),
      Selection.relocateList sels, f start⟩

/-- A selection set at another place, if there is one. -/
def Selection.relocateOption : Option (List Selection) → Option (List Selection)
  | none => none
  | some sels => some (Selection.relocateList sels)

/-- Selections at other places. -/
def Selection.relocateList : List Selection → List Selection
  | [] => []
  | s :: ss => s.relocate :: Selection.relocateList ss

end

theorem Selection.relocateList_eq (ss : List Selection) :
    Selection.relocateList f ss = ss.map (Selection.relocate f) := by
  induction ss with
  | nil => rw [Selection.relocateList, List.map_nil]
  | cons s ss ih => rw [Selection.relocateList, List.map_cons, ih]

theorem Selection.relocateOption_eq (sels? : Option (List Selection)) :
    Selection.relocateOption f sels? = sels?.map (List.map (Selection.relocate f)) := by
  cases sels? <;> simp [Selection.relocateOption, Selection.relocateList_eq]

/-- A field at another place. -/
def Field.relocate (g : Field Selection) : Field Selection :=
  ⟨g.alias?, g.name, g.arguments.map (NamedValue.relocate f),
    g.directives.map (Directive.relocate f),
    g.selections?.map (List.map (Selection.relocate f)), f g.start⟩

theorem Selection.relocate_field (g : Field Selection) :
    (Selection.field g).relocate f = .field (g.relocate f) := by
  rw [Selection.relocate, Selection.relocateOption_eq, Field.relocate]

theorem Selection.relocate_spread (s : FragmentSpread) :
    (Selection.spread s).relocate f =
      .spread ⟨s.fragment, s.directives.map (Directive.relocate f), f s.start⟩ := by
  rw [Selection.relocate]

theorem Selection.relocate_inline (i : InlineFragment Selection) :
    (Selection.inline i).relocate f =
      .inline ⟨i.condition?.map (TypeCondition.relocate f), i.directives.map (Directive.relocate f),
        i.selections.map (Selection.relocate f), f i.start⟩ := by
  rw [Selection.relocate, Selection.relocateList_eq]

/-- A definition of a variable at another place. -/
def VariableDefinition.relocate (v : VariableDefinition) : VariableDefinition :=
  ⟨v.var.relocate f, v.type.relocate f, v.default?.map (Value.relocate f),
    v.directives.map (Directive.relocate f), f v.start⟩

/-- An operation at another place. -/
def Operation.relocate (o : Operation) : Operation :=
  ⟨o.type, o.isShorthand, o.name?, o.variableDefinitions.map (VariableDefinition.relocate f),
    o.directives.map (Directive.relocate f), o.selections.map (Selection.relocate f), f o.start⟩

/-- A fragment at another place. -/
def Fragment.relocate (g : Fragment) : Fragment :=
  ⟨g.name, g.condition.relocate f, g.directives.map (Directive.relocate f),
    g.selections.map (Selection.relocate f), f g.start⟩

/-! ### The type system -/

/-- A definition of an input value at another place. -/
def InputValueDefinition.relocate (v : InputValueDefinition) : InputValueDefinition :=
  ⟨v.description?, v.name, v.type.relocate f, v.default?.map (Value.relocate f),
    v.directives.map (Directive.relocate f), f v.start⟩

/-- A definition of a field at another place. -/
def FieldDefinition.relocate (d : FieldDefinition) : FieldDefinition :=
  ⟨d.description?, d.name, d.arguments.map (InputValueDefinition.relocate f), d.type.relocate f,
    d.directives.map (Directive.relocate f), f d.start⟩

/-- A definition of an enumeration value at another place. -/
def EnumValueDefinition.relocate (v : EnumValueDefinition) : EnumValueDefinition :=
  ⟨v.description?, v.value.relocate f, v.directives.map (Directive.relocate f), f v.start⟩

/-- What a type consists of, at another place. -/
def TypeBody.relocate : TypeBody → TypeBody
  | scalar => scalar
  | object interfaces fields? =>
    object (interfaces.map (NamedType.relocate f))
      (fields?.map (List.map (FieldDefinition.relocate f)))
  | interface interfaces fields? =>
    interface (interfaces.map (NamedType.relocate f))
      (fields?.map (List.map (FieldDefinition.relocate f)))
  | union members => union (members.map (NamedType.relocate f))
  | enum values? => enum (values?.map (List.map (EnumValueDefinition.relocate f)))
  | inputObject fields? =>
    inputObject (fields?.map (List.map (InputValueDefinition.relocate f)))

/-- A declaration of a type at another place. -/
def TypeDeclaration.relocate (t : TypeDeclaration) : TypeDeclaration :=
  ⟨t.name, t.directives.map (Directive.relocate f), t.body.relocate f⟩

/-- A root operation type at another place. -/
def RootOperationType.relocate (r : RootOperationType) : RootOperationType :=
  ⟨r.operation, r.type.relocate f, f r.start⟩

/-- A place for directives, at another place. -/
def DirectiveLocation.relocate : DirectiveLocation → DirectiveLocation
  | executable name start => executable name (f start)
  | typeSystem name start => typeSystem name (f start)

/-- A definition at another place. -/
def Definition.relocate : Definition → Definition
  | operation o => operation (o.relocate f)
  | fragment g => fragment (g.relocate f)
  | schema s =>
    schema ⟨s.description?, s.directives.map (Directive.relocate f),
      s.roots.map (RootOperationType.relocate f), f s.start⟩
  | schemaExtension e =>
    schemaExtension ⟨e.directives.map (Directive.relocate f),
      e.roots.map (RootOperationType.relocate f), f e.start⟩
  | directive d =>
    directive ⟨d.description?, d.name, d.arguments.map (InputValueDefinition.relocate f),
      d.repeatable, d.locations.map (DirectiveLocation.relocate f), f d.start⟩
  | type t => type ⟨t.description?, t.declaration.relocate f, f t.start⟩
  | typeExtension e => typeExtension ⟨e.declaration.relocate f, f e.start⟩

/-- A document at another place. -/
def Document.relocate (d : Document) : Document :=
  ⟨d.definitions.map (Definition.relocate f), f d.start⟩

/-- A document with all offsets zero. -/
def Document.origin (d : Document) : Document := d.relocate toZero

end GraphQL
