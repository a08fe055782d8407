import GraphQL.Tree.Document
import Mathlib.Order.Basic

/-!
# How deep trees nest

The depth of a tree is the largest number of constructs that stand within each other on a way from
its root: selection sets, an empty one too, values, a single token too, and types, where a name or
a pair of brackets counts and an exclamation mark does not.
-/

namespace GraphQL

/-- The largest depth of some items; zero without any. -/
def deepest {α : Type} (depth : α → Nat) : List α → Nat
  | [] => 0
  | a :: as => max (depth a) (deepest depth as)

/-- The depth of a part, or zero if it is absent. -/
def depthOf {α : Type} (depth : α → Nat) : Option α → Nat
  | none => 0
  | some a => depth a

/-! ### Values and types -/

mutual

/-- The depth of a value, itself counted. -/
def Value.depth : Value → Nat
  | .var _ | .int _ _ | .float _ _ | .string _ _ _ | .boolean _ _ | .null _ | .enum _ => 1
  | .list vs _ => Value.depthList vs + 1
  | .object fs _ => Value.depthFields fs + 1

/-- The largest depth of some values. -/
def Value.depthList : List Value → Nat
  | [] => 0
  | v :: vs => max v.depth (Value.depthList vs)

/-- The largest depth of some named values. -/
def Value.depthFields : List (NamedValue Value) → Nat
  | [] => 0
  | ⟨_, v, _⟩ :: fs => max v.depth (Value.depthFields fs)

end

/-- The depth of what a name is given. -/
def NamedValue.depth (a : NamedValue Value) : Nat := a.value.depth

theorem Value.depth_list (vs : List Value) (start : Nat) :
    (Value.list vs start).depth = deepest Value.depth vs + 1 := by
  have h : Value.depthList vs = deepest Value.depth vs := by
    induction vs with
    | nil => rw [Value.depthList, deepest]
    | cons v vs ih => rw [Value.depthList, deepest, ih]
  rw [Value.depth, h]

theorem Value.depth_object (fs : List (NamedValue Value)) (start : Nat) :
    (Value.object fs start).depth = deepest NamedValue.depth fs + 1 := by
  have h : Value.depthFields fs = deepest NamedValue.depth fs := by
    induction fs with
    | nil => rw [Value.depthFields, deepest]
    | cons f fs ih => rw [Value.depthFields, deepest, ih, NamedValue.depth]
  rw [Value.depth, h]

/-- The depth of a reference to a type, itself counted. -/
def TypeRef.depth : TypeRef → Nat
  | named _ => 1
  | list item _ => item.depth + 1
  | nonNull inner _ => inner.depth

/-- The depth of the arguments. -/
def Directive.depth (d : Directive) : Nat := deepest NamedValue.depth d.arguments

/-! ### Operations and fragments -/

mutual

/-- The depth of what a selection holds. -/
def Selection.depth : Selection → Nat
  | .field ⟨_, _, args, dirs, sels?, _⟩ =>
    max (deepest NamedValue.depth args)
      (max (deepest Directive.depth dirs) (Selection.depthOption sels?))
  | .spread ⟨_, dirs, _⟩ => deepest Directive.depth dirs
  | .inline ⟨_, dirs, sels, _⟩ =>
    max (deepest Directive.depth dirs) (Selection.depthList sels + 1)

/-- The depth of a selection set, itself counted, or zero if it is absent. -/
def Selection.depthOption : Option (List Selection) → Nat
  | none => 0
  | some sels => Selection.depthList sels + 1

/-- The largest depth of some selections. -/
def Selection.depthList : List Selection → Nat
  | [] => 0
  | s :: ss => max s.depth (Selection.depthList ss)

end

/-- The depth of a selection set, itself counted. -/
def selectionSetDepth (sels : List Selection) : Nat := deepest Selection.depth sels + 1

theorem Selection.depthList_eq (ss : List Selection) :
    Selection.depthList ss + 1 = selectionSetDepth ss := by
  have h : Selection.depthList ss = deepest Selection.depth ss := by
    induction ss with
    | nil => rw [Selection.depthList, deepest]
    | cons s ss ih => rw [Selection.depthList, deepest, ih]
  rw [h, selectionSetDepth]

theorem Selection.depth_field (f : Field Selection) :
    (Selection.field f).depth =
      max (deepest NamedValue.depth f.arguments)
        (max (deepest Directive.depth f.directives) (depthOf selectionSetDepth f.selections?)) := by
  obtain ⟨alias?, x, args, dirs, _ | sels, start⟩ := f
  · rw [Selection.depth, Selection.depthOption, depthOf]
  · rw [Selection.depth, Selection.depthOption, Selection.depthList_eq, depthOf]

theorem Selection.depth_inline (i : InlineFragment Selection) :
    (Selection.inline i).depth =
      max (deepest Directive.depth i.directives) (selectionSetDepth i.selections) := by
  rw [Selection.depth, Selection.depthList_eq]

/-- The depth of a definition of a variable. -/
def VariableDefinition.depth (v : VariableDefinition) : Nat :=
  max v.type.depth (max (depthOf Value.depth v.default?) (deepest Directive.depth v.directives))

/-- The depth of an operation. -/
def Operation.depth (o : Operation) : Nat :=
  max (deepest VariableDefinition.depth o.variableDefinitions)
    (max (deepest Directive.depth o.directives) (selectionSetDepth o.selections))

/-- The depth of a fragment. -/
def Fragment.depth (f : Fragment) : Nat :=
  max (deepest Directive.depth f.directives) (selectionSetDepth f.selections)

/-! ### The type system -/

/-- The depth of a definition of an input value. -/
def InputValueDefinition.depth (v : InputValueDefinition) : Nat :=
  max v.type.depth (max (depthOf Value.depth v.default?) (deepest Directive.depth v.directives))

/-- The depth of a definition of a field. -/
def FieldDefinition.depth (f : FieldDefinition) : Nat :=
  max (deepest InputValueDefinition.depth f.arguments)
    (max f.type.depth (deepest Directive.depth f.directives))

/-- The depth of a definition of an enumeration value. -/
def EnumValueDefinition.depth (v : EnumValueDefinition) : Nat :=
  deepest Directive.depth v.directives

/-- The depth of what a type consists of. -/
def TypeBody.depth : TypeBody → Nat
  | scalar | union _ => 0
  | object _ fields? | interface _ fields? => depthOf (deepest FieldDefinition.depth) fields?
  | enum values? => depthOf (deepest EnumValueDefinition.depth) values?
  | inputObject fields? => depthOf (deepest InputValueDefinition.depth) fields?

/-- The depth of a declaration of a type. -/
def TypeDeclaration.depth (d : TypeDeclaration) : Nat :=
  max (deepest Directive.depth d.directives) d.body.depth

/-- The depth of a definition. -/
def Definition.depth : Definition → Nat
  | operation o => o.depth
  | fragment f => f.depth
  | schema s => deepest Directive.depth s.directives
  | schemaExtension e => deepest Directive.depth e.directives
  | directive d => deepest InputValueDefinition.depth d.arguments
  | type t => t.declaration.depth
  | typeExtension e => e.declaration.depth

/-- The nesting depth of a document. -/
def Document.depth (d : Document) : Nat := deepest Definition.depth d.definitions

end GraphQL
