import GraphQL.Export.Json
import GraphQL.Tree.Document

/-!
# Documents as JSON

A structure becomes an object with its fields, and a choice between structures an object whose
only field names the one chosen.  What is absent is null.
-/

namespace GraphQL

open Json (optional variant)

/-- Exports a variable. -/
def Variable.toJson (v : Variable) : Json :=
  .object [("name", .string v.name), ("start", .number v.start)]

/-- Exports a bare name that stands for a value. -/
def EnumValue.toJson (e : EnumValue) : Json :=
  .object [("value", .string e.value), ("start", .number e.start)]

mutual

/-- Exports a value. -/
def Value.toJson : Value → Json
  | .var v => variant "Variable" v.toJson
  | .int text start =>
    variant "Int" (.object [("value", .string text), ("start", .number start)])
  | .float text start =>
    variant "Float" (.object [("value", .string text), ("start", .number start)])
  | .string value block start =>
    variant "String" (.object [("value", .string value), ("block", .bool block),
      ("start", .number start)])
  | .boolean value start =>
    variant "Boolean" (.object [("value", .bool value), ("start", .number start)])
  | .null start => variant "Null" (.object [("start", .number start)])
  | .enum e => variant "Enum" e.toJson
  | .list values start =>
    variant "List" (.object [("values", .array (Value.listToJson values)),
      ("start", .number start)])
  | .object fields start =>
    variant "Object" (.object [("fields", .array (Value.fieldsToJson fields)),
      ("start", .number start)])

/-- Exports some values. -/
def Value.listToJson : List Value → List Json
  | [] => []
  | v :: vs => v.toJson :: Value.listToJson vs

/-- Exports names with values. -/
def Value.fieldsToJson : List (NamedValue Value) → List Json
  | [] => []
  | ⟨name, value, start⟩ :: fields =>
    .object [("name", .string name), ("value", value.toJson), ("start", .number start)] ::
      Value.fieldsToJson fields

end

/-- Exports a named type. -/
def NamedType.toJson (t : NamedType) : Json :=
  .object [("name", .string t.name), ("start", .number t.start)]

/-- Exports a reference to a type. -/
def TypeRef.toJson : TypeRef → Json
  | named t => variant "Named" t.toJson
  | list item start =>
    variant "List" (.object [("inner", item.toJson), ("start", .number start)])
  | nonNull inner start =>
    variant "NotNull" (.object [("inner", inner.toJson), ("start", .number start)])

/-- Exports a directive. -/
def Directive.toJson (d : Directive) : Json :=
  .object [("name", .string d.name), ("arguments", .array (Value.fieldsToJson d.arguments)),
    ("start", .number d.start)]

/-- Exports some directives. -/
def directivesToJson (ds : List Directive) : Json := .list Directive.toJson ds

/-- Exports a type condition. -/
def TypeCondition.toJson (c : TypeCondition) : Json :=
  .object [("named_type", c.type.toJson), ("start", .number c.start)]

mutual

/-- Exports a selection. -/
def Selection.toJson : Selection → Json
  | .field ⟨alias?, name, arguments, directives, selections?, start⟩ =>
    variant "Field" (.object [("alias", optional .string alias?), ("name", .string name),
      ("arguments", .array (Value.fieldsToJson arguments)),
      ("directives", directivesToJson directives),
      ("selection_set", Selection.optionToJson selections?), ("start", .number start)])
  | .spread s =>
    variant "FragmentSpread" (.object [("fragment_name", .string s.fragment),
      ("directives", directivesToJson s.directives), ("start", .number s.start)])
  | .inline ⟨condition?, directives, selections, start⟩ =>
    variant "InlineFragment" (.object [
      ("type_condition", optional TypeCondition.toJson condition?),
      ("directives", directivesToJson directives),
      ("selection_set", .array (Selection.listToJson selections)), ("start", .number start)])

/-- Exports an optional selection set. -/
def Selection.optionToJson : Option (List Selection) → Json
  | none => .null
  | some ss => .array (Selection.listToJson ss)

/-- Exports some selections. -/
def Selection.listToJson : List Selection → List Json
  | [] => []
  | s :: ss => s.toJson :: Selection.listToJson ss

end

/-- Exports a kind of operation. -/
def OperationType.toJson : OperationType → Json
  | query => .string "Query"
  | mutation => .string "Mutation"
  | subscription => .string "Subscription"

/-- Exports the definition of a variable. -/
def VariableDefinition.toJson (v : VariableDefinition) : Json :=
  .object [("variable", v.var.toJson), ("var_type", v.type.toJson),
    ("default_value", optional Value.toJson v.default?),
    ("directives", directivesToJson v.directives), ("start", .number v.start)]

/-- Exports an operation. -/
def Operation.toJson (o : Operation) : Json :=
  .object [("operation_type", o.type.toJson), ("shorthand", .bool o.isShorthand),
    ("name", optional .string o.name?),
    ("variable_definitions", .list VariableDefinition.toJson o.variableDefinitions),
    ("directives", directivesToJson o.directives),
    ("selection_set", .array (Selection.listToJson o.selections)), ("start", .number o.start)]

/-- Exports a named fragment. -/
def Fragment.toJson (f : Fragment) : Json :=
  .object [("name", .string f.name), ("type_condition", f.condition.toJson),
    ("directives", directivesToJson f.directives),
    ("selection_set", .array (Selection.listToJson f.selections)), ("start", .number f.start)]

/-- Exports the definition of an argument or input field. -/
def InputValueDefinition.toJson (i : InputValueDefinition) : Json :=
  .object [("description", optional .string i.description?), ("name", .string i.name),
    ("value_type", i.type.toJson), ("default_value", optional Value.toJson i.default?),
    ("directives", directivesToJson i.directives), ("start", .number i.start)]

/-- Exports the definition of a field. -/
def FieldDefinition.toJson (f : FieldDefinition) : Json :=
  .object [("description", optional .string f.description?), ("name", .string f.name),
    ("arguments", .list InputValueDefinition.toJson f.arguments),
    ("field_type", f.type.toJson), ("directives", directivesToJson f.directives),
    ("start", .number f.start)]

/-- Exports the definition of an enumeration's value. -/
def EnumValueDefinition.toJson (e : EnumValueDefinition) : Json :=
  .object [("description", optional .string e.description?), ("enum_value", e.value.toJson),
    ("directives", directivesToJson e.directives), ("start", .number e.start)]

/-- The name of the variant that the body of a type is, and the fields for what it declares. -/
def TypeBody.toFields : TypeBody → String × List (String × Json)
  | scalar => ("Scalar", [])
  | object interfaces fields? =>
    ("Object", [("implements_interfaces", .list NamedType.toJson interfaces),
      ("fields", optional (Json.list FieldDefinition.toJson) fields?)])
  | interface interfaces fields? =>
    ("Interface", [("implements_interfaces", .list NamedType.toJson interfaces),
      ("fields", optional (Json.list FieldDefinition.toJson) fields?)])
  | union members => ("Union", [("member_types", .list NamedType.toJson members)])
  | enum values? =>
    ("Enum", [("values", optional (Json.list EnumValueDefinition.toJson) values?)])
  | inputObject fields? =>
    ("InputObject", [("fields", optional (Json.list InputValueDefinition.toJson) fields?)])

/-- Exports the declaration of a type, with more fields for where it stands. -/
def TypeDeclaration.toJson (t : TypeDeclaration) (more : List (String × Json)) : Json :=
  let (name, fields) := t.body.toFields
  variant name <| .object <|
    [("name", .string t.name), ("directives", directivesToJson t.directives)] ++ fields ++ more

/-- Exports the definition of a type. -/
def TypeDefinition.toJson (t : TypeDefinition) : Json :=
  t.declaration.toJson
    [("description", optional .string t.description?), ("start", .number t.start)]

/-- Exports the extension of a type. -/
def TypeExtension.toJson (e : TypeExtension) : Json :=
  e.declaration.toJson [("start", .number e.start)]

/-- Exports the type at the root of a kind of operation. -/
def RootOperationType.toJson (r : RootOperationType) : Json :=
  .object [("operation_type", r.operation.toJson), ("named_type", r.type.toJson),
    ("start", .number r.start)]

/-- Exports the definition of the schema. -/
def SchemaDefinition.toJson (s : SchemaDefinition) : Json :=
  .object [("description", optional .string s.description?),
    ("directives", directivesToJson s.directives),
    ("root_operation_types", .list RootOperationType.toJson s.roots),
    ("start", .number s.start)]

/-- Exports the extension of the schema. -/
def SchemaExtension.toJson (e : SchemaExtension) : Json :=
  .object [("directives", directivesToJson e.directives),
    ("root_operation_types", .list RootOperationType.toJson e.roots),
    ("start", .number e.start)]

/-- Exports a place listed in a directive definition. -/
def DirectiveLocation.toJson (l : DirectiveLocation) : Json :=
  let location := Json.object [("name", .string l.name), ("start", .number l.start)]
  match l with
  | .executable _ _ => variant "Executable" location
  | .typeSystem _ _ => variant "TypeSystem" location

/-- Exports the definition of a directive. -/
def DirectiveDefinition.toJson (d : DirectiveDefinition) : Json :=
  .object [("description", optional .string d.description?), ("name", .string d.name),
    ("arguments", .list InputValueDefinition.toJson d.arguments),
    ("repeatable", .bool d.repeatable),
    ("locations", .list DirectiveLocation.toJson d.locations), ("start", .number d.start)]

/-- Exports a definition. -/
def Definition.toJson : Definition → Json
  | operation o => variant "Operation" o.toJson
  | fragment f => variant "Fragment" f.toJson
  | schema s => variant "Schema" s.toJson
  | schemaExtension e => variant "SchemaExtension" e.toJson
  | directive d => variant "Directive" d.toJson
  | type t => variant "Type" t.toJson
  | typeExtension e => variant "TypeExtension" e.toJson

/-- Exports a document. -/
def Document.toJson (d : Document) : Json :=
  .object [("definitions", .list Definition.toJson d.definitions), ("start", .number d.start)]

end GraphQL
