import GraphQL.Tree.Document

/-!
# Nodes

Every part of a document that has a place of its own is a *node*: the document, its definitions,
selections, values, types and so on.  `Node.children` gives the nodes directly inside a node in
source order, and `Node.count` how many nodes there are in it, itself included.
-/

namespace GraphQL

/-- A part of a document. -/
inductive Node where
  | document (d : Document)
  | definition (d : Definition)
  | variableDefinition (v : VariableDefinition)
  | typeCondition (c : TypeCondition)
  | selection (s : Selection)
  | directive (d : Directive)
  | argument (a : Argument)
  | value (v : Value)
  | objectField (f : ObjectField)
  | typeRef (t : TypeRef)
  | rootOperationType (r : RootOperationType)
  | fieldDefinition (f : FieldDefinition)
  | inputValueDefinition (i : InputValueDefinition)
  | enumValueDefinition (e : EnumValueDefinition)
  | directiveLocation (l : DirectiveLocation)
  deriving DecidableEq, Repr

/-- The kind of a node. -/
inductive NodeKind where
  | document
  | operation
  | fragment
  | field
  | fragmentSpread
  | inlineFragment
  | var
  | intValue
  | floatValue
  | stringValue
  | booleanValue
  | nullValue
  | enumValue
  | listValue
  | objectValue
  | objectField
  | namedType
  | listType
  | nonNullType
  | schemaDefinition
  | scalarDefinition
  | objectDefinition
  | interfaceDefinition
  | unionDefinition
  | enumDefinition
  | inputObjectDefinition
  | directiveDefinition
  | fieldDefinition
  | inputValueDefinition
  | enumValueDefinition
  | rootOperationType
  | schemaExtension
  | scalarExtension
  | objectExtension
  | interfaceExtension
  | unionExtension
  | enumExtension
  | inputObjectExtension
  | directive
  | argument
  | variableDefinition
  | typeCondition
  | executableLocation
  | typeSystemLocation
  deriving DecidableEq, Repr

/-! ### Kinds -/

/-- The kind of a value. -/
def Value.kind : Value → NodeKind
  | var _ => .var
  | int _ _ => .intValue
  | float _ _ => .floatValue
  | string _ _ _ => .stringValue
  | boolean _ _ => .booleanValue
  | null _ => .nullValue
  | enum _ => .enumValue
  | list _ _ => .listValue
  | object _ _ => .objectValue

/-- The kind of a reference to a type. -/
def TypeRef.kind : TypeRef → NodeKind
  | named _ => .namedType
  | list _ _ => .listType
  | nonNull _ _ => .nonNullType

/-- The kind of a selection. -/
def Selection.kind : Selection → NodeKind
  | field _ => .field
  | spread _ => .fragmentSpread
  | inline _ => .inlineFragment

/-- The kind of a definition of a type, by what it declares. -/
def TypeBody.definitionKind : TypeBody → NodeKind
  | scalar => .scalarDefinition
  | object _ _ => .objectDefinition
  | interface _ _ => .interfaceDefinition
  | union _ => .unionDefinition
  | enum _ => .enumDefinition
  | inputObject _ => .inputObjectDefinition

/-- The kind of an extension of a type, by what it declares. -/
def TypeBody.extensionKind : TypeBody → NodeKind
  | scalar => .scalarExtension
  | object _ _ => .objectExtension
  | interface _ _ => .interfaceExtension
  | union _ => .unionExtension
  | enum _ => .enumExtension
  | inputObject _ => .inputObjectExtension

/-- The kind of a definition. -/
def Definition.kind : Definition → NodeKind
  | operation _ => .operation
  | fragment _ => .fragment
  | schema _ => .schemaDefinition
  | schemaExtension _ => .schemaExtension
  | directive _ => .directiveDefinition
  | type t => t.declaration.body.definitionKind
  | typeExtension e => e.declaration.body.extensionKind

/-- The kind of a place listed in a directive definition. -/
def DirectiveLocation.kind : DirectiveLocation → NodeKind
  | executable _ _ => .executableLocation
  | typeSystem _ _ => .typeSystemLocation

namespace Node

/-- The kind of a node. -/
def kind : Node → NodeKind
  | document _ => .document
  | definition d => d.kind
  | variableDefinition _ => .variableDefinition
  | typeCondition _ => .typeCondition
  | selection s => s.kind
  | directive _ => .directive
  | argument _ => .argument
  | value v => v.kind
  | objectField _ => .objectField
  | typeRef t => t.kind
  | rootOperationType _ => .rootOperationType
  | fieldDefinition _ => .fieldDefinition
  | inputValueDefinition _ => .inputValueDefinition
  | enumValueDefinition _ => .enumValueDefinition
  | directiveLocation l => l.kind

/-- The offset of a node's first token. -/
def start : Node → Nat
  | document d => d.start
  | definition d => d.start
  | variableDefinition v => v.start
  | typeCondition c => c.start
  | selection s => s.start
  | directive d => d.start
  | argument a => a.start
  | value v => v.start
  | objectField f => f.start
  | typeRef t => t.start
  | rootOperationType r => r.start
  | fieldDefinition f => f.start
  | inputValueDefinition i => i.start
  | enumValueDefinition e => e.start
  | directiveLocation l => l.start

/-- Whether the node is an operation or a fragment. -/
def isExecutableDefinition : Node → Bool
  | definition d => d.isExecutable
  | _ => false

/-- Whether the node defines the schema, a type or a directive. -/
def isTypeSystemDefinition : Node → Bool
  | definition d => d.isTypeSystemDefinition
  | _ => false

/-- Whether the node extends the schema or a type. -/
def isTypeSystemExtension : Node → Bool
  | definition d => d.isTypeSystemExtension
  | _ => false

/-- Whether the node is a value or the use of a variable. -/
def isValue : Node → Bool
  | value _ => true
  | _ => false

/-- The field that the node is. -/
def field? : Node → Option (Field Selection)
  | selection (.field f) => some f
  | _ => none

/-- The text of the integer that the node is. -/
def intText? : Node → Option String
  | value (.int text _) => some text
  | _ => none

/-- The operation that the node is. -/
def operation? : Node → Option Operation
  | definition (.operation o) => some o
  | _ => none

end Node

/-! ### Children -/

/-- The nodes directly inside a value. -/
def Value.children : Value → List Node
  | list values _ => values.map Node.value
  | object fields _ => fields.map Node.objectField
  | _ => []

/-- The nodes directly inside a reference to a type. -/
def TypeRef.children : TypeRef → List Node
  | named _ => []
  | list item _ => [.typeRef item]
  | nonNull inner _ => [.typeRef inner]

/-- The nodes directly inside a selection. -/
def Selection.children : Selection → List Node
  | field f =>
    f.arguments.map Node.argument ++ f.directives.map Node.directive ++
      (f.selections?.getD []).map Node.selection
  | spread s => s.directives.map Node.directive
  | inline i =>
    i.condition?.toList.map Node.typeCondition ++ i.directives.map Node.directive ++
      i.selections.map Node.selection

/-- The nodes directly inside the declaration of a type. -/
def TypeDeclaration.children (t : TypeDeclaration) : List Node :=
  let directives := t.directives.map Node.directive
  match t.body with
  | .scalar => directives
  | .object interfaces fields? | .interface interfaces fields? =>
    interfaces.map (.typeRef ∘ .named) ++ directives ++
      (fields?.getD []).map Node.fieldDefinition
  | .union members => directives ++ members.map (.typeRef ∘ .named)
  | .enum values? => directives ++ (values?.getD []).map Node.enumValueDefinition
  | .inputObject fields? => directives ++ (fields?.getD []).map Node.inputValueDefinition

/-- The nodes directly inside a definition. -/
def Definition.children : Definition → List Node
  | operation o =>
    o.variableDefinitions.map Node.variableDefinition ++ o.directives.map Node.directive ++
      o.selections.map Node.selection
  | fragment f =>
    .typeCondition f.condition :: f.directives.map Node.directive ++
      f.selections.map Node.selection
  | schema s => s.directives.map Node.directive ++ s.roots.map Node.rootOperationType
  | schemaExtension e => e.directives.map Node.directive ++ e.roots.map Node.rootOperationType
  | directive d =>
    d.arguments.map Node.inputValueDefinition ++ d.locations.map Node.directiveLocation
  | type t => t.declaration.children
  | typeExtension e => e.declaration.children

/-- The nodes directly inside a node, in source order. -/
def Node.children : Node → List Node
  | document d => d.definitions.map Node.definition
  | definition d => d.children
  | variableDefinition v =>
    .value (.var v.var) :: .typeRef v.type :: v.default?.toList.map Node.value ++
      v.directives.map Node.directive
  | typeCondition c => [.typeRef (.named c.type)]
  | selection s => s.children
  | directive d => d.arguments.map Node.argument
  | argument a => [.value a.value]
  | value v => v.children
  | objectField f => [.value f.value]
  | typeRef t => t.children
  | rootOperationType r => [.typeRef (.named r.type)]
  | fieldDefinition f =>
    f.arguments.map Node.inputValueDefinition ++ .typeRef f.type ::
      f.directives.map Node.directive
  | inputValueDefinition i =>
    .typeRef i.type :: i.default?.toList.map Node.value ++ i.directives.map Node.directive
  | enumValueDefinition e => .value (.enum e.value) :: e.directives.map Node.directive
  | directiveLocation _ => []

/-! ### Counting -/

mutual

/-- The number of nodes in a value. -/
def Value.count : Value → Nat
  | .list values _ => 1 + Value.countList values
  | .object fields _ => 1 + Value.countFields fields
  | _ => 1

/-- The number of nodes in some values. -/
def Value.countList : List Value → Nat
  | [] => 0
  | v :: vs => v.count + Value.countList vs

/-- The number of nodes in some fields of an object value. -/
def Value.countFields : List (NamedValue Value) → Nat
  | [] => 0
  | ⟨_, v, _⟩ :: fs => 1 + v.count + Value.countFields fs

end

/-- The number of nodes in a reference to a type. -/
def TypeRef.count : TypeRef → Nat
  | named _ => 1
  | list item _ => 1 + item.count
  | nonNull inner _ => 1 + inner.count

/-- The sum of the counts of some trees. -/
def totalCount {α : Type} (count : α → Nat) : List α → Nat
  | [] => 0
  | tree :: trees => count tree + totalCount count trees

/-- The number of nodes in a directive. -/
def Directive.count (d : Directive) : Nat := 1 + Value.countFields d.arguments

/-- The number of nodes in some directives. -/
def countDirectives (ds : List Directive) : Nat := totalCount Directive.count ds

mutual

/-- The number of nodes in a selection. -/
def Selection.count : Selection → Nat
  | .field ⟨_, _, arguments, directives, selections?, _⟩ =>
    1 + Value.countFields arguments + countDirectives directives +
      Selection.countOption selections?
  | .spread s => 1 + countDirectives s.directives
  | .inline ⟨condition?, directives, selections, _⟩ =>
    1 + 2 * condition?.toList.length + countDirectives directives +
      Selection.countList selections

/-- The number of nodes in an optional selection set. -/
def Selection.countOption : Option (List Selection) → Nat
  | none => 0
  | some ss => Selection.countList ss

/-- The number of nodes in some selections. -/
def Selection.countList : List Selection → Nat
  | [] => 0
  | s :: ss => s.count + Selection.countList ss

end

/-- The number of nodes in an optional value. -/
def countDefault (v? : Option Value) : Nat := (v?.map Value.count).getD 0

/-- The number of nodes in the definition of an argument or input field. -/
def InputValueDefinition.count (i : InputValueDefinition) : Nat :=
  1 + i.type.count + countDefault i.default? + countDirectives i.directives

/-- The number of nodes in the definition of a field. -/
def FieldDefinition.count (f : FieldDefinition) : Nat :=
  1 + totalCount InputValueDefinition.count f.arguments + f.type.count +
    countDirectives f.directives

/-- The number of nodes in the definition of an enumeration's value. -/
def EnumValueDefinition.count (e : EnumValueDefinition) : Nat :=
  2 + countDirectives e.directives

/-- The number of nodes in the definition of a variable. -/
def VariableDefinition.count (v : VariableDefinition) : Nat :=
  2 + v.type.count + countDefault v.default? + countDirectives v.directives

/-- The number of nodes inside the body of a type. -/
def TypeBody.count : TypeBody → Nat
  | scalar => 0
  | object interfaces fields? | interface interfaces fields? =>
    interfaces.length + totalCount FieldDefinition.count (fields?.getD [])
  | union members => members.length
  | enum values? => totalCount EnumValueDefinition.count (values?.getD [])
  | inputObject fields? => totalCount InputValueDefinition.count (fields?.getD [])

/-- The number of nodes in a definition. -/
def Definition.count : Definition → Nat
  | operation o =>
    1 + totalCount VariableDefinition.count o.variableDefinitions + countDirectives o.directives +
      Selection.countList o.selections
  | fragment f => 3 + countDirectives f.directives + Selection.countList f.selections
  | schema s => 1 + countDirectives s.directives + 2 * s.roots.length
  | schemaExtension e => 1 + countDirectives e.directives + 2 * e.roots.length
  | directive d => 1 + totalCount InputValueDefinition.count d.arguments + d.locations.length
  | type t => 1 + countDirectives t.declaration.directives + t.declaration.body.count
  | typeExtension e => 1 + countDirectives e.declaration.directives + e.declaration.body.count

/-- The number of nodes in a node, itself included. -/
def Node.count : Node → Nat
  | document d => 1 + totalCount Definition.count d.definitions
  | definition d => d.count
  | variableDefinition v => v.count
  | typeCondition _ => 2
  | selection s => s.count
  | directive d => d.count
  | argument a => 1 + a.value.count
  | value v => v.count
  | objectField f => 1 + f.value.count
  | typeRef t => t.count
  | rootOperationType _ => 2
  | fieldDefinition f => f.count
  | inputValueDefinition i => i.count
  | enumValueDefinition e => e.count
  | directiveLocation _ => 1

end GraphQL
