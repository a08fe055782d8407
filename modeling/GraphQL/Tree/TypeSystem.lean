import GraphQL.Tree.Executable

/-!
# Schemas, types and directives

The type-system part of a document.  A definition of a type and an extension of a type declare the
same things (`TypeDeclaration`); only a definition can have a description.  A block in braces that
is not written is told apart from one that is empty.
-/

namespace GraphQL

/-- An argument of a field or directive, or a field of an input object.  It starts at the
description, if there is one. -/
structure InputValueDefinition where
  /-- The description. -/
  description? : Option String
  /-- The name. -/
  name : String
  /-- Its type. -/
  type : TypeRef
  /-- Its value if none is given. -/
  default? : Option Value
  /-- The directives applied to it. -/
  directives : List Directive
  /-- The offset of the first token. -/
  start : Nat
  deriving DecidableEq, Repr

/-- A field of an object or interface. -/
structure FieldDefinition where
  /-- The description. -/
  description? : Option String
  /-- The name. -/
  name : String
  /-- The arguments that the field takes. -/
  arguments : List InputValueDefinition
  /-- Its type. -/
  type : TypeRef
  /-- The directives applied to it. -/
  directives : List Directive
  /-- The offset of the first token. -/
  start : Nat
  deriving DecidableEq, Repr

/-- A value of an enumeration. -/
structure EnumValueDefinition where
  /-- The description. -/
  description? : Option String
  /-- The value. -/
  value : EnumValue
  /-- The directives applied to it. -/
  directives : List Directive
  /-- The offset of the first token. -/
  start : Nat
  deriving DecidableEq, Repr

/-- What a type declares, by the sort of type. -/
inductive TypeBody where
  /-- A type without parts. -/
  | scalar
  /-- An object type. -/
  | object (interfaces : List NamedType) (fields? : Option (List FieldDefinition))
  /-- An interface type. -/
  | interface (interfaces : List NamedType) (fields? : Option (List FieldDefinition))
  /-- A choice between object types. -/
  | union (members : List NamedType)
  /-- An enumeration. -/
  | enum (values? : Option (List EnumValueDefinition))
  /-- An object type for input values. -/
  | inputObject (fields? : Option (List InputValueDefinition))
  deriving DecidableEq, Repr

/-- A named type with its directives and what it declares. -/
structure TypeDeclaration where
  /-- The name of the type. -/
  name : String
  /-- The directives applied to it. -/
  directives : List Directive
  /-- What the type declares. -/
  body : TypeBody
  deriving DecidableEq, Repr

/-- A definition of a type. -/
structure TypeDefinition where
  /-- The description. -/
  description? : Option String
  /-- The type. -/
  declaration : TypeDeclaration
  /-- The offset of the first token. -/
  start : Nat
  deriving DecidableEq, Repr

/-- An extension of a type. -/
structure TypeExtension where
  /-- What the type gains. -/
  declaration : TypeDeclaration
  /-- The offset of the keyword `extend`. -/
  start : Nat
  deriving DecidableEq, Repr

/-- The type at the root of one kind of operation. -/
structure RootOperationType where
  /-- The kind of operation. -/
  operation : OperationType
  /-- The type at its root. -/
  type : NamedType
  /-- The offset of the first token. -/
  start : Nat
  deriving DecidableEq, Repr

/-- A definition of the schema. -/
structure SchemaDefinition where
  /-- The description. -/
  description? : Option String
  /-- The directives applied to it. -/
  directives : List Directive
  /-- The types at the roots of operations. -/
  roots : List RootOperationType
  /-- The offset of the first token. -/
  start : Nat
  deriving DecidableEq, Repr

/-- An extension of the schema. -/
structure SchemaExtension where
  /-- The directives applied to it. -/
  directives : List Directive
  /-- Further types at the roots of operations. -/
  roots : List RootOperationType
  /-- The offset of the keyword `extend`. -/
  start : Nat
  deriving DecidableEq, Repr

/-- The names of the places in executable definitions where a directive can stand. -/
def executablePlaces : List String :=
  ["QUERY", "MUTATION", "SUBSCRIPTION", "FIELD", "FRAGMENT_DEFINITION", "FRAGMENT_SPREAD",
    "INLINE_FRAGMENT", "VARIABLE_DEFINITION"]

/-- The names of the places in the type system where a directive can stand. -/
def typeSystemPlaces : List String :=
  ["SCHEMA", "SCALAR", "OBJECT", "FIELD_DEFINITION", "ARGUMENT_DEFINITION", "INTERFACE", "UNION",
    "ENUM", "ENUM_VALUE", "INPUT_OBJECT", "INPUT_FIELD_DEFINITION"]

/-- A place listed in a directive definition, with the offset of its name. -/
inductive DirectiveLocation where
  /-- A place in executable definitions. -/
  | executable (name : String) (start : Nat)
  /-- A place in the type system. -/
  | typeSystem (name : String) (start : Nat)
  deriving DecidableEq, Repr

namespace DirectiveLocation

/-- The name of the place. -/
def name : DirectiveLocation → String
  | executable name _ | typeSystem name _ => name

/-- The offset of the name. -/
def start : DirectiveLocation → Nat
  | executable _ start | typeSystem _ start => start

end DirectiveLocation

/-- A definition of a directive. -/
structure DirectiveDefinition where
  /-- The description. -/
  description? : Option String
  /-- The name, without the sign. -/
  name : String
  /-- The arguments that the directive takes. -/
  arguments : List InputValueDefinition
  /-- Whether it can stand more than once in one place. -/
  repeatable : Bool
  /-- The places where it can stand. -/
  locations : List DirectiveLocation
  /-- The offset of the first token. -/
  start : Nat
  deriving DecidableEq, Repr

end GraphQL
