import GraphQL.Tree.TypeSystem

/-!
# Documents

A document is a list of definitions of all sorts, in source order.
-/

namespace GraphQL

/-- A definition at the top level of a document. -/
inductive Definition where
  /-- An operation. -/
  | operation (o : Operation)
  /-- A named fragment. -/
  | fragment (f : Fragment)
  /-- A definition of the schema. -/
  | schema (s : SchemaDefinition)
  /-- An extension of the schema. -/
  | schemaExtension (e : SchemaExtension)
  /-- A definition of a directive. -/
  | directive (d : DirectiveDefinition)
  /-- A definition of a type. -/
  | type (t : TypeDefinition)
  /-- An extension of a type. -/
  | typeExtension (e : TypeExtension)
  deriving DecidableEq, Repr

namespace Definition

/-- The offset of the first token. -/
def start : Definition → Nat
  | operation o => o.start
  | fragment f => f.start
  | schema s => s.start
  | schemaExtension e => e.start
  | directive d => d.start
  | type t => t.start
  | typeExtension e => e.start

/-- Whether the definition is an operation or a fragment. -/
def isExecutable : Definition → Bool
  | operation _ | fragment _ => true
  | _ => false

/-- Whether the definition defines a schema, a type or a directive. -/
def isTypeSystemDefinition : Definition → Bool
  | schema _ | directive _ | type _ => true
  | _ => false

/-- Whether the definition extends the schema or a type. -/
def isTypeSystemExtension : Definition → Bool
  | schemaExtension _ | typeExtension _ => true
  | _ => false

end Definition

/-- A whole document.  It starts at its first token, or at zero if it has none. -/
structure Document where
  /-- The definitions, in source order. -/
  definitions : List Definition
  /-- The offset of the first token, or zero. -/
  start : Nat
  deriving DecidableEq, Repr

namespace Document

/-- The operations and fragments. -/
def executableDefinitions (d : Document) : List Definition :=
  d.definitions.filter Definition.isExecutable

/-- The definitions of the schema, types and directives. -/
def typeSystemDefinitions (d : Document) : List Definition :=
  d.definitions.filter Definition.isTypeSystemDefinition

/-- The extensions of the schema and of types. -/
def typeSystemExtensions (d : Document) : List Definition :=
  d.definitions.filter Definition.isTypeSystemExtension

end Document

end GraphQL
