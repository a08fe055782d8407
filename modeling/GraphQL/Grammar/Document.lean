import GraphQL.Grammar.Reading
import GraphQL.Grammar.TypeSystem

/-!
# The grammar of documents

A document is definitions up to the end of the input.
-/

namespace GraphQL

/-- The kinds that can start a definition. -/
def definitionStart : List TokenKind :=
  [.punctuator .braceOpen, .keyword .query, .keyword .mutation, .keyword .subscription,
    .keyword .fragment, .keyword .schema, .keyword .scalar, .keyword .type, .keyword .interface,
    .keyword .union, .keyword .enum, .keyword .input, .keyword .directive, .keyword .extend,
    .string]

/-- Whether a token of the kind starts an operation. -/
def startsOperation (kind : TokenKind) : Bool :=
  kind == .punctuator .braceOpen || isOperationKeyword kind

/-- Whether a token of the kind starts a definition in the type system. -/
def startsTypeSystem (kind : TokenKind) : Bool := kind == .string || definitionKinds.contains kind

/-- A definition of any sort. -/
def definition : Rule Definition :=
  .branch (· == .keyword .fragment) (Definition.fragment <$> fragment) <|
  .branch startsOperation (Definition.operation <$> operation) <|
  .branch (· == .keyword .extend) typeSystemExtension <|
  .branch startsTypeSystem typeSystemDefinition <|
  .stuck definitionStart

/-- Definitions as long as there is a token. -/
def definitions : Rule (List Definition) := .whileAt (fun _ => true) definition

/-- Reads a whole document within a nesting budget. -/
def readDocument (budget : Nat) (ts : List Token) : Except Failure Document :=
  match definitions.read (readNest Nest.body budget) ts with
  | .ok (ds, _) => .ok ⟨ds, (ts.head?.map Token.start).getD 0⟩
  | .error e => .error e

end GraphQL
