import GraphQL.Grammar.Rule

/-!
# The grammar of values and types

A value is a variable, a list, an object or a single token.  A type is a name or a type in
brackets, with an exclamation mark after it if it is non-null.  Values, types and selection sets
are the constructs that nest; `Rule.value` and `Rule.typeRef` refer to them, and `valueBody` and
`typeRefBody` say what they are.
-/

namespace GraphQL

open Rule

/-- The kinds that can start a value, as error messages list them. -/
def valueStart : List TokenKind :=
  [.punctuator .dollar, .int, .float, .string, .keyword .boolTrue, .keyword .boolFalse,
    .keyword .null, .name, .punctuator .bracketOpen, .punctuator .braceOpen]

/-- Whether a token of the kind is a value by itself. -/
def isScalarKind : TokenKind → Bool
  | .int | .float | .string => true
  | kind => kind.isNameLike

/-- Whether a string literal is written as a block string. -/
def isBlockLiteral (text : String) : Bool :=
  ['"', '"', '"'].isPrefixOf text.toList

/-- The value that a single token is. -/
def Value.ofToken (t : Token) : Value :=
  match t.lexeme with
  | .int text => .int text t.start
  | .float text => .float text t.start
  | .string text value => .string value (isBlockLiteral text) t.start
  | .keyword .boolTrue => .boolean true t.start
  | .keyword .boolFalse => .boolean false t.start
  | .keyword .null => .null t.start
  | _ => .enum ⟨t.text, t.start⟩

namespace Rule

/-- Any value. -/
def value : Rule Value := .nest .value

/-- Any type. -/
def typeRef : Rule TypeRef := .nest .typeRef

/-- Any selection set. -/
def selectionSet : Rule (List Selection) := .nest .selectionSet

/-- `$name` -/
def variableUse : Rule Variable := .located (Variable.mk <$> (punct .dollar *> name))

/-- `name: value` -/
def namedValue : Rule (NamedValue Value) :=
  .located (NamedValue.mk <$> (name <* punct .colon) <*> value)

/-- `(name: value ...)`, or nothing. -/
def arguments : Rule (List Argument) := parenthesized namedValue

/-- `@name(...)`, as often as there is a sign. -/
def directives : Rule (List Directive) :=
  .whileAt (· == .punctuator .atSign)
    (.located (Directive.mk <$> (punct .atSign *> name) <*> arguments))

/-- A name that stands for a type. -/
def namedType : Rule NamedType := .located (NamedType.mk <$> name)

/-- `= value`, or nothing. -/
def defaultValue : Rule (Option Value) :=
  optional (· == .punctuator .equals) (punct .equals *> value)

end Rule

/-- What a value is. -/
def valueBody : Rule Value :=
  .branch (· == .punctuator .dollar) (Value.var <$> variableUse) <|
  .branch (· == .punctuator .bracketOpen)
    (.located (Value.list <$> enclosed .bracketOpen .bracketClose value)) <|
  .branch (· == .punctuator .braceOpen)
    (.located (Value.object <$> enclosed .braceOpen .braceClose namedValue)) <|
  Value.ofToken <$> .token isScalarKind valueStart

/-- What a type is, before any exclamation mark. -/
def nullableType : Rule TypeRef :=
  .branch (· == .punctuator .bracketOpen)
    (.located (TypeRef.list <$> (punct .bracketOpen *> typeRef <* punct .bracketClose))) <|
  (fun t => TypeRef.named ⟨t.text, t.start⟩) <$>
    .token TokenKind.isNameLike [.name, .punctuator .bracketOpen]

/-- What a type is. -/
def typeRefBody : Rule TypeRef :=
  (fun t bang => if bang then .nonNull t t.start else t) <$>
    nullableType <*> present (.punctuator .bang)

end GraphQL
