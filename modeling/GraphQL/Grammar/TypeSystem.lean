import GraphQL.Grammar.Executable

/-!
# The grammar of the type system

A definition may start with a string literal that describes it.  An extension is the keyword
`extend` and what a definition without description is, except that the schema's block may be
absent; the two halves of the grammar are written out separately.  The interfaces of a type need no
separator, but then a keyword ends their list.
-/

namespace GraphQL

open Rule

/-- The string literal that describes a definition, if there is one. -/
def description : Rule (Option String) := optional (· == .string) (Token.value <$> one .string)

/-- `name: Type = default @directives`, with a description. -/
def inputValueDefinition : Rule InputValueDefinition :=
  .located <|
    InputValueDefinition.mk <$> description <*> (name <* punct .colon) <*> typeRef <*>
      defaultValue <*> directives

/-- `name(arguments): Type @directives`, with a description. -/
def fieldDefinition : Rule FieldDefinition :=
  .located <|
    FieldDefinition.mk <$> description <*> name <*> parenthesized inputValueDefinition <*>
      (punct .colon *> typeRef) <*> directives

/-- A name that can stand for a value: not a Boolean and not null. -/
def enumValue : Rule EnumValue :=
  .located (EnumValue.mk <$> nameExcept [.boolTrue, .boolFalse, .null])

/-- `NAME @directives`, with a description. -/
def enumValueDefinition : Rule EnumValueDefinition :=
  .located (EnumValueDefinition.mk <$> description <*> enumValue <*> directives)

/-- Whether a token of the kind continues a list of interfaces. -/
def continuesInterfaces (kind : TokenKind) : Bool :=
  kind == .punctuator .ampersand || kind == .name

/-- `implements A & B`, or nothing; the ampersands are optional. -/
def interfaces : Rule (List NamedType) :=
  (Option.getD · []) <$> optional (· == .keyword .implements)
    (keyword .implements *> present (.punctuator .ampersand) *>
      (List.cons <$> namedType <*>
        .whileAt continuesInterfaces (present (.punctuator .ampersand) *> namedType)))

/-- `A | B`, with an optional vertical bar before the first. -/
def alternatives {α : Type} (item : Rule α) : Rule (List α) :=
  present (.punctuator .pipe) *>
    (List.cons <$> item <*> .whileAt (· == .punctuator .pipe) (punct .pipe *> item))

/-- `= A | B`, or nothing. -/
def unionMembers : Rule (List NamedType) :=
  (Option.getD · []) <$> optional (· == .punctuator .equals)
    (punct .equals *> alternatives namedType)

/-- `query: Type` -/
def rootOperationType : Rule RootOperationType :=
  .located (RootOperationType.mk <$> (operationType <* punct .colon) <*> namedType)

/-- The root operation types in braces. -/
def rootOperationTypes : Rule (List RootOperationType) :=
  enclosed .braceOpen .braceClose rootOperationType

/-- The place that a token names. -/
def DirectiveLocation.ofToken? (t : Token) : Option DirectiveLocation :=
  if executablePlaces.contains t.text then some (.executable t.text t.start)
  else if typeSystemPlaces.contains t.text then some (.typeSystem t.text t.start)
  else none

/-- `directive @name(arguments) repeatable on PLACE | PLACE`, after the keyword. -/
def directiveDefinition : Rule (Option String → Nat → DirectiveDefinition) :=
  (fun name args repeatable places description? start =>
    ⟨description?, name, args, repeatable, places, start⟩) <$>
    (punct .atSign *> name) <*> parenthesized inputValueDefinition <*>
      (present (.keyword .repeatable) <* keyword .on) <*>
      alternatives (.place DirectiveLocation.ofToken?)

/-- The kinds that can follow a description. -/
def definitionKinds : List TokenKind :=
  [.keyword .schema, .keyword .scalar, .keyword .type, .keyword .interface, .keyword .union,
    .keyword .enum, .keyword .input, .keyword .directive]

/-- The kinds that can follow `extend`. -/
def extensionKinds : List TokenKind :=
  [.keyword .schema, .keyword .scalar, .keyword .type, .keyword .interface, .keyword .union,
    .keyword .enum, .keyword .input]

/-- What defines a type, from its keyword on. -/
def typeDefinition : Rule TypeDeclaration :=
  .branch (· == .keyword .scalar)
    (keyword .scalar *> ((⟨·, ·, .scalar⟩) <$> name <*> directives)) <|
  .branch (· == .keyword .type)
    (keyword .type *> ((fun name is dirs fields? => ⟨name, dirs, .object is fields?⟩) <$>
      name <*> interfaces <*> directives <*>
      enclosed? .braceOpen .braceClose fieldDefinition)) <|
  .branch (· == .keyword .interface)
    (keyword .interface *> ((fun name is dirs fields? => ⟨name, dirs, .interface is fields?⟩) <$>
      name <*> interfaces <*> directives <*>
      enclosed? .braceOpen .braceClose fieldDefinition)) <|
  .branch (· == .keyword .union)
    (keyword .union *> ((⟨·, ·, .union ·⟩) <$> name <*> directives <*> unionMembers)) <|
  .branch (· == .keyword .enum)
    (keyword .enum *> ((⟨·, ·, .enum ·⟩) <$> name <*> directives <*>
      enclosed? .braceOpen .braceClose enumValueDefinition)) <|
  .branch (· == .keyword .input)
    (keyword .input *> ((⟨·, ·, .inputObject ·⟩) <$> name <*> directives <*>
      enclosed? .braceOpen .braceClose inputValueDefinition)) <|
  .stuck definitionKinds

/-- A definition in the type system, after its description. -/
def describedDefinition : Rule (Option String → Nat → Definition) :=
  .branch (· == .keyword .schema)
    ((fun dirs roots description? start => .schema ⟨description?, dirs, roots, start⟩) <$>
      (keyword .schema *> directives) <*> rootOperationTypes) <|
  .branch (· == .keyword .directive)
    ((fun build description? start => .directive (build description? start)) <$>
      (keyword .directive *> directiveDefinition)) <|
  (fun declaration description? start => .type ⟨description?, declaration, start⟩) <$>
    typeDefinition

/-- A definition in the type system. -/
def typeSystemDefinition : Rule Definition :=
  .located ((fun description? build => build description?) <$> description <*> describedDefinition)

/-- What extends a type, from its keyword on. -/
def typeExtension : Rule TypeDeclaration :=
  .branch (· == .keyword .scalar)
    (keyword .scalar *> ((⟨·, ·, .scalar⟩) <$> name <*> directives)) <|
  .branch (· == .keyword .type)
    (keyword .type *> ((fun name is dirs fields? => ⟨name, dirs, .object is fields?⟩) <$>
      name <*> interfaces <*> directives <*>
      enclosed? .braceOpen .braceClose fieldDefinition)) <|
  .branch (· == .keyword .interface)
    (keyword .interface *> ((fun name is dirs fields? => ⟨name, dirs, .interface is fields?⟩) <$>
      name <*> interfaces <*> directives <*>
      enclosed? .braceOpen .braceClose fieldDefinition)) <|
  .branch (· == .keyword .union)
    (keyword .union *> ((⟨·, ·, .union ·⟩) <$> name <*> directives <*> unionMembers)) <|
  .branch (· == .keyword .enum)
    (keyword .enum *> ((⟨·, ·, .enum ·⟩) <$> name <*> directives <*>
      enclosed? .braceOpen .braceClose enumValueDefinition)) <|
  .branch (· == .keyword .input)
    (keyword .input *> ((⟨·, ·, .inputObject ·⟩) <$> name <*> directives <*>
      enclosed? .braceOpen .braceClose inputValueDefinition)) <|
  .stuck extensionKinds

/-- An extension of the schema or of a type. -/
def typeSystemExtension : Rule Definition :=
  .located <| keyword .extend *>
    (.branch (· == .keyword .schema)
      ((fun dirs roots? start => .schemaExtension ⟨dirs, roots?.getD [], start⟩) <$>
        (keyword .schema *> directives) <*>
        enclosed? .braceOpen .braceClose rootOperationType) <|
    (fun declaration start => .typeExtension ⟨declaration, start⟩) <$>
      typeExtension)

end GraphQL
