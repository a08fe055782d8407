import GraphQL.Grammar.Document

/-!
# The two halves of the grammar of types

The grammar writes out what defines a type and what extends a type separately, six arms each.  The
halves agree in every arm and differ only in the kinds that an error names where there is no type:
both are the rule `typeDeclaration`, for their own kinds, and what is proved of it holds of both.
-/

namespace GraphQL

open Rule

/-- What an object type declares, after the keyword; an interface declares the same. -/
def objectDeclaration
    (body : List NamedType → Option (List FieldDefinition) → TypeBody) : Rule TypeDeclaration :=
  (fun name interfaces dirs fields? => ⟨name, dirs, body interfaces fields?⟩) <$>
    name <*> interfaces <*> directives <*> enclosed? .braceOpen .braceClose fieldDefinition

/-- What declares a type, from its keyword on; the kinds to name if no keyword fits. -/
def typeDeclaration (expected : List TokenKind) : Rule TypeDeclaration :=
  .branch (· == .keyword .scalar)
    (keyword .scalar *> ((⟨·, ·, .scalar⟩) <$> name <*> directives)) <|
  .branch (· == .keyword .type) (keyword .type *> objectDeclaration .object) <|
  .branch (· == .keyword .interface) (keyword .interface *> objectDeclaration .interface) <|
  .branch (· == .keyword .union)
    (keyword .union *> ((⟨·, ·, .union ·⟩) <$> name <*> directives <*> unionMembers)) <|
  .branch (· == .keyword .enum)
    (keyword .enum *> ((⟨·, ·, .enum ·⟩) <$> name <*> directives <*>
      enclosed? .braceOpen .braceClose enumValueDefinition)) <|
  .branch (· == .keyword .input)
    (keyword .input *> ((⟨·, ·, .inputObject ·⟩) <$> name <*> directives <*>
      enclosed? .braceOpen .braceClose inputValueDefinition)) <|
  .stuck expected

theorem typeDefinition_eq : typeDefinition = typeDeclaration definitionKinds := rfl

theorem typeExtension_eq : typeExtension = typeDeclaration extensionKinds := rfl

end GraphQL
