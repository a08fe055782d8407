import GraphQL.Grammar.Values

/-!
# The grammar of operations and fragments

A field may have an alias before it; three full stops start an inline fragment or the spread of a
named one, told apart by the token that follows them.
-/

namespace GraphQL

open Rule

/-- `on Type` -/
def typeCondition : Rule TypeCondition :=
  .located (TypeCondition.mk <$> (keyword .on *> namedType))

/-- `name` or `alias: name`: the alias, if there is one, and the name. -/
def fieldName : Rule (Option String × String) :=
  (fun first second? =>
    match second? with
    | some second => (some first, second)
    | none => (none, first)) <$>
    name <*> optional (· == .punctuator .colon) (punct .colon *> name)

/-- `alias: name(arguments) @directives` and a selection set, all but the name optional. -/
def field : Rule (Field Selection) :=
  .located <|
    (fun (alias?, name) args dirs sels? start => ⟨alias?, name, args, dirs, sels?, start⟩) <$>
      fieldName <*> arguments <*> directives <*>
      optional (· == .punctuator .braceOpen) selectionSet

/-- Whether a token of the kind starts an inline fragment after the ellipsis. -/
def startsInline (kind : TokenKind) : Bool :=
  kind == .keyword .on || kind == .punctuator .atSign || kind == .punctuator .braceOpen

/-- An inline fragment, after the ellipsis. -/
def inlineFragment : Rule (Nat → Selection) :=
  (fun condition? dirs sels start => .inline ⟨condition?, dirs, sels, start⟩) <$>
    optional (· == .keyword .on) typeCondition <*> directives <*> selectionSet

/-- The spread of a named fragment, after the ellipsis. -/
def fragmentSpread : Rule (Nat → Selection) :=
  (fun fragment dirs start => .spread ⟨fragment.text, dirs, start⟩) <$>
    .token TokenKind.isNameLike
      [.name, .keyword .on, .punctuator .atSign, .punctuator .braceOpen] <*>
    directives

/-- An entry of a selection set. -/
def selection : Rule Selection :=
  .branch (· == .punctuator .ellipsis)
    (.located (punct .ellipsis *> .branch startsInline inlineFragment fragmentSpread)) <|
  Selection.field <$> field

/-- What a selection set is. -/
def selectionSetBody : Rule (List Selection) := enclosed .braceOpen .braceClose selection

/-- What each nesting construct is. -/
def Nest.body : (n : Nest) → Rule n.Tree
  | .selectionSet => selectionSetBody
  | .value => valueBody
  | .typeRef => typeRefBody

/-- The kind of operation that a keyword starts. -/
def OperationType.ofKind? : TokenKind → Option OperationType
  | .keyword .query => some .query
  | .keyword .mutation => some .mutation
  | .keyword .subscription => some .subscription
  | _ => none

/-- Whether the kind is the keyword of a kind of operation. -/
def isOperationKeyword (kind : TokenKind) : Bool := (OperationType.ofKind? kind).isSome

/-- The keyword of a kind of operation. -/
def operationType : Rule OperationType :=
  (fun t => (OperationType.ofKind? t.kind).getD .query) <$>
    .token isOperationKeyword [.keyword .query, .keyword .mutation, .keyword .subscription]

/-- `$name: Type = default @directives` -/
def variableDefinition : Rule VariableDefinition :=
  .located <|
    VariableDefinition.mk <$> (variableUse <* punct .colon) <*> typeRef <*> defaultValue <*>
      directives

/-- `query Name($name: Type) @directives` and a selection set; what stands between the keyword and
the selection set is optional. -/
def keywordOperation : Rule (Nat → Operation) :=
  (fun type name? vars dirs sels start => ⟨type, false, name?, vars, dirs, sels, start⟩) <$>
    operationType <*> optional TokenKind.isNameLike name <*> parenthesized variableDefinition <*>
      directives <*> selectionSet

/-- A bare selection set, which is a query. -/
def shorthandOperation : Rule (Nat → Operation) :=
  (fun sels start => ⟨.query, true, none, [], [], sels, start⟩) <$> selectionSet

/-- An operation, a bare selection set unless it starts with the keyword of one. -/
def operation : Rule Operation :=
  .located (.branch isOperationKeyword keywordOperation shorthandOperation)

/-- `fragment Name on Type @directives` and a selection set. -/
def fragment : Rule Fragment :=
  .located <|
    Fragment.mk <$> (keyword .fragment *> nameExcept [.on]) <*> typeCondition <*> directives <*>
      selectionSet

end GraphQL
