import GraphQL.Tree.Value

/-!
# Operations and fragments

The executable part of a document: operations, fragments and the selections that both hold.  An
operation tells whether it was written as a bare selection set.
-/

namespace GraphQL

/-- A directive applied to something, starting at its sign. -/
structure Directive where
  /-- The name, without the sign. -/
  name : String
  /-- The arguments. -/
  arguments : List Argument
  /-- The offset of the sign. -/
  start : Nat
  deriving DecidableEq, Repr

/-- The condition that some selections are for one type only. -/
structure TypeCondition where
  /-- The type. -/
  type : NamedType
  /-- The offset of the keyword `on`. -/
  start : Nat
  deriving DecidableEq, Repr

/-- A field selection, whose own selections have the type `σ`.  It starts at the alias, if there
is one. -/
structure Field (σ : Type) where
  /-- The name to use in the response, if it is another. -/
  alias? : Option String
  /-- The name. -/
  name : String
  /-- The arguments. -/
  arguments : List Argument
  /-- The directives applied to it. -/
  directives : List Directive
  /-- What to select of the field, if that is said. -/
  selections? : Option (List σ)
  /-- The offset of the first token. -/
  start : Nat
  deriving Repr

/-- The key of the field in a response. -/
def Field.responseKey {σ : Type} (f : Field σ) : String := f.alias?.getD f.name

/-- A selection of all that a named fragment selects. -/
structure FragmentSpread where
  /-- The name of the fragment. -/
  fragment : String
  /-- The directives applied to it. -/
  directives : List Directive
  /-- The offset of the ellipsis. -/
  start : Nat
  deriving DecidableEq, Repr

/-- Selections of the type `σ` grouped without a name. -/
structure InlineFragment (σ : Type) where
  /-- The type that the selections are for, if it is said. -/
  condition? : Option TypeCondition
  /-- The directives applied to it. -/
  directives : List Directive
  /-- The selections. -/
  selections : List σ
  /-- The offset of the ellipsis. -/
  start : Nat
  deriving Repr

/-- An entry of a selection set. -/
inductive Selection where
  /-- A field. -/
  | field (f : Field Selection)
  /-- The spread of a named fragment. -/
  | spread (s : FragmentSpread)
  /-- An inline fragment. -/
  | inline (i : InlineFragment Selection)
  deriving Repr

/-- The offset of a selection's first token. -/
def Selection.start : Selection → Nat
  | field f => f.start
  | spread s => s.start
  | inline i => i.start

/-- The three kinds of operation. -/
inductive OperationType where
  | query
  | mutation
  | subscription
  deriving DecidableEq, Repr

/-- The keyword of a kind of operation. -/
def OperationType.text : OperationType → String
  | query => "query"
  | mutation => "mutation"
  | subscription => "subscription"

/-- A variable of an operation, with its type. -/
structure VariableDefinition where
  /-- The variable. -/
  var : Variable
  /-- Its type. -/
  type : TypeRef
  /-- Its value if none is given. -/
  default? : Option Value
  /-- The directives applied to it. -/
  directives : List Directive
  /-- The offset of the first token. -/
  start : Nat
  deriving DecidableEq, Repr

/-- An operation. -/
structure Operation where
  /-- The kind of operation. -/
  type : OperationType
  /-- Whether it is written as a bare selection set. -/
  isShorthand : Bool
  /-- The name of the operation. -/
  name? : Option String
  /-- The variables of the operation. -/
  variableDefinitions : List VariableDefinition
  /-- The directives applied to it. -/
  directives : List Directive
  /-- The selections. -/
  selections : List Selection
  /-- The offset of the first token. -/
  start : Nat
  deriving Repr

/-- A named fragment. -/
structure Fragment where
  /-- The name. -/
  name : String
  /-- The type that the selections are for. -/
  condition : TypeCondition
  /-- The directives applied to it. -/
  directives : List Directive
  /-- The selections. -/
  selections : List Selection
  /-- The offset of the keyword. -/
  start : Nat
  deriving Repr

/-! ### Equality of selections -/

mutual

/-- Whether two selections are the same in every part. -/
def Selection.same : Selection → Selection → Bool
  | .field ⟨a, n, args, ds, sels, m⟩, .field ⟨a', n', args', ds', sels', m'⟩ =>
    a = a' && n = n' && args = args' && ds = ds' && Selection.sameOption sels sels' && m = m'
  | .spread s, .spread t => s = t
  | .inline ⟨c, ds, sels, m⟩, .inline ⟨c', ds', sels', m'⟩ =>
    c = c' && ds = ds' && Selection.sameList sels sels' && m = m'
  | _, _ => false

/-- Whether two selection sets are both absent or hold the same selections. -/
def Selection.sameOption : Option (List Selection) → Option (List Selection) → Bool
  | none, none => true
  | some as, some bs => Selection.sameList as bs
  | _, _ => false

/-- Whether two lists hold the same selections. -/
def Selection.sameList : List Selection → List Selection → Bool
  | [], [] => true
  | a :: as, b :: bs => a.same b && Selection.sameList as bs
  | _, _ => false

end

mutual

theorem Selection.same_iff : (a b : Selection) → (a.same b = true ↔ a = b)
  | .field ⟨_, _, _, _, sels, _⟩, .field ⟨_, _, _, _, _, _⟩ => by
    simp [Selection.same, Selection.sameOption_iff sels, and_assoc]
  | .inline ⟨_, _, sels, _⟩, .inline ⟨_, _, _, _⟩ => by
    simp [Selection.same, Selection.sameList_iff sels, and_assoc]
  | .spread _, .spread _ => by simp [Selection.same]
  | .field _, .spread _ | .field _, .inline _ | .spread _, .field _ | .spread _, .inline _
  | .inline _, .field _ | .inline _, .spread _ => by simp [Selection.same]

theorem Selection.sameOption_iff :
    (as bs : Option (List Selection)) → (Selection.sameOption as bs = true ↔ as = bs)
  | none, bs => by cases bs <;> simp [Selection.sameOption]
  | some as, bs => by cases bs <;> simp [Selection.sameOption, Selection.sameList_iff as]

theorem Selection.sameList_iff :
    (as bs : List Selection) → (Selection.sameList as bs = true ↔ as = bs)
  | [], bs => by cases bs <;> simp [Selection.sameList]
  | a :: as, bs => by
    cases bs <;> simp [Selection.sameList, Selection.same_iff a, Selection.sameList_iff as]

end

instance : DecidableEq Selection := fun a b => decidable_of_iff _ (Selection.same_iff a b)

deriving instance DecidableEq for Operation

deriving instance DecidableEq for Fragment

end GraphQL
