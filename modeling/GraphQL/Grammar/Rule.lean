import GraphQL.Token.Basic
import GraphQL.Tree.Document

/-!
# Grammar rules as data

A `Rule α` describes how some tokens spell a tree of type `α`.  Rules are data: sequences, choices
by the kind of the next token, repetitions, and references to the three constructs that nest
without bound (`Nest`).  What a rule means for a list of tokens is said elsewhere, so the same
rules can be run, related to the trees that they spell, and analysed.

Every choice is made by the kind of one token.  The values that a rule yields never decide how it
goes on, so where a rule stops depends on the lexemes alone.
-/

namespace GraphQL

/-- The constructs that nest without bound. -/
inductive Nest where
  /-- Selections in braces. -/
  | selectionSet
  /-- Any value, a single token too. -/
  | value
  /-- A type, a single name too. -/
  | typeRef
  deriving DecidableEq, Repr

/-- The trees of a nesting construct. -/
abbrev Nest.Tree : Nest → Type
  | selectionSet => List Selection
  | value => Value
  | typeRef => TypeRef

/-- How tokens spell a tree. -/
inductive Rule : Type → Type 1 where
  /-- No token at all. -/
  | done {α : Type} (a : α) : Rule α
  /-- One token of an accepted kind; the kinds to name if another stands there. -/
  | token (accepts : TokenKind → Bool) (expected : List TokenKind) : Rule Token
  /-- One name that `read` knows and that is no keyword. -/
  | place (read : Token → Option DirectiveLocation) : Rule DirectiveLocation
  /-- No tokens fit; the kinds to name. -/
  | stuck {α : Type} (expected : List TokenKind) : Rule α
  /-- The tokens of `r`, with the tree turned into another. -/
  | map {α β : Type} (f : α → β) (r : Rule α) : Rule β
  /-- The tokens of `f`, then those of `r`. -/
  | seq {α β : Type} (f : Rule (α → β)) (r : Rule α) : Rule β
  /-- `yes` if a token of a tested kind is next, otherwise `no`. -/
  | branch {α : Type} (test : TokenKind → Bool) (yes no : Rule α) : Rule α
  /-- `item` again and again as long as a token of a tested kind is next. -/
  | whileAt {α : Type} (test : TokenKind → Bool) (item : Rule α) : Rule (List α)
  /-- `item` again and again up to a closing token, and the closing token. -/
  | upTo {α : Type} (close : TokenKind) (item : Rule α) : Rule (List α)
  /-- A nesting construct. -/
  | nest (n : Nest) : Rule n.Tree
  /-- The tokens of `r`, whose tree keeps the offset of the first of them. -/
  | located {α : Type} (r : Rule (Nat → α)) : Rule α

namespace Rule

instance : Applicative Rule where
  pure := .done
  map := .map
  seq f r := .seq f (r ())
  seqLeft a b := .seq (.map (fun x _ => x) a) (b ())
  seqRight a b := .seq (.map (fun _ y => y) a) (b ())

/-- One token of a single kind. -/
def one (kind : TokenKind) : Rule Token := .token (· == kind) [kind]

/-- One punctuator. -/
def punct (p : Punctuator) : Rule Token := one (.punctuator p)

/-- One keyword. -/
def keyword (k : Keyword) : Rule Token := one (.keyword k)

/-- `r` if a token of a tested kind is next. -/
def optional {α : Type} (test : TokenKind → Bool) (r : Rule α) : Rule (Option α) :=
  branch test (some <$> r) (pure none)

/-- A token of the given kind if it is next; whether it was there. -/
def present (kind : TokenKind) : Rule Bool :=
  branch (· == kind) ((fun _ => true) <$> one kind) (pure false)

/-- Items between an opening and a closing punctuator. -/
def enclosed {α : Type} (opening closing : Punctuator) (item : Rule α) : Rule (List α) :=
  punct opening *> upTo (.punctuator closing) item

/-- Items between an opening and a closing punctuator, or nothing at all. -/
def enclosed? {α : Type} (opening closing : Punctuator) (item : Rule α) : Rule (Option (List α)) :=
  optional (· == .punctuator opening) (enclosed opening closing item)

/-- Items between parentheses; without parentheses there are none. -/
def parenthesized {α : Type} (item : Rule α) : Rule (List α) :=
  (Option.getD · []) <$> enclosed? .parenOpen .parenClose item

/-- Any name, keywords included. -/
def name : Rule String := Token.text <$> .token TokenKind.isNameLike [.name]

/-- Any name except certain keywords. -/
def nameExcept (excluded : List Keyword) : Rule String :=
  Token.text <$>
    .token (fun kind => kind.isNameLike && !(excluded.map TokenKind.keyword).contains kind) [.name]

end Rule

end GraphQL
