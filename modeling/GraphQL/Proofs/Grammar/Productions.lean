import GraphQL.Proofs.Reading.Document
import Mathlib.Data.List.Chain
import Mathlib.Logic.Relation

/-!
# Productions of the grammar

A production is a rule as it is used by other rules.  It uses its parts, and a nesting construct
uses its body; the productions of the grammar are those that the definitions of a document use,
directly or through others (`Rule.InGrammar`).

* `exists_nest_of_cycle`: the only way for a production to use itself is through a nesting
  construct.
* `Rule.InGrammar.steady`, `Repeated.nullable`: a loop of the grammar takes a token with each turn;
  `Element` names what the loops call in turn.
-/

namespace GraphQL

variable {α β : Type}

/-- A rule and the type of its trees. -/
abbrev Production := (α : Type) × Rule α

/-- A rule as a production. -/
abbrev Rule.production (r : Rule α) : Production := ⟨α, r⟩

open Rule

/-! ### Which production uses which -/

/-- What a production calls by itself: its parts; a nesting construct its body. -/
inductive Production.Uses : Production → Production → Prop where
  | map {α β : Type} (f : α → β) (r : Rule α) : Uses (Rule.map f r).production r.production
  | left {α β : Type} (f : Rule (α → β)) (r : Rule α) : Uses (seq f r).production f.production
  | right {α β : Type} (f : Rule (α → β)) (r : Rule α) : Uses (seq f r).production r.production
  | yes {α : Type} (test : TokenKind → Bool) (y n : Rule α) :
    Uses (branch test y n).production y.production
  | no {α : Type} (test : TokenKind → Bool) (y n : Rule α) :
    Uses (branch test y n).production n.production
  | turn {α : Type} (test : TokenKind → Bool) (item : Rule α) :
    Uses (whileAt test item).production item.production
  | item {α : Type} (close : TokenKind) (item : Rule α) :
    Uses (upTo close item).production item.production
  | close {α : Type} (close : TokenKind) (item : Rule α) :
    Uses (upTo close item).production (one close).production
  | body (n : Nest) : Uses (nest n).production n.body.production
  | located {α : Type} (r : Rule (Nat → α)) : Uses (Rule.located r).production r.production

/-- How many rules a rule is made of, with nesting constructs not opened. -/
def Rule.size : {α : Type} → Rule α → Nat
  | _, .done _ | _, .token _ _ | _, .place _ | _, .stuck _ | _, .nest _ => 1
  | _, .map _ r | _, .located r => r.size + 1
  | _, .seq f r => f.size + r.size + 1
  | _, .branch _ yes no => yes.size + no.size + 1
  | _, .whileAt _ item | _, .upTo _ item => item.size + 1

theorem Rule.size_pos (r : Rule α) : 0 < r.size := by
  cases r <;> simp [size]

/-- Only a nesting construct uses what is not smaller. -/
theorem Production.Uses.size_lt {p q : Production} (h : p.Uses q)
    (hp : ∀ n, p ≠ (nest n).production) : q.2.size < p.2.size := by
  cases h with
  | body n => exact absurd rfl (hp n)
  | close close item =>
    have := item.size_pos
    simp only [size, one]
    omega
  | left f r | yes test f r =>
    have := r.size_pos
    simp only [size]
    omega
  | _ => simp only [size]; omega

/-- **Every cycle of productions passes through a nesting construct.** -/
theorem exists_nest_of_cycle {p : Production} {between : List Production}
    (h : (p :: (between ++ [p])).IsChain Production.Uses) :
    ∃ n : Nest, (nest n).production ∈ p :: between := by
  by_contra hno
  -- Without a nesting construct every production on the way is smaller than the one before it.
  have hlt : (p :: (between ++ [p])).IsChain (InvImage (· > ·) fun q => q.2.size) := by
    refine h.imp_of_mem_imp fun q r hq _ huses => huses.size_lt fun n hn => hno ⟨n, ?_⟩
    rw [← hn]
    simpa [or_comm] using hq
  exact lt_irrefl _ (hlt.rel_cons (List.mem_append_right between (List.mem_singleton_self p)))

/-! ### The grammar -/

/-- Whether a rule is a production of the grammar: the definitions of a document use it, directly
or through others. -/
def Rule.InGrammar (r : Rule α) : Prop :=
  Relation.ReflTransGen Production.Uses definitions.production r.production

namespace Rule.InGrammar

/-- A production of the grammar uses productions of the grammar. -/
theorem of_uses {r : Rule α} {r' : Rule β} (h : r.InGrammar)
    (hr : r.production.Uses r'.production) : r'.InGrammar :=
  .tail h hr

section

variable {r r' : Rule α}

theorem map {f : α → β} (h : (Rule.map f r).InGrammar) : r.InGrammar := h.of_uses (.map f r)

theorem left {f : Rule (α → β)} (h : (seq f r).InGrammar) : f.InGrammar := h.of_uses (.left f r)

theorem right {f : Rule (α → β)} (h : (seq f r).InGrammar) : r.InGrammar := h.of_uses (.right f r)

theorem yes {test : TokenKind → Bool} (h : (branch test r r').InGrammar) : r.InGrammar :=
  h.of_uses (.yes test r r')

theorem no {test : TokenKind → Bool} (h : (branch test r r').InGrammar) : r'.InGrammar :=
  h.of_uses (.no test r r')

theorem turn {test : TokenKind → Bool} (h : (whileAt test r).InGrammar) : r.InGrammar :=
  h.of_uses (.turn test r)

theorem item {close : TokenKind} (h : (upTo close r).InGrammar) : r.InGrammar :=
  h.of_uses (.item close r)

theorem close {close : TokenKind} (h : (upTo close r).InGrammar) : (one close).InGrammar :=
  h.of_uses (.close close r)

theorem body {n : Nest} (h : (nest n).InGrammar) : n.body.InGrammar := h.of_uses (.body n)

theorem located {r : Rule (Nat → α)} (h : (Rule.located r).InGrammar) : r.InGrammar :=
  h.of_uses (.located r)

theorem enclosed {p q : Punctuator} (h : (Rule.enclosed p q r).InGrammar) : r.InGrammar :=
  h.right.item

theorem enclosed? {p q : Punctuator} (h : (Rule.enclosed? p q r).InGrammar) : r.InGrammar :=
  h.yes.map.enclosed

theorem parenthesized (h : (Rule.parenthesized r).InGrammar) : r.InGrammar := h.map.enclosed?

end

/-- The repetitions of the grammar take a token with each turn. -/
theorem steady {r : Rule α} (h : r.InGrammar) : r.steady = true := by
  have hsteady : ∀ p, Relation.ReflTransGen Production.Uses definitions.production p →
      p.2.steady = true := by
    intro p hp
    induction hp with
    | refl => exact steady_definitions
    | tail _ huses ih =>
      cases huses with
      | body n => exact steady_body n
      | close close item => rfl
      | _ => simp_all [Rule.steady]
  exact hsteady _ h

end Rule.InGrammar

theorem inGrammar_definition : definition.InGrammar :=
  Rule.InGrammar.of_uses .refl (.turn (fun _ => true) definition)

theorem inGrammar_operation : operation.InGrammar := inGrammar_definition.no.yes.map

theorem inGrammar_keywordOperation : keywordOperation.InGrammar := inGrammar_operation.located.yes

theorem inGrammar_selectionSet : selectionSet.InGrammar := inGrammar_keywordOperation.right

theorem inGrammar_directives : directives.InGrammar := inGrammar_keywordOperation.left.right

theorem inGrammar_namedValue : namedValue.InGrammar :=
  inGrammar_directives.turn.located.right.parenthesized

theorem inGrammar_describedDefinition : describedDefinition.InGrammar :=
  inGrammar_definition.no.no.no.yes.located.right

theorem inGrammar_rootOperationType : rootOperationType.InGrammar :=
  inGrammar_describedDefinition.yes.right.enclosed

theorem inGrammar_typeDefinition : typeDefinition.InGrammar :=
  inGrammar_describedDefinition.no.no.map

theorem inGrammar_fieldDefinition : fieldDefinition.InGrammar :=
  inGrammar_typeDefinition.no.yes.right.right.enclosed?

/-! ### What loops call -/

/-- The productions that the loops of the grammar call in turn. -/
inductive Element : {α : Type} → Rule α → Prop where
  /-- A definition. -/
  | definition : Element definition
  /-- The definition of a variable. -/
  | variableDefinition : Element variableDefinition
  /-- A field, an inline fragment or the spread of a fragment. -/
  | selection : Element selection
  /-- An argument, or a field of an object. -/
  | namedValue : Element namedValue
  /-- A directive. -/
  | directive :
    Element (.located (Directive.mk <$> (punct .atSign *> name) <*> arguments) : Rule Directive)
  /-- An entry of a list. -/
  | value : Element value
  /-- A root operation type. -/
  | rootOperationType : Element rootOperationType
  /-- The definition of a field. -/
  | fieldDefinition : Element fieldDefinition
  /-- The definition of an argument, or of a field of an input object. -/
  | inputValueDefinition : Element inputValueDefinition
  /-- The definition of an enum value. -/
  | enumValueDefinition : Element enumValueDefinition
  /-- An interface, or a member of a union. -/
  | namedType : Element namedType
  /-- A place for directives. -/
  | directiveLocation : Element (.place DirectiveLocation.ofToken?)

namespace Element

variable {r : Rule α}

theorem inGrammar (h : Element r) : r.InGrammar := by
  cases h with
  | definition => exact inGrammar_definition
  | variableDefinition => exact inGrammar_keywordOperation.left.left.right.parenthesized
  | selection => exact inGrammar_selectionSet.body.enclosed
  | namedValue => exact inGrammar_namedValue
  | directive => exact inGrammar_directives.turn
  | value => exact inGrammar_namedValue.located.right
  | rootOperationType => exact inGrammar_rootOperationType
  | fieldDefinition => exact inGrammar_fieldDefinition
  | inputValueDefinition => exact inGrammar_fieldDefinition.located.left.left.right.parenthesized
  | enumValueDefinition => exact inGrammar_typeDefinition.no.no.no.no.yes.right.right.enclosed?
  | namedType => exact inGrammar_rootOperationType.located.right
  | directiveLocation =>
    exact inGrammar_describedDefinition.no.yes.map.right.right.right.left.map

theorem nullable (h : Element r) : r.nullable = false := by
  cases h <;> decide

end Element

/-- What a loop of the grammar calls in turn: an element, or all that one turn of a loop reads, with
any separator. -/
inductive Repeated : {α : Type} → Rule α → Prop where
  /-- An element. -/
  | element {α : Type} {r : Rule α} (h : Element r) : Repeated r
  /-- A turn of a loop that goes on as long as a token of a tested kind is next. -/
  | turn {α : Type} {test : TokenKind → Bool} {item : Rule α}
    (h : (whileAt test item).InGrammar) : Repeated item
  /-- A turn of a loop that goes on up to a closing token. -/
  | item {α : Type} {close : TokenKind} {item : Rule α} (h : (upTo close item).InGrammar) :
    Repeated item

namespace Repeated

variable {r : Rule α}

theorem inGrammar (h : Repeated r) : r.InGrammar := by
  cases h with
  | element h => exact h.inGrammar
  | turn h => exact h.turn
  | item h => exact h.item

/-- What a loop calls in turn cannot be empty. -/
theorem nullable (h : Repeated r) : r.nullable = false := by
  cases h with
  | element h => exact h.nullable
  | turn h | item h => simpa using (Bool.and_eq_true_iff.1 h.steady).2

end Repeated

end GraphQL
