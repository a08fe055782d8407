import GraphQL.Grammar.Values
import GraphQL.Proofs.Tree.WellFormed
import Mathlib.Computability.Language

/-!
# How trees are spelled

A *spelling* of a tree is a list of lexemes that stands for it: its keywords, punctuators, names,
numbers and string literals, written out in order.  The spellings of a tree form a language over
lexemes, built by concatenation (`*`) and choice (`+`); only what a tree does not record leaves a
choice:

* an ampersand or a vertical bar before the first of several items;
* an ampersand between interfaces, if the next is no keyword;
* empty parentheses, and the empty braces of a schema extension;
* the literal of a description, or of a string value in the form that the value names.

The offsets in a tree play no part.
-/

namespace GraphQL

/-- Lists of lexemes that spell something. -/
abbrev Spellings := Language Lexeme

namespace Spellings

/-- A punctuator. -/
def punct (p : Punctuator) : Spellings := {[.punctuator p]}

theorem mem_punct (p : Punctuator) : [Lexeme.punctuator p] ∈ punct p := rfl

/-- A keyword. -/
def keyword (k : Keyword) : Spellings := {[.keyword k]}

theorem mem_keyword (k : Keyword) : [Lexeme.keyword k] ∈ keyword k := rfl

/-- A name, which may be a keyword. -/
def named (x : String) : Spellings := {[Lexeme.ofName x]}

theorem mem_named (x : String) : [Lexeme.ofName x] ∈ named x := rfl

/-- Any string literal with the given value. -/
def literal (value : String) : Spellings := {w | ∃ text, w = [.string text value]}

/-- Something that may be left out. -/
def optional (l : Spellings) : Spellings := 1 + l

/-- A part that a tree has or has not. -/
def part {α : Type} (spelling : α → Spellings) : Option α → Spellings
  | none => 1
  | some a => spelling a

/-- One item after the other. -/
def each {α : Type} (spelling : α → Spellings) : List α → Spellings
  | [] => 1
  | a :: as => spelling a * each spelling as

/-- Items between an opening and a closing punctuator. -/
def enclosed {α : Type} (opening closing : Punctuator) (spelling : α → Spellings)
    (as : List α) : Spellings :=
  punct opening * each spelling as * punct closing

/-- Items in braces. -/
def braced {α : Type} (spelling : α → Spellings) (as : List α) : Spellings :=
  enclosed .braceOpen .braceClose spelling as

/-- Items in parentheses; without any, the parentheses may be left out. -/
def parenthesized {α : Type} (spelling : α → Spellings) (as : List α) : Spellings :=
  (if as = [] then 1 else 0) + enclosed .parenOpen .parenClose spelling as

/-- Items with vertical bars between them, and perhaps one before the first. -/
def alternatives {α : Type} (spelling : α → Spellings) : List α → Spellings
  | [] => 0
  | a :: as =>
    optional (punct .pipe) * spelling a * each (fun b => punct .pipe * spelling b) as

end Spellings

open Spellings

/-! ### Values and types -/

/-- `$name` -/
def Variable.spelling (v : Variable) : Spellings := punct .dollar * named v.name

/-- A string literal with the given value, as a block string or not. -/
def stringSpelling (value : String) (block : Bool) : Spellings :=
  {w | ∃ text, w = [.string text value] ∧ isBlockLiteral text = block}

mutual

/-- The spellings of a value. -/
def Value.spelling : Value → Spellings
  | .var v => v.spelling
  | .int text _ => {[.int text]}
  | .float text _ => {[.float text]}
  | .string value block _ => stringSpelling value block
  | .boolean true _ => keyword .boolTrue
  | .boolean false _ => keyword .boolFalse
  | .null _ => keyword .null
  | .enum e => named e.value
  | .list vs _ => punct .bracketOpen * Value.spellingList vs * punct .bracketClose
  | .object fs _ => punct .braceOpen * Value.spellingFields fs * punct .braceClose

/-- The spellings of some values, one after the other. -/
def Value.spellingList : List Value → Spellings
  | [] => 1
  | v :: vs => v.spelling * Value.spellingList vs

/-- The spellings of some named values, one after the other. -/
def Value.spellingFields : List (NamedValue Value) → Spellings
  | [] => 1
  | ⟨x, v, _⟩ :: fs => named x * punct .colon * v.spelling * Value.spellingFields fs

end

/-- `name: value` -/
def NamedValue.spelling (a : NamedValue Value) : Spellings :=
  named a.name * punct .colon * a.value.spelling

theorem Value.spelling_list (vs : List Value) (start : Nat) :
    (Value.list vs start).spelling = enclosed .bracketOpen .bracketClose Value.spelling vs := by
  have h : Value.spellingList vs = each Value.spelling vs := by
    induction vs with
    | nil => simp [Value.spellingList, each]
    | cons v vs ih => rw [Value.spellingList, each, ih]
  rw [Value.spelling, h, enclosed]

theorem Value.spelling_object (fs : List (NamedValue Value)) (start : Nat) :
    (Value.object fs start).spelling = braced NamedValue.spelling fs := by
  have h : Value.spellingFields fs = each NamedValue.spelling fs := by
    induction fs with
    | nil => simp [Value.spellingFields, each]
    | cons f fs ih => rw [Value.spellingFields, each, ih, NamedValue.spelling]
  rw [Value.spelling, h, braced, enclosed]

/-- `name`, for a type. -/
def NamedType.spelling (t : NamedType) : Spellings := named t.name

/-- The spellings of a reference to a type. -/
def TypeRef.spelling : TypeRef → Spellings
  | .named t => t.spelling
  | .list item _ => punct .bracketOpen * item.spelling * punct .bracketClose
  | .nonNull inner _ => inner.spelling * punct .bang

/-- `= value`, or nothing. -/
def defaultSpelling : Option Value → Spellings := part fun v => punct .equals * v.spelling

/-! ### Operations and fragments -/

/-- `@name(name: value ...)` -/
def Directive.spelling (d : Directive) : Spellings :=
  punct .atSign * named d.name * parenthesized NamedValue.spelling d.arguments

/-- `on Type` -/
def TypeCondition.spelling (c : TypeCondition) : Spellings := keyword .on * c.type.spelling

/-- `alias:`, or nothing. -/
def aliasSpelling : Option String → Spellings := part fun x => named x * punct .colon

mutual

/-- The spellings of a selection. -/
def Selection.spelling : Selection → Spellings
  | .field ⟨alias?, x, args, dirs, sels?, _⟩ =>
    aliasSpelling alias? * named x * parenthesized NamedValue.spelling args *
      each Directive.spelling dirs * Selection.spellingOption sels?
  | .spread ⟨x, dirs, _⟩ => punct .ellipsis * named x * each Directive.spelling dirs
  | .inline ⟨condition?, dirs, sels, _⟩ =>
    punct .ellipsis * part TypeCondition.spelling condition? * each Directive.spelling dirs *
      (punct .braceOpen * Selection.spellingList sels * punct .braceClose)

/-- The spellings of a selection set that may be absent. -/
def Selection.spellingOption : Option (List Selection) → Spellings
  | none => 1
  | some sels => punct .braceOpen * Selection.spellingList sels * punct .braceClose

/-- The spellings of some selections, one after the other. -/
def Selection.spellingList : List Selection → Spellings
  | [] => 1
  | s :: ss => s.spelling * Selection.spellingList ss

end

/-- The spellings of a selection set. -/
def selectionSetSpelling (sels : List Selection) : Spellings := braced Selection.spelling sels

theorem Selection.spellingList_eq (ss : List Selection) :
    punct .braceOpen * Selection.spellingList ss * punct .braceClose = selectionSetSpelling ss := by
  have h : Selection.spellingList ss = each Selection.spelling ss := by
    induction ss with
    | nil => simp [Selection.spellingList, each]
    | cons s ss ih => rw [Selection.spellingList, each, ih]
  rw [h, selectionSetSpelling, braced, enclosed]

theorem Selection.spelling_field (f : Field Selection) :
    (Selection.field f).spelling =
      aliasSpelling f.alias? * named f.name * parenthesized NamedValue.spelling f.arguments *
        each Directive.spelling f.directives * part selectionSetSpelling f.selections? := by
  obtain ⟨alias?, x, args, dirs, _ | sels, start⟩ := f
  · rw [Selection.spelling, Selection.spellingOption, part]
  · rw [Selection.spelling, Selection.spellingOption, Selection.spellingList_eq, part]

theorem Selection.spelling_inline (i : InlineFragment Selection) :
    (Selection.inline i).spelling =
      punct .ellipsis * part TypeCondition.spelling i.condition? *
        each Directive.spelling i.directives * selectionSetSpelling i.selections := by
  rw [Selection.spelling, Selection.spellingList_eq]

/-- The keyword of a kind of operation. -/
def OperationType.keyword : OperationType → Keyword
  | query => .query
  | mutation => .mutation
  | subscription => .subscription

/-- `$name: Type = value @directives` -/
def VariableDefinition.spelling (v : VariableDefinition) : Spellings :=
  v.var.spelling * punct .colon * v.type.spelling * defaultSpelling v.default? *
    each Directive.spelling v.directives

/-- `query Name($name: Type) @directives` and a selection set. -/
def Operation.keywordSpelling (o : Operation) : Spellings :=
  keyword o.type.keyword * part named o.name? *
    parenthesized VariableDefinition.spelling o.variableDefinitions *
    each Directive.spelling o.directives * selectionSetSpelling o.selections

/-- An operation from its keyword on, or a bare selection set, which says nothing else. -/
def Operation.spelling (o : Operation) : Spellings :=
  if o.isShorthand then if o.IsPlainQuery then selectionSetSpelling o.selections else 0
  else o.keywordSpelling

theorem Operation.mem_spelling {o : Operation} {w : List Lexeme} :
    w ∈ o.spelling ↔
      o.isShorthand = true ∧ o.IsPlainQuery ∧ w ∈ selectionSetSpelling o.selections ∨
        o.isShorthand = false ∧ w ∈ o.keywordSpelling := by
  rw [Operation.spelling]
  split_ifs with hs hp
  · simp [hs, hp]
  · simp [hs, hp, Language.notMem_zero]
  · simp [hs]

/-- `fragment Name on Type @directives` and a selection set. -/
def Fragment.spelling (f : Fragment) : Spellings :=
  keyword .fragment * named f.name * f.condition.spelling * each Directive.spelling f.directives *
    selectionSetSpelling f.selections

/-! ### The type system -/

/-- A string literal, or nothing. -/
def descriptionSpelling : Option String → Spellings := part literal

/-- `name: Type = value @directives`, with a description. -/
def InputValueDefinition.spelling (v : InputValueDefinition) : Spellings :=
  descriptionSpelling v.description? * named v.name * punct .colon * v.type.spelling *
    defaultSpelling v.default? * each Directive.spelling v.directives

/-- `name(arguments): Type @directives`, with a description. -/
def FieldDefinition.spelling (f : FieldDefinition) : Spellings :=
  descriptionSpelling f.description? * named f.name *
    parenthesized InputValueDefinition.spelling f.arguments * punct .colon * f.type.spelling *
    each Directive.spelling f.directives

/-- `NAME @directives`, with a description. -/
def EnumValueDefinition.spelling (v : EnumValueDefinition) : Spellings :=
  descriptionSpelling v.description? * named v.value.value * each Directive.spelling v.directives

/-- An interface after the first: an ampersand and its name, or the name alone if it is no
keyword. -/
def furtherInterface (t : NamedType) : Spellings :=
  (punct .ampersand + if Keyword.ofName? t.name = none then 1 else 0) * t.spelling

/-- `implements A & B`, perhaps with an ampersand before the first; nothing without interfaces. -/
def interfacesSpelling : List NamedType → Spellings
  | [] => 1
  | t :: ts =>
    keyword .implements * optional (punct .ampersand) * t.spelling * each furtherInterface ts

/-- `= A | B`, perhaps with a vertical bar before the first; nothing without members. -/
def membersSpelling : List NamedType → Spellings
  | [] => 1
  | t :: ts => punct .equals * Spellings.alternatives NamedType.spelling (t :: ts)

/-- What declares a type, from its keyword on. -/
def TypeDeclaration.spelling (d : TypeDeclaration) : Spellings :=
  match d.body with
  | .scalar => keyword .scalar * named d.name * each Directive.spelling d.directives
  | .object interfaces fields? =>
    keyword .type * named d.name * interfacesSpelling interfaces *
      each Directive.spelling d.directives * part (braced FieldDefinition.spelling) fields?
  | .interface interfaces fields? =>
    keyword .interface * named d.name * interfacesSpelling interfaces *
      each Directive.spelling d.directives * part (braced FieldDefinition.spelling) fields?
  | .union members =>
    keyword .union * named d.name * each Directive.spelling d.directives * membersSpelling members
  | .enum values? =>
    keyword .enum * named d.name * each Directive.spelling d.directives *
      part (braced EnumValueDefinition.spelling) values?
  | .inputObject fields? =>
    keyword .input * named d.name * each Directive.spelling d.directives *
      part (braced InputValueDefinition.spelling) fields?

/-- `query: Type` -/
def RootOperationType.spelling (r : RootOperationType) : Spellings :=
  keyword r.operation.keyword * punct .colon * r.type.spelling

/-- The name of a place for directives. -/
def DirectiveLocation.spelling (l : DirectiveLocation) : Spellings := {[.name l.name]}

/-- `schema @directives` and the root operation types in braces, with a description. -/
def SchemaDefinition.spelling (s : SchemaDefinition) : Spellings :=
  descriptionSpelling s.description? * keyword .schema * each Directive.spelling s.directives *
    braced RootOperationType.spelling s.roots

/-- `extend schema @directives` without a block. -/
def SchemaExtension.bareSpelling (e : SchemaExtension) : Spellings :=
  keyword .extend * keyword .schema * each Directive.spelling e.directives

/-- `extend schema @directives` and the root operation types in braces, which may be left out if
there are none. -/
def SchemaExtension.spelling (e : SchemaExtension) : Spellings :=
  e.bareSpelling * ((if e.roots = [] then 1 else 0) + braced RootOperationType.spelling e.roots)

/-- `directive @name(arguments) repeatable on PLACE | PLACE`, with a description. -/
def DirectiveDefinition.spelling (d : DirectiveDefinition) : Spellings :=
  descriptionSpelling d.description? * keyword .directive * punct .atSign * named d.name *
    parenthesized InputValueDefinition.spelling d.arguments *
    (if d.repeatable then keyword .repeatable else 1) * keyword .on *
    Spellings.alternatives DirectiveLocation.spelling d.locations

/-- A definition of a type, with a description. -/
def TypeDefinition.spelling (t : TypeDefinition) : Spellings :=
  descriptionSpelling t.description? * t.declaration.spelling

/-- `extend` and what declares the type. -/
def TypeExtension.spelling (e : TypeExtension) : Spellings :=
  keyword .extend * e.declaration.spelling

/-! ### Documents -/

/-- The spellings of a definition. -/
def Definition.spelling : Definition → Spellings
  | .operation o => o.spelling
  | .fragment f => f.spelling
  | .schema s => s.spelling
  | .schemaExtension e => e.spelling
  | .directive d => d.spelling
  | .type t => t.spelling
  | .typeExtension e => e.spelling

/-- Whether a type could go on with a block in braces that it does not have. -/
def TypeBody.lacksBlock : TypeBody → Bool
  | object _ none | interface _ none | enum none | inputObject none => true
  | _ => false

/-- The spellings of a definition without a block in braces that it could go on with. -/
def Definition.bareSpelling : Definition → Spellings
  | .schemaExtension e => if e.roots = [] then e.bareSpelling else 0
  | .type t => if t.declaration.body.lacksBlock then t.spelling else 0
  | .typeExtension e => if e.declaration.body.lacksBlock then e.spelling else 0
  | _ => 0

/-- Whether a definition is an operation written as a bare selection set. -/
def Definition.isShorthand : Definition → Bool
  | .operation o => o.isShorthand
  | _ => false

/-- The definitions, one after the other. -/
def Document.spelling (d : Document) : Spellings := each Definition.spelling d.definitions

/-- The spellings of a definition right before others: without a block that it could go on with it
does not stand before an operation that is nothing but a block. -/
def Definition.spellingBefore (d : Definition) (ds : List Definition) : Spellings :=
  {w | w ∈ d.spelling ∧ (w ∈ d.bareSpelling → ∀ e ∈ ds.head?, e.isShorthand = false)}

/-- Definitions one after the other, so that it is clear where each of them ends. -/
def unambiguousSpelling : List Definition → Spellings
  | [] => 1
  | d :: ds => d.spellingBefore ds * unambiguousSpelling ds

/-- The spellings of a document that stand for no other. -/
def Document.unambiguousSpelling (d : Document) : Spellings :=
  GraphQL.unambiguousSpelling d.definitions

end GraphQL
