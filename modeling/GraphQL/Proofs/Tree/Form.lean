import GraphQL.Proofs.Tree.Depth
import GraphQL.Proofs.Tree.Relocation
import GraphQL.Proofs.Tree.Spelling
import GraphQL.Proofs.Tree.WellFormed

/-!
# Forms of trees

A *form* collects what is said of the trees of one type: how they are spelled, which are well
formed, how deep they nest and how they are moved to offset zero.  Some lexemes *fit* a tree
within a budget if they spell it, it is well formed, and it nests no deeper (`Form.Fits`).
-/

namespace GraphQL

open Spellings

variable {α : Type}

/-- What is said of the trees of one type. -/
structure Form (α : Type) where
  /-- The spellings of a tree. -/
  spelling : α → Spellings
  /-- Whether a tree is well formed. -/
  WellFormed : α → Prop
  /-- How deep a tree nests. -/
  depth : α → Nat
  /-- A tree with all offsets zero. -/
  origin : α → α

namespace Form

/-- Whether some lexemes spell a well-formed tree that nests no deeper than a budget. -/
structure Fits (F : Form α) (budget : Nat) (a : α) (w : List Lexeme) : Prop where
  /-- The lexemes spell the tree. -/
  spelled : w ∈ F.spelling a
  /-- The tree is well formed. -/
  wellFormed : F.WellFormed a
  /-- The tree nests no deeper than the budget. -/
  shallow : F.depth a ≤ budget

/-- Names. -/
def name : Form String := ⟨named, ValidName, fun _ => 0, id⟩

/-- Names that are none of some keywords. -/
def nameExcept (excluded : List Keyword) : Form String :=
  { name with WellFormed := fun x => ValidName x ∧ ∀ k ∈ excluded, x ≠ k.text }

/-- Whether something without a tree of its own is there. -/
def flag (l : Spellings) : Form Bool := ⟨fun p => if p then l else 1, fun _ => True, fun _ => 0, id⟩

/-- A part that may be absent. -/
def part (F : Form α) : Form (Option α) :=
  ⟨Spellings.part F.spelling, fun o => ∀ a ∈ o, F.WellFormed a, depthOf F.depth,
    Option.map F.origin⟩

/-- Trees one after the other. -/
def each (F : Form α) : Form (List α) :=
  ⟨Spellings.each F.spelling, fun as => ∀ a ∈ as, F.WellFormed a, deepest F.depth,
    List.map F.origin⟩

/-- Trees between an opening and a closing punctuator. -/
def enclosed (opening closing : Punctuator) (F : Form α) : Form (List α) :=
  { F.each with spelling := Spellings.enclosed opening closing F.spelling }

/-- Trees in parentheses, which may be left out without any. -/
def parenthesized (F : Form α) : Form (List α) :=
  { F.each with spelling := Spellings.parenthesized F.spelling }

/-- Trees with vertical bars between them. -/
def alternatives (F : Form α) : Form (List α) :=
  { F.each with spelling := Spellings.alternatives F.spelling }

end Form

theorem deepest_le {depth : α → Nat} {as : List α} {b : Nat} :
    deepest depth as ≤ b ↔ ∀ a ∈ as, depth a ≤ b := by
  induction as with
  | nil => simp [deepest]
  | cons a as ih => simp [deepest, ih]

theorem depthOf_le {depth : α → Nat} {o : Option α} {b : Nat} :
    depthOf depth o ≤ b ↔ ∀ a ∈ o, depth a ≤ b := by
  cases o <;> simp [depthOf]

/-! ### The forms of the trees -/

/-- Variables. -/
def Variable.form : Form Variable :=
  ⟨Variable.spelling, fun v => ValidName v.name, fun _ => 0, Variable.relocate toZero⟩

/-- Values. -/
def Value.form : Form Value :=
  ⟨Value.spelling, Value.WellFormed, Value.depth, Value.relocate toZero⟩

/-- Named values. -/
def NamedValue.form : Form (NamedValue Value) :=
  ⟨NamedValue.spelling, NamedValue.WellFormed, NamedValue.depth, NamedValue.relocate toZero⟩

/-- Named types. -/
def NamedType.form : Form NamedType :=
  ⟨NamedType.spelling, fun t => ValidName t.name, fun _ => 0, NamedType.relocate toZero⟩

/-- References to types. -/
def TypeRef.form : Form TypeRef :=
  ⟨TypeRef.spelling, TypeRef.WellFormed, TypeRef.depth, TypeRef.relocate toZero⟩

/-- Directives. -/
def Directive.form : Form Directive :=
  ⟨Directive.spelling, Directive.WellFormed, Directive.depth, Directive.relocate toZero⟩

/-- Values after an equals sign, or none. -/
def defaultForm : Form (Option Value) := { Value.form.part with spelling := defaultSpelling }

/-- Type conditions. -/
def TypeCondition.form : Form TypeCondition :=
  ⟨TypeCondition.spelling, fun c => ValidName c.type.name, fun _ => 0,
    TypeCondition.relocate toZero⟩

/-- Selections. -/
def Selection.form : Form Selection :=
  ⟨Selection.spelling, Selection.WellFormed, Selection.depth, Selection.relocate toZero⟩

/-- Selection sets. -/
def selectionSetForm : Form (List Selection) :=
  ⟨selectionSetSpelling, fun sels => ∀ s ∈ sels, s.WellFormed, selectionSetDepth,
    List.map (Selection.relocate toZero)⟩

/-- Nesting constructs. -/
def Nest.form : (n : Nest) → Form n.Tree
  | .selectionSet => selectionSetForm
  | .value => Value.form
  | .typeRef => TypeRef.form

/-- Kinds of operations. -/
def OperationType.form : Form OperationType :=
  ⟨fun t => Spellings.keyword t.keyword, fun _ => True, fun _ => 0, id⟩

/-- Definitions of variables. -/
def VariableDefinition.form : Form VariableDefinition :=
  ⟨VariableDefinition.spelling, VariableDefinition.WellFormed, VariableDefinition.depth,
    VariableDefinition.relocate toZero⟩

/-- Operations. -/
def Operation.form : Form Operation :=
  ⟨Operation.spelling, Operation.WellFormed, Operation.depth, Operation.relocate toZero⟩

/-- Fragments. -/
def Fragment.form : Form Fragment :=
  ⟨Fragment.spelling, Fragment.WellFormed, Fragment.depth, Fragment.relocate toZero⟩

/-- Descriptions. -/
def descriptionForm : Form (Option String) :=
  ⟨descriptionSpelling, fun _ => True, fun _ => 0, id⟩

/-- Bare names that stand for values. -/
def EnumValue.form : Form EnumValue :=
  ⟨fun e => named e.value, EnumValue.WellFormed, fun _ => 0, EnumValue.relocate toZero⟩

/-- Definitions of input values. -/
def InputValueDefinition.form : Form InputValueDefinition :=
  ⟨InputValueDefinition.spelling, InputValueDefinition.WellFormed, InputValueDefinition.depth,
    InputValueDefinition.relocate toZero⟩

/-- Definitions of fields. -/
def FieldDefinition.form : Form FieldDefinition :=
  ⟨FieldDefinition.spelling, FieldDefinition.WellFormed, FieldDefinition.depth,
    FieldDefinition.relocate toZero⟩

/-- Definitions of enumeration values. -/
def EnumValueDefinition.form : Form EnumValueDefinition :=
  ⟨EnumValueDefinition.spelling, EnumValueDefinition.WellFormed, EnumValueDefinition.depth,
    EnumValueDefinition.relocate toZero⟩

/-- Lists of interfaces. -/
def interfacesForm : Form (List NamedType) :=
  { NamedType.form.each with spelling := interfacesSpelling }

/-- Lists of members of a union. -/
def membersForm : Form (List NamedType) :=
  { NamedType.form.each with spelling := membersSpelling }

/-- Declarations of types. -/
def TypeDeclaration.form : Form TypeDeclaration :=
  ⟨TypeDeclaration.spelling, TypeDeclaration.WellFormed, TypeDeclaration.depth,
    TypeDeclaration.relocate toZero⟩

/-- Root operation types. -/
def RootOperationType.form : Form RootOperationType :=
  ⟨RootOperationType.spelling, fun r => ValidName r.type.name, fun _ => 0,
    RootOperationType.relocate toZero⟩

/-- Places for directives. -/
def DirectiveLocation.form : Form DirectiveLocation :=
  ⟨DirectiveLocation.spelling, DirectiveLocation.WellFormed, fun _ => 0,
    DirectiveLocation.relocate toZero⟩

/-- Definitions. -/
def Definition.form : Form Definition :=
  ⟨Definition.spelling, Definition.WellFormed, Definition.depth, Definition.relocate toZero⟩

end GraphQL
