import GraphQL.Proofs.Traversal.Enumeration
import Mathlib.Data.List.Basic

/-!
# What is stored in a node

`Node.contents` is read off the types of the trees alone: a node, and then what its fields store, in
the order of the fields and each part with all that it stores in turn.  `Node.label` is what a node
says besides the nodes in it, and a node can be put together again from its label and its children
(`Node.rebuild_label`), so that no field is left out of the children.

Enumeration lists the contents and ends there (`Node.enumerate_complete`).
-/

namespace GraphQL

/-! ### Contents -/

mutual

/-- A value and all nodes stored in it. -/
def Value.contents : Value → List Node
  | .list values start => .value (.list values start) :: Value.contentsList values
  | .object fields start => .value (.object fields start) :: Value.contentsFields fields
  | v => [.value v]

/-- The contents of some values. -/
def Value.contentsList : List Value → List Node
  | [] => []
  | v :: vs => v.contents ++ Value.contentsList vs

/-- Fields of an object value, each with the contents of its value. -/
def Value.contentsFields : List (NamedValue Value) → List Node
  | [] => []
  | ⟨x, v, start⟩ :: fs => .objectField ⟨x, v, start⟩ :: v.contents ++ Value.contentsFields fs

end

/-- An argument and the contents of its value. -/
def Argument.contents (a : Argument) : List Node := .argument a :: a.value.contents

/-- A reference to a type and all types that it wraps. -/
def TypeRef.contents : TypeRef → List Node
  | named t => [.typeRef (named t)]
  | list item start => .typeRef (list item start) :: item.contents
  | nonNull inner start => .typeRef (nonNull inner start) :: inner.contents

/-- A type mentioned by its name. -/
def NamedType.contents (t : NamedType) : List Node := [.typeRef (.named t)]

/-- A directive and all nodes stored in it. -/
def Directive.contents (d : Directive) : List Node :=
  .directive d :: d.arguments.flatMap Argument.contents

/-- A type condition and its type. -/
def TypeCondition.contents (c : TypeCondition) : List Node := .typeCondition c :: c.type.contents

mutual

/-- A selection and all nodes stored in it. -/
def Selection.contents : Selection → List Node
  | .field ⟨alias?, x, arguments, directives, selections?, start⟩ =>
    .selection (.field ⟨alias?, x, arguments, directives, selections?, start⟩) ::
      arguments.flatMap Argument.contents ++ directives.flatMap Directive.contents ++
      Selection.contentsOption selections?
  | .spread s => .selection (.spread s) :: s.directives.flatMap Directive.contents
  | .inline ⟨condition?, directives, selections, start⟩ =>
    .selection (.inline ⟨condition?, directives, selections, start⟩) ::
      condition?.toList.flatMap TypeCondition.contents ++
      directives.flatMap Directive.contents ++ Selection.contentsList selections

/-- The contents of a selection set, if there is one. -/
def Selection.contentsOption : Option (List Selection) → List Node
  | none => []
  | some ss => Selection.contentsList ss

/-- The contents of some selections. -/
def Selection.contentsList : List Selection → List Node
  | [] => []
  | s :: ss => s.contents ++ Selection.contentsList ss

end

/-- The definition of a variable and all nodes stored in it. -/
def VariableDefinition.contents (v : VariableDefinition) : List Node :=
  .variableDefinition v :: .value (.var v.var) :: v.type.contents ++
    v.default?.toList.flatMap Value.contents ++ v.directives.flatMap Directive.contents

/-- The definition of an argument or input field and all nodes stored in it. -/
def InputValueDefinition.contents (i : InputValueDefinition) : List Node :=
  .inputValueDefinition i :: i.type.contents ++ i.default?.toList.flatMap Value.contents ++
    i.directives.flatMap Directive.contents

/-- The definition of a field and all nodes stored in it. -/
def FieldDefinition.contents (f : FieldDefinition) : List Node :=
  .fieldDefinition f :: f.arguments.flatMap InputValueDefinition.contents ++ f.type.contents ++
    f.directives.flatMap Directive.contents

/-- The definition of an enumeration's value and all nodes stored in it. -/
def EnumValueDefinition.contents (e : EnumValueDefinition) : List Node :=
  .enumValueDefinition e :: .value (.enum e.value) :: e.directives.flatMap Directive.contents

/-- The type at the root of one kind of operation, and its name. -/
def RootOperationType.contents (r : RootOperationType) : List Node :=
  .rootOperationType r :: r.type.contents

/-- A place where a directive can stand. -/
def DirectiveLocation.contents (l : DirectiveLocation) : List Node := [.directiveLocation l]

/-- The nodes stored in the declaration of a type.  Interfaces come before directives, and the parts
in braces or after an equals sign come last. -/
def TypeDeclaration.contents (t : TypeDeclaration) : List Node :=
  match t.body with
  | .scalar => t.directives.flatMap Directive.contents
  | .object interfaces fields? | .interface interfaces fields? =>
    interfaces.flatMap NamedType.contents ++ t.directives.flatMap Directive.contents ++
      (fields?.getD []).flatMap FieldDefinition.contents
  | .union members =>
    t.directives.flatMap Directive.contents ++ members.flatMap NamedType.contents
  | .enum values? =>
    t.directives.flatMap Directive.contents ++
      (values?.getD []).flatMap EnumValueDefinition.contents
  | .inputObject fields? =>
    t.directives.flatMap Directive.contents ++
      (fields?.getD []).flatMap InputValueDefinition.contents

/-- A definition and all nodes stored in it. -/
def Definition.contents (d : Definition) : List Node :=
  .definition d :: match d with
  | operation o =>
    o.variableDefinitions.flatMap VariableDefinition.contents ++
      o.directives.flatMap Directive.contents ++ o.selections.flatMap Selection.contents
  | fragment f =>
    f.condition.contents ++ f.directives.flatMap Directive.contents ++
      f.selections.flatMap Selection.contents
  | schema s =>
    s.directives.flatMap Directive.contents ++ s.roots.flatMap RootOperationType.contents
  | schemaExtension e =>
    e.directives.flatMap Directive.contents ++ e.roots.flatMap RootOperationType.contents
  | directive d =>
    d.arguments.flatMap InputValueDefinition.contents ++
      d.locations.flatMap DirectiveLocation.contents
  | type t => t.declaration.contents
  | typeExtension e => e.declaration.contents

/-- A node and all nodes stored in it, in the order of its fields. -/
def Node.contents : Node → List Node
  | document d => .document d :: d.definitions.flatMap Definition.contents
  | definition d => d.contents
  | variableDefinition v => v.contents
  | typeCondition c => c.contents
  | selection s => s.contents
  | directive d => d.contents
  | argument a => Argument.contents a
  | value v => v.contents
  | objectField f => .objectField f :: f.value.contents
  | typeRef t => t.contents
  | rootOperationType r => r.contents
  | fieldDefinition f => f.contents
  | inputValueDefinition i => i.contents
  | enumValueDefinition e => e.contents
  | directiveLocation l => l.contents

/-! ### Contents by children -/

theorem Value.contentsList_eq (vs : List Value) :
    Value.contentsList vs = vs.flatMap Value.contents := by
  induction vs with
  | nil => rw [Value.contentsList, List.flatMap_nil]
  | cons v vs ih => rw [Value.contentsList, List.flatMap_cons, ih]

theorem Value.contentsFields_eq (fs : List (NamedValue Value)) :
    Value.contentsFields fs = fs.flatMap fun f => .objectField f :: f.value.contents := by
  induction fs with
  | nil => rw [Value.contentsFields, List.flatMap_nil]
  | cons f fs ih => rw [Value.contentsFields, List.flatMap_cons, ih]

theorem Selection.contentsList_eq (ss : List Selection) :
    Selection.contentsList ss = ss.flatMap Selection.contents := by
  induction ss with
  | nil => rw [Selection.contentsList, List.flatMap_nil]
  | cons s ss ih => rw [Selection.contentsList, List.flatMap_cons, ih]

@[simp] theorem TypeRef.contents_named (t : NamedType) : (TypeRef.named t).contents = t.contents :=
  rfl

theorem Value.contents_eq (v : Value) :
    v.contents = .value v :: v.children.flatMap Node.contents := by
  cases v with
  | list vs start =>
    rw [Value.contents, Value.contentsList_eq, Value.children, List.flatMap_map]
    rfl
  | object fs start =>
    rw [Value.contents, Value.contentsFields_eq, Value.children, List.flatMap_map]
    rfl
  | _ => rfl

theorem TypeRef.contents_eq (t : TypeRef) :
    t.contents = .typeRef t :: t.children.flatMap Node.contents := by
  cases t <;> simp [TypeRef.contents, TypeRef.children, Node.contents]

theorem Selection.contents_eq (s : Selection) :
    s.contents = .selection s :: s.children.flatMap Node.contents := by
  cases s with
  | field f =>
    obtain ⟨alias?, x, args, dirs, _ | sels, start⟩ := f <;>
      simp [Selection.contents, Selection.contentsOption, Selection.contentsList_eq,
        Selection.children, List.flatMap_map, Node.contents]
  | spread s => simp [Selection.contents, Selection.children, List.flatMap_map, Node.contents]
  | inline i =>
    obtain ⟨condition?, dirs, sels, start⟩ := i
    simp [Selection.contents, Selection.contentsList_eq, Selection.children, List.flatMap_map,
      Node.contents]

theorem TypeDeclaration.contents_eq (t : TypeDeclaration) :
    t.contents = t.children.flatMap Node.contents := by
  obtain ⟨x, dirs, body⟩ := t
  cases body <;>
    simp [TypeDeclaration.contents, TypeDeclaration.children, List.flatMap_map, Node.contents]

theorem Definition.contents_eq (d : Definition) :
    d.contents = .definition d :: d.children.flatMap Node.contents := by
  cases d <;>
    simp [Definition.contents, Definition.children, TypeDeclaration.contents_eq,
      List.flatMap_map, Node.contents]

/-- The contents of a node are the node and the contents of its children. -/
theorem Node.contents_eq (n : Node) : n.contents = n :: n.children.flatMap Node.contents := by
  cases n with
  | definition d => exact d.contents_eq
  | selection s => exact s.contents_eq
  | value v => exact v.contents_eq
  | typeRef t => exact t.contents_eq
  | argument a | objectField a => simp [Node.contents, Node.children, Argument.contents]
  | typeCondition c => simp [Node.contents, Node.children, TypeCondition.contents]
  | rootOperationType r => simp [Node.contents, Node.children, RootOperationType.contents]
  | document d => simp [Node.contents, Node.children, List.flatMap_map]
  | directive d => simp [Node.contents, Node.children, List.flatMap_map, Directive.contents]
  | variableDefinition v =>
    simp [Node.contents, Node.children, List.flatMap_map, VariableDefinition.contents,
      Value.contents]
  | fieldDefinition f =>
    simp [Node.contents, Node.children, List.flatMap_map, FieldDefinition.contents]
  | inputValueDefinition i =>
    simp [Node.contents, Node.children, List.flatMap_map, InputValueDefinition.contents]
  | enumValueDefinition e =>
    simp [Node.contents, Node.children, List.flatMap_map, EnumValueDefinition.contents,
      Value.contents]
  | directiveLocation l => rfl

/-- Enumeration lists what is stored in a node, and nothing else. -/
theorem Node.enumerate_eq_contents (n : Node) : n.enumerate = n.contents := by
  induction n using Node.induction_children with
  | node n ih => rw [n.enumerate_eq, n.contents_eq, List.flatMap_congr ih]

/-! ### A number of steps -/

/-- After any number of steps off a stack, what is listed is the beginning of all that is in the
nodes on it. -/
theorem enumerateStack_eq_take (bound : Nat) (stack : List Node) :
    enumerateStack bound stack = (stack.flatMap Node.contents).take bound := by
  induction bound generalizing stack with
  | zero => rfl
  | succ bound ih =>
    cases stack with
    | nil => rfl
    | cons n stack =>
      rw [enumerateStack, ih, List.flatMap_cons, n.contents_eq, List.flatMap_append,
        List.cons_append, List.take_succ_cons]

/-! ### Labels -/

/-- The sort of a type, and whether it has a block in braces. -/
inductive TypeShape where
  | scalar
  | object (block : Bool)
  | interface (block : Bool)
  | union
  | enum (block : Bool)
  | inputObject (block : Bool)
  deriving DecidableEq, Repr

/-- What a node says without the nodes stored in it: names, texts and offsets. -/
inductive Label where
  | document (start : Nat)
  | operation (type : OperationType) (shorthand : Bool) (name? : Option String) (start : Nat)
  | fragment (name : String) (start : Nat)
  | schema (description? : Option String) (start : Nat)
  | schemaExtension (start : Nat)
  | directiveDefinition (description? : Option String) (name : String) (repeatable : Bool)
      (start : Nat)
  | type (description? : Option String) (name : String) (shape : TypeShape) (start : Nat)
  | typeExtension (name : String) (shape : TypeShape) (start : Nat)
  | variableDefinition (start : Nat)
  | typeCondition (start : Nat)
  | field (alias? : Option String) (name : String) (block : Bool) (start : Nat)
  | spread (fragment : String) (start : Nat)
  | inline (start : Nat)
  | directive (name : String) (start : Nat)
  | argument (name : String) (start : Nat)
  | var (name : String) (start : Nat)
  | int (text : String) (start : Nat)
  | float (text : String) (start : Nat)
  | string (value : String) (block : Bool) (start : Nat)
  | boolean (value : Bool) (start : Nat)
  | null (start : Nat)
  | enum (value : String) (start : Nat)
  | list (start : Nat)
  | object (start : Nat)
  | objectField (name : String) (start : Nat)
  | namedType (name : String) (start : Nat)
  | listType (start : Nat)
  | nonNullType (start : Nat)
  | rootOperationType (operation : OperationType) (start : Nat)
  | fieldDefinition (description? : Option String) (name : String) (start : Nat)
  | inputValueDefinition (description? : Option String) (name : String) (start : Nat)
  | enumValueDefinition (description? : Option String) (start : Nat)
  | executableLocation (name : String) (start : Nat)
  | typeSystemLocation (name : String) (start : Nat)
  deriving DecidableEq, Repr

/-- What the body of a type says without the nodes stored in it. -/
def TypeBody.shape : TypeBody → TypeShape
  | scalar => .scalar
  | object _ fields? => .object fields?.isSome
  | interface _ fields? => .interface fields?.isSome
  | union _ => .union
  | enum values? => .enum values?.isSome
  | inputObject fields? => .inputObject fields?.isSome

/-- What a value says without the nodes stored in it. -/
def Value.label : Value → Label
  | var v => .var v.name v.start
  | int text start => .int text start
  | float text start => .float text start
  | string value block start => .string value block start
  | boolean value start => .boolean value start
  | null start => .null start
  | enum e => .enum e.value e.start
  | list _ start => .list start
  | object _ start => .object start

/-- What a reference to a type says without the nodes stored in it. -/
def TypeRef.label : TypeRef → Label
  | named t => .namedType t.name t.start
  | list _ start => .listType start
  | nonNull _ start => .nonNullType start

/-- What a selection says without the nodes stored in it. -/
def Selection.label : Selection → Label
  | field f => .field f.alias? f.name f.selections?.isSome f.start
  | spread s => .spread s.fragment s.start
  | inline i => .inline i.start

/-- What a place for directives says. -/
def DirectiveLocation.label : DirectiveLocation → Label
  | executable name start => .executableLocation name start
  | typeSystem name start => .typeSystemLocation name start

/-- What a definition says without the nodes stored in it. -/
def Definition.label : Definition → Label
  | operation o => .operation o.type o.isShorthand o.name? o.start
  | fragment f => .fragment f.name f.start
  | schema s => .schema s.description? s.start
  | schemaExtension e => .schemaExtension e.start
  | directive d => .directiveDefinition d.description? d.name d.repeatable d.start
  | type t => .type t.description? t.declaration.name t.declaration.body.shape t.start
  | typeExtension e => .typeExtension e.declaration.name e.declaration.body.shape e.start

/-- What a node says without the nodes stored in it. -/
def Node.label : Node → Label
  | document d => .document d.start
  | definition d => d.label
  | variableDefinition v => .variableDefinition v.start
  | typeCondition c => .typeCondition c.start
  | selection s => s.label
  | directive d => .directive d.name d.start
  | argument a => .argument a.name a.start
  | value v => v.label
  | objectField f => .objectField f.name f.start
  | typeRef t => t.label
  | rootOperationType r => .rootOperationType r.operation r.start
  | fieldDefinition f => .fieldDefinition f.description? f.name f.start
  | inputValueDefinition i => .inputValueDefinition i.description? i.name i.start
  | enumValueDefinition e => .enumValueDefinition e.description? e.start
  | directiveLocation l => l.label

/-! ### From a label and children to a node -/

namespace Node

/-- The definition that the node is. -/
def definition? : Node → Option Definition
  | definition d => some d
  | _ => none

/-- The definition of a variable that the node is. -/
def variableDefinition? : Node → Option VariableDefinition
  | variableDefinition v => some v
  | _ => none

/-- The type condition that the node is. -/
def typeCondition? : Node → Option TypeCondition
  | typeCondition c => some c
  | _ => none

/-- The selection that the node is. -/
def selection? : Node → Option Selection
  | selection s => some s
  | _ => none

/-- The directive that the node is. -/
def directive? : Node → Option Directive
  | directive d => some d
  | _ => none

/-- The argument that the node is. -/
def argument? : Node → Option Argument
  | argument a => some a
  | _ => none

/-- The value that the node is. -/
def value? : Node → Option Value
  | value v => some v
  | _ => none

/-- The field of an object value that the node is. -/
def objectField? : Node → Option ObjectField
  | objectField f => some f
  | _ => none

/-- The mention of a type by its name that the node is. -/
def namedType? : Node → Option NamedType
  | typeRef (.named t) => some t
  | _ => none

/-- The reference to a type that the node is. -/
def typeRef? : Node → Option TypeRef
  | typeRef t => some t
  | _ => none

/-- The type at the root of one kind of operation that the node is. -/
def rootOperationType? : Node → Option RootOperationType
  | rootOperationType r => some r
  | _ => none

/-- The definition of a field that the node is. -/
def fieldDefinition? : Node → Option FieldDefinition
  | fieldDefinition f => some f
  | _ => none

/-- The definition of an argument or input field that the node is. -/
def inputValueDefinition? : Node → Option InputValueDefinition
  | inputValueDefinition i => some i
  | _ => none

/-- The definition of an enumeration's value that the node is. -/
def enumValueDefinition? : Node → Option EnumValueDefinition
  | enumValueDefinition e => some e
  | _ => none

/-- The place where a directive can stand that the node is. -/
def directiveLocation? : Node → Option DirectiveLocation
  | directiveLocation l => some l
  | _ => none

end Node

/-- A block in braces with some parts, if there is a block. -/
def blockOf {α : Type} (block : Bool) (parts : List α) : Option (List α) :=
  if block then some parts else none

@[simp] theorem blockOf_isSome {α : Type} (parts? : Option (List α)) :
    blockOf parts?.isSome (parts?.getD []) = parts? := by
  cases parts? <;> rfl

/-- The body of a type with the given nodes stored in it. -/
def TypeShape.rebuild (shape : TypeShape) (nodes : List Node) : TypeBody :=
  match shape with
  | scalar => .scalar
  | object block =>
    .object (nodes.filterMap Node.namedType?)
      (blockOf block (nodes.filterMap Node.fieldDefinition?))
  | interface block =>
    .interface (nodes.filterMap Node.namedType?)
      (blockOf block (nodes.filterMap Node.fieldDefinition?))
  | union => .union (nodes.filterMap Node.namedType?)
  | enum block => .enum (blockOf block (nodes.filterMap Node.enumValueDefinition?))
  | inputObject block => .inputObject (blockOf block (nodes.filterMap Node.inputValueDefinition?))

/-- The declaration of a type with the given nodes stored in it. -/
def TypeDeclaration.ofNodes (name : String) (shape : TypeShape) (nodes : List Node) :
    TypeDeclaration :=
  ⟨name, nodes.filterMap Node.directive?, shape.rebuild nodes⟩

/-- The node with a given label and the given nodes stored in it, if there is one. -/
def Label.rebuild : Label → List Node → Option Node
  | document start, nodes => some (.document ⟨nodes.filterMap Node.definition?, start⟩)
  | operation kind shorthand name? start, nodes =>
    some (.definition (.operation ⟨kind, shorthand, name?,
      nodes.filterMap Node.variableDefinition?, nodes.filterMap Node.directive?,
      nodes.filterMap Node.selection?, start⟩))
  | fragment name start, .typeCondition condition :: nodes =>
    some (.definition (.fragment ⟨name, condition, nodes.filterMap Node.directive?,
      nodes.filterMap Node.selection?, start⟩))
  | schema description? start, nodes =>
    some (.definition (.schema ⟨description?, nodes.filterMap Node.directive?,
      nodes.filterMap Node.rootOperationType?, start⟩))
  | schemaExtension start, nodes =>
    some (.definition (.schemaExtension ⟨nodes.filterMap Node.directive?,
      nodes.filterMap Node.rootOperationType?, start⟩))
  | directiveDefinition description? name repeatable start, nodes =>
    some (.definition (.directive ⟨description?, name, nodes.filterMap Node.inputValueDefinition?,
      repeatable, nodes.filterMap Node.directiveLocation?, start⟩))
  | type description? name shape start, nodes =>
    some (.definition (.type ⟨description?, .ofNodes name shape nodes, start⟩))
  | typeExtension name shape start, nodes =>
    some (.definition (.typeExtension ⟨.ofNodes name shape nodes, start⟩))
  | variableDefinition start, .value (.var v) :: .typeRef t :: nodes =>
    some (.variableDefinition ⟨v, t, (nodes.filterMap Node.value?).head?,
      nodes.filterMap Node.directive?, start⟩)
  | typeCondition start, [.typeRef (.named t)] => some (.typeCondition ⟨t, start⟩)
  | field alias? name block start, nodes =>
    some (.selection (.field ⟨alias?, name, nodes.filterMap Node.argument?,
      nodes.filterMap Node.directive?, blockOf block (nodes.filterMap Node.selection?), start⟩))
  | spread name start, nodes =>
    some (.selection (.spread ⟨name, nodes.filterMap Node.directive?, start⟩))
  | inline start, nodes =>
    some (.selection (.inline ⟨(nodes.filterMap Node.typeCondition?).head?,
      nodes.filterMap Node.directive?, nodes.filterMap Node.selection?, start⟩))
  | directive name start, nodes =>
    some (.directive ⟨name, nodes.filterMap Node.argument?, start⟩)
  | argument name start, [.value value] => some (.argument ⟨name, value, start⟩)
  | var name start, [] => some (.value (.var ⟨name, start⟩))
  | int text start, [] => some (.value (.int text start))
  | float text start, [] => some (.value (.float text start))
  | string value block start, [] => some (.value (.string value block start))
  | boolean value start, [] => some (.value (.boolean value start))
  | null start, [] => some (.value (.null start))
  | enum value start, [] => some (.value (.enum ⟨value, start⟩))
  | list start, nodes => some (.value (.list (nodes.filterMap Node.value?) start))
  | object start, nodes => some (.value (.object (nodes.filterMap Node.objectField?) start))
  | objectField name start, [.value value] => some (.objectField ⟨name, value, start⟩)
  | namedType name start, [] => some (.typeRef (.named ⟨name, start⟩))
  | listType start, [.typeRef item] => some (.typeRef (.list item start))
  | nonNullType start, [.typeRef inner] => some (.typeRef (.nonNull inner start))
  | rootOperationType kind start, [.typeRef (.named t)] =>
    some (.rootOperationType ⟨kind, t, start⟩)
  | fieldDefinition description? name start, nodes => do
    let t ← (nodes.filterMap Node.typeRef?).head?
    some (.fieldDefinition ⟨description?, name, nodes.filterMap Node.inputValueDefinition?, t,
      nodes.filterMap Node.directive?, start⟩)
  | inputValueDefinition description? name start, .typeRef t :: nodes =>
    some (.inputValueDefinition ⟨description?, name, t, (nodes.filterMap Node.value?).head?,
      nodes.filterMap Node.directive?, start⟩)
  | enumValueDefinition description? start, .value (.enum value) :: nodes =>
    some (.enumValueDefinition ⟨description?, value, nodes.filterMap Node.directive?, start⟩)
  | executableLocation name start, [] => some (.directiveLocation (.executable name start))
  | typeSystemLocation name start, [] => some (.directiveLocation (.typeSystem name start))
  | _, _ => none

theorem Value.rebuild_label (v : Value) : v.label.rebuild v.children = some (.value v) := by
  cases v <;> simp [Value.label, Value.children, Label.rebuild, Function.comp_def, Node.value?,
    Node.objectField?]

theorem TypeRef.rebuild_label (t : TypeRef) : t.label.rebuild t.children = some (.typeRef t) := by
  cases t <;> rfl

theorem Selection.rebuild_label (s : Selection) :
    s.label.rebuild s.children = some (.selection s) := by
  cases s <;>
    simp [Selection.label, Selection.children, Label.rebuild, Function.comp_def,
      Node.argument?, Node.directive?, Node.selection?, Node.typeCondition?]

theorem TypeDeclaration.ofNodes_children (t : TypeDeclaration) :
    TypeDeclaration.ofNodes t.name t.body.shape t.children = t := by
  obtain ⟨x, dirs, body⟩ := t
  cases body <;>
    simp [TypeDeclaration.ofNodes, TypeBody.shape, TypeDeclaration.children, TypeShape.rebuild,
      Function.comp_def, Node.directive?, Node.namedType?, Node.fieldDefinition?,
      Node.enumValueDefinition?, Node.inputValueDefinition?]

theorem Definition.rebuild_label (d : Definition) :
    d.label.rebuild d.children = some (.definition d) := by
  cases d with
  | type t | typeExtension t =>
    simp [Definition.label, Definition.children, Label.rebuild, TypeDeclaration.ofNodes_children]
  | _ =>
    simp [Definition.label, Definition.children, Label.rebuild, Function.comp_def,
      Node.variableDefinition?, Node.directive?, Node.selection?, Node.rootOperationType?,
      Node.inputValueDefinition?, Node.directiveLocation?]

/-- A node is made of what it says itself and its children. -/
theorem Node.rebuild_label (n : Node) : n.label.rebuild n.children = some n := by
  cases n with
  | definition d => exact d.rebuild_label
  | selection s => exact s.rebuild_label
  | value v => exact v.rebuild_label
  | typeRef t => exact t.rebuild_label
  | directiveLocation l => cases l <;> rfl
  | fieldDefinition f =>
    simp [Node.label, Node.children, Label.rebuild, Function.comp_def, List.filterMap_cons,
      Node.directive?, Node.typeRef?, Node.inputValueDefinition?]
  | _ =>
    simp [Node.label, Node.children, Label.rebuild, Function.comp_def, Node.definition?,
      Node.argument?, Node.value?, Node.directive?]

/-- **Enumeration is complete.**  The enumeration of a node lists what is stored in it, each
occurrence once, and has ended after as many steps; the node comes right before the enumerations of
its children, and nothing that it stores is left out of these. -/
theorem Node.enumerate_complete (n : Node) :
    (∀ bound, enumerateStack bound [n] = n.contents.take bound) ∧ n.enumerate = n.contents ∧
      n.enumerate = n :: n.children.flatMap Node.enumerate ∧
      n.label.rebuild n.children = some n :=
  ⟨fun bound => by rw [enumerateStack_eq_take, List.flatMap_singleton], n.enumerate_eq_contents,
    n.enumerate_eq, n.rebuild_label⟩

end GraphQL
