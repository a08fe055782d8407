import GraphQL.Proofs.Parse.Spelling
import GraphQL.Proofs.Traversal.Enumeration
import Mathlib.Data.List.Basic

/-!
# The nodes of a document that parses

A tree is well formed if all of its parts are; a node of it is *valid* if what the node says itself
is right, whatever is inside it (`Node.Valid`).  Well-formedness passes from a node to its children
(`Node.WellFormed.children`), so every node of a well-formed tree is valid, and every node of a
document that parses (`valid_of_parseWith`).
-/

namespace GraphQL

/-! ### What a node says itself -/

/-- A value by itself: the text of names and numbers, and bare names that are no other value. -/
def Value.Valid : Value → Prop
  | var v => ValidName v.name
  | int text _ => text.toList ∈ LexicalText.integer
  | float text _ => text.toList ∈ LexicalText.float
  | enum e => e.WellFormed
  | string _ _ _ | boolean _ _ | null _ | list _ _ | object _ _ => True

/-- A reference to a type by itself: a non-null type wraps one that is not. -/
def TypeRef.Valid : TypeRef → Prop
  | named t => ValidName t.name
  | list _ _ => True
  | nonNull inner _ => inner.isNonNull = false

/-- A selection by itself. -/
def Selection.Valid : Selection → Prop
  | field f => (∀ x ∈ f.alias?, ValidName x) ∧ ValidName f.name
  | spread s => ValidFragmentName s.fragment
  | inline _ => True

/-- An operation by itself: a bare selection set is a query with nothing before the selections. -/
structure Operation.Valid (o : Operation) : Prop where
  /-- The name, if there is one. -/
  name : ∀ x ∈ o.name?, ValidName x
  /-- What a bare selection set stands for. -/
  shorthand : o.isShorthand = true →
    o.type = .query ∧ o.name? = none ∧ o.variableDefinitions = [] ∧ o.directives = []

/-- A definition by itself. -/
def Definition.Valid : Definition → Prop
  | operation o => o.Valid
  | fragment f => ValidFragmentName f.name
  | schema _ | schemaExtension _ => True
  | directive d => ValidName d.name ∧ d.locations ≠ []
  | type t => ValidName t.declaration.name
  | typeExtension e => ValidName e.declaration.name

/-- A place listed in a directive definition: its name is one of those of its sort. -/
structure DirectiveLocation.Valid (l : DirectiveLocation) : Prop where
  /-- Places in executable definitions. -/
  executable : l.kind = .executableLocation → l.name ∈ executablePlaces
  /-- Places in the type system. -/
  typeSystem : l.kind = .typeSystemLocation → l.name ∈ typeSystemPlaces

namespace Node

/-- A node by itself. -/
def Valid : Node → Prop
  | document _ | variableDefinition _ | typeCondition _ | rootOperationType _ => True
  | definition d => d.Valid
  | selection s => s.Valid
  | directive d => ValidName d.name
  | argument a => ValidName a.name
  | value v => v.Valid
  | objectField f => ValidName f.name
  | typeRef t => t.Valid
  | fieldDefinition f => ValidName f.name
  | inputValueDefinition i => ValidName i.name
  | enumValueDefinition e => e.value.WellFormed
  | directiveLocation l => l.Valid

/-! ### Well-formed nodes -/

/-- A node that is well formed with all that is inside it. -/
def WellFormed : Node → Prop
  | document d => d.WellFormed
  | definition d => d.WellFormed
  | variableDefinition v => v.WellFormed
  | typeCondition c => ValidName c.type.name
  | selection s => s.WellFormed
  | directive d => d.WellFormed
  | argument a => NamedValue.WellFormed a
  | value v => v.WellFormed
  | objectField f => NamedValue.WellFormed f
  | typeRef t => t.WellFormed
  | rootOperationType r => ValidName r.type.name
  | fieldDefinition f => f.WellFormed
  | inputValueDefinition i => i.WellFormed
  | enumValueDefinition e => e.WellFormed
  | directiveLocation l => l.WellFormed

end Node

theorem Value.WellFormed.valid {v : Value} (h : v.WellFormed) : v.Valid := by
  cases v <;> simp_all [Value.WellFormed, Value.Valid]

theorem TypeRef.WellFormed.valid {t : TypeRef} (h : t.WellFormed) : t.Valid := by
  cases t with
  | named t => exact h
  | list item start => trivial
  | nonNull inner start => exact h.2

theorem Selection.WellFormed.valid {s : Selection} (h : s.WellFormed) : s.Valid := by
  cases s with
  | field f =>
    obtain ⟨halias, hname, -⟩ := (Selection.wellFormed_field f).1 h
    exact ⟨halias, hname⟩
  | spread s =>
    rw [Selection.WellFormed] at h
    exact h.1
  | inline i => trivial

theorem Operation.WellFormed.valid {o : Operation} (h : o.WellFormed) : o.Valid := by
  exact ⟨h.name, h.shorthand⟩

theorem Definition.WellFormed.valid {d : Definition} (h : d.WellFormed) : d.Valid := by
  cases d with
  | operation o => exact Operation.WellFormed.valid h
  | fragment f => exact h.1
  | schema s | schemaExtension s => trivial
  | directive d => exact ⟨h.1, h.2.2.1⟩
  | type t | typeExtension t => exact h.1

theorem DirectiveLocation.WellFormed.valid {l : DirectiveLocation} (h : l.WellFormed) :
    l.Valid := by
  cases l with
  | executable name start => exact ⟨fun _ => h, nofun⟩
  | typeSystem name start => exact ⟨nofun, fun _ => h⟩

namespace Node

theorem WellFormed.valid {n : Node} (h : n.WellFormed) : n.Valid := by
  cases n with
  | document d | variableDefinition v | typeCondition c | rootOperationType r => trivial
  | definition d => exact Definition.WellFormed.valid h
  | selection s => exact Selection.WellFormed.valid h
  | value v => exact Value.WellFormed.valid h
  | typeRef t => exact TypeRef.WellFormed.valid h
  | directive d => exact h.1
  | argument a | objectField a => exact h.1
  | fieldDefinition f => exact h.1
  | inputValueDefinition i => exact h.1
  | enumValueDefinition e => exact h.1
  | directiveLocation l => exact DirectiveLocation.WellFormed.valid h

/-! ### From a node to its children -/

end Node

theorem Value.WellFormed.children {v : Value} (h : v.WellFormed) :
    ∀ c ∈ v.children, c.WellFormed := by
  cases v with
  | list vs start => exact List.forall_mem_map.2 ((Value.wellFormed_list vs start).1 h)
  | object fs start => exact List.forall_mem_map.2 ((Value.wellFormed_object fs start).1 h)
  | _ => exact List.forall_mem_nil _

theorem TypeRef.WellFormed.children {t : TypeRef} (h : t.WellFormed) :
    ∀ c ∈ t.children, c.WellFormed := by
  cases t with
  | named t => exact List.forall_mem_nil _
  | list item start => exact List.forall_mem_singleton.2 h
  | nonNull inner start => exact List.forall_mem_singleton.2 h.1

theorem Selection.WellFormed.children {s : Selection} (h : s.WellFormed) :
    ∀ c ∈ s.children, c.WellFormed := by
  cases s with
  | field f =>
    obtain ⟨-, -, hargs, hdirs, hsels⟩ := (Selection.wellFormed_field f).1 h
    simp only [Selection.children, List.forall_mem_append, List.forall_mem_map]
    refine ⟨⟨hargs, hdirs⟩, fun s hs => ?_⟩
    obtain ⟨alias?, x, args, dirs, _ | sels, start⟩ := f
    · cases hs
    · exact hsels sels rfl s hs
  | spread s =>
    rw [Selection.WellFormed] at h
    exact List.forall_mem_map.2 h.2
  | inline i =>
    obtain ⟨hcondition, hdirs, hsels⟩ := (Selection.wellFormed_inline i).1 h
    simp only [Selection.children, List.forall_mem_append, List.forall_mem_map]
    exact ⟨⟨fun c hc => hcondition c (Option.mem_toList.1 hc), hdirs⟩, hsels⟩

theorem TypeDeclaration.WellFormed.children {t : TypeDeclaration} (h : t.WellFormed) :
    ∀ c ∈ t.children, c.WellFormed := by
  obtain ⟨x, dirs, body⟩ := t
  obtain ⟨-, hdirs, hbody⟩ := h
  cases body with
  | scalar => exact List.forall_mem_map.2 hdirs
  | object interfaces fields? | interface interfaces fields? =>
    simp only [TypeDeclaration.children, List.forall_mem_append, List.forall_mem_map]
    refine ⟨⟨hbody.1, hdirs⟩, fun f hf => ?_⟩
    cases fields? with
    | none => cases hf
    | some fields => exact hbody.2 fields rfl f hf
  | union members =>
    simp only [TypeDeclaration.children, List.forall_mem_append, List.forall_mem_map]
    exact ⟨hdirs, hbody⟩
  | enum entries? | inputObject entries? =>
    simp only [TypeDeclaration.children, List.forall_mem_append, List.forall_mem_map]
    refine ⟨hdirs, fun v hv => ?_⟩
    cases entries? with
    | none => cases hv
    | some entries => exact hbody entries rfl v hv

theorem Definition.WellFormed.children {d : Definition} (h : d.WellFormed) :
    ∀ c ∈ d.children, c.WellFormed := by
  cases d with
  | type t | typeExtension t => exact TypeDeclaration.WellFormed.children h
  | operation o =>
    simp only [Definition.children, List.forall_mem_append, List.forall_mem_map]
    exact ⟨⟨h.variableDefinitions, h.directives⟩, h.selections⟩
  | fragment f =>
    simp only [Definition.children, List.forall_mem_append, List.forall_mem_cons,
      List.forall_mem_map]
    exact ⟨⟨h.2.1, h.2.2.1⟩, h.2.2.2⟩
  | schema s | schemaExtension s =>
    simp only [Definition.children, List.forall_mem_append, List.forall_mem_map]
    exact h
  | directive d =>
    simp only [Definition.children, List.forall_mem_append, List.forall_mem_map]
    exact ⟨h.2.1, h.2.2.2⟩

namespace Node

/-- Well-formedness passes to the nodes directly inside a node. -/
theorem WellFormed.children {n : Node} (h : n.WellFormed) : ∀ c ∈ n.children, c.WellFormed := by
  cases n with
  | document d => exact List.forall_mem_map.2 h
  | definition d => exact Definition.WellFormed.children h
  | selection s => exact Selection.WellFormed.children h
  | value v => exact Value.WellFormed.children h
  | typeRef t => exact TypeRef.WellFormed.children h
  | directive d => exact List.forall_mem_map.2 h.2
  | argument a | objectField a => exact List.forall_mem_singleton.2 h.2
  | typeCondition c | rootOperationType r => exact List.forall_mem_singleton.2 h
  | variableDefinition v =>
    obtain ⟨hname, htype, hdefault, hdirs⟩ := h
    simp only [Node.children, List.forall_mem_append, List.forall_mem_cons, List.forall_mem_map,
      Option.mem_toList]
    exact ⟨⟨hname, htype, hdefault⟩, hdirs⟩
  | inputValueDefinition i =>
    obtain ⟨-, htype, hdefault, hdirs⟩ := h
    simp only [Node.children, List.forall_mem_append, List.forall_mem_cons, List.forall_mem_map,
      Option.mem_toList]
    exact ⟨⟨htype, hdefault⟩, hdirs⟩
  | fieldDefinition f =>
    simp only [Node.children, List.forall_mem_append, List.forall_mem_cons, List.forall_mem_map]
    exact h.2
  | enumValueDefinition e =>
    simp only [Node.children, List.forall_mem_cons, List.forall_mem_map]
    exact h
  | directiveLocation l => exact List.forall_mem_nil _

/-- Every node inside a well-formed node is well formed. -/
theorem WellFormed.of_mem_enumerate {n : Node} (h : n.WellFormed) :
    ∀ m ∈ n.enumerate, m.WellFormed := by
  induction n using Node.induction_children with
  | node n ih =>
    rw [n.enumerate_eq]
    intro m hm
    obtain rfl | hm := List.mem_cons.1 hm
    · exact h
    · obtain ⟨c, hc, hm⟩ := List.mem_flatMap.1 hm
      exact ih c hc (h.children c hc) m hm

end Node

/-- **Every parsed tree is well formed.**  All nodes of a document that a text parses as are valid:
names are names, numbers are numbers of their sort, no bare name is `true`, `false` or `null`, no
fragment is called `on`, no non-null type wraps another, directives have places, all of them known,
and a bare selection set is a query without name, variables and directives. -/
theorem valid_of_parseWith {options : ParseOptions} {source : String} {d : Document}
    (h : parseWith options source = .ok d) : ∀ n ∈ d.nodes, n.Valid := by
  have hd : (Node.document d).WellFormed := (spelled_of_parseWith h).2.1
  exact fun n hn => (hd.of_mem_enumerate n hn).valid

/-- An alias, numbers of both sorts in a list, a non-null type, and a directive with places of both
sorts. -/
theorem valid_of_parseWith_alias :
    (Document.nodes ⟨[
      .operation ⟨.query, true, none, [], [], [.field ⟨some "e", "f",
        [⟨"a", .list [.int "-1" 8, .float "2e3" 11, .enum ⟨"b", 15⟩] 7, 5⟩], [], none, 1⟩], 0⟩,
      .directive ⟨none, "d", [⟨none, "t", .nonNull (.named ⟨"T", 33⟩) 33, none, [], 31⟩], false,
        [.executable "QUERY" 39, .typeSystem "SCHEMA" 45], 19⟩], 0⟩).Forall Node.Valid :=
  List.forall_iff_forall_mem.2 <|
    @valid_of_parseWith .unlimited "\x7be:f(a:[-1 2e3 b])\x7ddirective@d(t:T!)on QUERY|SCHEMA" _
      (by decide +kernel)

end GraphQL
