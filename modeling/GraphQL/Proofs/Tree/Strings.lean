import GraphQL.Proofs.Traversal.Enumeration
import GraphQL.Grammar.Values
import Mathlib.Data.List.Forall2

/-!
# Nodes and the string literals that they hold

A string value holds the literal that it is, and a definition with a description holds the literal
that it starts with (`Node.Holds`).  Nodes *keep the strings* of some tokens (`KeepsStrings`) if
every string literal among the tokens is held by one node, listed in the same order, and if every
node that can have a description has that of the token which it starts with.  Keeping strings
carries over from nodes to those side by side (`KeepsStrings.append`), and from the children of a
node to the node (`KeepsStrings.parent`, `Describes.keeps`).
-/

namespace GraphQL

namespace Node

/-- The description of a node that is of a sort to have one, whether it has one or not. -/
def description? : Node → Option (Option String)
  | definition (.schema s) => some s.description?
  | definition (.directive d) => some d.description?
  | definition (.type t) => some t.description?
  | fieldDefinition f => some f.description?
  | inputValueDefinition i => some i.description?
  | enumValueDefinition e => some e.description?
  | _ => none

/-- The value of the string literal that belongs to a node and to no node inside it. -/
def literal? : Node → Option String
  | value (.string v _ _) => some v
  | n => n.description?.join

/-- A node holds a string literal, as its value or as its description. -/
inductive Holds : Node → Token → Prop where
  /-- A string value is what the literal says, in the form in which it is written. -/
  | value (text v : String) (offset : Nat) :
    Holds (.value (.string v (isBlockLiteral text) (reportedOffset offset)))
      ⟨.string text v, offset⟩
  /-- A definition that starts with the literal has its value as description. -/
  | description {n : Node} (text v : String) {offset : Nat} (hd : n.description? = some (some v))
    (hs : n.start = reportedOffset offset) : Holds n ⟨.string text v, offset⟩

theorem literal?_of_description? {n : Node} {d? : Option String} (h : n.description? = some d?) :
    n.literal? = d? := by
  cases n with
  | value v => cases h
  | _ => rw [literal?, h, Option.join_some]; nofun

end Node

/-- No string literal is among the tokens. -/
def NoStrings (w : List Token) : Prop := ∀ t ∈ w, t.kind ≠ .string

/-- There is a first token, and it is no string literal. -/
def LeadsNoString (w : List Token) : Prop := ∃ t u, w = t :: u ∧ t.kind ≠ .string

theorem LeadsNoString.extend {u : List Token} (h : LeadsNoString u) (v : List Token) :
    LeadsNoString (u ++ v) := by
  obtain ⟨t, u, rfl, ht⟩ := h
  exact ⟨t, u ++ v, rfl, ht⟩

/-- The string literals among some tokens, and the nodes that are to hold them. -/
structure KeepsStrings (ns : List Node) (w : List Token) : Prop where
  /-- Each string literal is held by one node, in the order of the enumeration. -/
  literals : List.Forall₂ Node.Holds
    ((ns.flatMap Node.enumerate).filter (·.literal?.isSome)) (w.filter (·.kind == .string))
  /-- What can have a description has the value of the token that it starts with, if that is a
  string literal, and otherwise has none. -/
  descriptions : ∀ n ∈ ns.flatMap Node.enumerate, ∀ d?, n.description? = some d? →
    ∃ t ∈ w, t.start = n.start ∧ d? = t.lexeme.value?

namespace KeepsStrings

variable {n : Node} {ns ms : List Node} {u v w : List Token}

theorem nil (hw : NoStrings w) : KeepsStrings [] w where
  literals := by
    have hfilter : w.filter (·.kind == .string) = [] :=
      List.filter_eq_nil_iff.2 fun t ht => by simpa using hw t ht
    rw [hfilter]
    exact .nil
  descriptions _ hn := nomatch hn

theorem append (h : KeepsStrings ns u) (h' : KeepsStrings ms v) :
    KeepsStrings (ns ++ ms) (u ++ v) where
  literals := by
    rw [List.flatMap_append, List.filter_append, List.filter_append]
    exact List.rel_append h.literals h'.literals
  descriptions n hn d? hd := by
    rw [List.flatMap_append, List.mem_append] at hn
    rcases hn with hn | hn
    · obtain ⟨t, ht, hstart, hvalue⟩ := h.descriptions n hn d? hd
      exact ⟨t, List.mem_append_left _ ht, hstart, hvalue⟩
    · obtain ⟨t, ht, hstart, hvalue⟩ := h'.descriptions n hn d? hd
      exact ⟨t, List.mem_append_right _ ht, hstart, hvalue⟩

theorem prepend (hu : NoStrings u) (h : KeepsStrings ns w) : KeepsStrings ns (u ++ w) :=
  (nil hu).append h

theorem extend (h : KeepsStrings ns w) (hv : NoStrings v) : KeepsStrings ns (w ++ v) := by
  simpa using h.append (nil hv)

/-- Nodes that need no tokens keep the strings of tokens without any. -/
theorem within (h : KeepsStrings ns []) (hw : NoStrings w) : KeepsStrings ns w :=
  h.extend hw

/-- A node that holds no literal itself leaves all of them to its children. -/
theorem parent (h : KeepsStrings n.children w) (hl : n.literal? = none)
    (hd : n.description? = none) : KeepsStrings [n] w where
  literals := by
    rw [List.flatMap_singleton, n.enumerate_eq, List.filter_cons_of_neg (by simp [hl])]
    exact h.literals
  descriptions m hm d? hm' := by
    rw [List.flatMap_singleton, n.enumerate_eq] at hm
    obtain rfl | hm := List.mem_cons.1 hm
    · rw [hd] at hm'
      cases hm'
    · exact h.descriptions m hm d? hm'

/-- A node without children that holds no literal. -/
theorem leaf (hc : n.children = []) (hl : n.literal? = none) (hd : n.description? = none)
    (hw : NoStrings w) : KeepsStrings [n] w :=
  parent (by rw [hc]; exact nil hw) hl hd

/-- A string value. -/
theorem string (text v : String) (offset : Nat) :
    KeepsStrings [.value (.string v (isBlockLiteral text) (reportedOffset offset))]
      [⟨.string text v, offset⟩] where
  literals := .cons (.value text v offset) .nil
  descriptions n hn d? hd := by
    obtain rfl : n = .value (.string v (isBlockLiteral text) (reportedOffset offset)) :=
      List.mem_singleton.1 hn
    cases hd

/-- Nodes each of which needs no tokens. -/
theorem map_nil {α : Type} {node : α → Node} (h : ∀ a, KeepsStrings [node a] []) (as : List α) :
    KeepsStrings (as.map node) [] := by
  induction as with
  | nil => exact nil nofun
  | cons a as ih => exact (h a).append ih

/-- No string belongs to a type. -/
theorem typeRef (t : TypeRef) : KeepsStrings [.typeRef t] [] := by
  induction t with
  | named t => exact leaf rfl rfl rfl nofun
  | list item start ih | nonNull inner start ih => exact parent ih rfl rfl

theorem document {d : Document} (h : KeepsStrings (d.definitions.map Node.definition) w) :
    KeepsStrings [.document d] w :=
  parent h rfl rfl

end KeepsStrings

/-- The tokens of a description: one string literal with its value, or none. -/
inductive Describes : Option String → List Token → Prop where
  | absent : Describes none []
  | literal (text v : String) (offset : Nat) : Describes (some v) [⟨.string text v, offset⟩]

/-- A node that can have a description holds its own literal, if there is one, and leaves all
others to its children.  Without a description it starts with a token that is no string. -/
theorem Describes.keeps {n : Node} {d? : Option String} {u w : List Token} (h : Describes d? u)
    (hd : n.description? = some d?) (hs : ∀ t ∈ (u ++ w).head?, n.start = t.start)
    (hw : LeadsNoString w) (hc : KeepsStrings n.children w) :
    KeepsStrings [n] (u ++ w) where
  literals := by
    have hl := Node.literal?_of_description? hd
    rw [List.flatMap_singleton, n.enumerate_eq]
    cases h with
    | absent =>
      rw [List.filter_cons_of_neg (by simp [hl])]
      exact hc.literals
    | literal text v offset =>
      rw [List.filter_cons_of_pos (by simp [hl]), List.singleton_append,
        List.filter_cons_of_pos (by rfl)]
      exact .cons (.description text v hd (hs _ rfl)) hc.literals
  descriptions m hm d'? hd' := by
    rw [List.flatMap_singleton, n.enumerate_eq] at hm
    obtain rfl | hm := List.mem_cons.1 hm
    · obtain rfl : d? = d'? := Option.some.inj (hd.symm.trans hd')
      cases h with
      | absent =>
        obtain ⟨⟨l, offset⟩, w, rfl, hkind⟩ := hw
        refine ⟨_, List.mem_cons_self, (hs _ rfl).symm, ?_⟩
        cases l with
        | string text v => exact absurd rfl hkind
        | _ => rfl
      | literal text v offset => exact ⟨_, List.mem_cons_self, (hs _ rfl).symm, rfl⟩
    · obtain ⟨t, ht, hstart, hvalue⟩ := hc.descriptions m hm d'? hd'
      exact ⟨t, List.mem_append_right _ ht, hstart, hvalue⟩

end GraphQL
