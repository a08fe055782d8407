import GraphQL.Proofs.Lexical.Lexeme
import GraphQL.Proofs.Traversal.Enumeration

/-!
# Nodes over tokens

A node starts where one of its tokens starts, and many nodes tell what that token looks like
(`Node.leadingText?`).  Nodes side by side are *laid out* over some tokens if each has tokens of its
own, in the same order as the nodes, its children are laid out over these tokens, and the first of
them is where it starts (`LaidOut`).

If the tokens come in the order of their offsets, so do the nodes: nothing inside a node starts
before it, and all that is inside it starts before the sibling after it (`LaidOut.inOrder`), so
offsets never go down along the enumeration (`Node.enumerate_sorted`).
-/

namespace GraphQL

/-! ### The text where a node starts -/

/-- The text at the start of a value, for values of a single token and for variables. -/
def Value.leadingText? : Value → Option String
  | .var _ => some "$"
  | .int text _ | .float text _ => some text
  | .string _ _ _ => some "\""
  | .boolean true _ => some "true"
  | .boolean false _ => some "false"
  | .null _ => some "null"
  | .enum e => some e.value
  | .list _ _ | .object _ _ => none

/-- The text at the start of a node, for leaves and for fields and directives. -/
def Node.leadingText? : Node → Option String
  | value v => v.leadingText?
  | typeRef (.named t) => some t.name
  | directiveLocation l => some l.name
  | selection (.field f) => some (f.alias?.getD f.name)
  | directive _ => some "@"
  | _ => none

/-- The node starts with the token. -/
def Node.StandsAt (n : Node) (t : Token) : Prop :=
  n.start = t.start ∧ ∀ x ∈ n.leadingText?, t.lexeme.Genuine → x.toList <+: t.text.toList

/-! ### Layouts -/

/-- Nodes have some of the tokens each, in order, and start with the first of theirs. -/
inductive LaidOut : List Node → List Token → Prop where
  /-- No nodes. -/
  | nil {w : List Token} : LaidOut [] w
  /-- A token of none of the nodes. -/
  | skip {ns : List Node} {t : Token} {w : List Token} (h : LaidOut ns w) : LaidOut ns (t :: w)
  /-- A node over the tokens `t :: u`, and then the others. -/
  | node {n : Node} {ns : List Node} {t : Token} {u w : List Token} (ht : n.StandsAt t)
    (hchildren : LaidOut n.children (t :: u)) (h : LaidOut ns w) : LaidOut (n :: ns) (t :: u ++ w)

/-- A node starts with the first of some tokens, and its children are laid out over them. -/
def Node.Spans (n : Node) (w : List Token) : Prop :=
  ∃ t u, w = t :: u ∧ n.StandsAt t ∧ LaidOut n.children w

namespace LaidOut

variable {ns ms : List Node} {u v w : List Token}

theorem prepend (u : List Token) (h : LaidOut ns w) : LaidOut ns (u ++ w) := by
  induction u with
  | nil => exact h
  | cons t u ih => exact .skip ih

theorem append (h : LaidOut ns u) (h' : LaidOut ms v) : LaidOut (ns ++ ms) (u ++ v) := by
  induction h with
  | nil => exact h'.prepend _
  | skip _ ih => exact .skip ih
  | node ht hchildren _ _ ih =>
    rw [List.append_assoc]
    exact .node ht hchildren ih

theorem extend (h : LaidOut ns u) (v : List Token) : LaidOut ns (u ++ v) := by
  simpa using h.append (nil (w := v))

end LaidOut

theorem Node.Spans.laidOut {n : Node} {w : List Token} (h : n.Spans w) : LaidOut [n] w := by
  obtain ⟨t, u, rfl, ht, hchildren⟩ := h
  simpa using LaidOut.node ht hchildren (.nil (w := []))

/-! ### Where laid out nodes start -/

theorem Node.mem_enumerate_self (n : Node) : n ∈ n.enumerate := by
  rw [enumerate_eq]
  exact List.mem_cons_self

theorem Node.mem_enumerate_iff {m n : Node} :
    m ∈ n.enumerate ↔ m = n ∨ ∃ c ∈ n.children, m ∈ c.enumerate := by
  rw [enumerate_eq, List.mem_cons, List.mem_flatMap]

/-- Each node inside starts with one of the tokens. -/
theorem LaidOut.exists_token {ns : List Node} {w : List Token} (h : LaidOut ns w) :
    ∀ n ∈ ns, ∀ m ∈ n.enumerate, ∃ t ∈ w, m.StandsAt t := by
  induction h with
  | nil => exact fun _ hn => nomatch hn
  | skip _ ih =>
    intro n hn m hm
    obtain ⟨t, ht, hmt⟩ := ih n hn m hm
    exact ⟨t, List.mem_cons_of_mem _ ht, hmt⟩
  | @node n ns t u w ht _ _ ihchildren ih =>
    rw [List.forall_mem_cons]
    refine ⟨fun m hm => ?_, fun n' hn m hm => ?_⟩
    · obtain rfl | ⟨c, hc, hm⟩ := Node.mem_enumerate_iff.1 hm
      · exact ⟨t, List.mem_append_left _ List.mem_cons_self, ht⟩
      · obtain ⟨t', ht', hmt⟩ := ihchildren c hc m hm
        exact ⟨t', List.mem_append_left _ ht', hmt⟩
    · obtain ⟨t', ht', hmt⟩ := ih n' hn m hm
      exact ⟨t', List.mem_append_right _ ht', hmt⟩

/-- All that is in the node `a` starts before the node `b`. -/
def Node.Before (a b : Node) : Prop := ∀ m ∈ a.enumerate, m.start < b.start

/-- Nothing inside a node starts before it, and its children start one after the other. -/
structure Node.InOrder (n : Node) : Prop where
  /-- Nothing inside starts before it. -/
  le : ∀ m ∈ n.enumerate, n.start ≤ m.start
  /-- All that is in a child starts before the children after it. -/
  children : n.children.Pairwise Before

/-- **Nodes laid out over tokens in order are in order.** -/
theorem LaidOut.inOrder {ns : List Node} {w : List Token} (h : LaidOut ns w)
    (hw : w.Pairwise (·.start < ·.start)) :
    (∀ n ∈ ns, ∀ m ∈ n.enumerate, m.InOrder) ∧ ns.Pairwise Node.Before := by
  induction h with
  | nil => exact ⟨(fun _ hn => nomatch hn), .nil⟩
  | skip _ ih => exact ih (List.pairwise_cons.1 hw).2
  | @node n ns t u w ht hchildren h ihchildren ih =>
    obtain ⟨hu, hw, huw⟩ := List.pairwise_append.1 hw
    obtain ⟨hin, hpairs⟩ := ihchildren hu
    obtain ⟨hin', hpairs'⟩ := ih hw
    -- All inside the node starts with one of its tokens, the first of which is its own.
    have htoken : ∀ m ∈ n.enumerate, ∃ t' ∈ t :: u, m.StandsAt t' :=
      (Node.Spans.laidOut ⟨t, u, rfl, ht, hchildren⟩).exists_token n List.mem_cons_self
    have hle : ∀ m ∈ n.enumerate, n.start ≤ m.start := by
      intro m hm
      obtain ⟨t', ht', hmt⟩ := htoken m hm
      rw [ht.1, hmt.1]
      obtain rfl | ht' := List.mem_cons.1 ht'
      · exact Nat.le.refl
      · exact Nat.le_of_lt ((List.pairwise_cons.1 hu).1 t' ht')
    refine ⟨List.forall_mem_cons.2 ⟨fun m hm => ?_, hin'⟩, .cons (fun b hb m hm => ?_) hpairs'⟩
    · obtain rfl | ⟨c, hc, hm⟩ := Node.mem_enumerate_iff.1 hm
      · exact ⟨hle, hpairs⟩
      · exact hin c hc m hm
    · obtain ⟨t₁, ht₁, hm⟩ := htoken m hm
      obtain ⟨t₂, ht₂, hb⟩ := h.exists_token b hb b b.mem_enumerate_self
      rw [hm.1, hb.1]
      exact huw t₁ ht₁ t₂ ht₂

/-- The offsets of nodes in order never go down along the enumeration. -/
theorem Node.enumerate_sorted {n : Node} (h : ∀ m ∈ n.enumerate, m.InOrder) :
    n.enumerate.Pairwise (·.start ≤ ·.start) := by
  induction n using Node.induction_children with
  | node n ih =>
    have hchild : ∀ c ∈ n.children, ∀ m ∈ c.enumerate, m.InOrder :=
      fun c hc m hm => h m (mem_enumerate_iff.2 (.inr ⟨c, hc, hm⟩))
    have hn := h n n.mem_enumerate_self
    rw [enumerate_eq]
    refine .cons (fun m hm => hn.le m ?_) (List.pairwise_flatMap.2 ⟨?_, ?_⟩)
    · rw [enumerate_eq]
      exact List.mem_cons_of_mem _ hm
    · exact fun c hc => ih c hc (hchild c hc)
    · refine hn.children.imp_of_mem fun {a b} _ hb hab m hm m' hm' => ?_
      exact Nat.le_trans (Nat.le_of_lt (hab m hm))
        ((hchild b hb b b.mem_enumerate_self).le m' hm')

end GraphQL
