import GraphQL.Traversal.Preorder
import Mathlib.Tactic.Common

/-!
# Nodes in preorder

`Node.count` is one for a node and the counts of its children (`Node.count_eq`), so a child counts
less than its parent and a statement about nodes can be proved from the children up
(`Node.induction_children`).  The bound that enumeration works with is never used up: a node is
listed before all that its children list, one child after the other (`Node.enumerate_eq`).
-/

namespace GraphQL

variable {α β : Type}

/-! ### Counting -/

@[simp] theorem totalCount_nil (count : α → Nat) : totalCount count [] = 0 := rfl

@[simp] theorem totalCount_cons (count : α → Nat) (a : α) (as : List α) :
    totalCount count (a :: as) = count a + totalCount count as := rfl

@[simp] theorem totalCount_append (count : α → Nat) (as bs : List α) :
    totalCount count (as ++ bs) = totalCount count as + totalCount count bs := by
  induction as with
  | nil => simp
  | cons a as ih => simp [ih, Nat.add_assoc]

@[simp] theorem totalCount_map (count : β → Nat) (f : α → β) (as : List α) :
    totalCount count (as.map f) = totalCount (fun a => count (f a)) as := by
  induction as with
  | nil => rfl
  | cons a as ih => simp [ih]

@[simp] theorem totalCount_const (k : Nat) (as : List α) :
    totalCount (fun _ => k) as = k * as.length := by
  induction as with
  | nil => rfl
  | cons a as ih => rw [totalCount_cons, ih, List.length_cons, Nat.mul_succ, Nat.add_comm]

theorem Value.countList_eq (vs : List Value) : Value.countList vs = totalCount Value.count vs := by
  induction vs with
  | nil => rw [Value.countList, totalCount_nil]
  | cons v vs ih => rw [Value.countList, totalCount_cons, ih]

theorem Value.countFields_eq (fs : List (NamedValue Value)) :
    Value.countFields fs = totalCount (fun f => 1 + f.value.count) fs := by
  induction fs with
  | nil => rw [Value.countFields, totalCount_nil]
  | cons f fs ih => rw [Value.countFields, totalCount_cons, ih]

theorem Selection.countList_eq (ss : List Selection) :
    Selection.countList ss = totalCount Selection.count ss := by
  induction ss with
  | nil => rw [Selection.countList, totalCount_nil]
  | cons s ss ih => rw [Selection.countList, totalCount_cons, ih]

theorem countDefault_eq (v? : Option Value) :
    countDefault v? = totalCount Value.count v?.toList := by
  cases v? <;> rfl

theorem Value.count_eq (v : Value) : v.count = 1 + totalCount Node.count v.children := by
  cases v with
  | list vs start => simp [Value.count, Value.children, Value.countList_eq, Node.count]
  | object fs start => simp [Value.count, Value.children, Value.countFields_eq, Node.count]
  | _ => simp [Value.count, Value.children]

theorem TypeRef.count_eq (t : TypeRef) : t.count = 1 + totalCount Node.count t.children := by
  cases t <;> simp [TypeRef.count, TypeRef.children, Node.count]

theorem Selection.count_eq (s : Selection) :
    s.count = 1 + totalCount Node.count s.children := by
  cases s with
  | field f =>
    obtain ⟨alias?, x, args, dirs, _ | sels, start⟩ := f <;>
      simp [Selection.count, Selection.countOption, Selection.children, Selection.countList_eq,
        Value.countFields_eq, countDirectives, Node.count, Nat.add_assoc]
  | spread s => simp [Selection.count, Selection.children, countDirectives, Node.count]
  | inline i =>
    obtain ⟨condition?, dirs, sels, start⟩ := i
    simp [Selection.count, Selection.children, Selection.countList_eq, countDirectives, Node.count,
      Nat.add_assoc]

theorem TypeDeclaration.count_eq (t : TypeDeclaration) :
    countDirectives t.directives + t.body.count = totalCount Node.count t.children := by
  obtain ⟨x, dirs, body⟩ := t
  cases body <;>
    simp [TypeBody.count, TypeDeclaration.children, countDirectives, Node.count, TypeRef.count,
      Nat.add_left_comm]

theorem Definition.count_eq (d : Definition) :
    d.count = 1 + totalCount Node.count d.children := by
  cases d with
  | type t | typeExtension t =>
    rw [Definition.count, Definition.children, Nat.add_assoc, TypeDeclaration.count_eq]
  | fragment f =>
    simp [Definition.count, Definition.children, countDirectives, Selection.countList_eq,
      Node.count]
    eta_reduce
    omega
  | _ =>
    simp [Definition.count, Definition.children, countDirectives, Selection.countList_eq,
      Node.count, Nat.add_assoc]

/-- A node counts itself and all that its children count. -/
theorem Node.count_eq (n : Node) : n.count = 1 + totalCount Node.count n.children := by
  cases n with
  | definition d => exact d.count_eq
  | selection s => exact s.count_eq
  | value v => exact v.count_eq
  | typeRef t => exact t.count_eq
  | directive d => simp [Node.count, Node.children, Directive.count, Value.countFields_eq]
  | variableDefinition v =>
    simp [Node.count, Node.children, VariableDefinition.count, countDefault_eq, countDirectives,
      Value.count]
    eta_reduce
    omega
  | fieldDefinition f =>
    simp [Node.count, Node.children, FieldDefinition.count, countDirectives, Nat.add_assoc]
  | inputValueDefinition i =>
    simp [Node.count, Node.children, InputValueDefinition.count, countDefault_eq, countDirectives,
      Nat.add_assoc]
  | enumValueDefinition e =>
    simp [Node.count, Node.children, EnumValueDefinition.count, countDirectives, Value.count]
    eta_reduce
    omega
  | _ => simp [Node.count, Node.children, TypeRef.count]

theorem le_totalCount_of_mem (count : α → Nat) {a : α} {as : List α} (h : a ∈ as) :
    count a ≤ totalCount count as := by
  induction as with
  | nil => simp at h
  | cons b as ih =>
    rw [totalCount_cons]
    obtain rfl | h := List.mem_cons.mp h
    · exact Nat.le_add_right _ _
    · exact Nat.le_add_left_of_le (ih h)

theorem Node.count_lt_of_mem_children {n c : Node} (h : c ∈ n.children) : c.count < n.count := by
  have := le_totalCount_of_mem Node.count h
  rw [n.count_eq]
  omega

/-- What holds of a node whenever it holds of its children holds of every node. -/
theorem Node.induction_children {motive : Node → Prop}
    (node : ∀ n : Node, (∀ c ∈ n.children, motive c) → motive n) (n : Node) : motive n :=
  node n fun c _ => Node.induction_children node c
termination_by n.count
decreasing_by exact Node.count_lt_of_mem_children ‹_›

/-! ### Listing -/

private theorem enumerate_eq_cons {bound : Nat} {n : Node}
    (ih : ∀ b < bound, ∀ stack, totalCount Node.count stack ≤ b →
      enumerateStack b stack = stack.flatMap Node.enumerate)
    (h : n.count ≤ bound) : n.enumerate = n :: n.children.flatMap Node.enumerate := by
  have hn := n.count_eq
  rw [Node.enumerate, hn, Nat.add_comm, enumerateStack, List.append_nil,
    ih _ (by omega) _ Nat.le.refl]

/-- With a bound that lets all of them be listed, the nodes on a stack are listed from the top, each
with all inside it. -/
theorem enumerateStack_eq {bound : Nat} {stack : List Node}
    (h : totalCount Node.count stack ≤ bound) :
    enumerateStack bound stack = stack.flatMap Node.enumerate := by
  induction bound using Nat.strongRecOn generalizing stack with
  | ind bound ih =>
    match bound, stack with
    | 0, [] | _ + 1, [] => rfl
    | 0, n :: _ => exact absurd h (by have := n.count_eq; simp; omega)
    | bound + 1, n :: stack =>
      have hn := n.count_eq
      rw [totalCount_cons] at h
      rw [enumerateStack, ih bound (by omega) (by rw [totalCount_append]; omega),
        List.flatMap_cons, List.flatMap_append,
        enumerate_eq_cons (fun b hb stack => ih b hb) (by omega), List.cons_append]

/-- A node comes before all inside it, and its children come in order. -/
theorem Node.enumerate_eq (n : Node) : n.enumerate = n :: n.children.flatMap Node.enumerate :=
  enumerate_eq_cons (fun _ _ _ => enumerateStack_eq) Nat.le.refl

end GraphQL
