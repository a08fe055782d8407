import GraphQL.Tree.Node

/-!
# Visitors

A visitor has a handler for some kinds of node.  A node without handler is walked: its children
are visited in source order.  A handler runs in place of the walk and is given the walk, to use
before or after its own work or not at all.
-/

namespace GraphQL

/-- What to do at the nodes of some kinds, with effects in `m`. -/
structure Visitor (m : Type → Type) where
  /-- The handler of a kind of node, given the node and the walk over its children. -/
  handler? : NodeKind → Option (Node → m PUnit → m PUnit)

namespace Visitor

variable {m : Type → Type} [Monad m]

/-- Visits a node, going at most `depth` levels down. -/
def visitWithin (v : Visitor m) : Nat → Node → m PUnit
  | 0, _ => pure ⟨⟩
  | depth + 1, n =>
    let walk := n.children.forM (v.visitWithin depth)
    match v.handler? n.kind with
    | some handler => handler n walk
    | none => walk

/-- Visits a node and what its handlers walk over. -/
def visit (v : Visitor m) (n : Node) : m PUnit := v.visitWithin n.count n

end Visitor

end GraphQL
