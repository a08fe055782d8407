import GraphQL.Tree.Node

/-!
# Folds over nodes

A folder carries a value through the nodes of a tree.  Like a visitor it has a handler for some
kinds of node, here a function of the value so far; a node without handler is walked: its
children are folded from left to right.
-/

namespace GraphQL

/-- How the nodes of some kinds change a value of type `α`. -/
structure Folder (α : Type) where
  /-- The handler of a kind of node, given the node, the walk over its children and the value so
  far. -/
  handler? : NodeKind → Option (Node → (α → α) → α → α)

namespace Folder

variable {α : Type}

/-- Folds a node, going at most `depth` levels down. -/
def foldWithin (f : Folder α) : Nat → Node → α → α
  | 0, _, acc => acc
  | depth + 1, n, acc =>
    let walk := fun acc => n.children.foldl (fun acc child => f.foldWithin depth child acc) acc
    match f.handler? n.kind with
    | some handler => handler n walk acc
    | none => walk acc

/-- Folds a node and what its handlers walk over, from a first value. -/
def fold (f : Folder α) (n : Node) (seed : α) : α := f.foldWithin n.count n seed

end Folder

end GraphQL
