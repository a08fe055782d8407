import GraphQL.Tree.Node

/-!
# Enumeration of nodes

`Node.enumerate` lists a node and all nodes inside it, each before its children and the children
in source order.  It works off a stack: the node on top is listed and replaced by its children.
-/

namespace GraphQL

/-- Lists at most the given number of nodes off a stack. -/
def enumerateStack : Nat → List Node → List Node
  | 0, _ => []
  | _ + 1, [] => []
  | bound + 1, n :: stack => n :: enumerateStack bound (n.children ++ stack)

/-- A node and all nodes inside it, in source order. -/
def Node.enumerate (n : Node) : List Node := enumerateStack n.count [n]

/-- All nodes of a document. -/
def Document.nodes (d : Document) : List Node := (Node.document d).enumerate

/-- The node reached by following child indices. -/
def Node.descend? : Node → List Nat → Option Node
  | n, [] => some n
  | n, i :: path => do (← n.children[i]?).descend? path

end GraphQL
