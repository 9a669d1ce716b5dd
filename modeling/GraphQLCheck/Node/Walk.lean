import GraphQLCheck.Node

/-!
# Walks

A depth-first walk over a node and everything below it. A `Walker` is told of every node before
and after its children, and may have the children of a node left out. Its state is threaded
through the walk, and it may start further walks itself.
-/

namespace GraphQLCheck

/-- What a walker wants done with a node that it has been told of. -/
inductive WalkFlow where
  /-- Go on with the children of the node. -/
  | descend
  /-- Leave the children out, and do not come back to the node. -/
  | skip
deriving DecidableEq, Repr, Inhabited

/-- A walker whose state is a `σ`. -/
structure Walker (σ : Type) where
  /-- Called before the children of a node. The flag tells the node at which the walk began. -/
  enter : Node → Bool → σ → σ × WalkFlow
  /-- Called after the children of a node. -/
  leave : Node → σ → σ

namespace Node

variable {σ : Type}

/-- Walks over a node, which may be the one at which the walk began. -/
def walkFrom (w : Walker σ) (isRoot : Bool) (n : Node) (s : σ) : σ :=
  match w.enter n isRoot s with
  | (s, .skip) => s
  | (s, .descend) =>
    w.leave n (n.children.attach.foldl (fun s c => walkFrom w false c.1 s) s)
termination_by sizeOf n
decreasing_by exact sizeOf_lt_of_mem_children c.2

/-- Walks over a node and everything below it. -/
def walk (w : Walker σ) (n : Node) (s : σ) : σ := n.walkFrom w true s

end Node

end GraphQLCheck
