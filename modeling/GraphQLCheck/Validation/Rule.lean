import GraphQLCheck.Validation.TypeState

/-!
# Rules

A rule watches a walk over a document and reports errors. It is a state machine: a `Visitor` is
told of every node before and after its children, sees the `Context` of the node, and keeps a
memory of its own. A visitor may ask for fragments to be visited where they are spread instead of
where they are defined.
-/

namespace GraphQLCheck

/-- A violation of a rule: what is wrong, the nodes at fault, and where they are. -/
structure ValidationError where
  message : String
  nodes : List Node
  locations : List Position

namespace ValidationError

/-- The error at some nodes, located at those of them that have a place. -/
def ofNodes (message : String) (nodes : List Node) : ValidationError :=
  ⟨message, nodes, nodes.filterMap Node.position?⟩

/-- The error located at a given place if it has no location of its own. -/
def orLocatedAt (e : ValidationError) (fallback : Option Position) : ValidationError :=
  if e.locations = [] then { e with locations := fallback.toList } else e

end ValidationError

/-- What a rule can look at when it is told of a node. -/
structure Context where
  schema : Schema
  document : Document
  /-- The types in effect inside the node. -/
  types : TypeState
  /-- The nodes around the node, innermost first. Around a fragment that is visited where it is
  spread comes the spread. -/
  ancestors : List Node
  /-- The names of the fragments that are being visited where they are spread, innermost first. -/
  inlining : List String

/-- What a rule wants done with a node that it has been told of. -/
inductive Response where
  /-- Go on with the children of the node. -/
  | proceed
  /-- Leave the children out, and do not come back to the node. -/
  | skip
  /-- Record errors, and then do the same as for `skip`. -/
  | report (errors : List ValidationError)

/-- A watcher of one walk over a document, whose memory is a `σ`. -/
structure Visitor (σ : Type) where
  /-- Called before the children of a node. -/
  enter : Context → Node → σ → σ × Response
  /-- Called after the children of a node. Returns errors to record. -/
  leave : Context → Node → σ → σ × List ValidationError
  /-- Whether fragments are visited where they are spread, and not where they are defined. -/
  visitsSpreads : Bool
  /-- Called at a spread after `enter` has gone on with it, if fragments are visited where they are
  spread: whether this one is to be visited here. -/
  inlineSpread : Context → FragmentSpread → σ → σ × Bool

namespace Visitor

/-- The visitor that does nothing. -/
def idle {σ : Type} : Visitor σ where
  enter _ _ m := (m, .proceed)
  leave _ _ m := (m, [])
  visitsSpreads := false
  inlineSpread _ _ m := (m, true)

/-- The visitor without memory that reports the errors a check finds at a node. -/
def ofCheck (check : Context → Node → List ValidationError) : Visitor Unit where
  enter ctx n m :=
    match check ctx n with
    | [] => (m, .proceed)
    | errors => (m, .report errors)
  leave _ _ m := (m, [])
  visitsSpreads := false
  inlineSpread _ _ m := (m, true)

end Visitor

/-- A rule: its name, and the visitor that it puts on a walk. -/
structure Rule where
  name : String
  Memory : Type
  /-- The memory before the walk, given the context at which nothing has been entered yet. -/
  start : Context → Memory
  visitor : Visitor Memory
  /-- What the rule has noted besides errors. -/
  notes : Memory → List String := fun _ => []

/-- The rule without memory that reports the errors a check finds at a node. -/
def Rule.ofCheck (name : String) (check : Context → Node → List ValidationError) : Rule where
  name := name
  Memory := Unit
  start _ := ()
  visitor := .ofCheck check

end GraphQLCheck
