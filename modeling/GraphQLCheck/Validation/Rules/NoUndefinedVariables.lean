import GraphQLCheck.Validation.Rule

/-!
# No undefined variables

Every variable that an operation uses, directly or through the fragments it spreads, must be
defined by that operation. Fragments are visited at their spreads, once per operation, so a
fragment that two operations share is checked against the variables of each.
-/

namespace GraphQLCheck

namespace Rules

namespace NoUndefinedVariables

/-- The message for a variable that is not defined. -/
def message (variableName : String) : String := s!"Variable \"${variableName}\" is not defined."

/-- The message for a variable in a fragment that a named operation does not define. -/
def byOperationMessage (variableName operation : String) : String :=
  s!"Variable \"${variableName}\" is not defined by operation \"{operation}\"."

/-- What the rule keeps in mind. -/
structure Memory where
  /-- The variables that the operation has defined. -/
  defined : List String
  /-- How many fragments visited at their spreads are around the node. -/
  fragmentDepth : Nat
  /-- The operation being visited, or the last one that was. -/
  operation : Option OperationDefinition
  /-- The fragments that the operation has spread. -/
  spread : List String

/-- The memory before a walk. -/
def Memory.start : Memory := ⟨[], 0, none, []⟩

/-- The error of a variable that the operation has not defined. Within a fragment, a named
operation is at fault too. -/
def error (m : Memory) (variableName : String) : ValidationError :=
  match m.operation with
  | some operation =>
    match operation.name with
    | some operationName =>
      if 0 < m.fragmentDepth then
        .ofNodes (byOperationMessage variableName operationName)
          [.variable variableName, .operationDefinition operation]
      else .ofNodes (message variableName) [.variable variableName]
    | none => .ofNodes (message variableName) [.variable variableName]
  | none => .ofNodes (message variableName) [.variable variableName]

/-- What the rule does before the children of a node. -/
def enter (n : Node) (m : Memory) : Memory × Response :=
  match n with
  | .fragmentDefinition _ => ({ m with fragmentDepth := m.fragmentDepth + 1 }, .proceed)
  | .operationDefinition d =>
    ({ m with defined := [], operation := some d, spread := [] }, .proceed)
  | .variable name =>
    if name ∈ m.defined then (m, .proceed) else (m, .report [error m name])
  | .variableDefinition d => ({ m with defined := d.name :: m.defined }, .proceed)
  | _ => (m, .proceed)

/-- What the rule does after the children of a node. -/
def leave (n : Node) (m : Memory) : Memory :=
  match n with
  | .fragmentDefinition _ => { m with fragmentDepth := m.fragmentDepth - 1 }
  | _ => m

/-- A fragment is visited at the first spread of it in an operation. -/
def inlineSpread (spread : FragmentSpread) (m : Memory) : Memory × Bool :=
  if spread.name ∈ m.spread then (m, false)
  else ({ m with spread := spread.name :: m.spread }, true)

end NoUndefinedVariables

/-- Variables that an operation uses must be defined by it. -/
def noUndefinedVariables : Rule where
  name := "NoUndefinedVariables"
  Memory := NoUndefinedVariables.Memory
  start _ := .start
  visitor :=
    { enter := fun _ n m => NoUndefinedVariables.enter n m
      leave := fun _ n m => (NoUndefinedVariables.leave n m, [])
      visitsSpreads := true
      inlineSpread := fun _ spread m => NoUndefinedVariables.inlineSpread spread m }

end Rules

end GraphQLCheck
