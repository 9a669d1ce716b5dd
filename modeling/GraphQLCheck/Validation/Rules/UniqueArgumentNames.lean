import GraphQLCheck.Validation.Rule

/-!
# Unique argument names

No field and no directive may be given the same argument more than once.
-/

namespace GraphQLCheck

namespace Rules

namespace UniqueArgumentNames

/-- The message for an argument that is given again. -/
def message (argument : String) : String :=
  s!"There can be only one argument named \"{argument}\"."

/-- What the rule does before the children of a node. It keeps the first argument of each name in
mind that the field or directive being visited has been given. -/
def enter (n : Node) (seen : List Argument) : List Argument × Response :=
  match n with
  | .directive _ => ([], .proceed)
  | .field _ => ([], .proceed)
  | .argument a =>
    match seen.find? (·.name = a.name) with
    | some first => (seen, .report [.ofNodes (message a.name) [.argument first, n]])
    | none => (seen ++ [a], .proceed)
  | _ => (seen, .proceed)

end UniqueArgumentNames

/-- Arguments must not be given twice. -/
def uniqueArgumentNames : Rule where
  name := "UniqueArgumentNames"
  Memory := List Argument
  start _ := []
  visitor :=
    { enter := fun _ n seen => UniqueArgumentNames.enter n seen
      leave := fun _ _ seen => (seen, [])
      visitsSpreads := false
      inlineSpread := fun _ _ seen => (seen, true) }

end Rules

end GraphQLCheck
