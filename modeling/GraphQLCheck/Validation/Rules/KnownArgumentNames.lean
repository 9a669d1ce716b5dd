import GraphQLCheck.Validation.Rule

/-!
# Known argument names

Every argument given to a field or a directive must be one that the field or directive defines.
Arguments of fields and directives that are not known themselves are left alone.
-/

namespace GraphQLCheck

namespace Rules

namespace KnownArgumentNames

/-- The message for an argument that a field does not define. -/
def fieldMessage (argument field type : String) : String :=
  s!"Unknown argument \"{argument}\" on field \"{field}\" of type \"{type}\"."

/-- The message for an argument that a directive does not define. -/
def directiveMessage (argument directive : String) : String :=
  s!"Unknown argument \"{argument}\" on directive \"@{directive}\"."

/-- Whether a node can be given arguments: fields and directives. -/
def isOwner : Node → Bool
  | .directive _ => true
  | .field _ => true
  | _ => false

/-- The errors of an argument that is given to the innermost of some fields and directives, and
has no definition. -/
def errors (types : TypeState) (owners : List Node) (a : Argument) : List ValidationError :=
  match owners with
  | .directive _ :: _ =>
    match types.directive? with
    | some d => [.ofNodes (directiveMessage a.name d.name) [.argument a]]
    | none => []
  | .field f :: _ =>
    match types.field?, types.parentType? with
    | some _, some parent => [.ofNodes (fieldMessage a.name f.name parent.name) [.argument a]]
    | _, _ => []
  | _ => []

/-- What the rule does before the children of a node. It keeps the fields and directives around the
node in mind, innermost first. -/
def enter (ctx : Context) (n : Node) (owners : List Node) : List Node × Response :=
  match n with
  | .directive _ => (n :: owners, .proceed)
  | .field _ => (n :: owners, .proceed)
  | .argument a =>
    if ctx.types.argument?.isNone then
      match errors ctx.types owners a with
      | [] => (owners, .proceed)
      | es => (owners, .report es)
    else (owners, .proceed)
  | _ => (owners, .proceed)

/-- What the rule does after the children of a node. -/
def leave (n : Node) (owners : List Node) : List Node := if isOwner n then owners.tail else owners

end KnownArgumentNames

/-- Arguments must be defined by the field or directive that they are given to. -/
def knownArgumentNames : Rule where
  name := "KnownArgumentNames"
  Memory := List Node
  start _ := []
  visitor :=
    { enter := KnownArgumentNames.enter
      leave := fun _ n owners => (KnownArgumentNames.leave n owners, [])
      visitsSpreads := false
      inlineSpread := fun _ _ owners => (owners, true) }

end Rules

end GraphQLCheck
