import GraphQLCheck.Validation.Rule

/-!
# Known type names

Every type that a document names, as the type of a variable or as a fragment's type condition, must
be defined in the schema.
-/

namespace GraphQLCheck

namespace Rules

/-- The message for a type that is not defined. -/
def unknownTypeMessage (type : String) : String := s!"Unknown type \"{type}\"."

/-- Types that a document names must be defined. -/
def knownTypeNames : Rule :=
  .ofCheck "KnownTypeNames" fun ctx n =>
    match n with
    | .namedType name =>
      if (ctx.schema.type? name).isNone then [.ofNodes (unknownTypeMessage name) [n]] else []
    | _ => []

end Rules

end GraphQLCheck
