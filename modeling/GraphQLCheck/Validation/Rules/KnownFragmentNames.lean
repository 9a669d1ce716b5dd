import GraphQLCheck.Validation.Rule

/-!
# Known fragment names

Every spread must name a fragment that the document defines.
-/

namespace GraphQLCheck

namespace Rules

/-- The message for a fragment that is not defined. -/
def unknownFragmentMessage (fragment : String) : String := s!"Unknown fragment \"{fragment}\"."

/-- Fragments that are spread must be defined. -/
def knownFragmentNames : Rule :=
  .ofCheck "KnownFragmentNames" fun ctx n =>
    match n with
    | .fragmentSpread spread =>
      if (ctx.document.fragment? spread.name).isNone then
        [.ofNodes (unknownFragmentMessage spread.name) [n]]
      else []
    | _ => []

end Rules

end GraphQLCheck
