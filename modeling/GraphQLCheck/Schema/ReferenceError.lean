import GraphQLCheck.Schema.Types

/-!
# Bad references between types

The ways in which a type may refer to another one that a schema does not allow. They show only once
every definition has been loaded, and are reported together.
-/

namespace GraphQLCheck

/-- A reference to a type that is not allowed, or an enum without values. -/
inductive ReferenceError where
  | emptyEnum (location : SourceLocation) (type : String)
  | implementsNonInterface (location : SourceLocation) (type interface : String)
  | implementsUndefinedInterface (location : SourceLocation) (type interface : String)
  | inputFieldOfOutputType (location : SourceLocation) (type field fieldType : String)
  | nonObjectUnionMember (location : SourceLocation) (union member : String) (kind : TypeKind)
  | outputFieldOfInputType (location : SourceLocation) (type field fieldType : String)
  | parameterOfOutputType (location : SourceLocation) (parameter parameterType : String)
  | undefinedType (location : SourceLocation) (type : String)
deriving DecidableEq, Repr, Inhabited

namespace ReferenceError

/-- Where the error is. -/
def location : ReferenceError → SourceLocation
  | emptyEnum l _ => l
  | implementsNonInterface l _ _ => l
  | implementsUndefinedInterface l _ _ => l
  | inputFieldOfOutputType l _ _ _ => l
  | nonObjectUnionMember l _ _ _ => l
  | outputFieldOfInputType l _ _ _ => l
  | parameterOfOutputType l _ _ => l
  | undefinedType l _ => l

/-- The message of an error. -/
def message : ReferenceError → String
  | emptyEnum _ type => s!"Enum `{type}` has no values"
  | implementsNonInterface _ type interface =>
    s!"`{type}` implements `{interface}`, which is not an interface"
  | implementsUndefinedInterface _ type interface =>
    s!"`{type}` implements `{interface}`, which is not defined"
  | inputFieldOfOutputType _ type field fieldType =>
    s!"Input field `{type}.{field}` has output-only type `{fieldType}`"
  | nonObjectUnionMember _ union member kind =>
    s!"Union `{union}` lists `{member}` as a member, but its kind is {kind.label} rather than " ++
      "object"
  | outputFieldOfInputType _ type field fieldType =>
    s!"Field `{type}.{field}` has input object type `{fieldType}`"
  | parameterOfOutputType _ parameter parameterType =>
    s!"Argument `{parameter}` has output-only type `{parameterType}`"
  | undefinedType _ type => s!"Type `{type}` is not defined"

end ReferenceError

end GraphQLCheck
