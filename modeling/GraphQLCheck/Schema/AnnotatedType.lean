import GraphQLCheck.Schema.Location
import GraphQLCheck.Language.TypeExpr

/-!
# Annotated types

The type of a field, a parameter or an input field as a schema keeps it: every layer says whether
it is nullable, and carries the location of what has the type.
-/

namespace GraphQLCheck

/-- The type of something in a schema. -/
inductive AnnotatedType where
  | named (type : TypeReference) (nullable : Bool)
  | list (item : AnnotatedType) (nullable : Bool) (location : SourceLocation)

namespace AnnotatedType

/-- The annotated type for a written type, which is nullable if `nullable` holds and it has no
non-null mark of its own. Several marks on one type count once. -/
def ofExprAs (location : SourceLocation) (nullable : Bool) : TypeExpr → AnnotatedType
  | .named name => named ⟨name, location⟩ nullable
  | .list item => list (ofExprAs location true item) nullable location
  | .nonNull inner => ofExprAs location false inner

/-- The annotated type for a written type. -/
def ofExpr (location : SourceLocation) (type : TypeExpr) : AnnotatedType :=
  ofExprAs location true type

/-- The type of something built in, given in the written form of types. -/
def builtIn (text : String) : AnnotatedType := ofExpr .builtIn (.ofText text)

/-- Whether the outermost layer is nullable. -/
def nullable : AnnotatedType → Bool
  | named _ nullable => nullable
  | list _ nullable _ => nullable

/-- The reference inside all lists. -/
def core : AnnotatedType → TypeReference
  | named type _ => type
  | list item _ _ => item.core

/-- The written form of the type. -/
def text : AnnotatedType → String
  | named type nullable => type.name ++ if nullable then "" else "!"
  | list item nullable _ => "[" ++ item.text ++ "]" ++ if nullable then "" else "!"

/-- Whether two annotated types are the same, locations included. -/
def same : AnnotatedType → AnnotatedType → Bool
  | named r m, named s n => r.same s && m == n
  | list a m l, list b n k => a.same b && m == n && l.same k
  | _, _ => false

end AnnotatedType

end GraphQLCheck
