import GraphQLCheck.Files.Path
import GraphQLCheck.Text.Position

/-!
# Where definitions come from

Everything a schema defines is either built in or written at a place in a source.
-/

namespace GraphQLCheck

/-- The origin of a definition. -/
inductive SourceLocation where
  | builtIn
  | written (path : Path) (position : Position)
deriving DecidableEq, Repr, Inhabited

namespace SourceLocation

/-- The text `path:line:column`, or `builtin`. -/
def text : SourceLocation → String
  | builtIn => "builtin"
  | written path position => s!"{path.text}:{position.text}"

/-- Whether two locations are the same place of the same file. -/
def same : SourceLocation → SourceLocation → Bool
  | builtIn, builtIn => true
  | written p a, written q b => p.same q && a = b
  | _, _ => false

end SourceLocation

/-- A type referred to by name, and where it is referred to. -/
structure TypeReference where
  name : String
  location : SourceLocation

/-- Whether two references name the same type at the same place. -/
def TypeReference.same (r s : TypeReference) : Bool :=
  r.name == s.name && r.location.same s.location

end GraphQLCheck
