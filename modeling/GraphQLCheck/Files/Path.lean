import GraphQLCheck.Text.Raw

/-!
# Paths

A `Path` is a raw text that names a place in a file system. Two paths are the same if they have the
same components: doubled and trailing slashes and dots inside a path do not count, a dot at its
beginning does. The order of paths is the order of their components.
-/

namespace GraphQLCheck

/-- A path, as it was written. -/
structure Path where ofRaw ::
  raw : RawText
deriving DecidableEq, Repr, Inhabited

namespace Path

/-- The path that is written as a text. -/
def mk (text : String) : Path := ⟨text⟩

/-- The text as which a path is shown. -/
def text (p : Path) : String := p.raw.text

/-- Whether a path is a text. -/
def isText (p : Path) : Bool := p.raw.text?.isSome

/-- A step of a path: the root, the directory itself, the directory above, or a name. -/
inductive Component where
  | root
  | here
  | up
  | name (s : RawText)
deriving DecidableEq, Repr, Inhabited

/-- The byte of a slash. -/
def slash : UInt8 := 0x2F

/-- The byte of a dot. -/
def dot : UInt8 := 0x2E

/-- The pieces between the slashes of a path. -/
def pieces (p : Path) : List RawText := (p.raw.bytes.splitOn slash).map RawText.mk

/-- The pieces of a path, as they are shown. -/
def segments (p : Path) : List String := p.pieces.map RawText.text

/-- Whether a path begins at the root. -/
def isAbsolute (p : Path) : Bool := p.raw.bytes.head? = some slash

/-- The component a piece between slashes stands for, wherever it is. -/
def componentOfPiece? (s : RawText) : Option Component :=
  if s = "" || s = "." then none else if s = ".." then some .up else some (.name s)

/-- The components of a path. -/
def components (p : Path) : List Component :=
  let first :=
    if p.isAbsolute then [Component.root]
    else if p.segments.head? = some "." then [Component.here]
    else []
  first ++ p.pieces.filterMap componentOfPiece?

/-- Whether two paths have the same components. -/
def same (p q : Path) : Bool := p.components = q.components

/-- The bytes by which components are ordered: the root, the directory itself and the directory
above come before the names. -/
def Component.key : Component → List UInt8
  | .root => [0]
  | .here => [1]
  | .up => [2]
  | .name s => 3 :: s.bytes

/-- The bytes by which paths are ordered, component by component. -/
def sortKey (p : Path) : List (List UInt8) := p.components.map Component.key

/-- Whether a list comes before another one in dictionary order, or is the same. -/
def keysLe : List (List UInt8) → List (List UInt8) → Bool
  | [], _ => true
  | _ :: _, [] => false
  | a :: as, b :: bs => a < b || (a = b && keysLe as bs)

/-- Whether a path comes before another one in the order of components, or is the same. -/
def le (p q : Path) : Bool := keysLe p.sortKey q.sortKey

/-- The name at the end of a path. -/
def fileName? (p : Path) : Option RawText :=
  match p.components.getLast? with
  | some (.name s) => some s
  | _ => none

/-- What comes after the last dot of a file name. A name has no extension if it has no dot, or
none but one at its beginning. -/
def extensionOfName? (s : RawText) : Option RawText :=
  let after := s.bytes.reverse.takeWhile (· ≠ dot)
  match s.bytes.reverse.drop after.length with
  | [] | [_] => none
  | _ => some ⟨after.reverse⟩

/-- The extension of a path. -/
def extension? (p : Path) : Option RawText := p.fileName?.bind extensionOfName?

/-- The path of the thing called `name` in the directory at `p`. -/
def join (p : Path) (name : RawText) : Path :=
  if p.raw = "" || p.raw.bytes.getLast? = some slash then ⟨⟨p.raw.bytes ++ name.bytes⟩⟩
  else ⟨⟨p.raw.bytes ++ slash :: name.bytes⟩⟩

end Path

end GraphQLCheck
