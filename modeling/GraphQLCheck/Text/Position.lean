/-!
# Places in a text

A `Position` is a line and a column, both counted from one. The functions here say how a place
moves when characters are passed; which characters move it how is decided by the token scanner.
-/

namespace GraphQLCheck

/-- A place in a text. Lines and columns count from one. -/
structure Position where
  line : Nat
  column : Nat
deriving DecidableEq, Repr, Inhabited

namespace Position

/-- The place of the first character. -/
def start : Position := ⟨1, 1⟩

/-- The place `n` columns to the right. -/
def right (p : Position) (n : Nat) : Position := { p with column := p.column + n }

/-- The beginning of the next line. -/
def nextLine (p : Position) : Position := ⟨p.line + 1, 1⟩

/-- The place after a stretch of characters in which only a line feed starts a new line. -/
def afterText (p : Position) (cs : List Char) : Position :=
  cs.foldl (fun q c => if c = '\n' then q.nextLine else q.right 1) p

/-- The text `line:column`. -/
def text (p : Position) : String := s!"{p.line}:{p.column}"

end Position

end GraphQLCheck
