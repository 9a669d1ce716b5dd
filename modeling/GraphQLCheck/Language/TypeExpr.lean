/-!
# Type expressions

A type as a document writes it: a name, a list of a type, or a type marked as non-null.
`TypeExpr.text` writes one down, and `TypeExpr.ofText` reads the written form back, peeling the
marks off the outside of the text.
-/

namespace GraphQLCheck

/-- A written type. -/
inductive TypeExpr where
  | named (name : String)
  | list (item : TypeExpr)
  | nonNull (inner : TypeExpr)
deriving DecidableEq, Repr, Inhabited

namespace TypeExpr

/-- The name inside all list and non-null marks. -/
def coreName : TypeExpr → String
  | named name => name
  | list item => item.coreName
  | nonNull inner => inner.coreName

/-- The written form: `[T]` for a list and `T!` for a non-null type. -/
def text : TypeExpr → String
  | named name => name
  | list item => "[" ++ item.text ++ "]"
  | nonNull inner => inner.text ++ "!"

/-- Reads a written type, trying a final `!`, then a pair of brackets around the whole text. What
has neither is taken for a name as it stands. -/
def ofChars (cs : List Char) : TypeExpr :=
  if _h : cs.getLast? = some '!' then
    nonNull (ofChars cs.dropLast)
  else if _h : cs.head? = some '[' ∧ cs.tail.getLast? = some ']' then
    list (ofChars cs.tail.dropLast)
  else
    named (String.ofList cs)
termination_by cs.length
decreasing_by
  all_goals
    have hpos : 0 < cs.length := List.length_pos_iff.2 (by rintro rfl; simp_all)
    simp only [List.length_dropLast, List.length_tail]
    omega

/-- Reads a written type. -/
def ofText (s : String) : TypeExpr := ofChars s.toList

end TypeExpr

end GraphQLCheck
