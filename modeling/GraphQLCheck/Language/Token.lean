import GraphQLCheck.Text.Position
import GraphQLCheck.Number.Double

/-!
# Tokens

The pieces into which a text is cut before it is read: marks, names, numbers and strings.
-/

namespace GraphQLCheck

/-- A punctuation mark. -/
inductive Mark where
  | openParen
  | closeParen
  | openBracket
  | closeBracket
  | openBrace
  | closeBrace
  | exclamation
  | dollar
  | colon
  | equals
  | atSign
  | bar
  | ampersand
  | dots
deriving DecidableEq, Repr, Inhabited

namespace Mark

/-- The marks of one character. -/
def ofChar? : Char → Option Mark
  | '(' => some openParen
  | ')' => some closeParen
  | '[' => some openBracket
  | ']' => some closeBracket
  | '\x7b' => some openBrace
  | '\x7d' => some closeBrace
  | '!' => some exclamation
  | '$' => some dollar
  | ':' => some colon
  | '=' => some equals
  | '@' => some atSign
  | '|' => some bar
  | '&' => some ampersand
  | _ => none

/-- Whether the mark opens a bracket. -/
def isOpening : Mark → Bool
  | openParen | openBracket | openBrace => true
  | _ => false

/-- Whether the mark closes a bracket. -/
def isClosing : Mark → Bool
  | closeParen | closeBracket | closeBrace => true
  | _ => false

end Mark

/-- What a token is. -/
inductive Lexeme where
  | mark (m : Mark)
  | name (s : String)
  | int (n : Int)
  | float (x : Double)
  | string (s : String)
deriving DecidableEq, Repr, Inhabited

/-- A token and the place of its first character. -/
structure Token where
  position : Position
  lexeme : Lexeme
deriving DecidableEq, Repr, Inhabited

end GraphQLCheck
