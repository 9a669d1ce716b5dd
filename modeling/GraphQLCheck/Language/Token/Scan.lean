import GraphQLCheck.Language.Token
import GraphQLCheck.Language.Token.Number
import GraphQLCheck.Language.Token.Quoted

/-!
# Cutting a text into tokens

`Scan.ofText` cuts a text into tokens up to its end or up to the first place where no token can be
read. Between tokens, blanks, commas, comments and byte order marks are passed over. At most fifty
brackets may be open at a place; the next opening bracket is no token.
-/

namespace GraphQLCheck

/-- The outcome of cutting a text into tokens: the tokens, and the place where it ended. That is
the end of the text if `complete` holds, and else the place where no token could be read. -/
structure Scan where
  tokens : List Token
  ending : Position
  complete : Bool

namespace Scan

/-- How many brackets may be open at once. -/
def maxOpenBrackets : Nat := 50

/-- Passes over what separates tokens. A tab is eight columns wide, and carriage returns and byte
order marks have no width. A comment counts for nothing but the line break that ends it, for which
a carriage return is enough. -/
def skipIgnored (inComment : Bool) (p : Position) : List Char → Position × List Char
  | [] => (p, [])
  | c :: cs =>
    if inComment then
      if c = '\n' || c = '\r' then skipIgnored false p.nextLine cs else skipIgnored true p cs
    else if c = ' ' || c = ',' then skipIgnored false (p.right 1) cs
    else if c = '\t' then skipIgnored false (p.right 8) cs
    else if c = '\n' then skipIgnored false p.nextLine cs
    else if c = '\r' || c = '\uFEFF' then skipIgnored false p cs
    else if c = '#' then skipIgnored true p cs
    else (p, c :: cs)

/-- Passing over never lengthens a text. -/
theorem length_skipIgnored_le (inComment : Bool) (p : Position) (cs : List Char) :
    (skipIgnored inComment p cs).2.length ≤ cs.length := by
  fun_induction skipIgnored inComment p cs <;> simp only [List.length_cons] <;> omega

/-- Whether a character may begin a name. -/
def isNameStart (c : Char) : Bool := c.isAlpha || c = '_'

/-- Whether a character may continue a name. -/
def isNameRest (c : Char) : Bool := isNameStart c || c.isDigit

/-- Whether a character may not stand in a number. -/
def endsNumber (c : Char) : Bool :=
  c = ' ' || c = '\n' || c = '\r' || c = '\t' || c = ',' || c = '#' ||
    c = '!' || c = '$' || c = ':' || c = '=' || c = '@' || c = '|' || c = '&' ||
    c = '(' || c = ')' || c = '[' || c = ']' || c = '\x7b' || c = '\x7d'

/-- One token at the beginning of a text, the place after it, and what comes after it. -/
structure Step (cs : List Char) where
  lexeme : Lexeme
  place : Position
  rest : List Char
  shorter : rest.length < cs.length

/-- Reads a name or a number: its first character `c` and all characters after it that satisfy
`p`. -/
def takeWord (p : Char → Bool) (place : Position) (c : Char) (cs : List Char)
    (lexeme : Lexeme) : Step (c :: cs) where
  lexeme := lexeme
  place := place.right (1 + (cs.takeWhile p).length)
  rest := cs.dropWhile p
  shorter := by
    have := (List.dropWhile_suffix p (l := cs)).length_le
    simp only [List.length_cons]
    omega

/-- Reads a string, given what comes after its first quote. -/
def takeString (place : Position) (cs : List Char) : Option (Step ('"' :: cs)) :=
  match cs with
  | '"' :: '"' :: cs =>
    match h : Quoted.splitBlock false cs with
    | none => none
    | some (text, rest) =>
      have := Quoted.length_of_splitBlock h
      some ⟨.string (String.ofList (Quoted.blockText text)),
        ((place.right 3).afterText text).right 3, rest, by simp only [List.length_cons]; omega⟩
  | cs =>
    match h : Quoted.splitPlain cs with
    | none => none
    | some (text, rest) =>
      have := Quoted.length_of_splitPlain h
      (Quoted.unescape text).map fun value =>
        ⟨.string (String.ofList value), place.right (text.length + 2), rest,
          by simp only [List.length_cons]; omega⟩

/-- Reads the token at the beginning of a text. -/
def step (place : Position) : (cs : List Char) → Option (Step cs)
  | [] => none
  | '.' :: '.' :: '.' :: cs =>
    some ⟨.mark .dots, place.right 3, cs, by simp only [List.length_cons]; omega⟩
  | '"' :: cs => takeString place cs
  | c :: cs =>
    if isNameStart c then
      let text := String.ofList (c :: cs.takeWhile isNameRest)
      some (takeWord isNameRest place c cs (.name text))
    else if c = '-' || c.isDigit then
      match Numeral.read (c :: cs.takeWhile fun d => !endsNumber d) with
      | some (.int n) => some (takeWord (fun d => !endsNumber d) place c cs (.int n))
      | some (.float x) => some (takeWord (fun d => !endsNumber d) place c cs (.float x))
      | none => none
    else
      match Mark.ofChar? c with
      | some m => some ⟨.mark m, place.right 1, cs, by simp only [List.length_cons]; omega⟩
      | none => none

/-- The number of open brackets after a token, or nothing if the token opens one too many. -/
def openAfter (opened : Nat) : Lexeme → Option Nat
  | .mark m =>
    if m.isOpening then if opened < maxOpenBrackets then some (opened + 1) else none
    else if m.isClosing then some (opened - 1)
    else some opened
  | _ => some opened

/-- Cuts what is left of a text into tokens, where `opened` brackets are open and the tokens before
are held in reverse. -/
def cutFrom (opened : Nat) (place : Position) (cs : List Char) (before : List Token) : Scan :=
  let skipped := skipIgnored false place cs
  if skipped.2 = [] then ⟨before.reverse, skipped.1, true⟩
  else
    match step skipped.1 skipped.2 with
    | none => ⟨before.reverse, skipped.1, false⟩
    | some s =>
      match openAfter opened s.lexeme with
      | none => ⟨before.reverse, skipped.1, false⟩
      | some opened => cutFrom opened s.place s.rest (⟨skipped.1, s.lexeme⟩ :: before)
termination_by cs.length
decreasing_by
  have := s.shorter
  have : skipped.2.length ≤ cs.length := length_skipIgnored_le false place cs
  omega

/-- Cuts a text into tokens. -/
def ofText (text : String) : Scan := cutFrom 0 .start text.toList []

end Scan

end GraphQLCheck
