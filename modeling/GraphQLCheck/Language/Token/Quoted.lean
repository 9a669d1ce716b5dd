import GraphQLCheck.Text.Blank

/-!
# Quoted texts

The two written forms of strings. A plain string stands between quotes on one line and has escapes.
A block string stands between triple quotes, may have many lines, and loses the indentation that
its lines share.
-/

namespace GraphQLCheck

namespace Quoted

/-- Cuts a text after an opening quote at the closing quote: the contents and what comes after. A
quote after a backslash does not close, and a line feed is not allowed. -/
def splitPlain : List Char → Option (List Char × List Char)
  | [] => none
  | '"' :: rest => some ([], rest)
  | '\n' :: _ => none
  | '\\' :: '\n' :: _ => none
  | '\\' :: c :: rest => (splitPlain rest).map fun (text, after) => ('\\' :: c :: text, after)
  | c :: rest => (splitPlain rest).map fun (text, after) => (c :: text, after)

/-- What comes after a plain string is shorter than the text. -/
theorem length_of_splitPlain {cs text after : List Char} (h : splitPlain cs = some (text, after)) :
    after.length < cs.length := by
  fun_induction splitPlain cs generalizing text after with
  | case1 => simp at h
  | case2 rest => simp_all
  | case3 => simp at h
  | case4 => simp at h
  | case5 c rest _ ih =>
    simp only [Option.map_eq_some_iff, Prod.mk.injEq, Prod.exists] at h
    obtain ⟨a, b, hab, -, rfl⟩ := h
    have := ih hab
    simp only [List.length_cons]
    omega
  | case6 c rest _ _ _ _ ih =>
    simp only [Option.map_eq_some_iff, Prod.mk.injEq, Prod.exists] at h
    obtain ⟨a, b, hab, -, rfl⟩ := h
    have := ih hab
    simp only [List.length_cons]
    omega

/-- Cuts a text after an opening triple quote at the closing one: the contents and what comes
after. A triple quote directly after a backslash does not close. -/
def splitBlock (afterBackslash : Bool) : List Char → Option (List Char × List Char)
  | [] => none
  | '"' :: '"' :: '"' :: rest =>
    if afterBackslash then
      (splitBlock false rest).map fun (text, after) => ('"' :: '"' :: '"' :: text, after)
    else some ([], rest)
  | c :: rest => (splitBlock (c = '\\') rest).map fun (text, after) => (c :: text, after)

/-- What comes after a block string is shorter than the text. -/
theorem length_of_splitBlock {b : Bool} {cs text after : List Char}
    (h : splitBlock b cs = some (text, after)) : after.length < cs.length := by
  fun_induction splitBlock b cs generalizing text after with
  | case1 => simp at h
  | case2 rest ih =>
    simp only [Option.map_eq_some_iff, Prod.mk.injEq, Prod.exists] at h
    obtain ⟨a, b, hab, -, rfl⟩ := h
    have := ih hab
    simp only [List.length_cons]
    omega
  | case3 b rest hb =>
    simp only [Option.some.injEq, Prod.mk.injEq] at h
    simp only [List.length_cons, ← h.2]
    omega
  | case4 b c rest _ ih =>
    simp only [Option.map_eq_some_iff, Prod.mk.injEq, Prod.exists] at h
    obtain ⟨a, b, hab, -, rfl⟩ := h
    have := ih hab
    simp only [List.length_cons]
    omega

/-- The value of a hexadecimal digit. -/
def hexDigit? (c : Char) : Option Nat :=
  if '0' ≤ c && c ≤ '9' then some (c.toNat - '0'.toNat)
  else if 'a' ≤ c && c ≤ 'f' then some (c.toNat - 'a'.toNat + 10)
  else if 'A' ≤ c && c ≤ 'F' then some (c.toNat - 'A'.toNat + 10)
  else none

/-- The character whose code is written in hexadecimal, where a plus sign may stand before the
digits. Codes of surrogates denote no character. -/
def charOfHex (cs : List Char) : Option Char := do
  let digits ← (if cs.head? = some '+' then cs.tail else cs).mapM hexDigit?
  let code := digits.foldl (fun n d => 16 * n + d) 0
  if digits ≠ [] ∧ code.isValidChar then some (Char.ofNat code) else none

/-- The character a one-letter escape stands for. -/
def simpleEscape? : Char → Option Char
  | '"' => some '"'
  | '\\' => some '\\'
  | '/' => some '/'
  | 'b' => some '\x10'
  | 'f' => some '\x0c'
  | 'n' => some '\n'
  | 'r' => some '\r'
  | 't' => some '\t'
  | _ => none

/-- The value of a plain string, given its contents. -/
def unescape : List Char → Option (List Char)
  | [] => some []
  | '\\' :: 'u' :: a :: b :: c :: d :: rest => do
    let char ← charOfHex [a, b, c, d]
    let text ← unescape rest
    return char :: text
  | '\\' :: c :: rest => do
    let char ← simpleEscape? c
    let text ← unescape rest
    return char :: text
  | '\\' :: [] => none
  | c :: rest => (unescape rest).map (c :: ·)

/-- The lines of a text. A line ends with a line feed, to which a carriage return before it
belongs; a line feed at the very end starts no further line. The line being read is held in
reverse. -/
def linesFrom (current : List Char) : List Char → List (List Char)
  | [] => if current = [] then [] else [current.reverse]
  | '\n' :: rest =>
    (if current.head? = some '\r' then current.tail else current).reverse :: linesFrom [] rest
  | c :: rest => linesFrom (c :: current) rest

/-- The length of a text in UTF-8. -/
def byteLength (cs : List Char) : Nat := cs.foldr (fun c n => c.utf8Size + n) 0

/-- Drops as many characters as it takes to drop `n` bytes of UTF-8. -/
def dropBytes : Nat → List Char → List Char
  | 0, cs => cs
  | _, [] => []
  | n + 1, c :: cs => dropBytes (n + 1 - c.utf8Size) cs

/-- Whether a line consists of blank characters. -/
def isBlankLine (line : List Char) : Bool := line.all isBlank

/-- The bytes of the blank characters at the beginning of a line. -/
def indentation (line : List Char) : Nat := byteLength (line.takeWhile isBlank)

/-- Takes the backslash off every triple quote that it precedes. -/
def unescapeTripleQuotes : List Char → List Char
  | [] => []
  | '\\' :: '"' :: '"' :: '"' :: rest => '"' :: '"' :: '"' :: unescapeTripleQuotes rest
  | c :: rest => c :: unescapeTripleQuotes rest

/-- The value of a block string, given its contents. The indentation shared by the lines after the
first, blank ones aside, is taken off these lines; blank lines at the beginning and at the end are
dropped. -/
def blockText (cs : List Char) : List Char :=
  match linesFrom [] cs with
  | [] => []
  | first :: others =>
    let shared := ((others.filter fun line => !isBlankLine line).map indentation).min?
    let unindent (line : List Char) : List Char :=
      match shared with
      | some n => if n ≤ byteLength line then dropBytes n line else line
      | none => line
    let body := (first :: others.map unindent).dropWhile isBlankLine
    let body := (body.reverse.dropWhile isBlankLine).reverse
    List.intercalate ['\n'] (body.map unescapeTripleQuotes)

end Quoted

end GraphQLCheck
