/-!
# Raw texts

A file system names its files with bytes. They are a text in UTF-8 as a rule, but need not be. A
`RawText` holds such bytes, and it is shown with the character U+FFFD in place of what is not UTF-8
in it.
-/

namespace GraphQLCheck

/-- Bytes that are meant as a text. -/
@[ext]
structure RawText where
  bytes : List UInt8
deriving DecidableEq, Repr, Inhabited

namespace RawText

/-- The bytes of a text in UTF-8. -/
def ofText (s : String) : RawText := ⟨s.toList.flatMap String.utf8EncodeChar⟩

instance : Coe String RawText := ⟨ofText⟩

/-- The text whose bytes these are, if they are UTF-8. -/
def text? (t : RawText) : Option String := String.fromUTF8? t.bytes.toByteArray

/-- The character that stands at the beginning of some bytes. -/
def character? (bytes : List UInt8) : Option Char := (bytes.take 4).toByteArray.utf8DecodeChar? 0

/-- Whether a byte can be in a character, but not begin it. -/
def isContinuation (b : UInt8) : Bool := 0x80 ≤ b && b ≤ 0xBF

/-- Whether two bytes can begin a character of three or four bytes. A character is not written with
more bytes than it needs, is not a surrogate, and is not above U+10FFFF. -/
def canBegin (first second : UInt8) : Bool :=
  if first = 0xE0 then 0xA0 ≤ second && second ≤ 0xBF
  else if first = 0xED then 0x80 ≤ second && second ≤ 0x9F
  else if first = 0xF0 then 0x90 ≤ second && second ≤ 0xBF
  else if first = 0xF4 then 0x80 ≤ second && second ≤ 0x8F
  else 0xE1 ≤ first && first ≤ 0xF3 && isContinuation second

/-- The number of bytes that are shown as one character U+FFFD where no character stands: those that
could have begun a character, or a single one. -/
def strayLength : List UInt8 → Nat
  | first :: second :: rest =>
    if canBegin first second then
      if rest.head?.any isContinuation then 3 else 2
    else 1
  | _ => 1

/-- The characters as which some bytes are shown. The first `skipped` bytes belong to a character
that has been shown already. -/
def shown (skipped : Nat) : List UInt8 → List Char
  | [] => []
  | b :: bs =>
    match skipped with
    | k + 1 => shown k bs
    | 0 =>
      match character? (b :: bs) with
      | some c => c :: shown (c.utf8Size - 1) bs
      | none => '\uFFFD' :: shown (strayLength (b :: bs) - 1) bs

/-- The text as which bytes are shown. -/
def text (t : RawText) : String := String.ofList (shown 0 t.bytes)

end RawText

end GraphQLCheck
