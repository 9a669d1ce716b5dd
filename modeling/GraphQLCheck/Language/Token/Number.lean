import GraphQLCheck.Number.Double

/-!
# Numbers

The written form of numbers. A number is an integer of 64 bits unless it has a fraction or an
exponent. The form is the usual one with one exception: an exponent without a sign may not begin
with `0` or `9`.
-/

namespace GraphQLCheck

/-- A number that has been read. -/
inductive Numeral where
  | int (n : Int)
  | float (x : Double)

namespace Numeral

/-- The number that a list of decimal digits denotes. -/
def ofDigits (cs : List Char) : Nat := cs.foldl (fun n c => 10 * n + (c.toNat - '0'.toNat)) 0

/-- Cuts a text at its last character that satisfies `p`, leaving that character out. The first
character of the text is never the one. -/
def splitAtLast (p : Char → Bool) : List Char → Option (List Char × List Char)
  | [] => none
  | first :: cs =>
    let later := cs.reverse.takeWhile fun c => !p c
    match cs.reverse.drop later.length with
    | [] => none
    | _ :: earlier => some (first :: earlier.reverse, later.reverse)

/-- Whether a text is an integer: a sign or nothing, then digits without a leading zero. -/
def isInteger (cs : List Char) : Bool :=
  let digits := if cs.head? = some '-' then cs.tail else cs
  digits = ['0'] || (digits ≠ [] && digits.head? ≠ some '0' && digits.all Char.isDigit)

/-- Whether a text consists of one or more digits. -/
def isFraction (cs : List Char) : Bool := cs ≠ [] && cs.all Char.isDigit

/-- Whether a text is an exponent: a sign followed by digits, or digits of which the first is
neither `0` nor `9`. -/
def isExponent : List Char → Bool
  | [] => false
  | c :: cs =>
    if c = '+' || c = '-' then isFraction cs
    else c.isDigit && c ≠ '0' && c ≠ '9' && cs.all Char.isDigit

/-- The number an integer text denotes. -/
def integerValue (cs : List Char) : Int :=
  if cs.head? = some '-' then -(ofDigits cs.tail : Int) else ofDigits cs

/-- The number an exponent text denotes. -/
def exponentValue (cs : List Char) : Int :=
  if cs.head? = some '-' then -(ofDigits cs.tail : Int)
  else if cs.head? = some '+' then ofDigits cs.tail
  else ofDigits cs

/-- The smallest integer that can be read. -/
def minInteger : Int := -0x8000000000000000

/-- The largest integer that can be read. -/
def maxInteger : Int := 0x7FFFFFFFFFFFFFFF

/-- Reads a number without fraction and exponent. -/
def readInteger (cs : List Char) : Option Numeral :=
  let n := integerValue cs
  if isInteger cs && minInteger ≤ n && n ≤ maxInteger then some (int n) else none

/-- Reads a number with a fraction, an exponent or both. -/
def readFloat (whole : List Char) (fraction exponent : Option (List Char)) : Option Numeral :=
  if isInteger whole && fraction.all isFraction && exponent.all isExponent then
    let negative := whole.head? = some '-'
    let digits := (if negative then whole.tail else whole) ++ fraction.getD []
    let shift := (exponent.map exponentValue).getD 0
    some (float (.ofDecimal negative (ofDigits digits) (shift - (fraction.getD []).length)))
  else none

/-- Reads the whole of a text as a number. -/
def read (cs : List Char) : Option Numeral :=
  match splitAtLast (fun c => c = 'e' || c = 'E') cs with
  | some (before, exponent) =>
    match splitAtLast (· = '.') before with
    | some (whole, fraction) => readFloat whole (some fraction) (some exponent)
    | none => readFloat before none (some exponent)
  | none =>
    match splitAtLast (· = '.') cs with
    | some (whole, fraction) => readFloat whole (some fraction) none
    | none => readInteger cs

end Numeral

end GraphQLCheck
