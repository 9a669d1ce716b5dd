/-!
# Double precision numbers

A `Double` is the 64 bits of an IEEE 754 binary64 number. `Double.ofDecimal` reads a decimal
number and rounds it to the nearest double, a tie going to the even neighbour, in exact arithmetic
on natural numbers.
-/

namespace GraphQLCheck

/-- A double precision number, given by its bits. -/
structure Double where
  bits : UInt64
deriving DecidableEq, Repr, Inhabited

namespace Double

/-- The bits of positive infinity. -/
def infinityBits : Nat := 0x7FF0000000000000

/-- The number with the given sign whose other bits are `n`. -/
def ofMagnitude (negative : Bool) (n : Nat) : Double :=
  ⟨(if negative then n + 1 <<< 63 else n).toUInt64⟩

/-- The quotient of `n` by `d`, rounded to the nearest natural number, a tie going to the even
one. -/
def roundHalfEven (n d : Nat) : Nat :=
  let q := n / d
  let r := n % d
  if 2 * r < d then q
  else if 2 * r = d ∧ q % 2 = 0 then q
  else q + 1

/-- The bits of the double nearest to the positive fraction `n / d`. The unit in the last place is
`2 ^ k`, where `k` is chosen so that the quotient has 53 binary digits, but never below the unit
`2 ^ (-1074)` of the subnormal numbers. A quotient that rounds up to 54 digits carries into the
exponent, which is what the next binade asks for. -/
def magnitudeOfFraction (n d : Nat) : Nat :=
  let estimate : Int := (n.log2 : Int) - d.log2 - 52
  let below : Bool :=
    if 0 ≤ estimate then n < d <<< (52 + estimate.toNat)
    else n <<< (-estimate).toNat < d <<< 52
  let k := max (-1074) (if below then estimate - 1 else estimate)
  let q :=
    if 0 ≤ k then roundHalfEven n (d <<< k.toNat) else roundHalfEven (n <<< (-k).toNat) d
  min infinityBits ((k + 1074).toNat <<< 52 + q)

/-- The double nearest to `± mantissa * 10 ^ exponent`. Every magnitude from `10 ^ 309` on is
infinite and every magnitude below `10 ^ (-324)` is zero, so the powers of ten that are computed
stay small. -/
def ofDecimal (negative : Bool) (mantissa : Nat) (exponent : Int) : Double :=
  let digits : Int := (Nat.toDigits 10 mantissa).length
  ofMagnitude negative <|
    if mantissa = 0 then 0
    else if 310 < exponent + digits then infinityBits
    else if exponent + digits < -330 then 0
    else if 0 ≤ exponent then magnitudeOfFraction (mantissa * Nat.pow 10 exponent.toNat) 1
    else magnitudeOfFraction mantissa (Nat.pow 10 (-exponent).toNat)

/-- Whether the number is a zero of either sign. -/
def isZero (x : Double) : Bool := x.bits <<< 1 == 0

/-- Whether the bits encode no number. -/
def isNaN (x : Double) : Bool := infinityBits.toUInt64 < (x.bits &&& 0x7FFFFFFFFFFFFFFF)

/-- Equality of numbers: the two zeros are equal, and what is no number equals nothing. -/
def same (x y : Double) : Bool :=
  if x.isNaN || y.isNaN then false else x.bits == y.bits || (x.isZero && y.isZero)

/-- The bits as sixteen hexadecimal digits. -/
def hexDigits (x : Double) : String :=
  let digits := Nat.toDigits 16 x.bits.toNat
  String.ofList (List.replicate (16 - digits.length) '0' ++ digits)

end Double

end GraphQLCheck
