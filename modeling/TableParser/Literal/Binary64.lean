/-!
Double-precision numbers as their 64 bits.

From the top: a sign bit, eleven bits of exponent `e`, 52 bits of fraction `f`. The number is
`(2^52 + f) · 2^(e - 1075)` for `0 < e < 2047`, and `f · 2^(-1074)` for `e = 0`; the largest
exponent stands for infinity and for what is no number. All arithmetic below is exact on natural
numbers, with one rounding, to the nearest neighbour and on a tie to the even one.
-/

namespace TableParser

/-- A double-precision number. -/
structure Binary64 where
  bits : UInt64
  deriving DecidableEq, Repr, Inhabited

/-- A quotient rounded to the nearest natural number, a tie to the even one. -/
def roundDiv (num den : Nat) : Nat :=
  let q := num / den
  let r := num % den
  if 2 * r < den then q else if den < 2 * r then q + 1 else q + q % 2

namespace Binary64

/-- The first bit of the exponent, `2^52`. -/
def exponentUnit : Nat := 0x10000000000000

/-- The sign bit, `2^63`. -/
def signBit : Nat := 0x8000000000000000

/-- The bits of infinity. -/
def infinityBits : Nat := 2047 * exponentUnit

/-- A number with the given bits below the sign. -/
def ofMagnitude (negative : Bool) (bits : Nat) : Binary64 :=
  ⟨(if negative then signBit + bits else bits).toUInt64⟩

/-- Infinity. -/
def infinity (negative : Bool) : Binary64 := ofMagnitude negative infinityBits

/-- No number. -/
def nan : Binary64 := ofMagnitude false (infinityBits + exponentUnit / 2)

/-- The bits of the number nearest to `num / den · 2^(-q)` units of `2^q`. -/
def bitsAt (num den : Nat) (q : Int) : Nat :=
  let m := roundDiv (num <<< (-q).toNat) (den <<< q.toNat)
  if m < exponentUnit then m else (q + 1075).toNat * exponentUnit + (m - exponentUnit)

/-- The exponent of the last place of `num / den`, when that has 53 binary places; not below the
least exponent there is. -/
def lastPlace (num den : Nat) : Int :=
  let q : Int := (num.log2 : Int) - den.log2 - 52
  let q := if num <<< (-q).toNat < (den <<< q.toNat) * exponentUnit then q - 1 else q
  max q (-1074)

/-- The number nearest to `num / den`. -/
def ofRatio (negative : Bool) (num den : Nat) : Binary64 :=
  if num = 0 then ofMagnitude negative 0
  else ofMagnitude negative (min infinityBits (bitsAt num den (lastPlace num den)))

/-- The number nearest to an integer. -/
def ofInt (i : Int) : Binary64 := ofRatio (i < 0) i.natAbs 1

/-- Whether the sign bit is set. -/
def isNegative (x : Binary64) : Bool := signBit ≤ x.bits.toNat

/-- The bits below the sign. -/
def magnitude (x : Binary64) : Nat := x.bits.toNat % signBit

/-- Whether the bits are no number. -/
def isNan (x : Binary64) : Bool := infinityBits < x.magnitude

/-! ### Decimal text -/

/-- The number that digits spell. -/
def natOfDigits (digits : List Char) : Nat :=
  digits.foldl (fun n c => 10 * n + (c.toNat - '0'.toNat)) 0

/-- The number nearest to `m · 10^e`; exponents beyond the range of all numbers are not computed. -/
def ofDecimal (negative : Bool) (m : Nat) (e : Int) : Binary64 :=
  let size := (Nat.toDigits 10 m).length + e
  if m = 0 then ofMagnitude negative 0
  else if 400 < size then infinity negative
  else if size < -400 then ofMagnitude negative 0
  else ofRatio negative (m * Nat.pow 10 e.toNat) (Nat.pow 10 (-e).toNat)

/-- Splits a leading sign off. -/
def splitSign : List Char → Bool × List Char
  | '-' :: rest => (true, rest)
  | '+' :: rest => (false, rest)
  | cs => (false, cs)

/-- The exponent that a text spells, after its mark; no text is the exponent zero. -/
def exponent? : List Char → Option Int
  | [] => some 0
  | mark :: rest =>
    let (negative, digits) := splitSign rest
    if (mark = 'e' ∨ mark = 'E') ∧ digits ≠ [] ∧ digits.all Char.isDigit then
      let n : Int := natOfDigits digits
      some (if negative then -n else n)
    else none

/-- Reads digits with an optional point and an optional exponent. -/
def decimal? (negative : Bool) (cs : List Char) : Option Binary64 :=
  let whole := cs.takeWhile Char.isDigit
  let rest := cs.dropWhile Char.isDigit
  let (fraction, rest) := match rest with
    | '.' :: after => (after.takeWhile Char.isDigit, after.dropWhile Char.isDigit)
    | _ => ([], rest)
  let digits := whole ++ fraction
  if digits = [] then none
  else (exponent? rest).map fun e =>
    ofDecimal negative (natOfDigits digits) (e - (fraction.length : Int))

/-- Reads a number: an optional sign, then a decimal or one of the names of infinity and of no
number, in any case. -/
def ofText? (s : String) : Option Binary64 :=
  let (negative, cs) := splitSign s.toList
  match String.ofList (cs.map Char.toLower) with
  | "inf" | "infinity" => some (infinity negative)
  | "nan" => some nan
  | _ => decimal? negative cs

/-- The number as a fraction of natural numbers, its sign aside. -/
def toRatio (x : Binary64) : Nat × Nat :=
  let e := x.magnitude / exponentUnit
  let f := x.magnitude % exponentUnit
  if e = 0 then (f, 1 <<< 1074) else ((exponentUnit + f) <<< (e - 1075), 1 <<< (1075 - e))

/-- A natural number with the point before its last four digits. -/
def pointFour (n : Nat) : String :=
  let fraction := (n % 10000).repr
  (n / 10000).repr ++ "." ++ "".pushn '0' (4 - fraction.length) ++ fraction

/-- The number with four decimal places. -/
def display (x : Binary64) : String :=
  if x.isNan then "NaN"
  else
    let sign := if x.isNegative then "-" else ""
    if x.magnitude = infinityBits then sign ++ "inf"
    else
      let (num, den) := x.toRatio
      sign ++ pointFour (roundDiv (num * 10000) den)

end Binary64

end TableParser
