/-!
# Numbers: the values of numeric literals

A numeric literal stands for the double nearest to what its digits say, ties going to the even significand. A literal has no
sign, so the values here are the doubles from zero to infinity. They are exact: a finite one is a significand times a power
of two, and reading a literal is exact division followed by one rounding (`Double.nearest`).
-/

namespace Chainlift

/-- A double that a literal can stand for. A finite one is `significand * 2 ^ exponent`, in the form of the binary format:
the exponent is at least `-1074`, and above that the significand has 53 bits. -/
inductive Double where
  | finite (significand : Nat) (exponent : Int)
  | infinite
  deriving DecidableEq, Repr

namespace Double

def zero : Double := .finite 0 (-1074)

def one : Double := .finite (Nat.pow 2 52) (-52)

/-- The quotient rounded to the nearest integer, a half to the even neighbour. -/
def roundDiv (num den : Nat) : Nat :=
  let q := num / den
  let r := num % den
  if 2 * r < den then q else if den < 2 * r then q + 1 else q + q % 2

/-- Numerator and denominator of `num / den * 2 ^ (-e)`. -/
def scaled (num den : Nat) (e : Int) : Nat × Nat :=
  if 0 ≤ e then (num, den * Nat.pow 2 e.toNat) else (num * Nat.pow 2 (-e).toNat, den)

/-- The exponent at which `num / den` has 53 bits before the point, or the least exponent there is. -/
def binaryExponent (num den : Nat) : Int :=
  let guess : Int := (num.log2 : Int) - den.log2 - 52
  let (n, d) := scaled num den guess
  let e := if n / d < Nat.pow 2 52 then guess - 1 else guess
  max e (-1074)

/-- The double nearest to `num / den`. -/
def nearest (num den : Nat) : Double :=
  if num = 0 then zero
  else
    let e := binaryExponent num den
    let (n, d) := scaled num den e
    let s := roundDiv n d
    let (s, e) := if s = Nat.pow 2 53 then (Nat.pow 2 52, e + 1) else (s, e)
    if 971 < e then .infinite else .finite s e

def ofNat (n : Nat) : Double := nearest n 1

/-- The double nearest to `digits * 10 ^ exponent`. Beyond the range of doubles the power is not computed. -/
def ofDecimal (digits : Nat) (exponent : Int) : Double :=
  if digits = 0 then zero
  else
    let size : Int := (Nat.toDigits 10 digits).length + exponent
    if 400 < size then .infinite
    else if size < -400 then zero
    else if 0 ≤ exponent then nearest (digits * Nat.pow 10 exponent.toNat) 1
    else nearest digits (Nat.pow 10 (-exponent).toNat)

/-- The value as a fraction; infinity has none. -/
def fraction? : Double → Option (Nat × Nat)
  | .finite s e => some (if 0 ≤ e then (s * Nat.pow 2 e.toNat, 1) else (s, Nat.pow 2 (-e).toNat))
  | .infinite => none

/-- The value, if it is an integer. -/
def toNat? (x : Double) : Option Nat :=
  x.fraction?.bind fun (n, d) => if n % d = 0 then some (n / d) else none

/-- Less than `2 ^ (-52)` away from one, which is what reading a number as the flag `1` asks for. -/
def isNearlyOne (x : Double) : Bool :=
  match x.fraction? with
  | some (n, d) => (max n d - min n d) * Nat.pow 2 52 < d
  | none => false

end Double

end Chainlift
