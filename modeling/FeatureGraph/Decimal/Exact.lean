/-!
# Exact values and rounding

A binary floating-point number seen as what it stands for: a sign and a natural
number times a power of two, or one of the values that are not finite.  All
number texts of the library are computed from this view with natural numbers
only.

`roundDiv` is the one rounding rule in use: to the nearest integer, and a half
goes to the even neighbour.
-/

namespace FeatureGraph.Decimal

/-- What a scalar stands for.  `finite negative m q` is `m * 2 ^ q` with a sign, which
zero has too. -/
inductive Exact where
  | notANumber
  | infinite (negative : Bool)
  | finite (negative : Bool) (significand : Nat) (exponent : Int)
deriving DecidableEq, Repr

/-- The quotient rounded to the nearest integer, a half to the even one. -/
def roundDiv (num den : Nat) : Nat :=
  let f := num / den
  let r := num % den
  if 2 * r < den then f
  else if den < 2 * r then f + 1
  else if f % 2 = 0 then f
  else f + 1

/-- Numerator and denominator of `base ^ e`. -/
def powRatio (base : Nat) (e : Int) : Nat × Nat :=
  (base.pow e.toNat, base.pow (-e).toNat)

/-- Decimal digits of a natural number, most significant first; zero has one. -/
def digitsOf (n : Nat) : List Char := Nat.toDigits 10 n

/-- Number of decimal digits. -/
def digitCount (n : Nat) : Nat := (digitsOf n).length

/-- The natural number that a list of digits spells. -/
def ofDigits (ds : List Char) : Nat :=
  ds.foldl (fun n d => 10 * n + (d.toNat - '0'.toNat)) 0

/-- The exponent of the leading decimal digit of a positive quotient. -/
def leadingExponent (num den : Nat) : Int :=
  if den ≤ num then (digitCount (num / den) : Int) - 1
  else -(digitCount ((den - 1) / num) : Int)

/-- Numerator and denominator of `m * 2 ^ q / 10 ^ e`. -/
def scaledRatio (m : Nat) (q e : Int) : Nat × Nat :=
  let (twoNum, twoDen) := powRatio 2 q
  let (tenNum, tenDen) := powRatio 10 e
  (m * twoNum * tenDen, twoDen * tenNum)

end FeatureGraph.Decimal
