import FeatureGraph.Decimal.Shortest
import FeatureGraph.Decimal.Numeral

/-!
# Number layouts

How digits are set out as a numeral.  A `Layout` fixes the decisions that formats
take differently: which exponents are written positionally, whether a whole
number keeps a point, and how a positive exponent is marked.  `Exact.fixed` and
`Exact.signedScientific` write a stated number of places, correctly rounded.
-/

namespace FeatureGraph.Decimal

/-- The decisions of one format. -/
structure Layout where
  tie : Tie
  /-- Whether a number whose first digit has this exponent is written without one. -/
  positional : Int → Bool
  /-- Whether a whole number written positionally ends in a point and a zero. -/
  keepsPoint : Bool
  /-- Whether a non-negative exponent has a sign. -/
  marksExponent : Bool

private def zeros (n : Nat) : List Char := List.replicate n '0'

/-- Digits with the decimal point in place and no exponent. -/
def Digits.positional (negative keepsPoint : Bool) (d : Digits) : Numeral :=
  if d.exponent < 0 then
    ⟨negative, ['0'], zeros ((-d.exponent).toNat - 1) ++ d.digits, none⟩
  else
    let width := d.exponent.toNat + 1
    if d.digits.length ≤ width then
      ⟨negative, d.digits ++ zeros (width - d.digits.length),
        if keepsPoint then ['0'] else [], none⟩
    else ⟨negative, d.digits.take width, d.digits.drop width, none⟩

/-- One digit, the point if more follow, and the exponent. -/
def Digits.withExponent (negative marksExponent : Bool) (d : Digits) : Numeral :=
  let sign : ExponentSign :=
    if d.exponent < 0 then .minus else if marksExponent then .plus else .bare
  ⟨negative, d.digits.take 1, d.digits.drop 1, some (sign, digitsOf d.exponent.natAbs)⟩

/-- Digits set out as the layout says. -/
def Digits.arrange (l : Layout) (negative : Bool) (d : Digits) : Numeral :=
  if l.positional d.exponent then d.positional negative l.keepsPoint
  else d.withExponent negative l.marksExponent

/-- The numeral of a finite value; the others have none. -/
def Exact.numeral? (l : Layout) : Exact → Option Numeral
  | .finite negative m q => some ((shortest l.tie m q).arrange l negative)
  | _ => none

/-- Text of any value in the given layout. -/
def Exact.write (l : Layout) : Exact → String
  | .notANumber => "NaN"
  | .infinite negative => if negative then "-inf" else "inf"
  | .finite negative m q => ((shortest l.tie m q).arrange l negative).text

/-- A natural number of `n` tenths, hundredths, ... set out with `places` digits
after the point. -/
def pointed (places n : Nat) : List Char × List Char :=
  let ds := digitsOf n
  let padded := zeros (places + 1 - ds.length) ++ ds
  let width := padded.length - places
  (padded.take width, padded.drop width)

/-- Correctly rounded to `places` digits after the point. -/
def Exact.fixed (places : Nat) : Exact → String
  | .finite negative m q =>
    let (num, den) := scaledRatio m q (-(places : Int))
    let (whole, fraction) := pointed places (roundDiv num den)
    Numeral.text ⟨negative, whole, fraction, none⟩
  | x => x.write ⟨.toEven, fun _ => true, false, false⟩

/-- The value rounded to `places + 1` significant digits, as these digits and the
exponent of the first. -/
def significant (places m : Nat) (q : Int) : Nat × Int :=
  if m = 0 then (0, 0)
  else
    let (num, den) := scaledRatio m q 0
    let e := leadingExponent num den
    let (num, den) := scaledRatio m q (e - places)
    let c := roundDiv num den
    if digitCount c = places + 2 then (c / 10, e + 1) else (c, e)

/-- Correctly rounded to `places` digits after the first one.  The sign is always
written, except for a value that is not a number. -/
def Exact.signedScientific (places : Nat) : Exact → String
  | .notANumber => "NaN"
  | .infinite negative => if negative then "-inf" else "+inf"
  | .finite negative m q =>
    let (c, e) := significant places m q
    let (whole, fraction) := pointed places c
    let sign : ExponentSign := if e < 0 then .minus else .bare
    (if negative then "" else "+") ++
      Numeral.text ⟨negative, whole, fraction, some (sign, digitsOf e.natAbs)⟩

end FeatureGraph.Decimal
