import FeatureGraph.Decimal.Exact

/-!
# Shortest digits that read back

A finite double has an interval of real numbers that round to it.  The digits
chosen for it are the fewest that name a point of that interval, and of two
points with equally few digits the nearer one.  Only when both are equally near
does the format that asks decide, by a `Tie`.
-/

namespace FeatureGraph.Decimal

/-- Where a value goes that lies halfway between its two neighbours. -/
inductive Tie where
  | toEven
  | up
deriving DecidableEq, Repr

/-- The numbers that round to `m * 2 ^ q`, in units of `2 ^ (q - 2)`: from
`4 * m - below` to `4 * m + 2`.  The gap below is half as wide where the exponent
of the neighbour is smaller.  The ends belong to the interval exactly when `m` is
even. -/
structure Interval where
  mid : Nat
  below : Nat
  closed : Bool

/-- The interval of a double with significand `m` and exponent `q`. -/
def Interval.around (m : Nat) (q : Int) : Interval where
  mid := 4 * m
  below := if m = 1 <<< 52 ∧ -1074 < q then 1 else 2
  closed := m % 2 == 0

/-- Whether the point `c / d` lies in the interval. -/
def Interval.contains (i : Interval) (c d : Nat) : Bool :=
  if i.closed then decide ((i.mid - i.below) * d ≤ c) && decide (c ≤ (i.mid + 2) * d)
  else decide ((i.mid - i.below) * d < c) && decide (c < (i.mid + 2) * d)

/-- The multiple of `10 ^ e` next to the value that lies in the interval, as the
factor of `10 ^ e`; the nearer of the two neighbours if both do. -/
def gridPoint (tie : Tie) (i : Interval) (q e : Int) : Option Nat :=
  let (num, den) := scaledRatio 1 (q - 2) e
  let low := i.mid * num / den
  let rest := i.mid * num % den
  let lowHits := i.contains (low * den) num
  let highHits := i.contains ((low + 1) * den) num
  if lowHits && highHits then
    if 2 * rest < den then some low
    else if den < 2 * rest then some (low + 1)
    else match tie with
      | .toEven => some (if low % 2 = 0 then low else low + 1)
      | .up => some (low + 1)
  else if lowHits then some low
  else if highHits then some (low + 1)
  else none

/-- Tries grids of `10 ^ e`, then `10 ^ (e - 1)` and so on, `n` of them. -/
def firstGridPoint (tie : Tie) (i : Interval) (q : Int) : Nat → Int → Nat × Int
  | 0, e => (0, e)
  | n + 1, e =>
    match gridPoint tie i q e with
    | some c => (c, e)
    | none => firstGridPoint tie i q n (e - 1)

/-- Digits without trailing zeros, and the exponent of the first digit. -/
structure Digits where
  digits : List Char
  exponent : Int
deriving DecidableEq, Repr

/-- Normal form of `c * 10 ^ e`. -/
def Digits.ofScaled (c : Nat) (e : Int) : Digits :=
  let ds := digitsOf c
  let kept := (ds.reverse.dropWhile (· == '0')).reverse
  if kept.isEmpty then ⟨['0'], 0⟩ else ⟨kept, e + ds.length - 1⟩

/-- The shortest digits of `m * 2 ^ q`.  Seventeen digits always suffice. -/
def shortest (tie : Tie) (m : Nat) (q : Int) : Digits :=
  if m = 0 then ⟨['0'], 0⟩
  else
    let (num, den) := scaledRatio m q 0
    let (c, e) := firstGridPoint tie (.around m q) q 17 (leadingExponent num den)
    .ofScaled c e

end FeatureGraph.Decimal
