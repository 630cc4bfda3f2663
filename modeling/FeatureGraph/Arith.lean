/-!
# Scalar arithmetic

Every pass over a graph works on columns of scalars.  `Arith` lists the
operations that the passes need and states no law about them, so that each
definition can be read over floating-point numbers, over an exact field, or over
any other arithmetic.  A theorem names the laws that it uses.

The derived tests (`isNaN`, `isFinite`, ...) and the running extremes follow the
usual floating-point conventions: a value that differs from itself is not a
number, and an extreme of two values ignores the one that is not a number.
-/

namespace FeatureGraph

/-- The operations on scalars.  `lt` and `eqv` are the comparisons of the
arithmetic itself: `eqv` need not be equality. -/
class Arith (α : Type) extends
    Zero α, One α, Add α, Sub α, Mul α, Div α, Neg α, NatCast α, OfScientific α where
  /-- Magnitude. -/
  abs : α → α
  exp : α → α
  /-- Natural logarithm. -/
  log : α → α
  sqrt : α → α
  /-- `pow x p` is `x` raised to the scalar power `p`. -/
  pow : α → α → α
  /-- Positive infinity. -/
  inf : α
  /-- A value that is not a number. -/
  nan : α
  /-- Distance from one to the next larger scalar. -/
  epsilon : α
  lt : α → α → Bool
  eqv : α → α → Bool
  /-- Greatest natural number that is not above the value; zero if there is none. -/
  floor : α → Nat

namespace Arith

variable {α : Type} [Arith α]

def le (a b : α) : Bool := lt a b || eqv a b

def isNaN (a : α) : Bool := !eqv a a

def isFinite (a : α) : Bool := lt (abs a) inf

def isInfinite (a : α) : Bool := eqv a inf || eqv a (-inf)

/-- The larger of two values; a value that is not a number gives way. -/
def max (a b : α) : α :=
  if isNaN a then b else if isNaN b then a else if lt a b then b else a

/-- The smaller of two values; a value that is not a number gives way. -/
def min (a b : α) : α :=
  if isNaN a then b else if isNaN b then a else if lt b a then b else a

/-- Moves a value into the unit interval.  A value that is not a number stays. -/
def clampUnit (a : α) : α :=
  if lt a 0 then 0 else if lt 1 a then 1 else a

/-- Sum from left to right.  The empty sum is the negative zero, the neutral
element of floating-point addition. -/
def sum (xs : List α) : α := xs.foldl (· + ·) (-0)

/-- Mean of a column. -/
def mean (xs : List α) : α := sum xs / (xs.length : α)

/-- Power by repeated squaring: `powNatFrom r a n` is `r` times the `n`-th power
of `a`, with the factors taken from the lowest binary digit of `n` upwards. -/
def powNatFrom (r a : α) (n : Nat) : α :=
  let r := if n % 2 = 1 then r * a else r
  if n / 2 = 0 then r else powNatFrom r (a * a) (n / 2)
termination_by n
decreasing_by omega

/-- Integer power; a negative exponent takes the reciprocal of the positive power. -/
def powInt (a : α) (n : Int) : α :=
  if n < 0 then 1 / powNatFrom 1 a n.natAbs else powNatFrom 1 a n.natAbs

end Arith

end FeatureGraph
