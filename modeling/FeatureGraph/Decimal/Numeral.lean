import FeatureGraph.Decimal.Exact

/-!
# Decimal numerals

A numeral is the written form of a decimal number: a sign, whole digits, digits
after the point, and an exponent.  `Numeral.toList` writes it and
`Numeral.read?` reads the longest numeral at the front of a text.  A numeral has
at least one whole digit, and no zero in front of another whole digit.
-/

namespace FeatureGraph.Decimal

/-- The sign in front of the digits of an exponent. -/
inductive ExponentSign where
  | bare
  | plus
  | minus
deriving DecidableEq, Repr

/-- Without digits after the point, the point is not written either. -/
structure Numeral where
  negative : Bool
  whole : List Char
  fraction : List Char
  exponent : Option (ExponentSign × List Char)
deriving DecidableEq, Repr

namespace Numeral

/-- The numeral of a natural number. -/
def ofNat (n : Nat) : Numeral := ⟨false, digitsOf n, [], none⟩

/-- Whether the numeral has neither a point nor an exponent. -/
def isWhole (n : Numeral) : Bool := n.fraction.isEmpty && n.exponent.isNone

/-- All digits in front of the exponent as one natural number. -/
def significand (n : Numeral) : Nat := ofDigits (n.whole ++ n.fraction)

/-- The power of ten that goes with `significand`. -/
def scale (n : Numeral) : Int :=
  let e : Int := match n.exponent with
    | none => 0
    | some (.minus, ds) => -(ofDigits ds : Int)
    | some (_, ds) => ofDigits ds
  e - n.fraction.length

/-- The numeral without zeros at the end of its fraction. -/
def trim (n : Numeral) : Numeral :=
  { n with fraction := (n.fraction.reverse.dropWhile (· == '0')).reverse }

/-- Number of digits of a numeral that are told apart when it is read. -/
def digitLimit : Nat := 768

/-- The number that a numeral is read as, in the form `c * 10 ^ e`.  Of a numeral
with too many digits the last ones are read as a single one: a number halfway
between two doubles has no more digits than are told apart, so this decides like
the digits themselves, except that zeros at the end of a long whole number are
not taken for nothing. -/
def reading (n : Numeral) : Nat × Int :=
  let t := n.trim
  let excess := digitCount t.significand - digitLimit
  if excess = 0 then (n.significand, n.scale)
  else (t.significand / Nat.pow 10 excess * 10 + 1, t.scale + excess - 1)

def exponentToList : Option (ExponentSign × List Char) → List Char
  | none => []
  | some (.bare, ds) => 'e' :: ds
  | some (.plus, ds) => 'e' :: '+' :: ds
  | some (.minus, ds) => 'e' :: '-' :: ds

def toList (n : Numeral) : List Char :=
  (if n.negative then ['-'] else []) ++ n.whole ++
    (if n.fraction.isEmpty then [] else '.' :: n.fraction) ++ exponentToList n.exponent

def text (n : Numeral) : String := String.ofList n.toList

/-- The digits at the front of a text, of which there must be one. -/
def readDigits? (cs : List Char) : Option (List Char × List Char) :=
  let ds := cs.takeWhile Char.isDigit
  if ds.isEmpty then none else some (ds, cs.dropWhile Char.isDigit)

/-- Whole digits: a single zero, or digits that start with another one. -/
def readWhole? : List Char → Option (List Char × List Char)
  | '0' :: rest => some (['0'], rest)
  | cs => readDigits? cs

/-- The point and the digits after it, if there is a point. -/
def readFraction? : List Char → Option (List Char × List Char)
  | '.' :: rest => readDigits? rest
  | cs => some ([], cs)

/-- The sign and the digits of an exponent. -/
def readExponentDigits? (cs : List Char) :
    Option (Option (ExponentSign × List Char) × List Char) :=
  let (sign, cs) := match cs with
    | '+' :: rest => (ExponentSign.plus, rest)
    | '-' :: rest => (ExponentSign.minus, rest)
    | cs => (ExponentSign.bare, cs)
  (readDigits? cs).map fun (ds, rest) => (some (sign, ds), rest)

/-- The exponent, if there is one. -/
def readExponent? : List Char → Option (Option (ExponentSign × List Char) × List Char)
  | 'e' :: rest => readExponentDigits? rest
  | 'E' :: rest => readExponentDigits? rest
  | cs => some (none, cs)

/-- The sign of a numeral; only the minus is written. -/
def readSign : List Char → Bool × List Char
  | '-' :: rest => (true, rest)
  | cs => (false, cs)

/-- The numeral at the front of a text, and what follows it. -/
def read? (cs : List Char) : Option (Numeral × List Char) := do
  let (negative, cs) := readSign cs
  let (whole, cs) ← readWhole? cs
  let (fraction, cs) ← readFraction? cs
  let (exponent, cs) ← readExponent? cs
  return (⟨negative, whole, fraction, exponent⟩, cs)

end Numeral

end FeatureGraph.Decimal
