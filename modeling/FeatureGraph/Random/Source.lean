import FeatureGraph.Arith

/-!
# Random sources and draws

A random source hands out words of 64 bits.  The draws turn words into choices:
`RandomSource.below` picks one of the first `n` numbers, all equally likely, and
`RandomSource.chance?` is true with a given probability.
-/

namespace FeatureGraph

/-- Sources with states of type `σ`. -/
class RandomSource (σ : Type) where
  /-- The next word, and the state after it. -/
  next : σ → UInt64 × σ

namespace RandomSource

variable {σ : Type} [RandomSource σ]

/-- The next `n` words. -/
def words : Nat → σ → List UInt64 × σ
  | 0, s => ([], s)
  | n + 1, s =>
    let (w, s) := next s
    let (ws, s) := words n s
    (w :: ws, s)

/-- The largest low half of a product that is still accepted: the words from which
each number below `n` is hit equally often. -/
def acceptZone (n : Nat) : Nat := (n <<< (63 - n.log2)) - 1

/-- The number below `n` that a word is scaled to, if the word is accepted. -/
def scaledBelow? (n : Nat) (word : UInt64) : Option Nat :=
  let p := word.toNat * n
  if p % (1 <<< 64) ≤ acceptZone n then some (p >>> 64) else none

/-- Draws until a word is accepted.  Fewer than half of all words are refused; if
every attempt is, the last word is scaled all the same. -/
def belowWithin (n : Nat) : Nat → σ → Nat × σ
  | 0, s =>
    let (w, s) := next s
    ((w.toNat * n) >>> 64, s)
  | attempts + 1, s =>
    let (w, s) := next s
    match scaledBelow? n w with
    | some k => (k, s)
    | none => belowWithin n attempts s

/-- One of the numbers below `n`, for positive `n`. -/
def below (n : Nat) (s : σ) : Nat × σ := belowWithin n 65536 s

/-- `k` numbers below `n`. -/
def belowTimes (n : Nat) : Nat → σ → List Nat × σ
  | 0, s => ([], s)
  | k + 1, s =>
    let (i, s) := below n s
    let (is, s) := belowTimes n k s
    (i :: is, s)

/-- `n` positions out of `n`, drawn with replacement. -/
def bootstrap (n : Nat) (s : σ) : List Nat × σ := belowTimes n n s

/-- How many of the words stand for true at a probability below one. -/
def chanceWords {α : Type} [Arith α] (p : α) : Nat := Arith.floor (p * ((1 <<< 64 : Nat) : α))

/-- True with probability `p`.  A sure event takes no word.  There is no such draw
for a value outside of the unit interval. -/
def chance? {α : Type} [Arith α] (p : α) (s : σ) : Option (Bool × σ) :=
  if Arith.eqv p 1 then some (true, s)
  else if Arith.le 0 p && Arith.lt p 1 then
    let (w, s) := next s
    some (decide (w.toNat < chanceWords p), s)
  else none

end RandomSource

end FeatureGraph
