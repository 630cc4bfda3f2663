import FeatureGraph.Random.Source

/-!
# The ChaCha stream

A random source made of the ChaCha block function with twelve rounds.  The key is
expanded from a seed of 64 bits, the block counter starts at zero, and the output
words are taken in pairs with the low half first.
-/

namespace FeatureGraph

/-- Sixteen words of 32 bits: constants, key, block counter and nonce. -/
abbrev ChaChaBlock := Vector UInt32 16

namespace ChaChaBlock

def rotate (w : UInt32) (n : UInt32) : UInt32 := (w <<< n) ||| (w >>> (32 - n))

/-- Mixes four words of a block. -/
def quarterRound (b : ChaChaBlock) (i j k l : Fin 16) : ChaChaBlock :=
  let a := b[i] + b[j]
  let d := rotate (b[l] ^^^ a) 16
  let c := b[k] + d
  let e := rotate (b[j] ^^^ c) 12
  let a := a + e
  let d := rotate (d ^^^ a) 8
  let c := c + d
  let e := rotate (e ^^^ c) 7
  (((b.set i a).set j e).set k c).set l d

/-- One round over the columns of a block and one over its diagonals. -/
def doubleRound (b : ChaChaBlock) : ChaChaBlock :=
  let b := quarterRound b 0 4 8 12
  let b := quarterRound b 1 5 9 13
  let b := quarterRound b 2 6 10 14
  let b := quarterRound b 3 7 11 15
  let b := quarterRound b 0 5 10 15
  let b := quarterRound b 1 6 11 12
  let b := quarterRound b 2 7 8 13
  quarterRound b 3 4 9 14

def rounds : Nat → ChaChaBlock → ChaChaBlock
  | 0, b => b
  | n + 1, b => rounds n (doubleRound b)

/-- The output of a block: twelve rounds, and the block added once more. -/
def output (b : ChaChaBlock) : ChaChaBlock := (rounds 6 b).zipWith (· + ·) b

/-- The block with the given key and counter. -/
def initial (key : Vector UInt32 8) (counter : UInt64) : ChaChaBlock :=
  #v[0x61707865, 0x3320646e, 0x79622d32, 0x6b206574,
    key[0], key[1], key[2], key[3], key[4], key[5], key[6], key[7],
    counter.toUInt32, (counter >>> 32).toUInt32, 0, 0]

end ChaChaBlock

/-- The words of the current block that have not been handed out, and what the
next block is made from. -/
structure ChaCha where
  key : Vector UInt32 8
  counter : UInt64 := 0
  pending : List UInt64 := []

namespace ChaCha

/-- The next state of the generator that expands a seed. -/
def seedStep (s : UInt64) : UInt64 := s * 6364136223846793005 + 11634580027462260723

/-- The key word that a state of the seed generator stands for: its upper bits,
folded and rotated by the topmost five. -/
def seedWord (s : UInt64) : UInt32 :=
  let folded := (((s >>> 18) ^^^ s) >>> 27).toUInt32
  let turn := (s >>> 59).toUInt32
  (folded >>> turn) ||| (folded <<< ((32 - turn) % 32))

/-- The first `n` key words from a state of the seed generator. -/
def seedWords : Nat → UInt64 → List UInt32
  | 0, _ => []
  | n + 1, s =>
    let s := seedStep s
    seedWord s :: seedWords n s

theorem length_seedWords (n : Nat) (s : UInt64) : (seedWords n s).length = n := by
  induction n generalizing s with
  | zero => rfl
  | succ n ih => simp [seedWords, ih]

/-- The source with a given seed. -/
def ofSeed (seed : UInt64) : ChaCha where
  key := ⟨(seedWords 8 seed).toArray, by simp [length_seedWords]⟩

/-- Joins words of 32 bits in pairs, the low half first. -/
def pairWords : List UInt32 → List UInt64
  | lo :: hi :: rest => (lo.toUInt64 ||| (hi.toUInt64 <<< 32)) :: pairWords rest
  | _ => []

/-- The words of the next block. -/
def block (c : ChaCha) : List UInt64 :=
  pairWords (ChaChaBlock.initial c.key c.counter).output.toList

def next (c : ChaCha) : UInt64 × ChaCha :=
  match c.pending with
  | w :: rest => (w, { c with pending := rest })
  | [] =>
    let words := c.block
    (words.headD 0, { c with counter := c.counter + 1, pending := words.tail })

end ChaCha

instance : RandomSource ChaCha := ⟨ChaCha.next⟩

end FeatureGraph
