import FeatureGraph.Arith

/-!
# Double-precision arithmetic

The arithmetic of 64-bit floating-point numbers.  Basic operations round to the
nearest double with ties to even; `exp`, `log` and `pow` are those of the
machine's mathematical library.
-/

namespace FeatureGraph

instance : Arith Float where
  natCast := Float.ofNat
  abs := Float.abs
  exp := Float.exp
  log := Float.log
  sqrt := Float.sqrt
  pow := Float.pow
  inf := 1.0 / 0.0
  nan := 0.0 / 0.0
  epsilon := 2.220446049250313e-16
  lt a b := decide (a < b)
  eqv a b := a == b
  floor a := a.toUInt64.toNat

end FeatureGraph
