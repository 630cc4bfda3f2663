import FeatureGraph.Proofs.Growth

/-!
# The values of chains

Each function that lowering uses adds a chain of nodes.  `Operator.lowered` is what the
chain of an operator makes of its arguments, in any arithmetic.

`adds_chain` is the statement about all operators, with one case for each; `adds_root` is
the one about roots.
-/

namespace FeatureGraph

namespace Operator

variable {α : Type} [Arith α]

/-- What an affine node that starts out as the identity makes of its operand. -/
def passed (a : α) : α := 0 + 1 * a

/-- What the chain of an operator makes of its arguments. -/
def lowered : Operator → List α → α
  | exp, [a] => Arith.exp (passed a)
  | log, [a] => Arith.log (passed a)
  | abs, [a] => Arith.abs (passed a)
  | sqrt, [a] => Arith.pow (Arith.abs (passed a)) 0.5
  | reciprocal, [a] => Arith.pow (passed a) (-1)
  | square, [a] => Arith.pow (Arith.abs (passed a)) 2.0
  | add, [a, b] => 0 + 1 * a + 1 * b
  | subtract, [a, b] => 0 + 1 * a + -1 * b
  | divide, [a, b] => passed a / passed b
  | multiply, [a, b] => passed a * passed b
  | _, _ => Arith.nan

end Operator

namespace Lowering

open FeatureGraph.Graph

variable {α : Type} [Arith α] {g : Graph α}

theorem adds_affine (hg : g.Intact) {p : NodeId} (hp : p < g.size) (label : String) :
    Adds 0 g (affine g p label) fun s => Operator.passed (g.table.valueAt s p) :=
  adds_addWith hg s!"{label}.lin" rfl (by simpa using hp) rfl rfl

/-- A primitive of one operand and no parameters, behind an affine node. -/
theorem adds_unary (hg : g.Intact) {p : NodeId} (hp : p < g.size) (label : String)
    {op : Primitive} (hop : isReserved op = false) (hadmits : op.admits 1 = true)
    (hparams : (op.defaultParams 1 : List α) = []) :
    Adds 0 g (unary g p label op) fun s =>
      op.scalar [] [Operator.passed (g.table.valueAt s p)] := by
  refine Adds.bind (adds_affine hg hp label) fun lin g' hgrows _ hlin hvalue => ?_
  refine Adds.congr (adds_addNode hgrows.intact [lin] s!"{label}.{op.name}" hop
    (by simpa using hlin) hadmits) fun s => ?_
  simp [hparams, hvalue]

theorem adds_magnitudePower (hg : g.Intact) {p : NodeId} (hp : p < g.size) (label : String)
    (exponent : α) :
    Adds 0 g (magnitudePower g p label exponent) fun s =>
      Arith.pow (Arith.abs (Operator.passed (g.table.valueAt s p))) exponent := by
  refine Adds.bind (adds_unary hg hp label rfl rfl rfl) fun abs g' hgrows _ habs hvalue => ?_
  refine Adds.congr (adds_addWith hgrows.intact s!"{label}.pow" rfl (by simpa using habs) rfl rfl)
    fun s => ?_
  simp [Primitive.scalar, hvalue]

theorem adds_reciprocal (hg : g.Intact) {p : NodeId} (hp : p < g.size) (label : String) :
    Adds 0 g (reciprocal g p label) fun s =>
      Arith.pow (Operator.passed (g.table.valueAt s p)) (-1) := by
  refine Adds.bind (adds_affine hg hp label) fun lin g' hgrows _ hlin hvalue => ?_
  refine Adds.congr (Adds.setConstant (adds_addWith hgrows.intact s!"{label}.pow" rfl
    (by simpa using hlin) rfl rfl)) fun s => ?_
  simp [Primitive.scalar, hvalue]

theorem adds_signedSum (hg : g.Intact) {p q : NodeId} (hp : p < g.size) (hq : q < g.size)
    (label : String) (sign : α) :
    Adds 0 g (signedSum g [p, q] label sign) fun s =>
      0 + 1 * g.table.valueAt s p + sign * g.table.valueAt s q :=
  adds_addWith hg s!"{label}.lin" rfl (by simpa using ⟨hp, hq⟩) rfl rfl

/-- A primitive of two operands and no parameters, each behind an affine node. -/
theorem adds_binary (hg : g.Intact) {p q : NodeId} (hp : p < g.size) (hq : q < g.size)
    (label : String) {op : Primitive} (hop : isReserved op = false) (hadmits : op.admits 2 = true)
    (hparams : (op.defaultParams 2 : List α) = []) :
    Adds 0 g (binary g p q label op) fun s =>
      op.scalar [] [Operator.passed (g.table.valueAt s p),
        Operator.passed (g.table.valueAt s q)] := by
  refine Adds.bind (adds_affine hg hp s!"{label}.lhs") fun l g' hgrows _ hl hlvalue => ?_
  have hq' : q < g'.size := Nat.lt_of_lt_of_le hq hgrows.size
  refine Adds.bind (adds_affine hgrows.intact hq' s!"{label}.rhs")
    fun r g'' hgrows' _ hr hrvalue => ?_
  have hl' : l < g''.size := Nat.lt_of_lt_of_le hl hgrows'.size
  refine Adds.congr (adds_addNode hgrows'.intact [l, r] s!"{label}.{op.name}" hop
    (by simpa using ⟨hl', hr⟩) hadmits) fun s => ?_
  simp [hparams, hrvalue, hgrows'.valueAt s hl, hlvalue, hgrows.valueAt s hq]

/-- The chain of an operator computes what the operator is lowered to. -/
theorem adds_chain (hg : g.Intact) {op : Operator} {operands : List NodeId} (label : String)
    (hop : op ≠ .identity) (harity : operands.length = op.arity)
    (hoperands : ∀ p ∈ operands, p < g.size) :
    Adds 0 g (chain g op operands label) fun s =>
      op.lowered (operands.map (g.table.valueAt s)) := by
  have hone : operands.length = 1 → ∃ p, operands = [p] := List.length_eq_one_iff.1
  have htwo : operands.length = 2 → ∃ p q, operands = [p, q] := List.length_eq_two.1
  cases op with
  | identity => exact absurd rfl hop
  | exp | log | abs =>
    obtain ⟨p, rfl⟩ := hone harity
    exact adds_unary hg (hoperands p (by simp)) label rfl rfl rfl
  | sqrt | square =>
    obtain ⟨p, rfl⟩ := hone harity
    exact adds_magnitudePower hg (hoperands p (by simp)) label _
  | reciprocal =>
    obtain ⟨p, rfl⟩ := hone harity
    exact adds_reciprocal hg (hoperands p (by simp)) label
  | add | subtract =>
    obtain ⟨p, q, rfl⟩ := htwo harity
    exact adds_signedSum hg (hoperands p (by simp)) (hoperands q (by simp)) label _
  | divide | multiply =>
    obtain ⟨p, q, rfl⟩ := htwo harity
    exact adds_binary hg (hoperands p (by simp)) (hoperands q (by simp)) label rfl rfl rfl

/-- A root reads the next column and scales it. -/
theorem adds_root (hg : g.Intact) (label : String) (scale : α) :
    Adds 1 g (root g label scale) fun s => 0 + scale * s.raw.getD g.nextColumn 0 := by
  change Adds 1 g ((.ok (g.appendInput label) : Outcome GraphError (NodeId × Graph α)) >>= fun p =>
    addWith p.2 .linear [p.1] s!"{label}.scale" [scale, 0] >>= fun q =>
      q.2.setConstant q.1 true >>= fun g => pure (q.1, g)) _
  refine Adds.bind (adds_appendInput hg label) fun input g' hgrows _ hinput hvalue => ?_
  refine Adds.congr (Adds.setConstant (adds_addWith hgrows.intact s!"{label}.scale" rfl
    (by simpa using hinput) rfl rfl)) fun s => ?_
  simp [Primitive.scalar, hvalue]

end Lowering

end FeatureGraph
