import FeatureGraph.Model.Dropout
import FeatureGraph.Proofs.DoubleArithmetic
import FeatureGraph.Proofs.Reachable
import FeatureGraph.Random.ChaCha

/-!
# What drawing does to the flags

A controller that keeps each listed node with a probability of its own draws for the entries of its
list one after the other.  Whatever doubles stand in the list and whatever words the source hands
out, there is a draw for each entry: a probability outside of the unit interval is moved into it,
and one that is not a number counts as zero.

* `value_keepProbability` says which probability is in use, and `exists_draws` what a draw for it
  answers.
* `Decided` is what a list leaves of a mask: the last entry of a node decides, and no other node is
  touched.  `Decided.concat` is the step to one more entry, and `bernoulliFrom_of_known` the run.
* `bernoulli_decides` adds the lists with unknown nodes, which end at the first of them.
-/

namespace FeatureGraph

open ExtendedReal (finite infinite nan)
open HasValue Double
open RandomSource (chance? chanceWords)

/-! ## Masks -/

namespace Mask

variable {size width : Nat} {m : Mask size width} {id : NodeId}

/-- Writing a flag leaves the others alone. -/
theorem exists_setDropped (m : Mask size width) (hid : id < size) (hflag : id < width)
    (value : Bool) : ∃ m', m.setDropped id value = .ok m' ∧
      ∀ i, m'.isDropped i = if i = id then value else m.isDropped i := by
  refine ⟨⟨m.flags.set id value⟩, by rw [setDropped, if_pos hid, dif_pos hflag], fun i => ?_⟩
  rw [isDropped, isDropped, Vector.getElem?_set]
  by_cases hi : id = i
  · simp [hi]
  · rw [if_neg hi, if_neg (Ne.symm hi)]

/-- A node that is not there has no flag. -/
theorem setDropped_of_le (hid : size ≤ id) (value : Bool) :
    m.setDropped id value = .error (.failure (.unknownNode id)) := by
  rw [setDropped, if_neg (Nat.not_lt.2 hid)]
  rfl

end Mask

namespace Dropout

/-! ## Draws -/

/-- The probability in use lies in the unit interval. -/
theorem value_keepProbability {α : Type} [Arith α] [DoubleLaws α] (keep : α) :
    ∃ x, value (keepProbability keep) = finite x ∧ 0 ≤ x ∧ x ≤ 1 ∧
      (Arith.le 1 keep = true → x = 1) ∧
      (Arith.le keep 0 = true ∨ Arith.isNaN keep = true → x = 0) := by
  have hzero : value (0 : α) = finite 0 := value_zero
  have hone : value (1 : α) = finite 1 := DoubleLaws.value_one
  simp only [keepProbability, Arith.clampUnit, Arith.le, Arith.isNaN, lt_eq, eqv_eq, hzero, hone]
  cases hkeep : value keep with
  | nan =>
    refine ⟨0, hzero, le_rfl, zero_le_one, ?_, fun _ => rfl⟩
    simp [ExtendedReal.lt, ExtendedReal.eqv]
  | infinite n =>
    cases n with
    | true =>
      refine ⟨0, hzero, le_rfl, zero_le_one, ?_, fun _ => rfl⟩
      simp [ExtendedReal.lt, ExtendedReal.eqv]
    | false =>
      refine ⟨1, hone, zero_le_one, le_rfl, fun _ => rfl, ?_⟩
      simp [ExtendedReal.lt, ExtendedReal.eqv]
  | finite y =>
    simp only [ExtendedReal.lt, ExtendedReal.eqv, decide_true, Bool.not_true, Bool.false_eq_true,
      if_false, or_false, decide_eq_true_eq, Bool.or_eq_true, ← le_iff_lt_or_eq]
    split_ifs with hneg hlarge
    · exact ⟨0, hzero, le_rfl, zero_le_one, fun h => by linarith, fun _ => rfl⟩
    · exact ⟨1, hone, zero_le_one, le_rfl, fun _ => rfl, fun h => by linarith⟩
    · have hnonneg := not_lt.1 hneg
      have hle := not_lt.1 hlarge
      exact ⟨y, hkeep, hnonneg, hle, hle.antisymm, fun h => h.antisymm hnonneg⟩

/-- No word is below zero. -/
theorem chanceWords_eq_zero {p : Float} (hp : value p = finite 0) : chanceWords p = 0 := by
  have hunpack : ((1 <<< 64 : Nat) : Float).toModel.unpack =
    .finite .positive (2 ^ 52) 12 (by decide) := rfl
  have hscale : value ((1 <<< 64 : Nat) : Float) = _ := congrArg valueOf hunpack
  have hproduct : value (p * ((1 <<< 64 : Nat) : Float)) = finite 0 := by
    have hrounds := DoubleLaws.mul_rounds hp hscale
    rw [zero_mul] at hrounds
    exact hrounds.eq_of_isDouble (.inl rfl)
  rw [chanceWords]
  generalize p * ((1 <<< 64 : Nat) : Float) = a at hproduct
  show a.toModel.unpack.toUInt64.toNat = 0
  have hvalue : valueOf a.toModel.unpack = finite 0 := hproduct
  cases hunpack : a.toModel.unpack with
  | zero s => rfl
  | notANumber => rw [hunpack] at hvalue; cases hvalue
  | infinity s => rw [hunpack] at hvalue; cases hvalue
  | finite s m e hm =>
    rw [hunpack] at hvalue
    have hzero := abs_signed s (m * 2 ^ e)
    rw [ExtendedReal.finite.inj hvalue, abs_zero] at hzero
    exact absurd (abs_eq_zero.1 hzero.symm) (scaled_pos hm e).ne'

variable {σ : Type} [RandomSource σ] {size width : Nat}

/-- A draw for a keep probability: it is sure from one on, and never true up to zero and for what is
not a number. -/
structure Draws (keep : Float) (s : σ) (kept : Bool) (s' : σ) : Prop where
  chance : chance? (keepProbability keep) s = some (kept, s')
  sure : Arith.le 1 keep = true → kept = true
  never : Arith.le keep 0 = true ∨ Arith.isNaN keep = true → kept = false

/-- There is a draw for every double. -/
theorem exists_draws (keep : Float) (s : σ) : ∃ kept s', Draws keep s kept s' := by
  obtain ⟨x, hvalue, hnonneg, hle, hone, hzero⟩ := value_keepProbability keep
  have heqv : Arith.eqv (keepProbability keep) 1 = decide (x = 1) := by
    rw [eqv_eq, hvalue, DoubleLaws.value_one]
    rfl
  by_cases hx : x = 1
  · exact ⟨true, s, by rw [chance?, heqv, if_pos (decide_eq_true hx)], fun _ => rfl,
      fun h => absurd (hx.symm.trans (hzero h)) one_ne_zero⟩
  · have hinside :
        (Arith.le 0 (keepProbability keep) && Arith.lt (keepProbability keep) 1) = true := by
      rw [(le_iff value_zero hvalue).2 hnonneg, lt_eq, hvalue, DoubleLaws.value_one]
      simpa [ExtendedReal.lt] using hle.lt_of_ne hx
    refine ⟨_, _, by rw [chance?, heqv, if_neg (by simpa using hx), if_pos hinside], fun h => ?_,
      fun h => ?_⟩
    · exact absurd (hone h) hx
    · rw [hzero h] at hvalue
      rw [chanceWords_eq_zero hvalue]
      simp

/-! ## Lists of known nodes -/

/-- What drawing for a list of known nodes leaves of a mask: the last entry of a node decides, by
a draw from the source that the entries before have left. -/
structure Decided (nodes : List (NodeId × Float)) (m : Mask size width) (s : σ)
    (m' : Mask size width) : Prop where
  unlisted : ∀ id, (∀ keep, (id, keep) ∉ nodes) → m'.isDropped id = m.isDropped id
  last : ∀ pre id keep post, nodes = pre ++ (id, keep) :: post → (∀ k, (id, k) ∉ post) →
    ∃ kept s', Draws keep (bernoulliFrom pre m s).source kept s' ∧ m'.isDropped id = !kept

theorem decided_nil (m : Mask size width) (s : σ) : Decided [] m s m where
  unlisted _ _ := rfl
  last pre id keep post h := by cases pre <;> cases h

/-- One more entry decides about its node. -/
theorem Decided.concat {nodes : List (NodeId × Float)} {m m₁ m₂ : Mask size width} {s s' : σ}
    (h : Decided nodes m s m₁) {id : NodeId} {keep : Float} {kept : Bool}
    (hdraws : Draws keep (bernoulliFrom nodes m s).source kept s')
    (hset : ∀ i, m₂.isDropped i = if i = id then !kept else m₁.isDropped i) :
    Decided (nodes ++ [(id, keep)]) m s m₂ where
  unlisted i hi := by
    have hne : i ≠ id := fun heq => hi keep (by simp [heq])
    rw [hset, if_neg hne]
    exact h.unlisted i fun k hk => hi k (List.mem_append_left _ hk)
  last pre i k post hsplit hpost := by
    rcases List.eq_nil_or_concat post with rfl | ⟨post, entry, rfl⟩
    · obtain ⟨rfl, hentry⟩ := List.append_inj' hsplit rfl
      obtain ⟨rfl, rfl⟩ := Prod.mk.inj (List.cons.inj hentry).1
      exact ⟨kept, s', hdraws, by rw [hset, if_pos rfl]⟩
    · have hsplit : nodes ++ [(id, keep)] = (pre ++ (i, k) :: post) ++ [entry] := by
        simpa using hsplit
      obtain ⟨rfl, hentry⟩ := List.append_inj' hsplit rfl
      obtain rfl := (List.cons.inj hentry).1
      have hne : i ≠ id := fun heq => hpost keep (by simp [heq])
      rw [hset, if_neg hne]
      exact h.last pre i k post rfl fun k' hk' =>
        hpost k' (by simp [hk'])

/-- Entries that have been drawn for leave a mask and a source to those that follow. -/
theorem bernoulliFrom_append {pre : List (NodeId × Float)} {m : Mask size width} {s : σ}
    (hpre : (bernoulliFrom pre m s).outcome = .ok ()) (post : List (NodeId × Float)) :
    bernoulliFrom (pre ++ post) m s =
      bernoulliFrom post (bernoulliFrom pre m s).mask (bernoulliFrom pre m s).source := by
  induction pre generalizing m s with
  | nil => rfl
  | cons entry pre ih =>
    obtain ⟨id, keep⟩ := entry
    obtain ⟨kept, s', hdraws⟩ := exists_draws keep s
    rw [List.cons_append]
    simp only [bernoulliFrom, hdraws.chance] at hpre ⊢
    cases hset : m.setDropped id (!kept) with
    | error fault => rw [hset] at hpre; cases hpre
    | ok m' => exact ih (by rw [hset] at hpre; exact hpre)

/-- Known nodes can be drawn for. -/
theorem bernoulliFrom_of_known {nodes : List (NodeId × Float)} (m : Mask size width) (s : σ)
    (hnodes : ∀ entry ∈ nodes, entry.1 < size ∧ entry.1 < width) :
    (bernoulliFrom nodes m s).outcome = .ok () ∧
      Decided nodes m s (bernoulliFrom nodes m s).mask := by
  induction nodes using List.reverseRecOn with
  | nil => exact ⟨rfl, decided_nil m s⟩
  | append_singleton nodes entry ih =>
    obtain ⟨hrun, hdecided⟩ := ih fun e he => hnodes e (List.mem_append_left _ he)
    obtain ⟨hid, hflag⟩ := hnodes entry (by simp)
    obtain ⟨kept, s', hdraws⟩ := exists_draws entry.2 (bernoulliFrom nodes m s).source
    obtain ⟨m', hset, hflags⟩ :=
      (bernoulliFrom nodes m s).mask.exists_setDropped hid hflag (!kept)
    have hlast : bernoulliFrom (nodes ++ [entry]) m s = ⟨.ok (), (), m', s'⟩ := by
      rw [bernoulliFrom_append hrun]
      simp only [bernoulliFrom, hdraws.chance, hset]
    rw [hlast]
    exact ⟨rfl, hdecided.concat hdraws hflags⟩

/-! ## Any list -/

/-- Drawing for any list of nodes and doubles, from any source, reads nothing outside of the mask,
if each listed node that is there has a flag, as it has in a graph whose columns have one length.
If all of them are there, it succeeds, and the last entry of each node decides about its flag alone:
the node is kept from a probability of one on, and dropped up to zero and for what is not a number.
Otherwise the first node that is not there is refused, and the entries before it have decided. -/
theorem bernoulli_decides (nodes : List (NodeId × Float)) (m : Mask size width) (s : σ)
    (hflags : ∀ entry ∈ nodes, entry.1 < size → entry.1 < width) :
    let sampled := (bernoulli nodes : Controller Unit σ).sample () m s
    sampled.outcome ≠ Outcome.outOfRange ∧
      ((∀ entry ∈ nodes, entry.1 < size) →
        sampled.outcome = .ok () ∧ Decided nodes m s sampled.mask) ∧
      ∀ pre id keep post, nodes = pre ++ (id, keep) :: post → (∀ entry ∈ pre, entry.1 < size) →
        size ≤ id → sampled.outcome = .error (.failure (.unknownNode id)) ∧
          Decided pre m s sampled.mask := by
  have hknown : (∀ entry ∈ nodes, entry.1 < size) →
      (bernoulliFrom nodes m s).outcome = .ok () ∧
        Decided nodes m s (bernoulliFrom nodes m s).mask := fun hnodes =>
    bernoulliFrom_of_known m s fun entry he => ⟨hnodes entry he, hflags entry he (hnodes entry he)⟩
  have hunknown : ∀ pre id keep post, nodes = pre ++ (id, keep) :: post →
      (∀ entry ∈ pre, entry.1 < size) → size ≤ id →
      (bernoulliFrom nodes m s).outcome = .error (.failure (.unknownNode id)) ∧
        Decided pre m s (bernoulliFrom nodes m s).mask := by
    rintro pre id keep post rfl hpre hid
    obtain ⟨hrun, hdecided⟩ := bernoulliFrom_of_known m s fun entry he =>
      ⟨hpre entry he, hflags entry (List.mem_append_left _ he) (hpre entry he)⟩
    obtain ⟨kept, s', hdraws⟩ := exists_draws keep (bernoulliFrom pre m s).source
    rw [bernoulliFrom_append hrun]
    simp only [bernoulliFrom, hdraws.chance, Mask.setDropped_of_le hid]
    exact ⟨trivial, hdecided⟩
  refine ⟨?_, hknown, hunknown⟩
  show (bernoulliFrom nodes m s).outcome ≠ Outcome.outOfRange
  cases hfirst : nodes.find? fun entry => decide (size ≤ entry.1) with
  | none =>
    have hnodes : ∀ entry ∈ nodes, entry.1 < size := by simpa using hfirst
    rw [(hknown hnodes).1]
    exact nofun
  | some entry =>
    obtain ⟨hid, pre, post, hsplit, hpre⟩ := List.find?_eq_some_iff_append.1 hfirst
    rw [(hunknown pre entry.1 entry.2 post hsplit (by simpa using hpre) (by simpa using hid)).1]
    exact nofun

/-- Probabilities that are not in the unit interval or not numbers, two of them for one node, and a
node that is not there. -/
def oddEntries : List (NodeId × Float) := [(1, 0), (0, 0 / 0), (1, 2), (2, -1), (9, 1), (0, 1)]

/-- The second entry for node 1 decides, and what follows the node 9 does not count. -/
theorem bernoulli_decides_oddEntries :
    (∀ entry ∈ oddEntries, entry.1 < (Graph.lineFit : Graph Float).size →
        entry.1 < (Graph.lineFit : Graph Float).table.dropped.size) ∧
      let sampled := (bernoulli oddEntries : Controller Unit ChaCha).sample ()
        (Graph.lineFit : Graph Float).mask (ChaCha.ofSeed 7)
      sampled.outcome = .error (.failure (.unknownNode 9)) ∧
        sampled.mask.isDropped 0 = true ∧ sampled.mask.isDropped 1 = false ∧
        sampled.mask.isDropped 2 = true ∧
        sampled.mask.isDropped 3 = (Graph.lineFit : Graph Float).mask.isDropped 3 := by
  have hflags : ∀ entry ∈ oddEntries, entry.1 < (Graph.lineFit : Graph Float).size →
      entry.1 < (Graph.lineFit : Graph Float).table.dropped.size := by
    decide
  have hpre : ∀ entry ∈ oddEntries.take 4, entry.1 < (Graph.lineFit : Graph Float).size := by
    decide
  obtain ⟨_, _, hunknown⟩ := bernoulli_decides oddEntries (Graph.lineFit : Graph Float).mask
    (ChaCha.ofSeed 7) hflags
  obtain ⟨hrefused, hdecided⟩ := hunknown (oddEntries.take 4) 9 1 [(0, 1)] rfl hpre (by decide)
  refine ⟨hflags, hrefused, ?_, ?_, ?_, ?_⟩
  · obtain ⟨kept, _, hdraws, hflag⟩ :=
      hdecided.last [(1, 0)] 0 (0 / 0) [(1, 2), (2, -1)] rfl (by simp)
    rw [hflag, hdraws.never (.inr (by decide +kernel))]
    rfl
  · obtain ⟨kept, _, hdraws, hflag⟩ :=
      hdecided.last [(1, 0), (0, 0 / 0)] 1 2 [(2, -1)] rfl (by simp)
    rw [hflag, hdraws.sure (by decide +kernel)]
    rfl
  · obtain ⟨kept, _, hdraws, hflag⟩ :=
      hdecided.last [(1, 0), (0, 0 / 0), (1, 2)] 2 (-1) [] rfl (by simp)
    rw [hflag, hdraws.never (.inl (by decide +kernel))]
    rfl
  · exact hdecided.unlisted 3 (by simp [oddEntries])

end Dropout

end FeatureGraph
