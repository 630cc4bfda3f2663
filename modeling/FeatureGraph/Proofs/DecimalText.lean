import FeatureGraph.Proofs.Document
import FeatureGraph.Proofs.Numeral
import FeatureGraph.Proofs.ShortestDigits

/-!
# Doubles read back from their digits

The digits that are written for a finite double are read as that double, in any layout that
writes few zeros.

* `Numeral.value` is the rational that a numeral stands for, and `Digits.value` the one that digits
  stand for before they are set out.  `value_arrange` says that no layout changes it, and
  `Numeral.reading_eq` that a numeral with few digits is read as it stands.
* `nearest_reading` is the statement about significands and exponents.  `of_ofDouble` says that
  a finite double is put together from these, so that doubles are `Faithful`.
-/

namespace FeatureGraph.Decimal

/-! ## Lists of digits -/

theorem ofDigits_append (as bs : List Char) :
    ofDigits (as ++ bs) = 10 ^ bs.length * ofDigits as + ofDigits bs := by
  have hsplit : ofDigits (as ++ bs) = Nat.ofDigitChars 10 bs (ofDigits as) :=
    Nat.ofDigitChars_append 0
  rw [hsplit, Nat.ofDigitChars_eq_ofDigitChars_zero]
  rfl

/-- Zeros in front do not count. -/
theorem ofDigits_zeros_append (k : Nat) (ds : List Char) :
    ofDigits (List.replicate k '0' ++ ds) = ofDigits ds := by
  have hzeros : ofDigits (List.replicate k '0') = 0 := Nat.ofDigitChars_replicate_zero
  rw [ofDigits_append, hzeros, Nat.mul_zero, Nat.zero_add]

/-- Zeros behind are factors of ten. -/
theorem ofDigits_append_zeros (ds : List Char) (k : Nat) :
    ofDigits (ds ++ List.replicate k '0') = ofDigits ds * 10 ^ k := by
  have hzeros : ofDigits (List.replicate k '0') = 0 := Nat.ofDigitChars_replicate_zero
  rw [ofDigits_append, hzeros, List.length_replicate, Nat.add_zero, Nat.mul_comm]

theorem ofDigits_lt_pow {ds : List Char} (h : ∀ c ∈ ds, c.isDigit = true) :
    ofDigits ds < 10 ^ ds.length := by
  induction ds with
  | nil => decide
  | cons d ds ih =>
    have hrest := ih fun c hc => h c (by simp [hc])
    have hdigit : ofDigits [d] ≤ 9 := by
      have hd := (Char.isDigit_iff_toNat.1 (h d (by simp))).2
      change 10 * 0 + (d.toNat - 48) ≤ 9
      change d.toNat ≤ 57 at hd
      omega
    have hsplit := ofDigits_append [d] ds
    rw [List.singleton_append] at hsplit
    rw [hsplit, List.length_cons, Nat.pow_succ]
    nlinarith

theorem digitCount_le {n k : Nat} (hk : 0 < k) (h : n < 10 ^ k) : digitCount n ≤ k :=
  (Nat.length_toDigits_le_iff (by decide) hk).2 h

/-! ## Values -/

/-- The rational that a numeral stands for, but for its sign. -/
def Numeral.value (n : Numeral) : ℚ := n.significand * 10 ^ n.scale

namespace Digits

/-- The rational that digits stand for. -/
def value (d : Digits) : ℚ := ofDigits d.digits * 10 ^ (d.exponent + 1 - d.digits.length)

theorem value_ofScaled {c : Nat} (hc : 0 < c) (e : Int) : (ofScaled c e).value = c * 10 ^ e := by
  obtain ⟨k, hk⟩ := exists_eq_append_zeros (digitsOf c)
  unfold ofScaled
  dsimp only
  generalize ((digitsOf c).reverse.dropWhile (· == '0')).reverse = kept at hk ⊢
  have hvalue : c = ofDigits kept * 10 ^ k := by
    rw [← ofDigits_append_zeros, ← hk, ofDigits_digitsOf]
  have hne : kept ≠ [] := by
    rintro rfl
    have hzero : c = 0 := by rw [hvalue]; exact Nat.zero_mul _
    omega
  have hlength : (digitsOf c).length = kept.length + k := by
    rw [hk, List.length_append, List.length_replicate]
  rw [if_neg (by simpa using hne), value, hlength]
  have hexp : e + ((kept.length + k : Nat) : Int) - 1 + 1 - kept.length = (k : Nat) + e := by
    push_cast
    ring
  have hcast : (c : ℚ) = ofDigits kept * 10 ^ k := by exact_mod_cast hvalue
  rw [hexp, zpow_add₀ (by norm_num), zpow_natCast, hcast, mul_assoc]

theorem length_ofScaled_le (c : Nat) (e : Int) :
    (ofScaled c e).digits.length ≤ digitCount c := by
  have hcount : 0 < digitCount c := Nat.length_toDigits_pos
  obtain ⟨k, hk⟩ := exists_eq_append_zeros (digitsOf c)
  have hlength := congrArg List.length hk
  rw [List.length_append, List.length_replicate] at hlength
  unfold ofScaled
  dsimp only
  split
  · exact hcount
  · exact Nat.le.intro hlength.symm

/-! ## Layouts -/

variable {d : Digits}

/-- A numeral stands for its digits times a power of ten. -/
theorem value_eq_of_digits {n : Numeral} {k : Nat}
    (hdigits : n.significand = ofDigits d.digits * 10 ^ k)
    (hscale : (k : Int) + n.scale = d.exponent + 1 - d.digits.length) : n.value = d.value := by
  rw [Numeral.value, value, ← hscale, zpow_add₀ (by norm_num), zpow_natCast, hdigits]
  push_cast
  ring

theorem value_positional (negative keepsPoint : Bool) :
    (d.positional negative keepsPoint).value = d.value := by
  rw [positional_eq]
  split
  · refine value_eq_of_digits (k := 0) ?_ ?_
    · rw [pow_zero, Nat.mul_one]
      exact (ofDigits_zeros_append 1 _).trans (ofDigits_zeros_append _ d.digits)
    · simp only [Numeral.scale, List.length_append, List.length_replicate]
      omega
  · split
    · cases keepsPoint with
      | true =>
        refine value_eq_of_digits (k := d.exponent.toNat + 1 - d.digits.length + 1) ?_ ?_
        · have hzeros := ofDigits_append_zeros d.digits (d.exponent.toNat + 1 - d.digits.length + 1)
          rw [List.replicate_succ', ← List.append_assoc] at hzeros
          exact hzeros
        · simp only [Numeral.scale, if_true, List.length_singleton]
          omega
      | false =>
        refine value_eq_of_digits (k := d.exponent.toNat + 1 - d.digits.length) ?_ ?_
        · have hzeros := ofDigits_append_zeros d.digits (d.exponent.toNat + 1 - d.digits.length)
          rw [← List.append_nil (d.digits ++ _)] at hzeros
          exact hzeros
        · simp only [Numeral.scale, Bool.false_eq_true, if_false, List.length_nil]
          omega
    · refine value_eq_of_digits (k := 0) ?_ ?_
      · rw [Numeral.significand, List.take_append_drop, pow_zero, Nat.mul_one]
      · simp only [Numeral.scale, List.length_drop]
        omega

theorem value_withExponent (hne : d.digits ≠ []) (negative marks : Bool) :
    (d.withExponent negative marks).value = d.value := by
  have hlength : 0 < d.digits.length := List.length_pos_iff.2 hne
  refine value_eq_of_digits (k := 0) ?_ ?_
  · rw [withExponent, Numeral.significand, List.take_append_drop, pow_zero, Nat.mul_one]
  · unfold withExponent Numeral.scale
    dsimp only
    rw [List.length_drop]
    by_cases hneg : d.exponent < 0
    · rw [if_pos hneg]
      dsimp only
      rw [ofDigits_digitsOf]
      omega
    · rw [if_neg hneg]
      cases marks <;>
      · simp only [if_true, Bool.false_eq_true, if_false, ofDigits_digitsOf]
        omega

/-- Setting digits out does not change what they stand for. -/
theorem value_arrange (hne : d.digits ≠ []) (l : Layout) (negative : Bool) :
    (d.arrange l negative).value = d.value := by
  unfold arrange
  split
  · exact value_positional negative l.keepsPoint
  · exact value_withExponent hne negative l.marksExponent

/-- The sign stands in front of the digits in any layout. -/
theorem negative_arrange (l : Layout) (negative : Bool) (d : Digits) :
    (d.arrange l negative).negative = negative := by
  unfold arrange
  split
  · rw [positional_eq]
    split
    · rfl
    · split <;> rfl
  · rfl

/-- A layout that writes exponents far from zero adds few zeros to the digits. -/
theorem length_arrange_le {l : Layout} {k : Nat}
    (hl : ∀ e, l.positional e = true → e.natAbs ≤ k) (negative : Bool) :
    (d.arrange l negative).whole.length + (d.arrange l negative).fraction.length ≤
      d.digits.length + k + 2 := by
  unfold arrange
  split
  · rename_i hpositional
    have hexp := hl d.exponent hpositional
    rw [positional_eq]
    split
    · simp only [List.length_append, List.length_replicate, List.length_singleton]
      omega
    · split
      · have hpoint : (if l.keepsPoint then ['0'] else []).length ≤ 1 := by
          split <;> simp
        simp only [List.length_append, List.length_replicate]
        omega
      · simp only [List.length_take, List.length_drop]
        omega
  · simp only [withExponent, List.length_take, List.length_drop]
    omega

end Digits

/-- A numeral with few digits is read as it stands. -/
theorem Numeral.reading_eq {n : Numeral} (h : n.WellFormed)
    (hlength : n.whole.length + n.fraction.length ≤ digitLimit) :
    n.reading = (n.significand, n.scale) := by
  obtain ⟨k, hk⟩ := exists_eq_append_zeros n.fraction
  have htrim : n.trim.whole ++ n.trim.fraction =
      n.whole ++ (n.fraction.reverse.dropWhile (· == '0')).reverse := rfl
  generalize (n.fraction.reverse.dropWhile (· == '0')).reverse = kept at hk htrim
  have hdigit : ∀ c ∈ n.whole ++ kept, c.isDigit = true := by
    intro c hc
    rcases List.mem_append.1 hc with hc | hc
    · exact h.whole.digit c hc
    · exact h.fraction c (hk ▸ List.mem_append_left _ hc)
  have hshort : (n.whole ++ kept).length ≤ digitLimit := by
    have hkept := congrArg List.length hk
    rw [List.length_append] at hkept ⊢
    omega
  have hbound : n.trim.significand < 10 ^ digitLimit := by
    rw [significand, htrim]
    exact (ofDigits_lt_pow hdigit).trans_le (Nat.pow_le_pow_right (by decide) hshort)
  have hcount : digitCount n.trim.significand - digitLimit = 0 :=
    Nat.sub_eq_zero_of_le (digitCount_le (by decide) hbound)
  rw [reading]
  simp only [hcount, if_true]

/-! ## Doubles -/

/-- The digits that are written for a double are read as its significand and exponent. -/
theorem nearest_reading {m : Nat} {q : Int} (hmq : Representable m q) {l : Layout} {k : Nat}
    (hl : ∀ e, l.positional e = true → e.natAbs ≤ k) (hk : k ≤ 700) (negative : Bool) :
    nearest ((shortest l.tie m q).arrange l negative).reading.1
      ((shortest l.tie m q).arrange l negative).reading.2 = some (m, q) := by
  have hproper := proper_shortest l.tie m q
  have hne : (shortest l.tie m q).digits ≠ [] := by
    rcases hproper.whole.leading with hzero | ⟨_, _, hdigits, _⟩
    · simp [hzero]
    · simp [hdigits]
  have hvalue := Digits.value_arrange hne l negative
  have hlength := Digits.length_arrange_le (d := shortest l.tie m q) hl negative
  have hformed := hproper.wellFormed_arrange l negative
  generalize (shortest l.tie m q).arrange l negative = n at hvalue hlength hformed ⊢
  rcases Nat.eq_zero_or_pos m with rfl | hm
  · have hshortest : shortest l.tie 0 q = ⟨['0'], 0⟩ := if_pos rfl
    rw [hshortest] at hvalue hlength
    have hshort : n.whole.length + n.fraction.length ≤ Numeral.digitLimit := by
      change _ ≤ 1 + k + 2 at hlength
      change _ ≤ 768
      omega
    have hzero : (n.significand : ℚ) * 10 ^ n.scale = 0 := hvalue.trans (zero_mul _)
    have hsignificand : n.significand = 0 := by
      exact_mod_cast (mul_eq_zero.1 hzero).resolve_right (zpow_ne_zero _ (by norm_num))
    have hq : q = -1074 := hmq.full.resolve_left (by decide)
    rw [Numeral.reading_eq hformed hshort, hsignificand, hq, nearest, if_pos (.inl rfl)]
  · obtain ⟨c, e, hshortest, hrounds, hcount⟩ := exists_shortest hmq hm l.tie
    have hc := hrounds.factor_pos hmq hm
    rw [hshortest] at hvalue hlength
    have hshort : n.whole.length + n.fraction.length ≤ Numeral.digitLimit := by
      have hdigits := Digits.length_ofScaled_le c e
      change _ ≤ 768
      omega
    rw [Numeral.reading_eq hformed hshort]
    rw [← Digits.value_ofScaled hc e, ← hvalue] at hrounds
    exact nearest_eq_some hmq hm hrounds

/-- A finite double is put together from its sign, its significand and its exponent. -/
theorem of_ofDouble {x : Float} {negative : Bool} {m : Nat} {q : Int}
    (h : Exact.ofDouble x = .finite negative m q) :
    Representable m q ∧ toDouble negative m q = x := by
  have hbits : x.toBits.toNat < 2 ^ 64 := x.toBits.toNat_lt
  have hdouble : ∀ b, b = x.toBits.toNat → Float.ofBits (UInt64.ofNat b) = x := fun b hb => by
    rw [hb, UInt64.ofNat_toNat, Float.ofBits_toBits]
  unfold Exact.ofDouble at h
  unfold toDouble
  simp only [Nat.shiftRight_eq_div_pow, Nat.shiftLeft_eq, Nat.one_mul] at h ⊢
  generalize hbiased : x.toBits.toNat / 2 ^ 52 % 2 ^ 11 = biased at h
  generalize hfraction : x.toBits.toNat % 2 ^ 52 = fraction at h
  have hfull : fraction < 2 ^ 52 := hfraction ▸ Nat.mod_lt _ (by decide)
  -- the bit of the sign
  have hsign : (if decide (2 ^ 63 ≤ x.toBits.toNat) = true then 2 ^ 63 else 0) =
      x.toBits.toNat / 2 ^ 63 * 2 ^ 63 := by
    by_cases hneg : 2 ^ 63 ≤ x.toBits.toNat
    · rw [if_pos (decide_eq_true hneg)]
      omega
    · rw [if_neg (by simpa using hneg)]
      omega
  split at h
  · split at h <;> cases h
  · split at h
    · obtain ⟨rfl, rfl, rfl⟩ := Exact.finite.inj h
      refine ⟨⟨by omega, by omega, by omega, .inr rfl⟩, hdouble _ ?_⟩
      rw [if_pos hfull, hsign]
      omega
    · obtain ⟨rfl, rfl, rfl⟩ := Exact.finite.inj h
      have hlarge : ¬2 ^ 52 + fraction < 2 ^ 52 := by omega
      have hexponent : ((biased : Int) - 1075 + 1075).toNat = biased := by omega
      refine ⟨⟨by omega, by omega, by omega, .inl (by omega)⟩, hdouble _ ?_⟩
      rw [if_neg hlarge, hexponent, hsign]
      omega

end FeatureGraph.Decimal

namespace FeatureGraph

open Decimal

/-- A finite double is the one nearest to its digits. -/
instance : Faithful Float where
  scalar?_ofScalar x hx := by
    cases hexact : DecimalText.exact x with
    | finite negative m q =>
      obtain ⟨hmq, hdouble⟩ := of_ofDouble hexact
      have hpositional : ∀ e, Json.scalarLayout.positional e = true → e.natAbs ≤ 15 := by
        intro e he
        simp only [Json.scalarLayout, Bool.and_eq_true, decide_eq_true_eq] at he
        omega
      have hread := nearest_reading hmq hpositional (by decide) negative
      rw [Json.Value.ofScalar, hexact]
      change DecimalText.nearest? (Digits.arrange _ _ _).negative _ _ = _
      rw [Digits.negative_arrange]
      change (nearest _ _).map _ = _
      rw [hread]
      exact congrArg some hdouble
    | _ => rw [hexact] at hx; cases hx

end FeatureGraph
