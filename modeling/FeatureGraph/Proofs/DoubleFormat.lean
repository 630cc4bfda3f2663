import FeatureGraph.Proofs.Spread
import FeatureGraph.Arith.Double

/-!
# What a double stands for

A double is a sign, eleven bits of exponent and 52 bits of significand.  This module reads off the
real number, the infinity or the missing number that it stands for.

There are three groups.

* The fields.  `Canonical` are the significands and exponents of doubles, without a bound on the
  exponent, and `Packable` are the numbers that fit into the fields.  `packable_unpack` and
  `unpack_pack` say that these are exactly the numbers that doubles hold.
* The value.  Magnitudes compare by exponents first (`Canonical.compare_eq`), so that doubles
  compare as what they stand for.
* Doubles as scalars.
-/

namespace FeatureGraph.Double

open Float.Model Float.Model.UnpackedFloat

/-! ## Fields -/

/-- Significands and exponents of doubles, without a bound on the exponent. -/
structure Canonical (m : ℕ) (e : ℤ) : Prop where
  pos : 0 < m
  lt : m < 2 ^ 53
  ge : -1074 ≤ e
  normal : 2 ^ 52 ≤ m ∨ e = -1074

/-- The numbers that a double can hold. -/
def Packable : UnpackedFloat → Prop
  | .finite _ m e _ => Canonical m e ∧ e ≤ 971
  | _ => True

/-- The number with the given fields. -/
def ofFields (s : Sign) (exponent : BitVec 11) (mantissa : BitVec 52) : UnpackedFloat :=
  if exponent = -1#11 then if mantissa = 0#52 then .infinity s else .notANumber
  else if exponent = 0#11 then
    if h : mantissa = 0#52 then .zero s
    else .finite s mantissa.toNat (-1074) (by simpa [BitVec.toNat_pos, BitVec.pos_iff_ne_zero])
  else .finite s (2 ^ 52 + mantissa.toNat) (exponent.toNat - 1075) (by omega)

theorem toNat_append_one (mantissa : BitVec 52) :
    (1#1 ++ mantissa).toNat = 2 ^ 52 + mantissa.toNat := by
  rw [BitVec.toNat_append, ← Nat.shiftLeft_add_eq_or_of_lt mantissa.isLt]
  rfl

theorem unpack_eq (bits : BitVec 64) :
    UnpackedFloat.unpack .binary64 bits =
      ofFields (Sign.ofBitVec (@unpackSign .binary64 bits)) (@unpackExponent .binary64 bits)
        (@unpackMantissa .binary64 bits) := by
  simp only [UnpackedFloat.unpack, ofFields, toNat_append_one]
  split_ifs with hmax hnan hzero hsubnormal
  · rfl
  · rfl
  · rfl
  · simp only [hzero]
    rfl
  · rfl

theorem packable_ofFields (s : Sign) (exponent : BitVec 11) (mantissa : BitVec 52) :
    Packable (ofFields s exponent mantissa) := by
  have hmantissa := mantissa.isLt
  have hexponent := exponent.isLt
  unfold ofFields
  split_ifs with hmax hnan hzero hsubnormal
  · trivial
  · trivial
  · trivial
  · have hpos : 0 < mantissa.toNat := by
      simpa [BitVec.toNat_pos, BitVec.pos_iff_ne_zero] using hsubnormal
    exact ⟨⟨hpos, by omega, by decide, .inr rfl⟩, by decide⟩
  · have hne : exponent.toNat ≠ 0 := fun h => hzero (BitVec.eq_of_toNat_eq h)
    have hne' : exponent.toNat ≠ 2047 := fun h => hmax (BitVec.eq_of_toNat_eq h)
    exact ⟨⟨by omega, by omega, by omega, .inl (by omega)⟩, by omega⟩

/-- Whatever its bits are, a double holds a packable number. -/
theorem packable_unpack (a : Float.Model) : Packable a.unpack := by
  rw [Float.Model.unpack, unpack_eq]
  exact packable_ofFields _ _ _

theorem unpackSign_packComponents {spec : Format} {s : Sign} {exponent mantissa} :
    unpackSign (packComponents spec s exponent mantissa) = s.toBitVec := by
  ext i hi
  have hmantissa : ¬spec.mantissaBitsWithoutImplicit + spec.exponentBits + i <
      spec.mantissaBitsWithoutImplicit := by omega
  have hexponent : ¬spec.mantissaBitsWithoutImplicit + spec.exponentBits + i -
      spec.mantissaBitsWithoutImplicit < spec.exponentBits := by omega
  have hsign : spec.mantissaBitsWithoutImplicit + spec.exponentBits + i -
      spec.mantissaBitsWithoutImplicit - spec.exponentBits = i := by omega
  simp [unpackSign, packComponents, BitVec.getLsbD_append, hmantissa, hexponent, hsign]
  rfl

theorem unpack_packComponents (s : Sign) (exponent : BitVec 11) (mantissa : BitVec 52) :
    UnpackedFloat.unpack .binary64 (packComponents .binary64 s exponent mantissa) =
      ofFields s exponent mantissa := by
  have hsign : Sign.ofBitVec s.toBitVec = s := by cases s <;> rfl
  rw [unpack_eq, unpackMantissa_packComponents, unpackExponent_packComponents,
    unpackSign_packComponents, hsign]

/-- The fields of a finite number, with the exponent above its bias. -/
theorem pack_finite {s : Sign} {m b : ℕ} {e : ℤ} {hm : 0 < m} (hb : e + 1075 = b) :
    UnpackedFloat.pack .binary64 (.finite s m e hm) =
      if 2048 ≤ b + 1 then packedInfinity .binary64 s
      else if m.log2 + 1 = 53 then
        packComponents .binary64 s (BitVec.ofNat 11 b) (BitVec.ofNat 52 m)
      else packComponents .binary64 s 0#11 (BitVec.ofNat 52 m) := by
  have hbiased : (e + (Format.binary64.exponentBias : ℕ) +
      Format.binary64.mantissaBitsWithoutImplicit).toNat = b := by
    show (e + 1023 + 52).toNat = b
    omega
  rw [UnpackedFloat.pack]
  simp only [hbiased]
  rfl

theorem ofFields_normal (s : Sign) {b r : ℕ} (hpos : 0 < b) (hb : b < 2047) (hr : r < 2 ^ 52) :
    ofFields s (BitVec.ofNat 11 b) (BitVec.ofNat 52 r) =
      .finite s (2 ^ 52 + r) (b - 1075) (by omega) := by
  have hexponent : (BitVec.ofNat 11 b).toNat = b := Nat.mod_eq_of_lt (by omega)
  have hmantissa : (BitVec.ofNat 52 r).toNat = r := Nat.mod_eq_of_lt hr
  have hmax : BitVec.ofNat 11 b ≠ -1#11 := by
    intro h
    rw [h] at hexponent
    change 2047 = b at hexponent
    omega
  have hzero : BitVec.ofNat 11 b ≠ 0#11 := by
    intro h
    rw [h] at hexponent
    change 0 = b at hexponent
    omega
  rw [ofFields, if_neg hmax, if_neg hzero]
  simp only [hmantissa, hexponent]

theorem ofFields_subnormal (s : Sign) {m : ℕ} (hpos : 0 < m) (hm : m < 2 ^ 52) :
    ofFields s 0#11 (BitVec.ofNat 52 m) = .finite s m (-1074) hpos := by
  have hmantissa : (BitVec.ofNat 52 m).toNat = m := Nat.mod_eq_of_lt hm
  have hne : BitVec.ofNat 52 m ≠ 0#52 := by
    intro h
    rw [h] at hmantissa
    change 0 = m at hmantissa
    omega
  rw [ofFields, if_neg (by decide), if_pos rfl, dif_neg hne]
  simp only [hmantissa]

theorem unpack_pack_finite (s : Sign) {m : ℕ} {e : ℤ} (h : Canonical m e) (he : e ≤ 971) :
    (Float.Model.pack (.finite s m e h.pos)).unpack = .finite s m e h.pos := by
  obtain ⟨hpos, hlt, hge, hnormal⟩ := h
  obtain ⟨b, hb⟩ : ∃ b : ℕ, e + 1075 = b := ⟨(e + 1075).toNat, by omega⟩
  obtain rfl : e = b - 1075 := by omega
  show UnpackedFloat.unpack .binary64 (UnpackedFloat.pack .binary64 (.finite s m _ hpos)) = _
  rw [pack_finite hb, if_neg (by omega)]
  by_cases hbig : 2 ^ 52 ≤ m
  · -- the leading bit of the significand is not stored
    obtain ⟨r, rfl⟩ := Nat.exists_eq_add_of_le hbig
    have hbits : (2 ^ 52 + r).log2 = 52 := (Nat.log2_eq_iff (by omega)).2 ⟨by omega, by omega⟩
    have hstored : BitVec.ofNat 52 (2 ^ 52 + r) = BitVec.ofNat 52 r := by simp [BitVec.ofNat_add]
    rw [if_pos (by omega), unpack_packComponents, hstored,
      ofFields_normal s (by omega) (by omega) (by omega)]
  · have hbits : m.log2 < 52 := (Nat.log2_lt (by omega)).2 (by omega)
    obtain rfl : b = 1 := by omega
    rw [if_neg (by omega), unpack_packComponents, ofFields_subnormal s hpos (by omega)]
    rfl

/-- A packable number is what the double holds that it is packed into. -/
theorem unpack_pack {f : UnpackedFloat} (h : Packable f) : (Float.Model.pack f).unpack = f := by
  cases f with
  | infinity s => cases s <;> rfl
  | notANumber => rfl
  | zero s => cases s <;> rfl
  | finite s m e hm => exact unpack_pack_finite s h.1 h.2

/-- A number with a larger exponent becomes an infinity. -/
theorem unpack_pack_of_lt {s : Sign} {m : ℕ} {e : ℤ} {hm : 0 < m} (he : 971 < e) :
    (Float.Model.pack (.finite s m e hm)).unpack = .infinity s := by
  show UnpackedFloat.unpack .binary64 (UnpackedFloat.pack .binary64 (.finite s m e hm)) = _
  rw [pack_finite (b := (e + 1075).toNat) (by omega), if_pos (by omega), packedInfinity,
    unpack_packComponents]
  rfl

/-! ## Values -/

/-- Powers of two stand in most definitions from here on.  The proof that their base may be written
as a numeral is named once for all of them. -/
scoped instance atLeastTwo : Nat.AtLeastTwo 2 := ⟨le_refl 2⟩

/-- A magnitude with a sign. -/
def signed : Sign → ℝ → ℝ
  | .negative, x => -x
  | .positive, x => x

theorem signed_neg (s : Sign) (x : ℝ) : signed (-s) x = -signed s x := by
  cases s
  · exact (neg_neg x).symm
  · rfl

theorem signed_zero (s : Sign) : signed s 0 = 0 := by
  cases s
  · exact neg_zero
  · rfl

theorem signed_sub (s : Sign) (x y : ℝ) : signed s (x - y) = signed s x - signed s y := by
  cases s
  · exact (neg_sub x y).trans (neg_sub_neg x y).symm
  · rfl

theorem abs_signed (s : Sign) (x : ℝ) : |signed s x| = |x| := by
  cases s
  · exact abs_neg x
  · rfl

/-- What a number stands for. -/
noncomputable def valueOf : UnpackedFloat → ExtendedReal
  | .finite s m e _ => .finite (signed s (m * 2 ^ e))
  | .zero _ => .finite 0
  | .infinity s => .infinite (s == .negative)
  | .notANumber => .nan

theorem valueOf_neg (f : UnpackedFloat) : valueOf f.neg = (valueOf f).neg := by
  rcases f with s | _ | s | ⟨s, m, e, hm⟩
  · cases s <;> rfl
  · rfl
  · exact congrArg ExtendedReal.finite neg_zero.symm
  · exact congrArg ExtendedReal.finite (signed_neg s _)

theorem scaled_pos {m : ℕ} (hm : 0 < m) (e : ℤ) : (0 : ℝ) < m * 2 ^ e := by positivity

theorem valueOf_abs (f : UnpackedFloat) : valueOf f.abs = (valueOf f).abs := by
  rcases f with s | _ | s | ⟨s, m, e, hm⟩
  · cases s <;> rfl
  · rfl
  · exact congrArg ExtendedReal.finite abs_zero.symm
  · refine congrArg ExtendedReal.finite ?_
    rw [abs_signed, abs_of_pos (scaled_pos hm e)]
    rfl

/-- A number is below the normal numbers of every larger exponent. -/
theorem Canonical.lt_of_lt {m : ℕ} {e E : ℤ} (h : Canonical m e) (he : e < E) :
    (m * 2 ^ e : ℝ) < 2 ^ 52 * 2 ^ E := by
  calc (m * 2 ^ e : ℝ) < 2 ^ 53 * 2 ^ e := by
        gcongr
        exact_mod_cast h.lt
    _ = 2 ^ 52 * 2 ^ (e + 1) := by
        rw [zpow_add_one₀ two_ne_zero]
        ring
    _ ≤ 2 ^ 52 * 2 ^ E := by
        gcongr
        exacts [one_le_two, he]

theorem Canonical.scaled_lt {m n : ℕ} {e f : ℤ} (hm : Canonical m e) (hn : Canonical n f)
    (hef : e < f) : (m * 2 ^ e : ℝ) < n * 2 ^ f := by
  have hge := hm.ge
  have hnormal : 2 ^ 52 ≤ n := hn.normal.resolve_right (by omega)
  refine (hm.lt_of_lt hef).trans_le ?_
  gcongr
  exact_mod_cast hnormal

/-- Magnitudes compare by exponents first. -/
theorem Canonical.compare_eq {m n : ℕ} {e f : ℤ} (hm : Canonical m e) (hn : Canonical n f) :
    (compare e f).then (compare m n) = cmp (m * 2 ^ e : ℝ) (n * 2 ^ f) := by
  rcases lt_trichotomy e f with hlt | rfl | hgt
  · rw [compare_lt_iff_lt.2 hlt, (cmp_eq_lt_iff _ _).2 (hm.scaled_lt hn hlt)]
    rfl
  · have hpos : (0 : ℝ) < 2 ^ e := by positivity
    rw [compare_eq_iff_eq.2 rfl, Ordering.eq_then, cmp_mul_pos_right hpos,
      Nat.strictMono_cast.cmp_map_eq, cmp_eq_compare]
  · rw [compare_gt_iff_gt.2 hgt, (cmp_eq_gt_iff _ _).2 (hn.scaled_lt hm hgt)]
    rfl

theorem compare_of_finite {f g : UnpackedFloat} {x y : ℝ} (hf : Packable f) (hg : Packable g)
    (hx : valueOf f = .finite x) (hy : valueOf g = .finite y) : f.compare g = some (cmp x y) := by
  rcases f with s | _ | s | ⟨s, m, e, hm⟩ <;> cases hx <;>
    rcases g with t | _ | t | ⟨t, n, d, hn⟩ <;> cases hy
  · rw [cmp_self_eq_eq]
    rfl
  · have hpos := scaled_pos hn d
    cases t <;> simp only [signed]
    · rw [(cmp_eq_gt_iff _ _).2 (neg_lt_zero.2 hpos)]
      rfl
    · rw [(cmp_eq_lt_iff _ _).2 hpos]
      rfl
  · have hpos := scaled_pos hm e
    cases s <;> simp only [signed]
    · rw [(cmp_eq_lt_iff _ _).2 (neg_lt_zero.2 hpos)]
      rfl
    · rw [(cmp_eq_gt_iff _ _).2 hpos]
      rfl
  · have hpos := scaled_pos hm e
    have hpos' := scaled_pos hn d
    cases s <;> cases t <;> simp only [signed]
    · have hanti : StrictAnti fun x : ℝ => -x := fun _ _ => neg_lt_neg
      rw [hanti.cmp_map_eq, ← cmp_swap]
      exact congrArg (fun o => some (Ordering.swap o)) (hf.1.compare_eq hg.1)
    · rw [(cmp_eq_lt_iff _ _).2 (by linarith)]
      rfl
    · rw [(cmp_eq_gt_iff _ _).2 (by linarith)]
      rfl
    · exact congrArg some (hf.1.compare_eq hg.1)

theorem some_cmp_beq (x y : ℝ) : (some (cmp x y) == some .lt) = decide (x < y) ∧
    (some (cmp x y) == some .eq) = decide (x = y) := by
  rcases lt_trichotomy x y with hlt | rfl | hgt
  · rw [(cmp_eq_lt_iff _ _).2 hlt, decide_eq_true hlt, decide_eq_false hlt.ne]
    exact ⟨rfl, rfl⟩
  · rw [cmp_self_eq_eq, decide_eq_false (lt_irrefl x), decide_eq_true rfl]
    exact ⟨rfl, rfl⟩
  · rw [(cmp_eq_gt_iff _ _).2 hgt, decide_eq_false hgt.not_gt, decide_eq_false hgt.ne']
    exact ⟨rfl, rfl⟩

/-- Packable numbers compare as what they stand for. -/
theorem lt_eq_and_beq_eq {f g : UnpackedFloat} (hf : Packable f) (hg : Packable g) :
    f.lt g = (valueOf f).lt (valueOf g) ∧ f.beq g = (valueOf f).eqv (valueOf g) := by
  by_cases h : (∃ x, valueOf f = .finite x) ∧ ∃ y, valueOf g = .finite y
  · obtain ⟨⟨x, hx⟩, y, hy⟩ := h
    rw [UnpackedFloat.lt, UnpackedFloat.beq, compare_of_finite hf hg hx hy, hx, hy]
    exact some_cmp_beq x y
  · rcases f with s | _ | s | ⟨s, m, e, hm⟩ <;> rcases g with t | _ | t | ⟨t, n, d, hn⟩ <;>
      first
      | exact absurd ⟨⟨_, rfl⟩, _, rfl⟩ h
      | exact ⟨rfl, rfl⟩
      | (cases s <;> exact ⟨rfl, rfl⟩)
      | (cases t <;> exact ⟨rfl, rfl⟩)
      | (cases s <;> cases t <;> exact ⟨rfl, rfl⟩)

/-! ## Doubles as scalars -/

theorem packable_neg {f : UnpackedFloat} (h : Packable f) : Packable f.neg := by
  cases f <;> exact h

theorem packable_abs {f : UnpackedFloat} (h : Packable f) : Packable f.abs := by
  cases f <;> exact h

/-- A difference with a number that is not finite is not rounded. -/
theorem valueOf_sub_of_not_finite {f g : UnpackedFloat}
    (h : (∀ x, valueOf f ≠ .finite x) ∨ ∀ y, valueOf g ≠ .finite y) :
    Packable (f.sub .binary64 g) ∧
      valueOf (f.sub .binary64 g) = (valueOf f).add (valueOf g).neg := by
  rcases f with s | _ | s | ⟨s, m, e, hm⟩ <;> rcases g with t | _ | t | ⟨t, n, d, hn⟩ <;>
    first
    | exact (h.elim (fun h => h _ rfl) fun h => h _ rfl).elim
    | exact ⟨trivial, rfl⟩
    | (cases t <;> exact ⟨trivial, rfl⟩)
    | (cases s <;> cases t <;> exact ⟨trivial, rfl⟩)

noncomputable instance : HasValue Float where
  value a := valueOf a.toModel.unpack
  lt_eq a b := by
    have hlt : Arith.lt a b = a.toModel.unpack.lt b.toModel.unpack := by
      show decide (decide (a.toModel.unpack.lt b.toModel.unpack = true) = true) = _
      rw [Bool.decide_eq_true, Bool.decide_eq_true]
    rw [hlt]
    exact (lt_eq_and_beq_eq (packable_unpack _) (packable_unpack _)).1
  eqv_eq a b := (lt_eq_and_beq_eq (packable_unpack _) (packable_unpack _)).2
  value_zero := rfl
  value_inf := rfl
  value_neg a := by
    show valueOf (Float.Model.pack a.toModel.unpack.neg).unpack = _
    rw [unpack_pack (packable_neg (packable_unpack _)), valueOf_neg]
  value_abs a := by
    show valueOf (Float.Model.pack a.toModel.unpack.abs).unpack = _
    rw [unpack_pack (packable_abs (packable_unpack _)), valueOf_abs]
  value_sub a b h := by
    obtain ⟨hpackable, hvalue⟩ := valueOf_sub_of_not_finite h
    show valueOf (Float.Model.pack (a.toModel.unpack.sub .binary64 b.toModel.unpack)).unpack = _
    rw [unpack_pack hpackable, hvalue]

end FeatureGraph.Double
