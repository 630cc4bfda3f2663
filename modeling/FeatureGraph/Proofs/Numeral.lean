import Mathlib
import FeatureGraph.Decimal.Layout

/-!
# Numerals read back

What is written of a numeral is read as that numeral, and nothing behind it is.

* `Numeral.WellFormed` is what the reader asks of the digits.  `wellFormed_ofNat` and
  `wellFormed_arrange` say that the numerals of natural numbers and of digits that have been
  set out by a layout are well formed.
* `read?_toList` is the statement, for any text behind the numeral in which it does not go on.
-/

namespace FeatureGraph.Decimal

/-! ## Digits -/

/-- Digits of a whole number: at least one, and no zero in front of another one. -/
structure WholeDigits (ds : List Char) : Prop where
  digit : ∀ c ∈ ds, c.isDigit = true
  leading : ds = ['0'] ∨ ∃ c rest, ds = c :: rest ∧ c ≠ '0'

theorem isDigit_digitsOf {n : Nat} : ∀ c ∈ digitsOf n, c.isDigit = true := fun _ hc =>
  Nat.isDigit_of_mem_toDigits (by decide) (by decide) hc

theorem digitsOf_ne_nil (n : Nat) : digitsOf n ≠ [] := Nat.toDigits_ne_nil

@[simp] theorem ofDigits_digitsOf (n : Nat) : ofDigits (digitsOf n) = n :=
  Nat.ofDigitChars_ten_toDigits

theorem digitChar_ne_zero {n : Nat} (h : 0 < n) (hn : n < 10) : n.digitChar ≠ '0' := by
  interval_cases n <;> decide

/-- A positive number has a first digit, which is not zero. -/
theorem exists_leading_digit {n : Nat} (h : 0 < n) :
    ∃ c rest, digitsOf n = c :: rest ∧ c ≠ '0' := by
  induction n using Nat.strong_induction_on with
  | _ n ih =>
    rw [digitsOf, Nat.toDigits_eq_if (by decide)]
    split
    · rename_i hlt
      exact ⟨_, [], rfl, digitChar_ne_zero h hlt⟩
    · obtain ⟨c, rest, hdigits, hc⟩ := ih (n / 10) (by omega) (by omega)
      rw [digitsOf] at hdigits
      exact ⟨c, rest ++ [(n % 10).digitChar], by rw [hdigits]; rfl, hc⟩

theorem wholeDigits_digitsOf (n : Nat) : WholeDigits (digitsOf n) where
  digit := isDigit_digitsOf
  leading := by
    rcases Nat.eq_zero_or_pos n with rfl | hn
    · exact .inl rfl
    · exact .inr (exists_leading_digit hn)

namespace Numeral

/-! ## Well-formed numerals -/

/-- What the reader asks of the digits of a numeral. -/
structure WellFormed (n : Numeral) : Prop where
  whole : WholeDigits n.whole
  fraction : ∀ c ∈ n.fraction, c.isDigit = true
  exponent : ∀ sign ds, n.exponent = some (sign, ds) → ds ≠ [] ∧ ∀ c ∈ ds, c.isDigit = true

theorem wellFormed_ofNat (n : Nat) : (ofNat n).WellFormed where
  whole := wholeDigits_digitsOf n
  fraction := by simp [ofNat]
  exponent := by simp [ofNat]

/-- A text in which no numeral goes on. -/
def Ends (rest : List Char) : Prop :=
  ∀ c ∈ rest.head?, c.isDigit = false ∧ c ≠ '.' ∧ c ≠ 'e' ∧ c ≠ 'E'

/-! ## Reading -/

/-- Digits are read up to the first character that is none. -/
theorem readDigits?_append {ds rest : List Char} (hne : ds ≠ []) (hds : ∀ c ∈ ds, c.isDigit = true)
    (hrest : ∀ c ∈ rest.head?, c.isDigit = false) : readDigits? (ds ++ rest) = some (ds, rest) := by
  have htake : rest.takeWhile Char.isDigit = [] := by
    cases rest with
    | nil => rfl
    | cons c rest => simp [hrest c (by simp)]
  have hdrop : rest.dropWhile Char.isDigit = rest := by
    cases rest with
    | nil => rfl
    | cons c rest => simp [hrest c (by simp)]
  rw [readDigits?, List.takeWhile_append_of_pos hds, List.dropWhile_append_of_pos hds, htake, hdrop]
  simp [hne]

theorem readWhole?_append {ds rest : List Char} (hds : WholeDigits ds)
    (hrest : ∀ c ∈ rest.head?, c.isDigit = false) : readWhole? (ds ++ rest) = some (ds, rest) := by
  rcases hds.leading with rfl | ⟨c, tail, rfl, hc⟩
  · rfl
  · have hread := readDigits?_append (by simp) hds.digit hrest
    rw [readWhole?]
    · exact hread
    · rintro _ heq
      exact hc (List.cons.inj heq).1

/-- The digits behind a point, if there are any. -/
theorem readFraction?_append {ds rest : List Char} (hds : ∀ c ∈ ds, c.isDigit = true)
    (hdigit : ∀ c ∈ rest.head?, c.isDigit = false) (hpoint : ∀ c ∈ rest.head?, c ≠ '.') :
    readFraction? ((if ds.isEmpty then [] else '.' :: ds) ++ rest) = some (ds, rest) := by
  cases ds with
  | nil =>
    rw [List.isEmpty_nil, if_pos rfl, List.nil_append, readFraction?]
    rintro tail rfl
    exact hpoint '.' rfl rfl
  | cons d ds => exact readDigits?_append (by simp) hds hdigit

theorem readExponent?_append {e : Option (ExponentSign × List Char)} {rest : List Char}
    (he : ∀ sign ds, e = some (sign, ds) → ds ≠ [] ∧ ∀ c ∈ ds, c.isDigit = true)
    (hrest : Ends rest) : readExponent? (exponentToList e ++ rest) = some (e, rest) := by
  have hend : ∀ c ∈ rest.head?, c.isDigit = false := fun c hc => (hrest c hc).1
  match e, he with
  | none, _ =>
    rw [exponentToList, List.nil_append, readExponent?]
    · rintro tail rfl
      exact (hrest 'e' rfl).2.2.1 rfl
    · rintro tail rfl
      exact (hrest 'E' rfl).2.2.2 rfl
  | some (.plus, ds), he =>
    obtain ⟨hne, hds⟩ := he _ _ rfl
    have hread := readDigits?_append hne hds hend
    simp [exponentToList, readExponent?, readExponentDigits?, hread]
  | some (.minus, ds), he =>
    obtain ⟨hne, hds⟩ := he _ _ rfl
    have hread := readDigits?_append hne hds hend
    simp [exponentToList, readExponent?, readExponentDigits?, hread]
  | some (.bare, ds), he =>
    obtain ⟨hne, hds⟩ := he _ _ rfl
    have hread := readDigits?_append hne hds hend
    obtain ⟨d, ds, rfl⟩ := List.exists_cons_of_ne_nil hne
    -- without a sign the first digit stands where a sign could
    have hplus : d ≠ '+' := by
      rintro rfl
      exact absurd (hds '+' (by simp)) (by decide)
    have hminus : d ≠ '-' := by
      rintro rfl
      exact absurd (hds '-' (by simp)) (by decide)
    rw [List.cons_append] at hread
    simp [exponentToList, readExponent?, readExponentDigits?, hplus, hminus, hread]

theorem readSign_append {n : Numeral} (h : WholeDigits n.whole) (rest : List Char) :
    readSign ((if n.negative then ['-'] else []) ++ (n.whole ++ rest)) =
      (n.negative, n.whole ++ rest) := by
  cases n.negative with
  | true => rfl
  | false =>
    rw [if_neg (by decide), List.nil_append, readSign]
    intro tail heq
    have hne : n.whole ≠ [] := by
      rcases h.leading with hwhole | ⟨_, _, hwhole, _⟩ <;> simp [hwhole]
    obtain ⟨d, ds, hwhole⟩ := List.exists_cons_of_ne_nil hne
    rw [hwhole] at heq
    have hminus := h.digit d (by simp [hwhole])
    rw [(List.cons.inj heq).1] at hminus
    exact absurd hminus (by decide)

/-- In an exponent, or in what follows it, no fraction goes on. -/
theorem head_exponentToList {e : Option (ExponentSign × List Char)} {rest : List Char}
    (hrest : Ends rest) :
    ∀ c ∈ (exponentToList e ++ rest).head?, c.isDigit = false ∧ c ≠ '.' := by
  intro c hc
  match e with
  | none => exact ⟨(hrest c hc).1, (hrest c hc).2.1⟩
  | some (.bare, _) | some (.plus, _) | some (.minus, _) =>
    obtain rfl : 'e' = c := by simpa [exponentToList] using hc
    exact ⟨by decide, by decide⟩

/-- Behind the whole digits no whole digit follows. -/
theorem head_fraction (ds : List Char) {tail : List Char}
    (htail : ∀ c ∈ tail.head?, c.isDigit = false) :
    ∀ c ∈ ((if ds.isEmpty then [] else '.' :: ds) ++ tail).head?, c.isDigit = false := by
  intro c hc
  cases ds with
  | nil => exact htail c hc
  | cons d ds =>
    obtain rfl : '.' = c := by simpa using hc
    decide

/-- A well-formed numeral is read back, up to its end. -/
theorem read?_toList {n : Numeral} (h : n.WellFormed) {rest : List Char} (hrest : Ends rest) :
    read? (n.toList ++ rest) = some (n, rest) := by
  have hhead := head_exponentToList (e := n.exponent) hrest
  have hexponent := readExponent?_append h.exponent hrest
  have hfraction := readFraction?_append h.fraction (fun c hc => (hhead c hc).1)
    fun c hc => (hhead c hc).2
  have hwhole := readWhole?_append h.whole
    (head_fraction n.fraction fun c hc => (hhead c hc).1)
  rw [read?, toList, List.append_assoc, List.append_assoc, List.append_assoc,
    readSign_append h.whole]
  simp only [hwhole, hfraction, hexponent, Option.bind_eq_bind, Option.bind_some, Option.pure_def]

end Numeral

/-! ## Digits that have been set out -/

/-- A list of digits is what is left without the zeros at its end, and these zeros. -/
theorem exists_eq_append_zeros (ds : List Char) :
    ∃ k, ds = (ds.reverse.dropWhile (· == '0')).reverse ++ List.replicate k '0' := by
  have hsplit : ds.reverse.takeWhile (· == '0') ++ ds.reverse.dropWhile (· == '0') = ds.reverse :=
    List.takeWhile_append_dropWhile
  have hzero : ∀ c ∈ ds.reverse.takeWhile (· == '0'), c = '0' := fun c hc => by
    simpa using List.mem_takeWhile_imp hc
  generalize ds.reverse.takeWhile (· == '0') = zeros at hsplit hzero
  generalize ds.reverse.dropWhile (· == '0') = others at hsplit ⊢
  refine ⟨zeros.length, ?_⟩
  have hreverse : zeros.reverse = List.replicate zeros.length '0' :=
    List.eq_replicate_iff.2 ⟨List.length_reverse, fun c hc => hzero c (List.mem_reverse.1 hc)⟩
  calc ds = ds.reverse.reverse := (List.reverse_reverse ds).symm
    _ = others.reverse ++ zeros.reverse := by rw [← hsplit, List.reverse_append]
    _ = others.reverse ++ List.replicate zeros.length '0' := by rw [hreverse]

/-- Digits that can be set out as a numeral. -/
structure Digits.Proper (d : Digits) : Prop where
  whole : WholeDigits d.digits
  zero : d.digits = ['0'] → d.exponent = 0

theorem proper_zero : Digits.Proper ⟨['0'], 0⟩ :=
  ⟨wholeDigits_digitsOf 0, fun _ => rfl⟩

theorem proper_ofScaled (c : Nat) (e : Int) : (Digits.ofScaled c e).Proper := by
  rcases Nat.eq_zero_or_pos c with rfl | hc
  · exact proper_zero
  · unfold Digits.ofScaled
    dsimp only
    obtain ⟨k, hk⟩ := exists_eq_append_zeros (digitsOf c)
    obtain ⟨d, rest, hdigits, hd⟩ := exists_leading_digit hc
    generalize ((digitsOf c).reverse.dropWhile (· == '0')).reverse = kept at hk ⊢
    cases kept with
    | nil => exact proper_zero
    | cons d' kept =>
      have hlead : d' ≠ '0' := by
        rw [hdigits] at hk
        exact (List.cons.inj hk).1 ▸ hd
      refine ⟨⟨fun x hx => ?_, .inr ⟨d', kept, rfl, hlead⟩⟩, fun hzero => ?_⟩
      · exact isDigit_digitsOf (n := c) x (hk ▸ List.mem_append_left _ hx)
      · exact absurd (List.cons.inj hzero).1 hlead

theorem proper_shortest (tie : Tie) (m : Nat) (q : Int) : (shortest tie m q).Proper := by
  unfold shortest
  split
  · exact proper_zero
  · exact proper_ofScaled _ _

namespace Digits

variable {d : Digits}

theorem positional_eq (negative keepsPoint : Bool) (d : Digits) :
    d.positional negative keepsPoint =
      if d.exponent < 0 then
        ⟨negative, ['0'], List.replicate ((-d.exponent).toNat - 1) '0' ++ d.digits, none⟩
      else if d.digits.length ≤ d.exponent.toNat + 1 then
        ⟨negative, d.digits ++ List.replicate (d.exponent.toNat + 1 - d.digits.length) '0',
          if keepsPoint then ['0'] else [], none⟩
      else
        ⟨negative, d.digits.take (d.exponent.toNat + 1), d.digits.drop (d.exponent.toNat + 1),
          none⟩ :=
  rfl

theorem isDigit_replicate_zero (k : Nat) : ∀ c ∈ List.replicate k '0', c.isDigit = true := by
  intro c hc
  rw [List.eq_of_mem_replicate hc]
  rfl

theorem Proper.wellFormed_positional (h : d.Proper) (negative keepsPoint : Bool) :
    (d.positional negative keepsPoint).WellFormed := by
  rw [positional_eq]
  split
  · refine ⟨wholeDigits_digitsOf 0, fun c hc => ?_, by simp⟩
    rcases List.mem_append.1 hc with hc | hc
    · exact isDigit_replicate_zero _ c hc
    · exact h.whole.digit c hc
  · split
    · refine ⟨⟨fun c hc => ?_, ?_⟩, fun c hc => ?_, by simp⟩
      · rcases List.mem_append.1 hc with hc | hc
        · exact h.whole.digit c hc
        · exact isDigit_replicate_zero _ c hc
      · rcases h.whole.leading with hzero | ⟨c, rest, hdigits, hc⟩
        · left
          simp [hzero, h.zero hzero]
        · exact .inr ⟨c, _, by rw [hdigits, List.cons_append], hc⟩
      · cases keepsPoint with
        | true => exact isDigit_digitsOf (n := 0) c hc
        | false => cases hc
    · rename_i hlong
      refine ⟨⟨fun c hc => h.whole.digit c (List.mem_of_mem_take hc), ?_⟩,
        fun c hc => h.whole.digit c (List.mem_of_mem_drop hc), by simp⟩
      rcases h.whole.leading with hzero | ⟨c, rest, hdigits, hc⟩
      · simp [hzero] at hlong
      · exact .inr ⟨c, _, by rw [hdigits, List.take_succ_cons], hc⟩

theorem Proper.wellFormed_withExponent (h : d.Proper) (negative marks : Bool) :
    (d.withExponent negative marks).WellFormed where
  whole := by
    refine ⟨fun c hc => h.whole.digit c (List.mem_of_mem_take hc), ?_⟩
    rcases h.whole.leading with hzero | ⟨c, rest, hdigits, hc⟩
    · exact .inl (by simp [withExponent, hzero])
    · exact .inr ⟨c, [], by simp [withExponent, hdigits], hc⟩
  fraction c hc := h.whole.digit c (List.mem_of_mem_drop hc)
  exponent sign ds hds := by
    obtain ⟨_, rfl⟩ := Prod.mk.inj (Option.some.inj hds)
    exact ⟨digitsOf_ne_nil _, isDigit_digitsOf⟩

/-- Proper digits are set out as a well-formed numeral, whatever the layout. -/
theorem Proper.wellFormed_arrange (h : d.Proper) (l : Layout) (negative : Bool) :
    (d.arrange l negative).WellFormed := by
  unfold arrange
  split
  · exact h.wellFormed_positional negative l.keepsPoint
  · exact h.wellFormed_withExponent negative l.marksExponent

end Digits

theorem wellFormed_numeral? {l : Layout} {x : Exact} {n : Numeral} (h : x.numeral? l = some n) :
    n.WellFormed := by
  cases x with
  | finite negative m q =>
    rw [← Option.some.inj h]
    exact (proper_shortest l.tie m q).wellFormed_arrange l negative
  | _ => cases h

end FeatureGraph.Decimal
