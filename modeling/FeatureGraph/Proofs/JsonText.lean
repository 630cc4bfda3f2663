import FeatureGraph.Proofs.Numeral
import FeatureGraph.Json.Reader
import FeatureGraph.Json.Writer

/-!
# Documents read back

The text of a JSON value is read as that value, if its numerals are well formed and its strings
stand for texts.

* `readStr?_write` is the round trip of a string: escapes are read as what they stand for.
* `Plain` are the values that documents of the library are made of.
* `Plain.readValue?` is the induction over a value: its text is read back, whatever stands
  behind it.  The number of steps that the reader is allowed is the length of the text.
* `read?_text` is the statement about whole documents.
-/

namespace FeatureGraph.Json

/-! ## Strings -/

theorem hexValue?_hexDigit {d : Nat} (hd : d < 16) : hexValue? (hexDigit d) = some d := by
  interval_cases d <;> decide

theorem readUnit?_unitEscape {n : Nat} (hn : n < 65536) :
    readUnit? (hexDigit (n / 4096 % 16)) (hexDigit (n / 256 % 16)) (hexDigit (n / 16 % 16))
      (hexDigit (n % 16)) = some n := by
  have hdigit : ∀ k, hexValue? (hexDigit (k % 16)) = some (k % 16) := fun k =>
    hexValue?_hexDigit (Nat.mod_lt k (by decide))
  simp only [readUnit?, hdigit, Option.bind_eq_bind, Option.bind_some, Option.pure_def,
    Option.some.injEq]
  omega

/-- The characters that have an escape of two characters. -/
def shortEscaped : List Char := ['"', '\\', '\x08', '\x0c', '\n', '\r', '\t']

/-- How a character is read again once it has been written. -/
def written (c : Char) : Written :=
  if c ∈ shortEscaped then .char c else if c.toNat < 32 then .unit c.toNat else .char c

/-- What is written of a character is read as that character, or as its code. -/
theorem readWritten?_write (c : Char) (tail : List Char) :
    readWritten? ((Piece.char c).write ++ tail) =
      (readWritten? tail).map fun r => (written c :: r.1, r.2) := by
  by_cases hshort : c ∈ shortEscaped
  · have hwritten : written c = .char c := if_pos hshort
    rw [hwritten]
    simp only [shortEscaped, List.mem_cons, List.not_mem_nil, or_false] at hshort
    rcases hshort with rfl | rfl | rfl | rfl | rfl | rfl | rfl <;>
    · cases h : readWritten? tail <;> simp [Piece.write, readWritten?, shortEscape?, h]
  · have hne : c ≠ '"' ∧ c ≠ '\\' ∧ c ≠ '\x08' ∧ c ≠ '\x0c' ∧ c ≠ '\n' ∧ c ≠ '\r' ∧ c ≠ '\t' := by
      simpa [shortEscaped] using hshort
    obtain ⟨hquote, hslash, hb, hf, hn, hr, ht⟩ := hne
    rw [written, if_neg hshort]
    by_cases hcontrol : c.toNat < 32
    · have hwrite : (Piece.char c).write = unitEscape c.toNat := by
        simp [Piece.write, hquote, hslash, hb, hf, hn, hr, ht, hcontrol]
      rw [hwrite, if_pos hcontrol]
      change readWritten? ('\\' :: 'u' :: _ :: _ :: _ :: _ :: tail) = _
      rw [readWritten?, readUnit?_unitEscape (by omega)]
      cases readWritten? tail <;> rfl
    · have hwrite : (Piece.char c).write = [c] := by
        simp [Piece.write, hquote, hslash, hb, hf, hn, hr, ht, hcontrol]
      rw [hwrite, if_neg hcontrol, List.singleton_append, readWritten?]
      · rw [if_neg (by simp [hcontrol, hslash])]
        cases readWritten? tail <;> rfl
      · exact hquote
      · exact fun _ _ _ _ _ hc => absurd hc hslash
      · exact fun _ _ hc => absurd hc hslash

/-- A code that is no first half of a pair stands for itself. -/
theorem joinSurrogates_unit {n : Nat} (hn : isHighSurrogate n = false) (ws : List Written) :
    joinSurrogates (.unit n :: ws) = .ofUnit n :: joinSurrogates ws := by
  match ws with
  | [] => rfl
  | .char c :: ws => rfl
  | .unit l :: ws =>
    rw [joinSurrogates, hn]
    rfl

/-- The codes that stand for control characters are halves of no pair. -/
theorem joinSurrogates_map_written (cs : List Char) :
    joinSurrogates (cs.map written) = cs.map .char := by
  induction cs with
  | nil => rfl
  | cons c cs ih =>
    rw [List.map_cons, List.map_cons, ← ih]
    by_cases hunit : c ∉ shortEscaped ∧ c.toNat < 32
    · have hwritten : written c = .unit c.toNat := by
        rw [written, if_neg hunit.1, if_pos hunit.2]
      have hlt := hunit.2
      have hhigh : isHighSurrogate c.toNat = false := by
        simp only [isHighSurrogate, Bool.and_eq_false_iff, decide_eq_false_iff_not]
        omega
      have hlow : isLowSurrogate c.toNat = false := by
        simp only [isLowSurrogate, Bool.and_eq_false_iff, decide_eq_false_iff_not]
        omega
      have hpiece : Piece.ofUnit c.toNat = .char c := by
        simp [Piece.ofUnit, hhigh, hlow]
      rw [hwritten, joinSurrogates_unit hhigh, hpiece]
    · have hwritten : written c = .char c := by
        rw [written]
        split
        · rfl
        · rename_i hshort
          exact if_neg fun hcontrol => hunit ⟨hshort, hcontrol⟩
      rw [hwritten, joinSurrogates]

/-- A string is read back up to its closing quote. -/
theorem readStr?_write (s : String) (rest : List Char) :
    readStr? ((Str.ofString s).flatMap Piece.write ++ '"' :: rest) =
      some (Str.ofString s, rest) := by
  have hread : ∀ cs : List Char,
      readWritten? ((cs.map Piece.char).flatMap Piece.write ++ '"' :: rest) =
        some (cs.map written, rest) := by
    intro cs
    induction cs with
    | nil => rfl
    | cons c cs ih =>
      rw [List.map_cons, List.flatMap_cons, List.append_assoc, readWritten?_write, ih]
      rfl
  rw [readStr?, Str.ofString, hread, Option.map_some]
  exact congrArg some (Prod.ext (joinSurrogates_map_written s.toList) rfl)

/-! ## Values -/

/-- The values that documents of the library are made of. -/
inductive Value.Plain : Value → Prop where
  | null : Plain .null
  | bool (b : Bool) : Plain (.bool b)
  | number {n : Decimal.Numeral} (h : n.WellFormed) : Plain (.number n)
  | string (s : String) : Plain (.ofString s)
  | array {vs : List Value} (h : ∀ v ∈ vs, Plain v) : Plain (.array vs)
  | members {ms : List (String × Value)} (h : ∀ m ∈ ms, Plain m.2) : Plain (.ofMembers ms)

/-- What may stand behind a value: the end, a comma or a closing bracket. -/
def Follows (rest : List Char) : Prop := ∀ c ∈ rest.head?, c = ',' ∨ c = ']' ∨ c = '\x7d'

theorem follows_nil : Follows [] := by simp [Follows]

theorem follows_cons {c : Char} (hc : c = ',' ∨ c = ']' ∨ c = '\x7d') (rest : List Char) :
    Follows (c :: rest) := by
  intro c' hc'
  rwa [Option.mem_some.1 hc'] at hc

theorem Follows.ends {rest : List Char} (h : Follows rest) : Decimal.Numeral.Ends rest := by
  intro c hc
  rcases h c hc with rfl | rfl | rfl <;> decide

theorem skipBlanks_cons {c : Char} (hc : isBlank c = false) (cs : List Char) :
    skipBlanks (c :: cs) = c :: cs := by
  simp [skipBlanks, hc]

/-- A character with which a value can start. -/
structure Starts (c : Char) : Prop where
  blank : isBlank c = false
  bracket : c ≠ ']'

/-- A numeral starts with a sign or a digit. -/
theorem exists_head_numeral {n : Decimal.Numeral} (h : n.WellFormed) :
    ∃ c cs, n.toList = c :: cs ∧ (c = '-' ∨ c.isDigit = true) := by
  have hne : n.whole ≠ [] := by
    rcases h.whole.leading with hwhole | ⟨_, _, hwhole, _⟩ <;> simp [hwhole]
  obtain ⟨d, ds, hwhole⟩ := List.exists_cons_of_ne_nil hne
  unfold Decimal.Numeral.toList
  cases n.negative with
  | true => exact ⟨'-', _, rfl, .inl rfl⟩
  | false => exact ⟨d, _, by rw [hwhole]; rfl, .inr (h.whole.digit d (by simp [hwhole]))⟩

theorem starts_of_numeral {c : Char} (h : c = '-' ∨ c.isDigit = true) : Starts c := by
  rcases h with rfl | h
  · exact ⟨by decide, by decide⟩
  · refine ⟨?_, ?_⟩
    · rw [Bool.eq_false_iff]
      intro hblank
      simp only [isBlank, Bool.or_eq_true, beq_iff_eq] at hblank
      rcases hblank with ((rfl | rfl) | rfl) | rfl <;> exact absurd h (by decide)
    · rintro rfl
      exact absurd h (by decide)

/-- The text of a value starts with a character that is no blank and closes no array. -/
theorem Value.Plain.exists_head {v : Value} (h : v.Plain) :
    ∃ c cs, v.toList = c :: cs ∧ Starts c := by
  cases h with
  | null => exact ⟨_, _, rfl, by decide, by decide⟩
  | bool b => cases b <;> exact ⟨_, _, rfl, by decide, by decide⟩
  | number h =>
    obtain ⟨c, cs, hn, hc⟩ := exists_head_numeral h
    exact ⟨c, cs, hn, starts_of_numeral hc⟩
  | string s => exact ⟨_, _, rfl, by decide, by decide⟩
  | array h => exact ⟨_, _, rfl, by decide, by decide⟩
  | members h => exact ⟨_, _, rfl, by decide, by decide⟩

/-- The text of a value is read back, whatever follows it, in as many steps as it has
characters. -/
def Value.ReadsBack (v : Value) : Prop :=
  ∀ rest fuel, Follows rest → v.toList.length < fuel →
    readValue? fuel (v.toList ++ rest) = some (v, rest)

theorem readsBack_null : Value.ReadsBack .null := by
  intro rest fuel _ hfuel
  cases fuel with
  | zero => cases hfuel
  | succ fuel => rfl

theorem readsBack_bool (b : Bool) : Value.ReadsBack (.bool b) := by
  intro rest fuel _ hfuel
  cases fuel with
  | zero => cases hfuel
  | succ fuel => cases b <;> rfl

/-- A string behind its opening quote, as the reader meets it. -/
theorem write_append (s : String) (rest : List Char) :
    (Str.ofString s).write ++ rest =
      '"' :: ((Str.ofString s).flatMap Piece.write ++ '"' :: rest) := by
  simp [Str.write]

theorem readsBack_string (s : String) : Value.ReadsBack (.ofString s) := by
  intro rest fuel _ hfuel
  cases fuel with
  | zero => cases hfuel
  | succ fuel =>
    rw [Value.ofString, Value.toList, write_append, readValue?, skipBlanks_cons (by decide)]
    simp only [readStr?_write, Option.map_some]

theorem readsBack_number {n : Decimal.Numeral} (h : n.WellFormed) :
    Value.ReadsBack (.number n) := by
  intro rest fuel hrest hfuel
  cases fuel with
  | zero => cases hfuel
  | succ fuel =>
    obtain ⟨c, cs, hn, hc⟩ := exists_head_numeral h
    have hread := Decimal.Numeral.read?_toList h hrest.ends
    rw [Value.toList]
    rw [hn, List.cons_append] at hread ⊢
    rw [readValue?, skipBlanks_cons (starts_of_numeral hc).blank]
    split
    case h_7 => rw [hread]; rfl
    all_goals
      rename_i heq
      rw [(List.cons.inj heq).1] at hc
      exact absurd hc (by decide)

/-- The elements of an array are read back one after the other. -/
theorem readElements?_toList {vs : List Value} (hne : vs ≠ []) (hback : ∀ v ∈ vs, v.ReadsBack)
    (rest : List Char) {fuel : Nat} (hfuel : (Value.elementsToList vs).length + 1 < fuel) :
    readElements? fuel (Value.elementsToList vs ++ ']' :: rest) = some (vs, rest) := by
  induction vs generalizing fuel with
  | nil => exact absurd rfl hne
  | cons v vs ih =>
    cases fuel with
    | zero => cases hfuel
    | succ fuel =>
      cases vs with
      | nil =>
        rw [Value.elementsToList] at hfuel ⊢
        have hfirst := hback v (by simp) (']' :: rest) fuel (follows_cons (by simp) rest) (by omega)
        rw [readElements?, hfirst]
        simp only [Option.bind_eq_bind, Option.bind_some,
          skipBlanks_cons (by decide : isBlank ']' = false)]
        rfl
      | cons w vs =>
        have htext : Value.elementsToList (v :: w :: vs) =
            v.toList ++ ',' :: Value.elementsToList (w :: vs) := rfl
        rw [htext] at hfuel ⊢
        rw [List.length_append, List.length_cons] at hfuel
        have hfirst := hback v (by simp)
          (',' :: (Value.elementsToList (w :: vs) ++ ']' :: rest)) fuel
          (follows_cons (by simp) _) (by omega)
        have hothers : readElements? fuel (Value.elementsToList (w :: vs) ++ ']' :: rest) =
            some (w :: vs, rest) :=
          ih (by simp) (fun u hu => hback u (by simp [hu])) (by omega)
        rw [readElements?, List.append_assoc, List.cons_append, hfirst]
        simp only [Option.bind_eq_bind, Option.bind_some,
          skipBlanks_cons (by decide : isBlank ',' = false), hothers]
        rfl

/-- The text of a list of values starts like its first value. -/
theorem exists_head_elements {vs : List Value} (hne : vs ≠ []) (hplain : ∀ v ∈ vs, v.Plain) :
    ∃ c cs, Value.elementsToList vs = c :: cs ∧ Starts c := by
  obtain ⟨v, vs, rfl⟩ := List.exists_cons_of_ne_nil hne
  obtain ⟨c, cs, hv, hc⟩ := (hplain v (by simp)).exists_head
  cases vs with
  | nil => exact ⟨c, cs, hv, hc⟩
  | cons w vs => exact ⟨c, cs ++ ',' :: Value.elementsToList (w :: vs), by
      rw [Value.elementsToList, hv, List.cons_append]; simp, hc⟩

/-- Behind an opening bracket stand the elements of an array, if there are any. -/
theorem readValue?_bracket (fuel : Nat) (cs : List Char) :
    readValue? (fuel + 1) ('[' :: cs) =
      match skipBlanks cs with
      | ']' :: rest => some (.array [], rest)
      | rest => (readElements? fuel rest).map fun (vs, rest) => (.array vs, rest) := by
  rw [readValue?, skipBlanks_cons (by decide)]
  rfl

/-- Behind an opening brace stand the members of an object, if there are any. -/
theorem readValue?_brace (fuel : Nat) (cs : List Char) :
    readValue? (fuel + 1) ('\x7b' :: cs) =
      match skipBlanks cs with
      | '\x7d' :: rest => some (.object [], rest)
      | rest => (readMembers? fuel rest).map fun (ms, rest) => (.object ms, rest) := by
  rw [readValue?, skipBlanks_cons (by decide)]
  rfl

theorem readsBack_array {vs : List Value} (hplain : ∀ v ∈ vs, v.Plain)
    (hback : ∀ v ∈ vs, v.ReadsBack) : Value.ReadsBack (.array vs) := by
  intro rest fuel _ hfuel
  cases fuel with
  | zero => cases hfuel
  | succ fuel =>
    have htext : (Value.array vs).toList ++ rest =
        '[' :: (Value.elementsToList vs ++ ']' :: rest) := by simp [Value.toList]
    rw [Value.toList, List.length_cons, List.length_append, List.length_singleton] at hfuel
    rw [htext, readValue?_bracket]
    by_cases hne : vs = []
    · subst hne
      rfl
    · have hread := readElements?_toList hne hback rest (show _ < fuel by omega)
      obtain ⟨c, cs, hhead, hc⟩ := exists_head_elements hne hplain
      rw [hhead, List.cons_append] at hread ⊢
      rw [skipBlanks_cons hc.blank]
      split
      · rename_i heq
        exact absurd (List.cons.inj heq).1 hc.bracket
      · rw [hread]
        rfl

/-- The members of an object as the reader meets them. -/
def writtenMembers (ms : List (String × Value)) : List (Str × Value) :=
  ms.map fun m => (.ofString m.1, m.2)

/-- The members of an object are read back one after the other. -/
theorem readMembers?_toList {ms : List (String × Value)} (hne : ms ≠ [])
    (hback : ∀ m ∈ ms, m.2.ReadsBack) (rest : List Char) {fuel : Nat}
    (hfuel : (Value.membersToList (writtenMembers ms)).length + 1 < fuel) :
    readMembers? fuel (Value.membersToList (writtenMembers ms) ++ '\x7d' :: rest) =
      some (writtenMembers ms, rest) := by
  induction ms generalizing fuel with
  | nil => exact absurd rfl hne
  | cons m ms ih =>
    obtain ⟨k, v⟩ := m
    have hv : v.ReadsBack := hback (k, v) (by simp)
    cases fuel with
    | zero => cases hfuel
    | succ fuel =>
      cases ms with
      | nil =>
        have htext : Value.membersToList (writtenMembers [(k, v)]) =
            (Str.ofString k).write ++ ':' :: v.toList := rfl
        rw [htext] at hfuel ⊢
        rw [List.length_append, List.length_cons] at hfuel
        have hfirst := hv ('\x7d' :: rest) fuel (follows_cons (by simp) rest) (by omega)
        rw [List.append_assoc, List.cons_append, write_append, readMembers?,
          skipBlanks_cons (by decide)]
        simp only [readStr?_write, Option.bind_eq_bind, Option.bind_some,
          skipBlanks_cons (by decide : isBlank ':' = false), hfirst,
          skipBlanks_cons (by decide : isBlank '\x7d' = false)]
        rfl
      | cons m' ms =>
        have htext : Value.membersToList (writtenMembers ((k, v) :: m' :: ms)) =
            (Str.ofString k).write ++ ':' ::
              (v.toList ++ ',' :: Value.membersToList (writtenMembers (m' :: ms))) := rfl
        rw [htext] at hfuel ⊢
        rw [List.length_append, List.length_cons, List.length_append, List.length_cons] at hfuel
        have hfirst := hv
          (',' :: (Value.membersToList (writtenMembers (m' :: ms)) ++ '\x7d' :: rest)) fuel
          (follows_cons (by simp) _) (by omega)
        have hothers : readMembers? fuel
            (Value.membersToList (writtenMembers (m' :: ms)) ++ '\x7d' :: rest) =
              some (writtenMembers (m' :: ms), rest) :=
          ih (by simp) (fun m hm => hback m (by simp [hm])) (by omega)
        rw [List.append_assoc, List.cons_append, List.append_assoc, List.cons_append, write_append,
          readMembers?, skipBlanks_cons (by decide)]
        simp only [readStr?_write, Option.bind_eq_bind, Option.bind_some,
          skipBlanks_cons (by decide : isBlank ':' = false), hfirst,
          skipBlanks_cons (by decide : isBlank ',' = false), hothers]
        rfl

/-- The text of a list of members starts with the quote of its first name. -/
theorem exists_head_members {ms : List (String × Value)} (hne : ms ≠ []) :
    ∃ cs, Value.membersToList (writtenMembers ms) = '"' :: cs := by
  match ms, hne with
  | [(k, v)], _ => exact ⟨_, rfl⟩
  | (k, v) :: m :: ms, _ => exact ⟨_, rfl⟩

theorem readsBack_members {ms : List (String × Value)} (hback : ∀ m ∈ ms, m.2.ReadsBack) :
    (Value.ofMembers ms).ReadsBack := by
  intro rest fuel _ hfuel
  cases fuel with
  | zero => cases hfuel
  | succ fuel =>
    have htext : (Value.ofMembers ms).toList ++ rest =
        '\x7b' :: (Value.membersToList (writtenMembers ms) ++ '\x7d' :: rest) := by
      simp [Value.ofMembers, Value.toList, writtenMembers]
    have hlength : (Value.ofMembers ms).toList.length =
        (Value.membersToList (writtenMembers ms)).length + 1 + 1 := by
      simp [Value.ofMembers, Value.toList, writtenMembers]
    rw [htext, readValue?_brace]
    by_cases hne : ms = []
    · subst hne
      rfl
    · have hread := readMembers?_toList hne hback rest (show _ < fuel by omega)
      obtain ⟨cs, hhead⟩ := exists_head_members hne
      rw [hhead, List.cons_append] at hread ⊢
      rw [skipBlanks_cons (by decide)]
      change (readMembers? fuel ('"' :: (cs ++ '\x7d' :: rest))).map
        (fun r => (Value.object r.1, r.2)) = _
      rw [hread]
      rfl

/-- The text of a value that documents are made of is read back. -/
theorem Value.Plain.readsBack {v : Value} (h : v.Plain) : v.ReadsBack := by
  induction h with
  | null => exact readsBack_null
  | bool b => exact readsBack_bool b
  | number h => exact readsBack_number h
  | string s => exact readsBack_string s
  | array h ih => exact readsBack_array h ih
  | members _ ih => exact readsBack_members ih

/-- A document is read back. -/
theorem Value.Plain.read?_text {v : Value} (h : v.Plain) : Value.read? v.text = some v := by
  have hread := h.readsBack [] (2 * v.toList.length + 2) follows_nil (by omega)
  rw [List.append_nil] at hread
  rw [Value.read?, Value.text, String.toList_ofList, hread]
  rfl

end FeatureGraph.Json
