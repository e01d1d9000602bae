/-
# CloveDb.Fields.Numeral — the texts of numbers

The grammar of a JSON number, the text the library writes for one (`digits e power`), and what reading such a text back
gives. Without zeros at either end of the digits a text of this form is the only one of its value: it is the canonical
spelling of `codec::canonical_number`. `codec::integer` reads a number that has to fit an `i128`.
-/
import CloveDb.Fields.Order

namespace CloveDb.Fields

open CloveDb.Lib

/-! ## The grammar -/

/-- The exponent of a JSON number, or nothing. -/
def jsonExponent : List Char → Bool
  | [] => true
  | c :: rest =>
      let digits := if rest.head? = some '+' ∨ rest.head? = some '-' then rest.tail else rest
      isExponentMark c && !digits.isEmpty && digits.all Char.isDigit

/-- What may follow the integer part of a JSON number. -/
def jsonFraction : List Char → Bool
  | '.' :: rest => !(rest.takeWhile Char.isDigit).isEmpty && jsonExponent (rest.dropWhile Char.isDigit)
  | rest => jsonExponent rest

/-- A JSON number: the grammar `serde_json` reads. -/
def jsonNumber (text : List Char) : Bool :=
  let integer := (unsignedPart text).takeWhile Char.isDigit
  !integer.isEmpty && (integer.head? != some '0' || integer.length == 1)
    && jsonFraction ((unsignedPart text).dropWhile Char.isDigit)

/-- A JSON number is read as it stands (`RawValue::from_string`). -/
structure ReadsNumbers (out : Outside) : Prop where
  reads : ∀ token : String, jsonNumber token.toList = true → out.rawValue token = some token

theorem jsonExponent_parts {rest : List Char} (h : jsonExponent rest = true) :
    rest = [] ∨ ∃ e ds, rest = e :: ds ∧ (e = 'e' ∨ e = 'E') := by
  cases rest with
  | nil => exact .inl rfl
  | cons c cs =>
      simp only [jsonExponent, Bool.and_eq_true] at h
      have hmark : isExponentMark c = true := h.1.1
      rw [isExponentMark, Bool.or_eq_true, beq_iff_eq, beq_iff_eq] at hmark
      exact .inr ⟨c, cs, rfl, hmark⟩

theorem all_takeWhile_isDigit (text : List Char) : IsDigits (text.takeWhile Char.isDigit) :=
  fun _ hc => List.mem_takeWhile_imp hc

theorem isNumber_of_jsonNumber {text : List Char} (h : jsonNumber text = true) : IsNumber text := by
  simp only [jsonNumber, Bool.and_eq_true, Bool.not_eq_true', List.isEmpty_eq_false_iff] at h
  obtain ⟨⟨hne, _⟩, hrest⟩ := h
  have hsplit := List.takeWhile_append_dropWhile (p := Char.isDigit) (l := unsignedPart text)
  obtain ⟨sign, hsign, htext⟩ : ∃ sign, (sign = [] ∨ sign = ['-']) ∧ text = sign ++ unsignedPart text := by
    unfold unsignedPart
    split
    · rename_i hminus
      exact ⟨['-'], .inr rfl, (List.cons_head?_tail hminus).symm⟩
    · exact ⟨[], .inl rfl, rfl⟩
  generalize (unsignedPart text).dropWhile Char.isDigit = rest at hrest hsplit
  have hdigits := all_takeWhile_isDigit (unsignedPart text)
  generalize (unsignedPart text).takeWhile Char.isDigit = integer at hne hdigits hsplit
  unfold jsonFraction at hrest
  split at hrest
  · rename_i tail
    simp only [Bool.and_eq_true] at hrest
    refine ⟨sign, integer, '.' :: tail.takeWhile Char.isDigit, tail.dropWhile Char.isDigit, ?_, hsign, hne, hdigits,
      .inr ⟨_, rfl, all_takeWhile_isDigit tail⟩, jsonExponent_parts hrest.2⟩
    rw [htext, ← hsplit, List.append_assoc, List.append_assoc, List.cons_append, List.takeWhile_append_dropWhile]
  · refine ⟨sign, integer, [], rest, ?_, hsign, hne, hdigits, .inl rfl, jsonExponent_parts hrest⟩
    rw [htext, ← hsplit, List.append_nil, List.append_assoc]

/-- A JSON number starts like one. -/
theorem IsNumber.first {text : List Char} (h : IsNumber text) :
    ∃ c rest, text = c :: rest ∧ (c = '-' ∨ c.isDigit = true) := by
  obtain ⟨⟨sign, integer, fraction, exponent, rfl, hsign, hne, hint, _⟩⟩ := h
  obtain ⟨c, cs, rfl⟩ := List.exists_cons_of_ne_nil hne
  rcases hsign with rfl | rfl
  · exact ⟨c, cs ++ fraction ++ exponent, rfl, .inr (hint c List.mem_cons_self)⟩
  · exact ⟨'-', c :: cs ++ fraction ++ exponent, rfl, .inl rfl⟩

namespace Codec

variable {out : Outside}

theorem parse_jsonNumber (hreads : ReadsNumbers out) {token : String} (h : jsonNumber token.toList = true) :
    Decimal.parse out token = Decimal.ofText token.toList := by
  obtain ⟨c, rest, htext, hc⟩ := (isNumber_of_jsonNumber h).first
  simp only [Decimal.parse, hreads.reads token h, htext]
  rw [if_pos hc]

/-- A JSON number that is read is the number it spells. -/
theorem parse_value (hreads : ReadsNumbers out) {token : String} (h : jsonNumber token.toList = true) {d : Decimal}
    (hparse : Decimal.parse out token = .ok d) : d.Normal ∧ d.value = numeralValue token.toList := by
  rw [parse_jsonNumber hreads h] at hparse
  exact Decimal.ofText_value (isNumber_of_jsonNumber h) hparse

/-- Reading a JSON number fails only for an exponent out of range. -/
theorem parse_error (hreads : ReadsNumbers out) {token : String} (h : jsonNumber token.toList = true) {e : ClError}
    (hparse : Decimal.parse out token = .error e) : e = .validation "numeric exponent exceeds i128" := by
  rw [parse_jsonNumber hreads h] at hparse
  unfold Decimal.ofText at hparse
  dsimp only at hparse
  split at hparse
  · exact (Except.error.inj hparse).symm
  · split at hparse
    · exact (Except.error.inj hparse).symm
    · have hok : ∀ (empty : Bool) (d d' : Decimal),
          (if empty = true then (.ok d : Result Decimal) else .ok d') ≠ .error e := by
        intro empty d d'
        cases empty <;> exact nofun
      exact absurd hparse (hok _ _ _)

end Codec

/-! ## Spelling -/

/-- The factor of a sign. -/
def signOf (negative : Bool) : ℚ := if negative then -1 else 1

/-- A sign, digits, and a power of ten. -/
def spelled (negative : Bool) (digits : List Char) (power : Int) : List Char :=
  (if negative then ['-'] else []) ++ digits ++ 'e' :: (toString power).toList

/-- Digits that are not a spelling of zero and have no zeros at either end. -/
structure Significant (ds : List Char) : Prop where
  digits : IsDigits ds
  nonempty : ds ≠ []
  first : ds.head? ≠ some '0'
  last : NoZeroEnd ds

/-- **The canonical spelling of a number**: `0`, or digits without zeros at either end and the power of their last. -/
def CanonicalSpelling (text : String) (q : ℚ) : Prop :=
  (q = 0 ∧ text = "0") ∨
    ∃ negative digits power, Significant digits ∧ text.toList = spelled negative digits power ∧
      q = signOf negative * natOf digits * 10 ^ power

theorem natOf_toDigits (n : Nat) : natOf (Nat.toDigits 10 n) = n := by
  have h := @Nat.ofDigitChars_ten_toDigits n
  rw [Nat.ofDigitChars] at h
  unfold natOf digitValue
  simpa [Nat.mul_comm] using h

theorem isDigits_toDigits (n : Nat) : IsDigits (Nat.toDigits 10 n) :=
  fun _ hc => Nat.isDigit_of_mem_toDigits (by decide) (by decide) hc

theorem toList_toString_int (n : Int) :
    (toString n).toList = (if n < 0 then ['-'] else []) ++ Nat.toDigits 10 n.natAbs := by
  cases n with
  | ofNat m =>
      have hprint : toString (Int.ofNat m) = toString m := rfl
      have hsign : ¬Int.ofNat m < 0 := Int.not_lt.mpr (Int.natCast_nonneg m)
      rw [hprint, Nat.toString_eq_ofList_toDigits, String.toList_ofList, if_neg hsign]
      rfl
  | negSucc m =>
      have hprint : toString (Int.negSucc m) = "-" ++ toString (m + 1) := rfl
      rw [hprint, String.toList_append, Nat.toString_eq_ofList_toDigits, String.toList_ofList, String.toList_ofList,
        if_pos (Int.negSucc_lt_zero m)]
      rfl

theorem intOf_digits {ds : List Char} (h : IsDigits ds) : intOf ds = natOf ds := by
  unfold intOf
  split
  · exact absurd (h '-' List.mem_cons_self) (by decide)
  · exact absurd (h '+' List.mem_cons_self) (by decide)
  · rfl

/-- An exponent is read back as it was written. -/
theorem intOf_toString (n : Int) : intOf (toString n).toList = n := by
  rw [toList_toString_int]
  split
  · rename_i hneg
    show -(natOf (Nat.toDigits 10 n.natAbs) : ℤ) = n
    rw [natOf_toDigits]
    omega
  · rename_i hpos
    rw [List.nil_append, intOf_digits (isDigits_toDigits _), natOf_toDigits]
    omega

theorem isDigit_not_mark {c : Char} (h : c.isDigit = true) :
    (!isExponentMark c) = true ∧ (!(c == '.')) = true ∧ c ≠ '-' ∧ c ≠ '+' := by
  have hrange := digit_bounds h
  refine ⟨?_, ?_, ?_, ?_⟩
  · rw [Bool.not_eq_true', isExponentMark, Bool.or_eq_false_iff, beq_eq_false_iff_ne, beq_eq_false_iff_ne]
    constructor <;>
    · rintro rfl
      exact absurd hrange (by decide)
  · rw [Bool.not_eq_true', beq_eq_false_iff_ne]
    rintro rfl
    exact absurd hrange (by decide)
  · rintro rfl
    exact absurd hrange (by decide)
  · rintro rfl
    exact absurd hrange (by decide)

section

variable {digits : List Char}

theorem unsignedPart_spelled (hdigits : IsDigits digits) (hne : digits ≠ []) (negative : Bool) (power : Int) :
    unsignedPart (spelled negative digits power) = digits ++ 'e' :: (toString power).toList ∧
      ((spelled negative digits power).head? = some '-' ↔ negative = true) := by
  obtain ⟨c, cs, rfl⟩ := List.exists_cons_of_ne_nil hne
  have hc : c ≠ '-' := (isDigit_not_mark (hdigits c List.mem_cons_self)).2.2.1
  cases negative with
  | true => exact ⟨rfl, iff_of_true rfl rfl⟩
  | false =>
      have hhead : (spelled false (c :: cs) power).head? ≠ some '-' := fun h => hc (Option.some.inj h)
      exact ⟨if_neg hhead, iff_of_false hhead Bool.false_ne_true⟩

/-- Digits end at the exponent mark, and have no point. -/
theorem marks_spelled (hdigits : IsDigits digits) (rest : List Char) :
    (digits ++ 'e' :: rest).takeWhile (fun c => !isExponentMark c) = digits ∧
      (digits ++ 'e' :: rest).dropWhile (fun c => !isExponentMark c) = 'e' :: rest ∧
      digits.takeWhile (fun c => !(c == '.')) = digits ∧ digits.dropWhile (fun c => !(c == '.')) = [] := by
  refine ⟨?_, ?_, ?_, ?_⟩
  · rw [List.takeWhile_append_of_pos fun c hc => (isDigit_not_mark (hdigits c hc)).1,
      List.takeWhile_cons_of_neg (by decide), List.append_nil]
  · rw [List.dropWhile_append_of_pos fun c hc => (isDigit_not_mark (hdigits c hc)).1,
      List.dropWhile_cons_of_neg (by decide)]
  · exact List.takeWhile_eq_self_iff.mpr fun c hc => (isDigit_not_mark (hdigits c hc)).2.1
  · exact List.dropWhile_eq_nil_iff.mpr fun c hc => (isDigit_not_mark (hdigits c hc)).2.1

theorem numeralValue_spelled (hdigits : IsDigits digits) (hne : digits ≠ []) (negative : Bool) (power : Int) :
    numeralValue (spelled negative digits power) = signOf negative * natOf digits * 10 ^ power := by
  obtain ⟨hunsigned, hsign⟩ := unsignedPart_spelled hdigits hne negative power
  obtain ⟨htake, hdrop, hpoint, hfrac⟩ := marks_spelled hdigits (toString power).toList
  unfold numeralValue
  simp only [hunsigned, htake, hdrop, hpoint, hfrac, hsign, List.tail_cons, List.tail_nil, intOf_toString, fracOf,
    add_zero, signOf]

theorem jsonNumber_spelled (h : Significant digits) (negative : Bool) (power : Int) :
    jsonNumber (spelled negative digits power) = true := by
  have hunsigned := (unsignedPart_spelled h.digits h.nonempty negative power).1
  have htake : (digits ++ 'e' :: (toString power).toList).takeWhile Char.isDigit = digits := by
    rw [List.takeWhile_append_of_pos h.digits, List.takeWhile_cons_of_neg (by decide), List.append_nil]
  have hdrop : (digits ++ 'e' :: (toString power).toList).dropWhile Char.isDigit = 'e' :: (toString power).toList := by
    rw [List.dropWhile_append_of_pos h.digits, List.dropWhile_cons_of_neg (by decide)]
  have hexponent : jsonExponent ('e' :: (toString power).toList) = true := by
    obtain ⟨c, cs, hcs⟩ := List.exists_cons_of_ne_nil (Nat.toDigits_ne_nil (n := power.natAbs) (b := 10))
    have hall := isDigits_toDigits power.natAbs
    have hc := isDigit_not_mark (hall c (hcs ▸ List.mem_cons_self))
    rw [hcs] at hall
    have hall : (c :: cs).all Char.isDigit = true := List.all_eq_true.mpr hall
    rw [toList_toString_int, hcs]
    split
    · simp only [jsonExponent, isExponentMark, List.cons_append, List.nil_append, List.head?_cons, or_true, if_true,
        List.tail_cons, hall]
      rfl
    · have hunsigned : ¬((c :: cs).head? = some '+' ∨ (c :: cs).head? = some '-') := by
        rintro (hplus | hminus)
        · exact hc.2.2.2 (Option.some.inj hplus)
        · exact hc.2.2.1 (Option.some.inj hminus)
      simp only [jsonExponent, isExponentMark, List.nil_append, if_neg hunsigned, hall]
      rfl
  unfold jsonNumber
  simp only [hunsigned, htake, hdrop]
  generalize (toString power).toList = tail at hexponent
  simp [h.nonempty, h.first, jsonFraction, hexponent]

/-- Significant digits are a number in `[1/10, 1)` behind the point. -/
theorem Significant.fracOf_bounds (h : Significant digits) : 1 / 10 ≤ fracOf digits ∧ fracOf digits < 1 := by
  obtain ⟨c, cs, rfl⟩ := List.exists_cons_of_ne_nil h.nonempty
  exact ⟨fracOf_ge (h.digits c List.mem_cons_self) fun heq => h.first (congrArg some heq), fracOf_lt_one h.digits⟩

theorem natOf_mul_pow (digits : List Char) (power : Int) :
    (natOf digits : ℚ) * 10 ^ power = fracOf digits * 10 ^ (power + digits.length) := by
  rw [← fracOf_natOf, zpow_add₀ (by norm_num), zpow_natCast]
  ring

theorem Significant.pos (h : Significant digits) (power : Int) : (0 : ℚ) < natOf digits * 10 ^ power := by
  have := h.fracOf_bounds.1
  rw [natOf_mul_pow]
  positivity

theorem Significant.natOf_pos (h : Significant digits) : 0 < natOf digits := by
  have hpos := h.pos 0
  rw [zpow_zero, mul_one] at hpos
  exact_mod_cast hpos

/-- **A number other than zero has one sign, one row of significant digits and one power.** -/
theorem Significant.unique {digits' : List Char} {negative negative' : Bool} {power power' : Int}
    (h : Significant digits) (h' : Significant digits')
    (heq : signOf negative * natOf digits * 10 ^ power = signOf negative' * natOf digits' * 10 ^ power') :
    negative = negative' ∧ digits = digits' ∧ power = power' := by
  have hpos := h.pos power
  have hpos' := h'.pos power'
  rw [mul_assoc, mul_assoc] at heq
  have hsign : negative = negative' := by
    cases negative <;> cases negative'
    · rfl
    · simp only [signOf, Bool.false_eq_true, if_false, if_true] at heq
      linarith
    · simp only [signOf, Bool.false_eq_true, if_false, if_true] at heq
      linarith
    · rfl
  subst hsign
  have hsign0 : signOf negative ≠ 0 := by
    cases negative <;> simp [signOf]
  have habs := mul_left_cancel₀ hsign0 heq
  rw [natOf_mul_pow, natOf_mul_pow] at habs
  have hscaled := ordering_scaled (e := power + digits.length) (f := power' + digits'.length) h.fracOf_bounds.1
    h.fracOf_bounds.2 h'.fracOf_bounds.1 h'.fracOf_bounds.2
  rw [ordering_eq.mpr habs, eq_comm, Ordering.then_eq_eq, ordering_eq, ordering_eq] at hscaled
  have hdigits := fracOf_inj h.digits h'.digits h.last h'.last hscaled.2
  subst hdigits
  exact ⟨rfl, rfl, add_right_cancel hscaled.1⟩

end

/-- A number has one canonical spelling. -/
theorem CanonicalSpelling.unique {text text' : String} {q : ℚ} (h : CanonicalSpelling text q)
    (h' : CanonicalSpelling text' q) : text = text' := by
  have hzero : ∀ {negative digits} {power : Int}, Significant digits → q = signOf negative * natOf digits * 10 ^ power →
      q ≠ 0 := by
    intro negative digits power hs hq
    have hpos := (hs.pos power).ne'
    rw [hq, mul_assoc]
    refine mul_ne_zero ?_ hpos
    cases negative <;> simp [signOf]
  rcases h with ⟨hq, rfl⟩ | ⟨negative, digits, power, hs, htext, hq⟩ <;>
    rcases h' with ⟨hq', rfl⟩ | ⟨negative', digits', power', hs', htext', hq'⟩
  · rfl
  · exact absurd hq (hzero hs' hq')
  · exact absurd hq' (hzero hs hq)
  · obtain ⟨rfl, rfl, rfl⟩ := hs.unique hs' (hq.symm.trans hq')
    exact String.toList_inj.mp (htext.trans htext'.symm)

/-! ## Reading a canonical spelling -/

section

variable {digits : List Char}

theorem CanonicalSpelling.numeralValue_eq {text : String} {q : ℚ} (h : CanonicalSpelling text q) :
    numeralValue text.toList = q := by
  rcases h with ⟨rfl, rfl⟩ | ⟨negative, digits, power, hs, htext, rfl⟩
  · decide +kernel
  · rw [htext, numeralValue_spelled hs.digits hs.nonempty]

theorem CanonicalSpelling.jsonNumber_eq {text : String} {q : ℚ} (h : CanonicalSpelling text q) :
    jsonNumber text.toList = true := by
  rcases h with ⟨-, rfl⟩ | ⟨negative, digits, power, hs, htext, -⟩
  · decide
  · rw [htext]
    exact jsonNumber_spelled hs negative power

theorem Significant.trimZeros_eq (h : Significant digits) :
    digits.takeWhile Codec.isZero = [] ∧ Codec.trimZeros digits = digits := by
  have hleading : digits.takeWhile Codec.isZero = [] := by
    obtain ⟨c, cs, rfl⟩ := List.exists_cons_of_ne_nil h.nonempty
    refine List.takeWhile_cons_of_neg fun hc => h.first ?_
    rw [eq_of_beq hc]
    rfl
  refine ⟨hleading, ?_⟩
  obtain ⟨n, hsplit⟩ := Codec.trimZeros_spec digits
  rw [hleading, List.length_nil, List.replicate_zero, List.nil_append] at hsplit
  -- the digits do not end with a zero, so none was cut off there
  cases n with
  | zero => rw [List.replicate_zero, List.append_nil] at hsplit; exact hsplit.symm
  | succ n =>
      refine absurd ?_ h.last
      rw [hsplit, List.replicate_succ', ← List.append_assoc, List.getLast?_append]
      rfl

/-- Digits without a zero at their end and a negative power are not an integer. -/
theorem Significant.not_whole (h : Significant digits) (negative : Bool) {power : Int} (hpower : power < 0) (m : Int) :
    signOf negative * natOf digits * 10 ^ power ≠ m := by
  intro heq
  obtain ⟨k, hk⟩ := Int.eq_ofNat_of_zero_le (show 0 ≤ -power - 1 by omega)
  have hpow : (10 : ℚ) ^ power * 10 ^ (k + 1) = 1 := by
    rw [← zpow_natCast, ← zpow_add₀ (by norm_num), show power + ((k + 1 : Nat) : Int) = 0 by push_cast; omega, zpow_zero]
  have hint : (if negative then -1 else 1 : Int) * natOf digits = m * 10 ^ (k + 1) := by
    have hscaled : signOf negative * natOf digits = (m : ℚ) * 10 ^ (k + 1) := by
      rw [← heq, mul_assoc, mul_assoc, hpow, mul_one]
    unfold signOf at hscaled
    exact_mod_cast hscaled
  -- so ten divides the digits, and the last of them is zero
  have hdvd : (10 : Int) ∣ natOf digits := by
    have hten : (10 : Int) ∣ (if negative then -1 else 1 : Int) * natOf digits := by
      rw [hint, pow_succ]
      exact Dvd.intro_left _ (mul_assoc _ _ _)
    cases negative with
    | true => simpa using hten
    | false => simpa using hten
  obtain ⟨front, c, rfl⟩ : ∃ front c, digits = front ++ [c] :=
    ⟨_, _, (List.dropLast_concat_getLast h.nonempty).symm⟩
  have hc : c.isDigit = true := h.digits c (List.mem_append_right _ List.mem_cons_self)
  have hne : c ≠ '0' := by
    rintro rfl
    exact h.last (by rw [List.getLast?_append]; rfl)
  have hlow := digitValue_pos hc hne
  have hhigh := digitValue_le hc
  have hlast : natOf (front ++ [c]) = natOf front * 10 + digitValue c := by
    rw [natOf_append]
    simp [natOf]
  rw [hlast] at hdvd
  omega

end

/-! ## Numbers that fit an `i128` -/

namespace Codec

section

variable (out : Outside)

/-- `codec::integer` -/
def integer (token : String) : Result I128 := do
  let d ← Decimal.parse out token
  if d.digits.isEmpty then .ok zeroI128
  else
    match I128.ofInt? (d.exponent.val - d.digits.length) with
    | none => .error .sumOverflow
    | some power =>
        if power.val < 0 then .error .unsupportedSum
        else if 38 < power.val then .error .sumOverflow
        else
          match parseI128 ((if d.negative then ['-'] else []) ++ d.digits
              ++ List.replicate power.val.toNat '0') with
          | none => .error .sumOverflow
          | some n => .ok n

end

/-- Digits with an optional sign are the integer they spell. -/
theorem parseI128_signed {ds : List Char} (hds : IsDigits ds) (hne : ds ≠ []) (negative : Bool) :
    parseI128 ((if negative then ['-'] else []) ++ ds)
      = I128.ofInt? (if negative then -(natOf ds : Int) else natOf ds) := by
  have hall : (ds.isEmpty || !ds.all Char.isDigit) = false := by
    rw [List.all_eq_true.mpr hds, List.isEmpty_eq_false_iff.mpr hne]
    rfl
  cases negative with
  | true =>
      show (if (ds.isEmpty || !ds.all Char.isDigit) = true then none else I128.ofInt? (-_)) = _
      rw [hall, foldl_natOf]
      rfl
  | false =>
      obtain ⟨c, cs, rfl⟩ := List.exists_cons_of_ne_nil hne
      have hc := isDigit_not_mark (hds c List.mem_cons_self)
      unfold parseI128
      split
      rename_i sign digits heq
      split at heq
      · rename_i hcons
        exact absurd (List.cons.inj hcons).1 hc.2.2.1
      · rename_i hcons
        exact absurd (List.cons.inj hcons).1 hc.2.2.2
      · cases heq
        show (if ((c :: cs).isEmpty || !(c :: cs).all Char.isDigit) = true then none else I128.ofInt? _) = _
        rw [hall]
        exact congrArg I128.ofInt? (foldl_natOf (c :: cs))

theorem ofInt?_none {n : Int} (h : I128.ofInt? n = none) : ¬(-2 ^ 127 ≤ n ∧ n < 2 ^ 127) := by
  unfold I128.ofInt? at h
  split at h
  · cases h
  · assumption

/-- A decimal as an integer of its digits. -/
theorem Decimal.value_eq (d : Decimal) :
    d.value = signOf d.negative * natOf d.digits * 10 ^ (d.exponent.val - d.digits.length) := by
  rw [mul_assoc, natOf_mul_pow, Int.sub_add_cancel, ← mul_assoc]
  rfl

/-- A decimal without digits behind the point, as an integer. -/
theorem Decimal.value_whole (d : Decimal) {k : Nat} (h : d.exponent.val - d.digits.length = k) :
    d.value = ((if d.negative then -((natOf d.digits * 10 ^ k : Nat) : Int) else (natOf d.digits * 10 ^ k : Nat) : Int)
      : ℚ) := by
  rw [Decimal.value_eq, h, zpow_natCast, signOf]
  split
  · push_cast
    ring
  · push_cast
    ring

/-- **A whole number is read exactly, or it does not fit.** -/
theorem integer_spec {out : Outside} {token : String} {d : Decimal} (hparse : Decimal.parse out token = .ok d)
    (hd : Significant d.digits) {power : I128} (hpower : I128.ofInt? (d.exponent.val - d.digits.length) = some power)
    (hwhole : 0 ≤ power.val) :
    (∃ n, integer out token = .ok n ∧ (n.val : ℚ) = d.value) ∨
      integer out token = .error .sumOverflow ∧ ¬(-2 ^ 127 ≤ d.value ∧ d.value < 2 ^ 127) := by
  obtain ⟨k, hk⟩ := Int.eq_ofNat_of_zero_le hwhole
  have hvalue := d.value_whole ((ofInt?_val hpower).symm.trans hk)
  unfold integer
  rw [hparse, ok_bind, if_neg (by simp [hd.nonempty]), hpower]
  dsimp only
  rw [if_neg (Int.not_lt.mpr hwhole)]
  split
  · rename_i hlarge
    refine .inr ⟨rfl, ?_⟩
    -- one significant digit and 39 zeros are more than an `i128` holds
    have hpow : 10 ^ 39 ≤ 10 ^ k := Nat.pow_le_pow_right (by decide) (by omega)
    have hmul : 10 ^ 39 ≤ natOf d.digits * 10 ^ k := hpow.trans (Nat.le_mul_of_pos_left _ hd.natOf_pos)
    rw [hvalue]
    norm_cast
    split <;> omega
  · have hzeros : IsDigits (d.digits ++ List.replicate power.val.toNat '0') := by
      intro c hc
      rcases List.mem_append.mp hc with hc | hc
      · exact hd.digits c hc
      · rw [List.eq_of_mem_replicate hc]
        rfl
    have hnat : natOf (d.digits ++ List.replicate power.val.toNat '0') = natOf d.digits * 10 ^ k := by
      rw [natOf_append, natOf_zeros, List.length_replicate, hk]
      rfl
    rw [List.append_assoc, parseI128_signed hzeros (by simp [hd.nonempty]), hnat]
    split
    · rename_i hnone
      refine .inr ⟨rfl, ?_⟩
      rw [hvalue]
      exact_mod_cast ofInt?_none hnone
    · rename_i n hsome
      refine .inl ⟨n, rfl, ?_⟩
      rw [hvalue, ofInt?_val hsome]

theorem ofInt?_of_val (n : I128) : I128.ofInt? n.val = some n := dif_pos n.property

/-- `to_string` of an `i128` is read back. -/
theorem parseI128_toString (n : I128) : parseI128 (toString n.val).toList = some n := by
  have hsign : (toString n.val).toList = (if decide (n.val < 0) then ['-'] else []) ++ Nat.toDigits 10 n.val.natAbs := by
    rw [toList_toString_int]
    simp only [decide_eq_true_eq]
  rw [hsign, parseI128_signed (isDigits_toDigits _) Nat.toDigits_ne_nil, natOf_toDigits, ← ofInt?_of_val n]
  congr 1
  split
  · rename_i hneg
    have hneg := of_decide_eq_true hneg
    omega
  · rename_i hpos
    have hpos := of_decide_eq_false (Bool.not_eq_true _ ▸ hpos)
    omega

/-- The parser reads a spelling of significant digits as it was written, if its exponent is in range. -/
theorem Decimal.ofText_spelled {digits : List Char} (h : Significant digits) (negative : Bool) (power exponent : I128)
    (hexponent : exponent.val = power.val + digits.length) :
    Decimal.ofText (spelled negative digits power.val) = .ok ⟨negative, digits, exponent⟩ := by
  obtain ⟨hunsigned, hsign⟩ := unsignedPart_spelled h.digits h.nonempty negative power.val
  obtain ⟨hleading, htrim⟩ := h.trimZeros_eq
  have hnegative : ((spelled negative digits power.val).head? == some '-') = negative := by
    rw [Bool.eq_iff_iff, beq_iff_eq, hsign]
  have hbody : (if negative = true then (spelled negative digits power.val).tail else spelled negative digits power.val)
      = digits ++ 'e' :: (toString power.val).toList := by
    rw [← hunsigned, unsignedPart]
    simp only [hsign]
  obtain ⟨htake, hdrop, hpoint, hfraction⟩ := marks_spelled h.digits (toString power.val).toList
  unfold isExponentMark at htake hdrop
  have hpower : parseI128 (toString power.val).toList = some power := parseI128_toString power
  have hadd : (I128.ofInt? (power.val + digits.length)).bind (fun v => I128.ofInt? (v.val - (([] : List Char).length : Nat)))
      = some exponent := by
    rw [← hexponent, ofInt?_of_val, Option.bind_some, List.length_nil, Nat.cast_zero, Int.sub_zero, ofInt?_of_val]
  have hempty : digits.isEmpty = false := List.isEmpty_eq_false_iff.mpr h.nonempty
  simp only [Decimal.ofText, hbody, splitOnce_getD, htake, hdrop, hpoint, hfraction, hnegative, List.tail_cons,
    reduceCtorEq, if_false, if_true, hpower, List.append_nil, hleading, hadd, htrim, hempty, Bool.false_eq_true]

/-- **A token is read as an integer exactly when it denotes one that fits**, whatever exponent the parser accepts. -/
theorem integer_iff {out : Outside} {token : String} {d : Decimal} (hparse : Decimal.parse out token = .ok d)
    (hd : d.Normal) (n : I128) : integer out token = .ok n ↔ d.value = n.val := by
  by_cases hempty : d.digits = []
  · have hread : integer out token = .ok zeroI128 := by
      unfold integer
      rw [hparse, ok_bind, if_pos (by rw [hempty]; rfl)]
    have hvalue : d.value = 0 := by
      rw [Decimal.value, hempty, fracOf, mul_zero, zero_mul]
    rw [hread, hvalue, Except.ok.injEq]
    constructor
    · rintro rfl
      rfl
    · intro hzero
      exact Subtype.ext (by exact_mod_cast hzero)
  have hs : Significant d.digits := ⟨hd.digits, hempty, hd.first, hd.last⟩
  have hlength : 0 < d.digits.length := List.length_pos_iff.mpr hempty
  -- a negative power is an error, and then the number is not whole
  have hfraction : d.exponent.val - d.digits.length < 0 → d.value ≠ n.val := by
    intro hneg
    rw [Decimal.value_eq]
    exact hs.not_whole d.negative hneg n.val
  cases hpower : I128.ofInt? (d.exponent.val - d.digits.length) with
  | none =>
      have hneg : d.exponent.val - d.digits.length < 0 := by
        have hrange := ofInt?_none hpower
        have hupper := d.exponent.property.2
        omega
      have hread : integer out token = .error .sumOverflow := by
        unfold integer
        rw [hparse, ok_bind, if_neg (by simp [hempty]), hpower]
      rw [hread]
      exact iff_of_false (by simp) (hfraction hneg)
  | some power =>
      by_cases hneg : power.val < 0
      · have hread : integer out token = .error .unsupportedSum := by
          unfold integer
          rw [hparse, ok_bind, if_neg (by simp [hempty]), hpower]
          exact if_pos hneg
        rw [hread]
        exact iff_of_false (by simp) (hfraction (by rw [← ofInt?_val hpower]; exact hneg))
      · rcases integer_spec hparse hs hpower (Int.not_lt.mp hneg) with ⟨m, hread, hvalue⟩ | ⟨hread, hrange⟩
        · rw [hread, Except.ok.injEq, ← hvalue]
          constructor
          · rintro rfl
            rfl
          · intro heq
            exact Subtype.ext (by exact_mod_cast heq)
        · rw [hread]
          refine iff_of_false (by simp) fun heq => hrange ?_
          rw [heq]
          exact_mod_cast n.property

end Codec

end CloveDb.Fields
