/-
# CloveDb.Fields.Order — the order of keys is the order of values

What a value stands for is a `Key`: numbers are rationals, so that spellings do not count, moments are
integers, strings their bytes. Keys are ordered by kind first, then within the kind, arrays
lexicographically. The bytes of `codec::encode` compare as the keys do, and no key's bytes are a proper
start of another's, so complementing every byte turns the order around.
-/
import CloveDb.Fields.Codec
import CloveDb.Lib.Decimal
import Mathlib.Data.List.TakeWhile
import Mathlib.Tactic.FieldSimp

namespace CloveDb.Fields

open CloveDb.Lib

/-! ## The number a token denotes -/

namespace Codec

/-- The rational a decimal is. -/
def Decimal.value (d : Decimal) : ℚ :=
  (if d.negative then -1 else 1) * fracOf d.digits * 10 ^ d.exponent.val

/-- No zeros at either end of the digits. -/
structure Decimal.Normal (d : Decimal) : Prop where
  digits : IsDigits d.digits
  first : d.digits.head? ≠ some '0'
  last : NoZeroEnd d.digits

theorem takeWhile_isZero (ds : List Char) :
    ds.takeWhile isZero = List.replicate (ds.takeWhile isZero).length '0' := by
  refine List.eq_replicate_iff.mpr ⟨rfl, fun c hc => ?_⟩
  have hzero : isZero c = true := List.mem_takeWhile_imp hc
  exact eq_of_beq hzero

theorem head_dropWhile_isZero (ds : List Char) : (ds.dropWhile isZero).head? ≠ some '0' := by
  intro h
  have hnot := List.head?_dropWhile_not isZero ds
  rw [h] at hnot
  cases hnot

/-- The digits between the zeros. -/
theorem trimZeros_spec (ds : List Char) :
    ∃ n, ds = List.replicate (ds.takeWhile isZero).length '0' ++ (trimZeros ds ++ List.replicate n '0') := by
  refine ⟨((ds.dropWhile isZero).reverse.takeWhile isZero).length, ?_⟩
  have hback : ds.dropWhile isZero
      = trimZeros ds ++ List.replicate ((ds.dropWhile isZero).reverse.takeWhile isZero).length '0' := by
    have h := congrArg List.reverse
      (List.takeWhile_append_dropWhile (p := isZero) (l := (ds.dropWhile isZero).reverse))
    rw [List.reverse_append, List.reverse_reverse, takeWhile_isZero, List.reverse_replicate] at h
    simpa [trimZeros] using h.symm
  rw [← hback, ← takeWhile_isZero, List.takeWhile_append_dropWhile]

theorem trimZeros_last (ds : List Char) : NoZeroEnd (trimZeros ds) := by
  unfold NoZeroEnd trimZeros
  rw [List.getLast?_reverse]
  exact head_dropWhile_isZero _

theorem trimZeros_first (ds : List Char) : (trimZeros ds).head? ≠ some '0' := by
  intro h
  refine head_dropWhile_isZero ds ?_
  have hsuffix := (List.dropWhile_suffix isZero (l := (ds.dropWhile isZero).reverse))
  obtain ⟨t, ht⟩ := List.reverse_prefix.mpr hsuffix
  rw [List.reverse_reverse] at ht
  rw [← ht, List.head?_append]
  unfold trimZeros at h
  rw [h]
  rfl

/-- The digits of a numeral without those zeros, with its point put in front of them. -/
theorem fracOf_trimZeros (ds : List Char) :
    fracOf (trimZeros ds) = fracOf ds * 10 ^ (ds.takeWhile isZero).length := by
  obtain ⟨n, hds⟩ := trimZeros_spec ds
  conv_rhs => rw [hds]
  rw [← fracOf_append_zeros (trimZeros ds) n, ← fracOf_zeros_append (trimZeros ds ++ _)]
  rw [← hds]

theorem splitOnce_getD (p : Char → Bool) (text d : List Char) :
    (splitOnce p text).getD (text, d) = (text.takeWhile fun c => !p c,
      if (text.dropWhile fun c => !p c) = [] then d else (text.dropWhile fun c => !p c).tail) := by
  unfold splitOnce
  rw [List.span_eq_takeWhile_dropWhile]
  cases h : text.dropWhile fun c => !p c with
  | nil =>
      have htake := List.takeWhile_append_dropWhile (p := fun c => !p c) (l := text)
      rw [h, List.append_nil] at htake
      simp [htake]
  | cons c cs => simp

/-- The parts of a JSON number, as its sign, point and exponent mark delimit them. -/
theorem numeral_parts {text : List Char} (h : IsNumber text) :
    ∃ integer fraction, integer ≠ [] ∧ IsDigits integer ∧ IsDigits fraction ∧
      ((unsignedPart text).takeWhile fun c => !isExponentMark c).takeWhile (fun c => !(c == '.'))
        = integer ∧
      (((unsignedPart text).takeWhile fun c => !isExponentMark c).dropWhile fun c => !(c == '.')).tail
        = fraction := by
  obtain ⟨⟨sign, integer, fraction, exponent, rfl, hsign, hne, hint, hfrac, hexp⟩⟩ := h
  obtain ⟨c, cs, rfl⟩ := List.exists_cons_of_ne_nil hne
  have hc := hint c List.mem_cons_self
  have hbody : unsignedPart (sign ++ (c :: cs) ++ fraction ++ exponent) = (c :: cs) ++ (fraction ++ exponent) := by
    unfold unsignedPart
    rcases hsign with rfl | rfl
    · rw [if_neg]
      · simp
      · intro hminus
        cases hminus
        cases hc
    · simp
  have hdigit : ∀ {ds : List Char}, IsDigits ds → ∀ d ∈ ds, (!isExponentMark d) = true ∧ (!(d == '.')) = true := by
    intro ds hds d hd
    have hrange := digit_bounds (hds d hd)
    constructor
    · rw [Bool.not_eq_true', isExponentMark, Bool.or_eq_false_iff]
      constructor <;>
      · rw [beq_eq_false_iff_ne]
        rintro rfl
        exact absurd hrange (by decide)
    · rw [Bool.not_eq_true', beq_eq_false_iff_ne]
      rintro rfl
      exact absurd hrange (by decide)
  have hmark : exponent.takeWhile (fun c => !isExponentMark c) = [] := by
    rcases hexp with rfl | ⟨e, ds, rfl, rfl | rfl⟩ <;> rfl
  rw [hbody]
  rcases hfrac with rfl | ⟨ds, rfl, hds⟩
  · refine ⟨c :: cs, [], hne, hint, fun d hd => absurd hd List.not_mem_nil, ?_, ?_⟩
    · rw [List.nil_append, List.takeWhile_append_of_pos fun d hd => (hdigit hint d hd).1, hmark,
        List.append_nil, List.takeWhile_eq_self_iff.mpr fun d hd => (hdigit hint d hd).2]
    · rw [List.nil_append, List.takeWhile_append_of_pos fun d hd => (hdigit hint d hd).1, hmark,
        List.append_nil, List.dropWhile_eq_nil_iff.mpr fun d hd => (hdigit hint d hd).2]
      rfl
  · have hmantissa : ((c :: cs) ++ ('.' :: ds ++ exponent)).takeWhile (fun c => !isExponentMark c)
        = (c :: cs) ++ '.' :: ds := by
      have hpoint : ('.' :: ds ++ exponent).takeWhile (fun c => !isExponentMark c) = '.' :: ds := by
        rw [List.cons_append, List.takeWhile_cons_of_pos (by decide),
          List.takeWhile_append_of_pos fun d hd => (hdigit hds d hd).1, hmark, List.append_nil]
      rw [List.takeWhile_append_of_pos fun d hd => (hdigit hint d hd).1, hpoint]
    rw [hmantissa]
    refine ⟨c :: cs, ds, hne, hint, hds, ?_, ?_⟩
    · rw [List.takeWhile_append_of_pos fun d hd => (hdigit hint d hd).2, List.takeWhile_cons_of_neg
        (by decide), List.append_nil]
    · rw [List.dropWhile_append_of_pos fun d hd => (hdigit hint d hd).2, List.dropWhile_cons_of_neg
        (by decide)]
      rfl

theorem ofInt?_val {m : Int} {n : I128} (h : I128.ofInt? m = some n) : n.val = m := by
  unfold I128.ofInt? at h
  split at h
  · cases h
    rfl
  · cases h

/-- The loop of `str::parse` over digits. -/
theorem foldl_natOf (ds : List Char) :
    ds.foldl (fun (acc : Int) c => acc * 10 + (c.toNat - '0'.toNat : Nat)) 0 = natOf ds := by
  have hloop : ∀ k : Nat, ds.foldl (fun (acc : Int) c => acc * 10 + (c.toNat - '0'.toNat : Nat)) k
      = ((ds.foldl (fun acc c => acc * 10 + digitValue c) k : Nat) : Int) := by
    induction ds with
    | nil => exact fun _ => rfl
    | cons c cs ih =>
        intro k
        rw [List.foldl_cons, List.foldl_cons, ← ih]
        push_cast
        rfl
  exact hloop 0

theorem parseI128_intOf {text : List Char} {n : I128} (h : parseI128 text = some n) :
    n.val = intOf text := by
  have hdigits : ∀ (negative : Bool) (ds : List Char),
      (if (ds.isEmpty || !ds.all Char.isDigit) = true then none
        else I128.ofInt? (if negative then
          -ds.foldl (fun (acc : Int) c => acc * 10 + (c.toNat - '0'.toNat : Nat)) 0
          else ds.foldl (fun (acc : Int) c => acc * 10 + (c.toNat - '0'.toNat : Nat)) 0)) = some n →
      n.val = if negative then -(natOf ds : Int) else natOf ds := by
    intro negative ds h
    split at h
    · cases h
    · rw [ofInt?_val h, foldl_natOf]
  unfold parseI128 at h
  split at h
  rename_i negative digits heq
  rw [hdigits negative digits h]
  split at heq
  · cases heq
    rfl
  · cases heq
    rfl
  · rename_i hminus hplus
    cases heq
    have hplain : intOf text = natOf text := by
      unfold intOf
      split
      · rename_i ds
        exact absurd rfl (hminus ds)
      · rename_i ds
        exact absurd rfl (hplus ds)
      · rfl
    rw [hplain]
    rfl

/-- What the parser reads: the parts of the numeral, and the decimal they make. -/
theorem Decimal.ofText_ok {text : List Char} {d : Decimal} (h : Decimal.ofText text = .ok d) :
    let mantissa := (unsignedPart text).takeWhile fun c => !isExponentMark c
    let integer := mantissa.takeWhile fun c => !(c == '.')
    let fraction := (mantissa.dropWhile fun c => !(c == '.')).tail
    ∃ exponent : I128, exponent.val
        = intOf ((unsignedPart text).dropWhile fun c => !isExponentMark c).tail + integer.length
          - ((integer ++ fraction).takeWhile isZero).length ∧
      d = if (trimZeros (integer ++ fraction)).isEmpty then ⟨false, [], zeroI128⟩
        else ⟨text.head? == some '-', trimZeros (integer ++ fraction), exponent⟩ := by
  intro mantissa integer fraction
  have hbody : (if (text.head? == some '-') = true then text.tail else text) = unsignedPart text := by
    unfold unsignedPart
    simp only [beq_iff_eq]
  have hfraction : (if (mantissa.dropWhile fun c => !(c == '.')) = [] then []
      else (mantissa.dropWhile fun c => !(c == '.')).tail) = fraction := by
    split
    · rename_i hnil
      show [] = (mantissa.dropWhile fun c => !(c == '.')).tail
      rw [hnil]
      rfl
    · rfl
  simp only [Decimal.ofText, hbody, splitOnce_getD] at h
  split at h
  · cases h
  · rename_i exp hexp
    split at h
    · cases h
    · rename_i exponent hexponent
      change ((I128.ofInt? (exp.val + integer.length)).bind fun v =>
        I128.ofInt? (v.val - ((integer ++ if (mantissa.dropWhile fun c => !(c == '.')) = [] then []
          else (mantissa.dropWhile fun c => !(c == '.')).tail).takeWhile isZero).length)) = some exponent at hexponent
      rw [hfraction] at hexponent
      obtain ⟨v, hv, hexponent⟩ := Option.bind_eq_some_iff.mp hexponent
      refine ⟨exponent, ?_, ?_⟩
      · have hread : exp.val = intOf ((unsignedPart text).dropWhile fun c => !isExponentMark c).tail := by
          rw [parseI128_intOf hexp]
          split
          · rename_i hnil
            change ((unsignedPart text).dropWhile fun c => !isExponentMark c) = [] at hnil
            rw [hnil]
            rfl
          · rfl
        rw [ofInt?_val hexponent, ofInt?_val hv, hread]
      · change (if (trimZeros (integer ++ if (mantissa.dropWhile fun c => !(c == '.')) = [] then []
          else (mantissa.dropWhile fun c => !(c == '.')).tail)).isEmpty = true then _ else _) = _ at h
        rw [hfraction] at h
        split at h
        · rename_i hempty
          rw [if_pos hempty]
          exact (Except.ok.inj h).symm
        · rename_i hempty
          rw [if_neg hempty, ← hfraction]
          exact (Except.ok.inj h).symm

/-- **A parsed token is the number it spells**, in its one normal form. -/
theorem Decimal.ofText_value {text : List Char} (hnumber : IsNumber text) {d : Decimal}
    (h : Decimal.ofText text = .ok d) : d.Normal ∧ d.value = numeralValue text := by
  obtain ⟨integer, fraction, _, hint, hfrac, hinteger, hfraction⟩ := numeral_parts hnumber
  obtain ⟨exponent, hexponent, hd⟩ := Decimal.ofText_ok h
  unfold numeralValue
  dsimp only
  rw [hinteger, hfraction] at hexponent hd
  rw [hinteger, hfraction]
  have hall : IsDigits (integer ++ fraction) := by
    intro c hc
    rcases List.mem_append.mp hc with hc | hc
    · exact hint c hc
    · exact hfrac c hc
  have hmem : IsDigits (trimZeros (integer ++ fraction)) := by
    obtain ⟨n, hsplit⟩ := trimZeros_spec (integer ++ fraction)
    intro c hc
    refine hall c ?_
    rw [hsplit]
    exact List.mem_append_right _ (List.mem_append_left _ hc)
  -- the digits before the point are as many powers of ten
  have hpoint := fracOf_append integer fraction
  have htrim := fracOf_trimZeros (integer ++ fraction)
  split at hd
  · rename_i hempty
    rw [List.isEmpty_iff.mp hempty] at htrim
    have hzero : (natOf integer : ℚ) + fracOf fraction = 0 := by
      rw [← hpoint]
      have hten : (0 : ℚ) < 10 ^ ((integer ++ fraction).takeWhile isZero).length := by positivity
      have hfrac0 : fracOf (integer ++ fraction) = 0 := by
        rcases mul_eq_zero.mp htrim.symm with h0 | h0
        · exact h0
        · exact absurd h0 hten.ne'
      rw [hfrac0, zero_mul]
    subst hd
    refine ⟨⟨fun c hc => absurd hc List.not_mem_nil, by simp, by simp [NoZeroEnd]⟩, ?_⟩
    rw [hzero]
    simp [Decimal.value, fracOf]
  · subst hd
    refine ⟨⟨hmem, trimZeros_first _, trimZeros_last _⟩, ?_⟩
    unfold Decimal.value
    simp only [beq_iff_eq]
    rw [hexponent, htrim, ← hpoint]
    have hten : (10 : ℚ) ≠ 0 := by norm_num
    rw [zpow_sub₀ hten, zpow_add₀ hten, zpow_natCast, zpow_natCast]
    field_simp

/-! ## Keys of numbers, moments and texts -/

theorem agrees_signed (n m : I128) : Agrees (ordering n.val m.val) (signed n) (signed m) := by
  have hlow : ∀ k : I128, 0 ≤ k.val + 2 ^ 127 := fun k => by
    have := k.property.1
    omega
  have hrange : ∀ k : I128, (k.val + 2 ^ 127).toNat < 256 ^ 16 := fun k => by
    have := k.property.2
    have := hlow k
    omega
  have hshift : ordering n.val m.val = ordering (n.val + 2 ^ 127).toNat (m.val + 2 ^ 127).toNat := by
    have := hlow n
    have := hlow m
    rcases lt_trichotomy n.val m.val with hlt | heq | hgt
    · rw [ordering_lt.mpr hlt, ordering_lt.mpr (by omega)]
    · rw [heq, ordering_self, ordering_self]
    · rw [ordering_gt.mpr hgt, ordering_gt.mpr (by omega)]
  rw [hshift]
  exact agrees_beBytes 16 (hrange n) (hrange m)

/-- Digits behind the point, with a zero byte at the end. -/
theorem agrees_digits {ds es : List Char} (hds : IsDigits ds) (hes : IsDigits es) (hd : NoZeroEnd ds)
    (he : NoZeroEnd es) :
    Agrees (ordering (fracOf ds) (fracOf es)) (digitBytes ds ++ [0]) (digitBytes es ++ [0]) := by
  have hbyte : ∀ {c : Char}, c.isDigit = true → (UInt8.ofNat c.toNat).toNat = digitValue c + 48 := by
    intro c hc
    have hrange := digit_bounds hc
    rw [UInt8.toNat_ofNat', Nat.mod_eq_of_lt (by omega), toNat_digit hc]
  have hzero : ∀ {c : Char}, c.isDigit = true → (0 : UInt8) < UInt8.ofNat c.toNat := by
    intro c hc
    rw [UInt8.lt_iff_toNat_lt, hbyte hc]
    show 0 < _
    omega
  induction ds generalizing es with
  | nil =>
      cases es with
      | nil => rfl
      | cons e es =>
          have hpos : fracOf [] < fracOf (e :: es) := fracOf_pos hes he (List.cons_ne_nil e es)
          rw [ordering_lt.mpr hpos]
          exact Before.cons_lt (hzero (hes e List.mem_cons_self)) _ _
  | cons d ds ih =>
      cases es with
      | nil =>
          have hpos : fracOf [] < fracOf (d :: ds) := fracOf_pos hds hd (List.cons_ne_nil d ds)
          rw [ordering_gt.mpr hpos]
          exact Before.cons_lt (hzero (hds d List.mem_cons_self)) _ _
      | cons e es =>
          have hd' := hbyte (hds d List.mem_cons_self)
          have he' := hbyte (hes e List.mem_cons_self)
          have hfirst : ordering (digitValue d) (digitValue e)
              = ordering (UInt8.ofNat d.toNat) (UInt8.ofNat e.toNat) := by
            rcases lt_trichotomy (digitValue d) (digitValue e) with hlt | heq | hgt
            · rw [ordering_lt.mpr hlt, eq_comm, ordering_lt, UInt8.lt_iff_toNat_lt]
              omega
            · rw [ordering_eq.mpr heq, eq_comm, ordering_eq, ← UInt8.toNat_inj]
              omega
            · rw [ordering_gt.mpr hgt, eq_comm, ordering_gt, UInt8.lt_iff_toNat_lt]
              omega
          rw [ordering_fracOf_cons hds hes, hfirst]
          exact agrees_cons _ _ (ih hds.tail hes.tail hd.tail he.tail)

/-- The part of a key behind the sign. -/
theorem agrees_part {d e : Decimal} (hd : d.Normal) (he : e.Normal) (hd0 : d.digits ≠ [])
    (he0 : e.digits ≠ []) :
    Agrees (ordering (fracOf d.digits * 10 ^ d.exponent.val) (fracOf e.digits * 10 ^ e.exponent.val))
      (signed d.exponent ++ digitBytes d.digits ++ [0]) (signed e.exponent ++ digitBytes e.digits ++ [0]) := by
  have hge : ∀ {d : Decimal}, d.Normal → d.digits ≠ [] → 1 / 10 ≤ fracOf d.digits := by
    intro d hd hne
    obtain ⟨c, cs, hcs⟩ := List.exists_cons_of_ne_nil hne
    have hfirst := hd.first
    have hdigit := hd.digits
    rw [hcs] at hfirst hdigit ⊢
    exact fracOf_ge (hdigit c List.mem_cons_self) fun heq => hfirst (by rw [heq]; rfl)
  rw [ordering_scaled (hge hd hd0) (fracOf_lt_one hd.digits) (hge he he0) (fracOf_lt_one he.digits),
    List.append_assoc, List.append_assoc]
  exact (agrees_signed _ _).append (agrees_digits hd.digits he.digits hd.last he.last)

/-- A decimal is zero, negative or positive, and its key says so first. -/
theorem Decimal.Normal.cases {d : Decimal} (hd : d.Normal) :
    (d.digits = [] ∧ d.value = 0 ∧ numberKey d = [5, 1]) ∨
    d.digits ≠ [] ∧ 0 < fracOf d.digits * 10 ^ d.exponent.val ∧
      (d.value = -(fracOf d.digits * 10 ^ d.exponent.val) ∧
        numberKey d = [5, 0] ++ complement (signed d.exponent ++ digitBytes d.digits ++ [0]) ∨
      d.value = fracOf d.digits * 10 ^ d.exponent.val ∧
        numberKey d = [5, 2] ++ (signed d.exponent ++ digitBytes d.digits ++ [0])) := by
  by_cases hempty : d.digits = []
  · refine .inl ⟨hempty, ?_, ?_⟩
    · simp [Decimal.value, hempty, fracOf]
    · simp [numberKey, hempty]
  · refine .inr ⟨hempty, ?_, ?_⟩
    · have := fracOf_pos hd.digits hd.last hempty
      positivity
    · cases hneg : d.negative with
      | true =>
          refine .inl ⟨?_, ?_⟩
          · simp [Decimal.value, hneg]
          · simp [numberKey, hneg, hempty, complement]
      | false =>
          refine .inr ⟨?_, ?_⟩
          · simp [Decimal.value, hneg]
          · simp [numberKey, hneg, hempty]

/-- **Numbers order by their value.** -/
theorem agrees_numberKey {d e : Decimal} (hd : d.Normal) (he : e.Normal) :
    Agrees (ordering d.value e.value) (numberKey d) (numberKey e) := by
  rcases hd.cases with ⟨_, hdv, hdk⟩ | ⟨hd0, hdpos, ⟨hdv, hdk⟩ | ⟨hdv, hdk⟩⟩ <;>
    rcases he.cases with ⟨_, hev, hek⟩ | ⟨he0, hepos, ⟨hev, hek⟩ | ⟨hev, hek⟩⟩ <;>
    rw [hdv, hev, hdk, hek]
  · exact (ordering_self (0 : ℚ)).symm ▸ rfl
  · rw [ordering_gt.mpr (by linarith)]
    exact (Before.cons_lt (by decide) _ _).prepend [5]
  · rw [ordering_lt.mpr hepos]
    exact (Before.cons_lt (by decide) _ _).prepend [5]
  · rw [ordering_lt.mpr (by linarith)]
    exact (Before.cons_lt (by decide) _ _).prepend [5]
  · rw [ordering_neg]
    exact (agrees_part hd he hd0 he0).complement.prepend [5, 0]
  · rw [ordering_lt.mpr (by linarith)]
    exact (Before.cons_lt (by decide) _ _).prepend [5]
  · rw [ordering_gt.mpr hdpos]
    exact (Before.cons_lt (by decide) _ _).prepend [5]
  · rw [ordering_gt.mpr (by linarith)]
    exact (Before.cons_lt (by decide) _ _).prepend [5]
  · exact (agrees_part hd he hd0 he0).prepend [5, 2]

/-- A text compares from its first byte on, and a shorter one comes first. -/
theorem agrees_text (a b : Bytes) : Agrees (ordering a b) (text a) (text b) := by
  have htext : ∀ (x : UInt8) (xs : Bytes),
      text (x :: xs) = (if x = 0 then [0, 255] else [x]) ++ text xs := by
    intro x xs
    unfold text
    rw [List.flatMap_cons, List.append_assoc]
  -- the end is below every byte of a text, escaped or not
  have hend : ∀ (x : UInt8) (xs : Bytes), Before (text []) (text (x :: xs)) := by
    intro x xs
    rw [htext]
    split
    · exact (Before.cons_lt (by decide) _ _).prepend [0]
    · rename_i hx
      exact Before.cons_lt (UInt8.pos_iff_ne_zero.mpr hx) _ _
  have hpos : ∀ {x y : UInt8}, x < y → 0 < y := fun h => by
    rw [UInt8.lt_iff_toNat_lt] at h ⊢
    show 0 < _
    omega
  have hbyte : ∀ x y : UInt8, Agrees (ordering x y) (if x = 0 then [0, 255] else [x])
      (if y = 0 then [0, 255] else [y]) := by
    intro x y
    rcases lt_trichotomy x y with hlt | rfl | hgt
    · rw [ordering_lt.mpr hlt, if_neg (UInt8.pos_iff_ne_zero.mp (hpos hlt))]
      split
      · exact Before.cons_lt (hpos hlt) _ _
      · exact Before.cons_lt hlt _ _
    · rw [ordering_self]
      rfl
    · rw [ordering_gt.mpr hgt, if_neg (UInt8.pos_iff_ne_zero.mp (hpos hgt))]
      split
      · exact Before.cons_lt (hpos hgt) _ _
      · exact Before.cons_lt hgt _ _
  induction a generalizing b with
  | nil =>
      cases b with
      | nil => exact (ordering_self ([] : Bytes)).symm ▸ rfl
      | cons y ys =>
          rw [ordering_lt.mpr List.Lex.nil]
          exact hend y ys
  | cons x xs ih =>
      cases b with
      | nil =>
          rw [ordering_gt.mpr List.Lex.nil]
          exact hend x xs
      | cons y ys =>
          rw [ordering_cons, htext, htext]
          exact (hbyte x y).append (ih ys)

end Codec

/-! ## What a value stands for -/

/-- A value with its numbers as rationals. -/
inductive Key where
  | missing
  | null
  | bool (b : Bool)
  | number (q : ℚ)
  | time (nanos : Int)
  | string (s : String)
  | array (items : List Key)
  | object (fields : List (String × Key))

namespace Key

/-- Missing, null, false, true, numbers, moments, strings, arrays; objects come last. -/
def rank : Key → Nat
  | .missing => 1
  | .null => 2
  | .bool false => 3
  | .bool true => 4
  | .number _ => 5
  | .time _ => 6
  | .string _ => 7
  | .array _ => 8
  | .object _ => 9

mutual

/-- The order of keys: by kind, then within the kind. -/
def order : Key → Key → Ordering
  | .number p, .number q => ordering p q
  | .time n, .time m => ordering n m
  | .string s, .string t => ordering (utf8 s) (utf8 t)
  | .array xs, .array ys => orderItems xs ys
  | .object fs, .object gs => orderFields fs gs
  | a, b => ordering a.rank b.rank

/-- Lexicographically, a proper start first. -/
def orderItems : List Key → List Key → Ordering
  | [], [] => .eq
  | [], _ :: _ => .lt
  | _ :: _, [] => .gt
  | x :: xs, y :: ys => (order x y).then (orderItems xs ys)

def orderFields : List (String × Key) → List (String × Key) → Ordering
  | [], [] => .eq
  | [], _ :: _ => .lt
  | _ :: _, [] => .gt
  | (k, x) :: xs, (l, y) :: ys =>
      (ordering (utf8 k) (utf8 l)).then ((order x y).then (orderFields xs ys))

end

/-- Keys of two kinds compare by kind. -/
theorem order_of_rank_ne {a b : Key} (h : a.rank ≠ b.rank) : a.order b = ordering a.rank b.rank := by
  cases a <;> cases b <;> first | rfl | exact absurd rfl h

/-- So do the small kinds, which are one key each. -/
theorem order_of_small {a b : Key} (h : a.rank < 5) : a.order b = ordering a.rank b.rank := by
  cases a with
  | missing => cases b <;> rfl
  | null => cases b <;> rfl
  | bool x => cases b <;> rfl
  | _ => exact absurd h (by simp [rank])

mutual

/-- The order tells keys apart. -/
theorem order_eq_iff : ∀ a b : Key, a.order b = .eq ↔ a = b
  | .missing, b => by
      rw [order_of_small (by simp [rank]), ordering_eq]
      cases b with
      | bool x => cases x <;> simp [rank]
      | _ => simp [rank]
  | .null, b => by
      rw [order_of_small (by simp [rank]), ordering_eq]
      cases b with
      | bool x => cases x <;> simp [rank]
      | _ => simp [rank]
  | .bool x, b => by
      rw [order_of_small (by cases x <;> simp [rank]), ordering_eq]
      cases b with
      | bool y => cases x <;> cases y <;> simp [rank]
      | _ => cases x <;> simp [rank]
  | .number p, b => by
      cases b with
      | number q => rw [order, ordering_eq, number.injEq]
      | bool y => cases y <;> simp [order, rank, ordering]
      | _ => simp [order, rank, ordering]
  | .time n, b => by
      cases b with
      | time m => rw [order, ordering_eq, time.injEq]
      | bool y => cases y <;> simp [order, rank, ordering]
      | _ => simp [order, rank, ordering]
  | .string s, b => by
      cases b with
      | string t => rw [order, ordering_eq, string.injEq, utf8_injective.eq_iff]
      | bool y => cases y <;> simp [order, rank, ordering]
      | _ => simp [order, rank, ordering]
  | .array xs, b => by
      cases b with
      | array ys => rw [order, orderItems_eq_iff, array.injEq]
      | bool y => cases y <;> simp [order, rank, ordering]
      | _ => simp [order, rank, ordering]
  | .object fs, b => by
      cases b with
      | object gs => rw [order, orderFields_eq_iff, object.injEq]
      | bool y => cases y <;> simp [order, rank, ordering]
      | _ => simp [order, rank, ordering]

theorem orderItems_eq_iff : ∀ xs ys : List Key, orderItems xs ys = .eq ↔ xs = ys
  | [], [] => by simp [orderItems]
  | [], _ :: _ => by simp [orderItems]
  | _ :: _, [] => by simp [orderItems]
  | x :: xs, y :: ys => by
      rw [orderItems, Ordering.then_eq_eq, order_eq_iff x y, orderItems_eq_iff xs ys, List.cons.injEq]

theorem orderFields_eq_iff : ∀ fs gs : List (String × Key), orderFields fs gs = .eq ↔ fs = gs
  | [], [] => by simp [orderFields]
  | [], _ :: _ => by simp [orderFields]
  | _ :: _, [] => by simp [orderFields]
  | (k, x) :: fs, (l, y) :: gs => by
      rw [orderFields, Ordering.then_eq_eq, Ordering.then_eq_eq, ordering_eq, utf8_injective.eq_iff,
        order_eq_iff x y, orderFields_eq_iff fs gs, List.cons.injEq, Prod.mk.injEq, and_assoc]

end

end Key

mutual

/-- What a value stands for. -/
def Value.key (out : Outside) : Value → Key
  | .missing => .missing
  | .null => .null
  | .bool b => .bool b
  | .number token => .number (numeralValue ((out.rawValue token).getD token).toList)
  | .time n => .time n.val
  | .string s => .string s
  | .array items => .array (Value.keyItems out items)
  | .object fields => .object (Value.keyFields out fields)

def Value.keyItems (out : Outside) : List Value → List Key
  | [] => []
  | v :: vs => v.key out :: Value.keyItems out vs

def Value.keyFields (out : Outside) : List (String × Value) → List (String × Key)
  | [] => []
  | (k, v) :: fields => (k, v.key out) :: Value.keyFields out fields

end

namespace Codec

variable {out : Outside}

theorem Decimal.parse_value {token : String} {d : Decimal} (h : Decimal.parse out token = .ok d) :
    d.Normal ∧ d.value = numeralValue ((out.rawValue token).getD token).toList := by
  unfold Decimal.parse at h
  split at h
  · cases h
  · rename_i raw hraw
    rw [hraw]
    split at h
    · cases h
    · rename_i c rest htext
      split at h
      · rename_i hfirst
        rw [← htext] at h
        exact Decimal.ofText_value (out.rawValue_number token raw c rest hraw htext hfirst) h
      · cases h

/-- A key starts with the byte of its kind. -/
theorem append_head {objects : Bool} {v : Value} {a : Bytes} (h : append out objects v = .ok a) :
    ∃ s, a = UInt8.ofNat (v.key out).rank :: s := by
  unfold append at h
  split at h
  · cases h
    exact ⟨_, rfl⟩
  · cases h
    exact ⟨_, rfl⟩
  · cases h
    exact ⟨_, rfl⟩
  · cases h
    exact ⟨_, rfl⟩
  · obtain ⟨d, _, h⟩ := bind_eq_ok.mp h
    cases h
    unfold numberKey
    dsimp only
    split
    · exact ⟨_, rfl⟩
    · split <;> exact ⟨_, rfl⟩
  · cases h
    exact ⟨_, rfl⟩
  · cases h
    exact ⟨_, rfl⟩
  · obtain ⟨keys, _, h⟩ := bind_eq_ok.mp h
    cases h
    exact ⟨_, rfl⟩
  · split at h
    · obtain ⟨keys, _, h⟩ := bind_eq_ok.mp h
      cases h
      exact ⟨_, rfl⟩
    · cases h

theorem rank_range (k : Key) : 1 ≤ k.rank ∧ k.rank ≤ 9 := by
  cases k with
  | bool b => cases b <;> decide
  | _ => exact ⟨by simp [Key.rank], by simp [Key.rank]⟩

theorem agrees_of_rank_ne {objects : Bool} {v w : Value} {a b : Bytes}
    (ha : append out objects v = .ok a) (hb : append out objects w = .ok b)
    (h : (v.key out).rank ≠ (w.key out).rank) : Agrees ((v.key out).order (w.key out)) a b := by
  obtain ⟨s, rfl⟩ := append_head ha
  obtain ⟨t, rfl⟩ := append_head hb
  have hv := rank_range (v.key out)
  have hw := rank_range (w.key out)
  have hbyte : ∀ {n : Nat}, n ≤ 9 → (UInt8.ofNat n).toNat = n := fun hn => by
    rw [UInt8.toNat_ofNat', Nat.mod_eq_of_lt (by omega)]
  have hsame : ordering (v.key out).rank (w.key out).rank
      = ordering (UInt8.ofNat (v.key out).rank) (UInt8.ofNat (w.key out).rank) := by
    rcases lt_or_gt_of_ne h with hlt | hgt
    · rw [ordering_lt.mpr hlt, eq_comm, ordering_lt, UInt8.lt_iff_toNat_lt, hbyte hv.2, hbyte hw.2]
      exact hlt
    · rw [ordering_gt.mpr hgt, eq_comm, ordering_gt, UInt8.lt_iff_toNat_lt, hbyte hv.2, hbyte hw.2]
      exact hgt
  rw [Key.order_of_rank_ne h, hsame]
  refine agrees_of_ne (fun heq => h ?_) s t
  rw [← hbyte hv.2, heq, hbyte hw.2]

/-- An element of an array does not start with the end of the array. -/
theorem end_before {objects : Bool} {v : Value} {a : Bytes} (h : append out objects v = .ok a)
    (s t : Bytes) : Before (0 :: s) (a ++ t) := by
  obtain ⟨r, rfl⟩ := append_head h
  have hrank := rank_range (v.key out)
  refine Before.cons_lt ?_ s (r ++ t)
  rw [UInt8.lt_iff_toNat_lt, UInt8.toNat_ofNat', Nat.mod_eq_of_lt (by omega)]
  show 0 < _
  omega

/-- Missing, null and the booleans are their kind. -/
theorem agrees_small {objects : Bool} {v w : Value} {a b : Bytes} (ha : append out objects v = .ok a)
    (hb : append out objects w = .ok b) (hrank : (v.key out).rank = (w.key out).rank)
    (hsmall : (v.key out).rank < 5) : Agrees ((v.key out).order (w.key out)) a b := by
  have hsingle : ∀ {v : Value} {a : Bytes}, append out objects v = .ok a → (v.key out).rank < 5 →
      a = [UInt8.ofNat (v.key out).rank] := by
    intro v a ha hv
    unfold append at ha
    cases v with
    | bool x => cases x <;> cases ha <;> rfl
    | missing =>
        cases ha
        rfl
    | null =>
        cases ha
        rfl
    | _ => exact absurd hv (by simp [Value.key, Key.rank])
  rw [hsingle ha hsmall, hsingle hb (hrank ▸ hsmall), Key.order_of_small hsmall, hrank, ordering_self]
  rfl

/-- The two booleans are of one kind, all other ranks of their own. -/
theorem discriminant_eq (v : Value) :
    v.discriminant = if (v.key out).rank ≤ 3 then (v.key out).rank - 1 else (v.key out).rank - 2 := by
  cases v with
  | bool x => cases x <;> rfl
  | _ => rfl

theorem rank_ne_of_discriminant {v w : Value} (h : v.discriminant ≠ w.discriminant) :
    (v.key out).rank ≠ (w.key out).rank := by
  rw [@discriminant_eq out v, @discriminant_eq out w] at h
  exact fun heq => h (by rw [heq])

theorem agrees_number {objects : Bool} {token token' : String} {a b : Bytes}
    (ha : append out objects (.number token) = .ok a) (hb : append out objects (.number token') = .ok b) :
    Agrees ((Value.key out (.number token)).order (Value.key out (.number token'))) a b := by
  rw [append] at ha hb
  obtain ⟨d, hd, ha⟩ := bind_eq_ok.mp ha
  obtain ⟨e, he, hb⟩ := bind_eq_ok.mp hb
  obtain rfl := Except.ok.inj ha
  obtain rfl := Except.ok.inj hb
  obtain ⟨hdn, hdv⟩ := Decimal.parse_value hd
  obtain ⟨hen, hev⟩ := Decimal.parse_value he
  rw [Value.key, Value.key, Key.order, ← hdv, ← hev]
  exact agrees_numberKey hdn hen

theorem agrees_time {objects : Bool} {n m : I128} {a b : Bytes}
    (ha : append out objects (.time n) = .ok a) (hb : append out objects (.time m) = .ok b) :
    Agrees ((Value.key out (.time n)).order (Value.key out (.time m))) a b := by
  rw [append] at ha hb
  obtain rfl := Except.ok.inj ha
  obtain rfl := Except.ok.inj hb
  rw [Value.key, Value.key, Key.order, ← List.singleton_append, ← List.singleton_append (l := signed m)]
  exact (agrees_signed n m).prepend [6]

theorem agrees_string {objects : Bool} {s t : String} {a b : Bytes}
    (ha : append out objects (.string s) = .ok a) (hb : append out objects (.string t) = .ok b) :
    Agrees ((Value.key out (.string s)).order (Value.key out (.string t))) a b := by
  rw [append] at ha hb
  obtain rfl := Except.ok.inj ha
  obtain rfl := Except.ok.inj hb
  rw [Value.key, Value.key, Key.order]
  exact (agrees_text _ _).prepend [7]

/-- Everything but arrays and objects. -/
theorem agrees_scalar {objects : Bool} {v w : Value} {a b : Bytes} (ha : append out objects v = .ok a)
    (hb : append out objects w = .ok b) (hv : (v.key out).rank < 8) :
    Agrees ((v.key out).order (w.key out)) a b := by
  by_cases hrank : (v.key out).rank = (w.key out).rank
  swap
  · exact agrees_of_rank_ne ha hb hrank
  by_cases hsmall : (v.key out).rank < 5
  · exact agrees_small ha hb hrank hsmall
  by_cases hkind : v.discriminant = w.discriminant
  swap
  · exact absurd hrank (rank_ne_of_discriminant hkind)
  cases v with
  | number token =>
      cases w with
      | number token' => exact agrees_number ha hb
      | _ => exact absurd hkind (by simp [Value.discriminant])
  | time n =>
      cases w with
      | time m => exact agrees_time ha hb
      | _ => exact absurd hkind (by simp [Value.discriminant])
  | string s =>
      cases w with
      | string t => exact agrees_string ha hb
      | _ => exact absurd hkind (by simp [Value.discriminant])
  | bool x => exact absurd (by cases x <;> simp [Value.key, Key.rank]) hsmall
  | missing => exact absurd (by simp [Value.key, Key.rank]) hsmall
  | null => exact absurd (by simp [Value.key, Key.rank]) hsmall
  | array items => exact absurd hv (by simp [Value.key, Key.rank])
  | object fields => exact absurd hv (by simp [Value.key, Key.rank])

mutual

/-- Keys of values compare as the values: by kind, and then constructor by constructor. -/
theorem append_agrees {objects : Bool} : ∀ (v w : Value) {a b : Bytes}, append out objects v = .ok a →
    append out objects w = .ok b → Agrees ((v.key out).order (w.key out)) a b
  | .missing, w, a, b, ha, hb => agrees_scalar ha hb (by simp [Value.key, Key.rank])
  | .null, w, a, b, ha, hb => agrees_scalar ha hb (by simp [Value.key, Key.rank])
  | .bool x, w, a, b, ha, hb => agrees_scalar ha hb (by cases x <;> simp [Value.key, Key.rank])
  | .number token, w, a, b, ha, hb => agrees_scalar ha hb (by simp [Value.key, Key.rank])
  | .time n, w, a, b, ha, hb => agrees_scalar ha hb (by simp [Value.key, Key.rank])
  | .string s, w, a, b, ha, hb => agrees_scalar ha hb (by simp [Value.key, Key.rank])
  | .array items, w, a, b, ha, hb => by
      cases w with
      | array items' =>
          rw [append] at ha hb
          obtain ⟨ks, hks, ha⟩ := bind_eq_ok.mp ha
          obtain ⟨ls, hls, hb⟩ := bind_eq_ok.mp hb
          obtain rfl := Except.ok.inj ha
          obtain rfl := Except.ok.inj hb
          rw [Value.key, Value.key, Key.order]
          exact (appendItems_agrees items items' hks hls).prepend [8]
      | _ => exact agrees_of_rank_ne ha hb (rank_ne_of_discriminant (by simp [Value.discriminant]))
  | .object fields, w, a, b, ha, hb => by
      cases w with
      | object fields' =>
          rw [append] at ha hb
          split at ha
          · rw [if_pos ‹_›] at hb
            obtain ⟨ks, hks, ha⟩ := bind_eq_ok.mp ha
            obtain ⟨ls, hls, hb⟩ := bind_eq_ok.mp hb
            obtain rfl := Except.ok.inj ha
            obtain rfl := Except.ok.inj hb
            rw [Value.key, Value.key, Key.order]
            exact (appendFields_agrees fields fields' hks hls).prepend [9]
          · cases ha
      | _ => exact agrees_of_rank_ne ha hb (rank_ne_of_discriminant (by simp [Value.discriminant]))

theorem appendItems_agrees {objects : Bool} : ∀ (vs ws : List Value) {a b : Bytes},
    appendItems out objects vs = .ok a → appendItems out objects ws = .ok b →
      Agrees (Key.orderItems (Value.keyItems out vs) (Value.keyItems out ws)) (a ++ [0]) (b ++ [0])
  | [], [], a, b, ha, hb => by
      rw [appendItems] at ha hb
      obtain rfl := Except.ok.inj ha
      obtain rfl := Except.ok.inj hb
      rw [Value.keyItems, Key.orderItems]
      rfl
  | [], w :: ws, a, b, ha, hb => by
      unfold appendItems at hb
      obtain ⟨k, hk, hb⟩ := bind_eq_ok.mp hb
      obtain ⟨ks, _, hb⟩ := bind_eq_ok.mp hb
      cases ha
      cases hb
      show Before [0] _
      rw [List.append_assoc]
      exact end_before hk _ _
  | v :: vs, [], a, b, ha, hb => by
      unfold appendItems at ha
      obtain ⟨k, hk, ha⟩ := bind_eq_ok.mp ha
      obtain ⟨ks, _, ha⟩ := bind_eq_ok.mp ha
      cases ha
      cases hb
      show Before [0] _
      rw [List.append_assoc]
      exact end_before hk _ _
  | v :: vs, w :: ws, a, b, ha, hb => by
      unfold appendItems at ha hb
      obtain ⟨k, hk, ha⟩ := bind_eq_ok.mp ha
      obtain ⟨ks, hks, ha⟩ := bind_eq_ok.mp ha
      obtain ⟨l, hl, hb⟩ := bind_eq_ok.mp hb
      obtain ⟨ls, hls, hb⟩ := bind_eq_ok.mp hb
      cases ha
      cases hb
      rw [List.append_assoc, List.append_assoc]
      exact (append_agrees v w hk hl).append (appendItems_agrees vs ws hks hls)

theorem appendFields_agrees : ∀ (fs gs : List (String × Value)) {a b : Bytes},
    appendFields out fs = .ok a → appendFields out gs = .ok b →
      Agrees (Key.orderFields (Value.keyFields out fs) (Value.keyFields out gs)) (a ++ [0]) (b ++ [0])
  | [], [], a, b, ha, hb => by
      cases ha
      cases hb
      rfl
  | [], (l, w) :: gs, a, b, ha, hb => by
      unfold appendFields at hb
      obtain ⟨k, hk, hb⟩ := bind_eq_ok.mp hb
      obtain ⟨ks, _, hb⟩ := bind_eq_ok.mp hb
      cases ha
      cases hb
      exact Before.cons_lt (by decide) _ _
  | (k, v) :: fs, [], a, b, ha, hb => by
      unfold appendFields at ha
      obtain ⟨l, hl, ha⟩ := bind_eq_ok.mp ha
      obtain ⟨ls, _, ha⟩ := bind_eq_ok.mp ha
      cases ha
      cases hb
      exact Before.cons_lt (by decide) _ _
  | (k, v) :: fs, (l, w) :: gs, a, b, ha, hb => by
      unfold appendFields at ha hb
      obtain ⟨x, hx, ha⟩ := bind_eq_ok.mp ha
      obtain ⟨xs, hxs, ha⟩ := bind_eq_ok.mp ha
      obtain ⟨y, hy, hb⟩ := bind_eq_ok.mp hb
      obtain ⟨ys, hys, hb⟩ := bind_eq_ok.mp hb
      cases ha
      cases hb
      have h := (agrees_text (utf8 k) (utf8 l)).append
        ((append_agrees v w hx hy).append (appendFields_agrees fs gs hxs hys))
      have h := h.prepend [7]
      simpa [Value.keyFields, Key.orderFields, List.append_assoc] using h

end

/-! ## The order of keys -/

mutual

/-- No objects in it, and all its numbers can be read. -/
def Orderable (out : Outside) : Value → Bool
  | .number token => (Decimal.parse out token).isOk
  | .array items => OrderableItems out items
  | .object _ => false
  | _ => true

def OrderableItems (out : Outside) : List Value → Bool
  | [] => true
  | v :: vs => Orderable out v && OrderableItems out vs

end

mutual

theorem encode_of_orderable : ∀ v : Value, Orderable out v = true → ∃ a, append out false v = .ok a
  | .missing, _ => ⟨_, rfl⟩
  | .null, _ => ⟨_, rfl⟩
  | .bool false, _ => ⟨_, rfl⟩
  | .bool true, _ => ⟨_, rfl⟩
  | .number token, h => by
      rw [Orderable] at h
      cases hd : Decimal.parse out token with
      | error e =>
          rw [hd] at h
          cases h
      | ok d => exact ⟨numberKey d, by rw [append, hd]; rfl⟩
  | .time n, _ => ⟨_, by rw [append]⟩
  | .string s, _ => ⟨_, by rw [append]⟩
  | .array items, h => by
      rw [Orderable] at h
      obtain ⟨ks, hks⟩ := encodeItems_of_orderable items h
      exact ⟨8 :: ks ++ [0], by rw [append, hks]; rfl⟩
  | .object fields, h => by
      rw [Orderable] at h
      cases h

theorem encodeItems_of_orderable : ∀ vs : List Value, OrderableItems out vs = true →
    ∃ a, appendItems out false vs = .ok a
  | [], _ => ⟨[], by rw [appendItems]⟩
  | v :: vs, h => by
      rw [OrderableItems, Bool.and_eq_true] at h
      obtain ⟨k, hk⟩ := encode_of_orderable v h.1
      obtain ⟨ks, hks⟩ := encodeItems_of_orderable vs h.2
      exact ⟨k ++ ks, by rw [appendItems, hk, ok_bind, hks]; rfl⟩

end

/-- **The codec keeps the order.** Values without objects have keys; their bytes compare as the values do,
are equal only for values that differ at most in how numbers are spelt, and no key's bytes start another's;
with every byte complemented they compare the other way around. -/
theorem encode_keeps_order {v w : Value} (hv : Orderable out v = true) (hw : Orderable out w = true) :
    ∃ a b, encode out v = .ok a ∧ encode out w = .ok b ∧
      ordering a b = (v.key out).order (w.key out) ∧
      (a = b ↔ v.key out = w.key out) ∧
      (a <+: b → a = b) ∧
      ordering (complement a) (complement b) = (ordering a b).swap := by
  obtain ⟨a, ha⟩ := encode_of_orderable v hv
  obtain ⟨b, hb⟩ := encode_of_orderable w hw
  have h := append_agrees v w ha hb
  refine ⟨a, b, ha, hb, h.ordering_eq_of, ?_, h.eq_of_start, ?_⟩
  · rw [← Key.order_eq_iff, ← h.ordering_eq_of, ordering_eq]
  · rw [h.complement.ordering_eq_of, h.ordering_eq_of]

/-- An array and a longer one that begins with the same number. -/
theorem encode_keeps_order_of_arrays :
    Orderable (.listed []) (.array [.number "100"]) = true ∧
      Orderable (.listed []) (.array [.number "100", .string "a"]) = true ∧
      ∃ a b, encode (.listed []) (.array [.number "100"]) = .ok a ∧
        encode (.listed []) (.array [.number "100", .string "a"]) = .ok b ∧ a < b ∧ (a <+: b → a = b) := by
  have hv : Orderable (.listed []) (.array [.number "100"]) = true := by decide
  have hw : Orderable (.listed []) (.array [.number "100", .string "a"]) = true := by decide
  obtain ⟨a, b, ha, hb, horder, _, hstart, _⟩ := encode_keeps_order hv hw
  refine ⟨hv, hw, a, b, ha, hb, ordering_lt.mp (horder.trans ?_), hstart⟩
  simp [Value.key, Value.keyItems, Key.order, Key.orderItems]

end Codec

end CloveDb.Fields
