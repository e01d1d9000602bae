/-
# CloveDb.Lib.Decimal — decimal numerals and the rationals they denote

The value of a string of digits, before the point and behind it, and of a numeral with a sign, a
fraction and an exponent. Behind the point, strings without zeros at their end order as their values;
numbers `0.d₁d₂… * 10 ^ e` with `d₁ ≠ 0` order by `e` first.
-/
import CloveDb.Lib.OrderedCode
import Mathlib.Algebra.Order.Field.Power
import Mathlib.Algebra.Order.Field.Rat
import Mathlib.Tactic.Linarith
import Mathlib.Tactic.LinearCombination
import Mathlib.Tactic.Positivity

namespace CloveDb.Lib

/-! ## Digits -/

def digitValue (c : Char) : Nat := c.toNat - '0'.toNat

/-- The digits of an integer. -/
def natOf (ds : List Char) : Nat := ds.foldl (fun acc c => acc * 10 + digitValue c) 0

/-- The digits behind the point. -/
def fracOf : List Char → ℚ
  | [] => 0
  | c :: cs => (digitValue c + fracOf cs) / 10

/-- All characters are digits. -/
def IsDigits (ds : List Char) : Prop := ∀ c ∈ ds, c.isDigit = true

theorem digit_bounds {c : Char} (h : c.isDigit = true) : 48 ≤ c.toNat ∧ c.toNat ≤ 57 := by
  unfold Char.isDigit at h
  rw [Bool.and_eq_true, decide_eq_true_iff, decide_eq_true_iff] at h
  exact ⟨UInt32.le_iff_toNat_le.mp h.1, UInt32.le_iff_toNat_le.mp h.2⟩

theorem toNat_digit {c : Char} (h : c.isDigit = true) : c.toNat = digitValue c + 48 := by
  have := digit_bounds h
  show c.toNat = c.toNat - 48 + 48
  omega

theorem digitValue_le {c : Char} (h : c.isDigit = true) : digitValue c ≤ 9 := by
  have := digit_bounds h
  show c.toNat - 48 ≤ 9
  omega

theorem digitValue_pos {c : Char} (h : c.isDigit = true) (hne : c ≠ '0') : 0 < digitValue c := by
  have hlow := digit_bounds h
  have hval := toNat_digit h
  by_contra hzero
  refine hne (Char.ext (UInt32.toNat_inj.mp ?_))
  show c.toNat = 48
  omega

theorem IsDigits.tail {c : Char} {cs : List Char} (h : IsDigits (c :: cs)) : IsDigits cs :=
  fun d hd => h d (List.mem_cons_of_mem _ hd)

theorem fracOf_nonneg (ds : List Char) : 0 ≤ fracOf ds := by
  induction ds with
  | nil => exact le_refl 0
  | cons c cs ih =>
      unfold fracOf
      positivity

theorem fracOf_lt_one {ds : List Char} (h : IsDigits ds) : fracOf ds < 1 := by
  induction ds with
  | nil => exact one_pos
  | cons c cs ih =>
      have hc : (digitValue c : ℚ) ≤ 9 := by exact_mod_cast digitValue_le (h c List.mem_cons_self)
      have hrest := ih h.tail
      unfold fracOf
      rw [div_lt_one (by norm_num)]
      linarith

theorem natOf_foldl (ds : List Char) (n : Nat) :
    ds.foldl (fun acc c => acc * 10 + digitValue c) n = n * 10 ^ ds.length + natOf ds := by
  unfold natOf
  induction ds generalizing n with
  | nil => simp
  | cons c cs ih =>
      rw [List.foldl_cons, List.foldl_cons, ih, ih (0 * 10 + digitValue c), List.length_cons]
      ring

theorem natOf_append (as bs : List Char) : natOf (as ++ bs) = natOf as * 10 ^ bs.length + natOf bs := by
  rw [natOf, List.foldl_append, natOf_foldl]
  rfl

theorem natOf_zeros (n : Nat) : natOf (List.replicate n '0') = 0 := by
  induction n with
  | zero => rfl
  | succ n ih =>
      unfold natOf at ih ⊢
      rw [List.replicate_succ, List.foldl_cons]
      exact ih

/-- Digits moved across the point. -/
theorem fracOf_append (as bs : List Char) :
    fracOf (as ++ bs) * 10 ^ as.length = natOf as + fracOf bs := by
  induction as with
  | nil => simp [natOf]
  | cons c cs ih =>
      have hnat : (natOf (c :: cs) : ℚ) = digitValue c * 10 ^ cs.length + natOf cs := by
        unfold natOf
        rw [List.foldl_cons, natOf_foldl]
        simp [natOf]
      rw [List.cons_append, fracOf, List.length_cons, pow_succ, hnat]
      linear_combination ih

theorem fracOf_zeros (n : Nat) : fracOf (List.replicate n '0') = 0 := by
  induction n with
  | zero => rfl
  | succ n ih =>
      rw [List.replicate_succ, fracOf, ih]
      simp [digitValue]

/-- Zeros at the end do not count. -/
theorem fracOf_append_zeros (ds : List Char) (n : Nat) :
    fracOf (ds ++ List.replicate n '0') = fracOf ds := by
  induction ds with
  | nil => exact fracOf_zeros n
  | cons c cs ih => rw [List.cons_append, fracOf, fracOf, ih]

/-- Zeros in front are a power of ten. -/
theorem fracOf_zeros_append (ds : List Char) (n : Nat) :
    fracOf (List.replicate n '0' ++ ds) * 10 ^ n = fracOf ds := by
  have h := fracOf_append (List.replicate n '0') ds
  rw [List.length_replicate, natOf_zeros] at h
  simpa using h

/-- An integer as digits behind the point. -/
theorem fracOf_natOf (ds : List Char) : fracOf ds * 10 ^ ds.length = natOf ds := by
  simpa [fracOf] using fracOf_append ds []

/-! ## Order -/

/-- The last digit is not a zero. -/
def NoZeroEnd (ds : List Char) : Prop := ds.getLast? ≠ some '0'

theorem NoZeroEnd.tail {c : Char} {cs : List Char} (h : NoZeroEnd (c :: cs)) : NoZeroEnd cs := by
  cases cs with
  | nil => exact fun h => nomatch h
  | cons d ds => exact h

theorem fracOf_pos {ds : List Char} (h : IsDigits ds) (hend : NoZeroEnd ds) (hne : ds ≠ []) :
    0 < fracOf ds := by
  induction ds with
  | nil => exact absurd rfl hne
  | cons c cs ih =>
      unfold fracOf
      cases cs with
      | nil =>
          have hc := digitValue_pos (h c List.mem_cons_self) fun heq => hend (by rw [heq]; rfl)
          have hc : (0 : ℚ) < digitValue c := by exact_mod_cast hc
          have := fracOf_nonneg []
          positivity
      | cons d ds =>
          have := ih h.tail hend.tail (List.cons_ne_nil d ds)
          positivity

theorem fracOf_ge {c : Char} {cs : List Char} (h : c.isDigit = true) (hne : c ≠ '0') :
    1 / 10 ≤ fracOf (c :: cs) := by
  have hc : (1 : ℚ) ≤ digitValue c := by exact_mod_cast digitValue_pos h hne
  have := fracOf_nonneg cs
  unfold fracOf
  linarith

/-- Digits behind the point compare from the first one on. -/
theorem ordering_fracOf_cons {c d : Char} {cs ds : List Char} (hc : IsDigits (c :: cs))
    (hd : IsDigits (d :: ds)) :
    ordering (fracOf (c :: cs)) (fracOf (d :: ds))
      = (ordering (digitValue c) (digitValue d)).then (ordering (fracOf cs) (fracOf ds)) := by
  have hcs := fracOf_lt_one hc.tail
  have hds := fracOf_lt_one hd.tail
  have hcs' := fracOf_nonneg cs
  have hds' := fracOf_nonneg ds
  -- the tails are below one, so a smaller first digit decides
  rcases lt_trichotomy (digitValue c) (digitValue d) with hlt | heq | hgt
  · have hstep : (digitValue c : ℚ) + 1 ≤ digitValue d := by exact_mod_cast hlt
    rw [ordering_lt.mpr hlt, ordering_lt.mpr]
    · rfl
    · unfold fracOf
      linarith
  · rw [ordering_eq.mpr heq, Ordering.eq_then, fracOf, fracOf, heq]
    rcases lt_trichotomy (fracOf cs) (fracOf ds) with hlt | heq | hgt
    · rw [ordering_lt.mpr hlt, ordering_lt.mpr (by linarith)]
    · rw [ordering_eq.mpr heq, heq, ordering_self]
    · rw [ordering_gt.mpr hgt, ordering_gt.mpr (by linarith)]
  · have hstep : (digitValue d : ℚ) + 1 ≤ digitValue c := by exact_mod_cast hgt
    rw [ordering_gt.mpr hgt, ordering_gt.mpr]
    · rfl
    · unfold fracOf
      linarith

/-- Digits behind the point, without zeros at the end, are determined by their value. -/
theorem fracOf_inj {ds es : List Char} (hds : IsDigits ds) (hes : IsDigits es) (hd : NoZeroEnd ds)
    (he : NoZeroEnd es) (h : fracOf ds = fracOf es) : ds = es := by
  induction ds generalizing es with
  | nil =>
      cases es with
      | nil => rfl
      | cons e es => exact absurd h (fracOf_pos hes he (List.cons_ne_nil e es)).ne
  | cons c cs ih =>
      cases es with
      | nil => exact absurd h (fracOf_pos hds hd (List.cons_ne_nil c cs)).ne'
      | cons e es =>
          have heq := ordering_fracOf_cons hds hes
          rw [ordering_eq.mpr h, eq_comm, Ordering.then_eq_eq, ordering_eq, ordering_eq] at heq
          have hc := toNat_digit (hds c List.mem_cons_self)
          have he' := toNat_digit (hes e List.mem_cons_self)
          have hfirst : c = e := Char.toNat_inj.mp (by omega)
          rw [hfirst, ih hds.tail hes.tail hd.tail he.tail heq.2]

theorem ordering_neg (p q : ℚ) : ordering (-p) (-q) = (ordering p q).swap := by
  rcases lt_trichotomy p q with hlt | rfl | hgt
  · rw [ordering_lt.mpr hlt, ordering_gt.mpr (neg_lt_neg hlt)]
    rfl
  · rw [ordering_self, ordering_self]
    rfl
  · rw [ordering_gt.mpr hgt, ordering_lt.mpr (neg_lt_neg hgt)]
    rfl

theorem scaled_lt {p q : ℚ} {e f : ℤ} (hp : p < 1) (hq : 1 / 10 ≤ q) (h : e < f) :
    p * 10 ^ e < q * 10 ^ f := by
  have hten : (0 : ℚ) < 10 ^ e := by positivity
  calc p * 10 ^ e < 1 * 10 ^ e := mul_lt_mul_of_pos_right hp hten
    _ = 1 / 10 * 10 ^ (e + 1) := by rw [zpow_add_one₀ (by norm_num)]; ring
    _ ≤ 1 / 10 * 10 ^ f :=
        mul_le_mul_of_nonneg_left (zpow_le_zpow_right₀ (by norm_num) h) (by norm_num)
    _ ≤ q * 10 ^ f := mul_le_mul_of_nonneg_right hq (by positivity)

/-- Numbers in `[1/10, 1)` times powers of ten compare by the powers first. -/
theorem ordering_scaled {p q : ℚ} {e f : ℤ} (hp : 1 / 10 ≤ p) (hp' : p < 1) (hq : 1 / 10 ≤ q)
    (hq' : q < 1) :
    ordering (p * 10 ^ e) (q * 10 ^ f) = (ordering e f).then (ordering p q) := by
  rcases lt_trichotomy e f with hlt | rfl | hgt
  · rw [ordering_lt.mpr hlt, ordering_lt.mpr (scaled_lt hp' hq hlt)]
    rfl
  · have hten : (0 : ℚ) < 10 ^ e := by positivity
    rw [ordering_self, Ordering.eq_then]
    rcases lt_trichotomy p q with hlt | rfl | hgt
    · rw [ordering_lt.mpr hlt, ordering_lt.mpr (mul_lt_mul_of_pos_right hlt hten)]
    · rw [ordering_self, ordering_self]
    · rw [ordering_gt.mpr hgt, ordering_gt.mpr (mul_lt_mul_of_pos_right hgt hten)]
  · rw [ordering_gt.mpr hgt, ordering_gt.mpr (scaled_lt hq' hp hgt)]
    rfl

/-! ## Numerals -/

/-- An exponent with an optional sign. -/
def intOf : List Char → ℤ
  | '-' :: ds => -(natOf ds : ℤ)
  | '+' :: ds => natOf ds
  | ds => natOf ds

/-- A numeral without its sign. -/
def unsignedPart (text : List Char) : List Char := if text.head? = some '-' then text.tail else text

def isExponentMark (c : Char) : Bool := c == 'e' || c == 'E'

/-- The rational a numeral denotes: a sign, digits, digits behind a point, an exponent of ten. -/
def numeralValue (text : List Char) : ℚ :=
  let mantissa := (unsignedPart text).takeWhile fun c => !isExponentMark c
  let exponent := ((unsignedPart text).dropWhile fun c => !isExponentMark c).tail
  let integer := mantissa.takeWhile fun c => !(c == '.')
  let fraction := (mantissa.dropWhile fun c => !(c == '.')).tail
  (if text.head? = some '-' then -1 else 1) * (natOf integer + fracOf fraction) * 10 ^ intOf exponent

end CloveDb.Lib
