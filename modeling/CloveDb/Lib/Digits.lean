/-
# CloveDb.Lib.Digits — arithmetic on vectors of digits

Numbers as vectors of digits in a base `b`, least significant digit first; what a vector denotes is Mathlib's
`Nat.ofDigits`. Addition carries and subtraction borrows from digit to digit; vectors whose top digit is not zero compare
by their lengths first and then from the top digit down.
-/
import CloveDb.Lib.Decimal
import Mathlib.Data.List.DropRight
import Mathlib.Data.Nat.Digits.Lemmas
import Mathlib.Tactic.LinearCombination

namespace CloveDb.Lib

open Nat (ofDigits)

/-- `right` added digit by digit into `left`, with a carry into the first digit; the carry out of the last one stands
beside the sum. -/
def addInto (b : Nat) : List Nat → List Nat → Nat → List Nat × Nat
  | [], _, carry => ([], carry)
  | d :: ds, right, carry =>
      let n := d + right.headD 0 + carry
      let (rest, last) := addInto b ds right.tail (n / b)
      (n % b :: rest, last)

/-- `right` taken digit by digit from `left`, with a borrow from the first digit; the borrow left at the end stands
beside the difference. -/
def subFrom (b : Nat) : List Nat → List Nat → Nat → List Nat × Nat
  | [], _, borrow => ([], borrow)
  | d :: ds, right, borrow =>
      let n : Int := d - right.headD 0 - borrow
      let (rest, last) := subFrom b ds right.tail (if n < 0 then 1 else 0)
      ((if n < 0 then n + b else n).toNat :: rest, last)

/-- All digits are below the base. -/
def Below (b : Nat) (ds : List Nat) : Prop := ∀ d ∈ ds, d < b

/-- The top digit is not a zero. -/
def TopNonzero (ds : List Nat) : Prop := ds.getLast? ≠ some 0

theorem Below.tail {b : Nat} {ds : List Nat} (h : Below b ds) : Below b ds.tail :=
  fun d hd => h d (List.mem_of_mem_tail hd)

theorem Below.headD {b : Nat} {ds : List Nat} (h : Below b ds) (hb : 0 < b) : ds.headD 0 < b := by
  cases ds with
  | nil => exact hb
  | cons d ds => exact h d List.mem_cons_self

theorem Below.append {b : Nat} {ds es : List Nat} (hd : Below b ds) (he : Below b es) : Below b (ds ++ es) :=
  fun d h => (List.mem_append.mp h).elim (hd d) (he d)

theorem Below.zeros {b : Nat} (hb : 0 < b) (n : Nat) : Below b (List.replicate n 0) := by
  intro d hd
  rw [List.eq_of_mem_replicate hd]
  exact hb

/-- A vector is its first digit and `b` times the others. -/
theorem ofDigits_head_tail (b : Nat) (ds : List Nat) :
    ofDigits b ds = ds.headD 0 + b * ofDigits b ds.tail := by
  cases ds with
  | nil => simp
  | cons d ds => exact Nat.ofDigits_cons

/-! ## Addition -/

section

variable {b : Nat}

theorem addInto_value (left right : List Nat) (carry : Nat) (hlen : right.length ≤ left.length) :
    ofDigits b (addInto b left right carry).1 + b ^ left.length * (addInto b left right carry).2
      = ofDigits b left + ofDigits b right + carry := by
  induction left generalizing right carry with
  | nil =>
      rw [List.length_eq_zero_iff.mp (Nat.le_zero.mp hlen)]
      simp [addInto]
  | cons d ds ih =>
      have hrest := ih right.tail ((d + right.headD 0 + carry) / b) (by
        rw [List.length_tail]
        exact Nat.sub_le_of_le_add hlen)
      have hdigit := Nat.mod_add_div (d + right.headD 0 + carry) b
      rw [ofDigits_head_tail b right, Nat.ofDigits_cons, addInto, Nat.ofDigits_cons, List.length_cons, pow_succ]
      linear_combination b * hrest + hdigit

theorem addInto_length (left right : List Nat) (carry : Nat) :
    (addInto b left right carry).1.length = left.length := by
  induction left generalizing right carry with
  | nil => rfl
  | cons d ds ih => exact congrArg (· + 1) (ih _ _)

theorem addInto_below (hb : 0 < b) (left right : List Nat) (carry : Nat) :
    Below b (addInto b left right carry).1 := by
  induction left generalizing right carry with
  | nil => exact fun d hd => absurd hd List.not_mem_nil
  | cons d ds ih =>
      intro x hx
      rcases List.mem_cons.mp hx with rfl | hx
      · exact Nat.mod_lt _ hb
      · exact ih _ _ x hx

/-- The carry out is zero or one. -/
theorem addInto_carry {left right : List Nat} {carry : Nat} (hleft : Below b left) (hright : Below b right)
    (hb : 0 < b) (hcarry : carry ≤ 1) : (addInto b left right carry).2 ≤ 1 := by
  induction left generalizing right carry with
  | nil => exact hcarry
  | cons d ds ih =>
      refine ih hleft.tail hright.tail (Nat.le_of_lt_succ (Nat.div_lt_of_lt_mul ?_))
      have hd := hleft d List.mem_cons_self
      have hr := hright.headD hb
      omega

/-! ## Subtraction -/

/-- One digit of a difference: what is missing is borrowed from the next. -/
theorem sub_digit {d r borrow : Nat} (hd : d < b) (hr : r < b) (hborrow : borrow ≤ 1) :
    let n : Int := d - r - borrow
    let digit := (if n < 0 then n + b else n).toNat
    digit < b ∧ digit + r + borrow = d + b * (if n < 0 then 1 else 0) := by
  dsimp only
  split <;> omega

theorem subFrom_spec {left right : List Nat} {borrow : Nat} (hleft : Below b left) (hright : Below b right)
    (hlen : right.length ≤ left.length) (hborrow : borrow ≤ 1) :
    Below b (subFrom b left right borrow).1 ∧ (subFrom b left right borrow).1.length = left.length ∧
      ofDigits b (subFrom b left right borrow).1 + ofDigits b right + borrow
        = ofDigits b left + b ^ left.length * (subFrom b left right borrow).2 := by
  induction left generalizing right borrow with
  | nil =>
      rw [List.length_eq_zero_iff.mp (Nat.le_zero.mp hlen)]
      refine ⟨fun d hd => absurd hd List.not_mem_nil, rfl, ?_⟩
      simp [subFrom]
  | cons d ds ih =>
      have hd := hleft d List.mem_cons_self
      obtain ⟨hdigit, hvalue⟩ := sub_digit hd (hright.headD (Nat.zero_lt_of_lt hd)) hborrow
      have hnext : (if (d : Int) - right.headD 0 - borrow < 0 then 1 else 0) ≤ 1 := by split <;> omega
      have hlen' : right.tail.length ≤ ds.length := by
        rw [List.length_tail]
        exact Nat.sub_le_of_le_add hlen
      obtain ⟨hbelow, hlength, hrest⟩ := ih hleft.tail hright.tail hlen' hnext
      refine ⟨?_, congrArg (· + 1) hlength, ?_⟩
      · intro x hx
        rcases List.mem_cons.mp hx with rfl | hx
        · exact hdigit
        · exact hbelow x hx
      · rw [ofDigits_head_tail b right, Nat.ofDigits_cons, subFrom, Nat.ofDigits_cons, List.length_cons, pow_succ]
        linear_combination b * hrest + hvalue

/-- **A smaller vector is taken from a larger one without a borrow left.** -/
theorem subFrom_value {left right : List Nat} (hb : 1 < b) (hleft : Below b left) (hright : Below b right)
    (hlen : right.length ≤ left.length) (hle : ofDigits b right ≤ ofDigits b left) :
    ofDigits b (subFrom b left right 0).1 + ofDigits b right = ofDigits b left := by
  obtain ⟨hbelow, hlength, hvalue⟩ := subFrom_spec hleft hright hlen (Nat.zero_le 1)
  have hlt := Nat.ofDigits_lt_base_pow_length hb hbelow
  rw [hlength] at hlt
  have hborrow : (subFrom b left right 0).2 = 0 := by
    by_contra hne
    have : b ^ left.length ≤ b ^ left.length * (subFrom b left right 0).2 :=
      Nat.le_mul_of_pos_right _ (Nat.pos_of_ne_zero hne)
    omega
  rw [hborrow] at hvalue
  exact hvalue

/-! ## Comparison -/

/-- Vectors of one length, top digit first, compare as their numbers. -/
theorem ordering_reverse (hb : 1 < b) {as bs : List Nat} (hlen : as.length = bs.length) (ha : Below b as)
    (hbs : Below b bs) : ordering as bs = ordering (ofDigits b as.reverse) (ofDigits b bs.reverse) := by
  induction as generalizing bs with
  | nil =>
      rw [List.length_eq_zero_iff.mp hlen.symm]
      rfl
  | cons x xs ih =>
      cases bs with
      | nil => cases hlen
      | cons y ys =>
          have hlen : xs.length = ys.length := Nat.succ.inj hlen
          have hx := Nat.ofDigits_lt_base_pow_length hb (l := xs.reverse) fun d hd =>
            ha d (List.mem_cons_of_mem _ (List.mem_reverse.mp hd))
          have hy := Nat.ofDigits_lt_base_pow_length hb (l := ys.reverse) fun d hd =>
            hbs d (List.mem_cons_of_mem _ (List.mem_reverse.mp hd))
          rw [List.length_reverse] at hx hy
          rw [ordering_cons, ih hlen ha.tail hbs.tail, Nat.ofDigits_reverse_cons, Nat.ofDigits_reverse_cons, ← hlen]
          rw [← hlen] at hy
          -- the lower digits stay below one unit of the top one
          rcases lt_trichotomy x y with hlt | rfl | hgt
          · have := Nat.mul_le_mul_left (b ^ xs.length) (Nat.succ_le_of_lt hlt)
            rw [ordering_lt.mpr hlt, Ordering.lt_then, eq_comm, ordering_lt]
            rw [Nat.mul_succ] at this
            omega
          · rw [ordering_self, Ordering.eq_then]
            rcases lt_trichotomy (ofDigits b xs.reverse) (ofDigits b ys.reverse) with hlt | heq | hgt
            · rw [ordering_lt.mpr hlt, eq_comm, ordering_lt]
              omega
            · rw [heq, ordering_self, ordering_self]
            · rw [ordering_gt.mpr hgt, eq_comm, ordering_gt]
              omega
          · have := Nat.mul_le_mul_left (b ^ xs.length) (Nat.succ_le_of_lt hgt)
            rw [ordering_gt.mpr hgt, Ordering.gt_then, eq_comm, ordering_gt]
            rw [Nat.mul_succ] at this
            omega

theorem ofDigits_lt_of_length_lt (hb : 1 < b) {left right : List Nat} (hleft : Below b left)
    (htop : TopNonzero right) (h : left.length < right.length) : ofDigits b left < ofDigits b right := by
  have hne : right ≠ [] := List.ne_nil_of_length_pos (Nat.zero_lt_of_lt h)
  have hlow := Nat.ofDigits_lt_base_pow_length hb hleft
  have htop : right.getLast hne ≠ 0 := fun hzero =>
    htop ((List.getLast?_eq_some_getLast hne).trans (congrArg some hzero))
  have hhigh : b ^ right.length ≤ b * ofDigits b right := by
    obtain ⟨c, rfl⟩ := Nat.exists_eq_add_of_le' hb
    exact Nat.pow_length_le_mul_ofDigits hne htop
  have hpow : b ^ left.length * b ≤ b ^ right.length := by
    rw [← pow_succ]
    exact Nat.pow_le_pow_right (Nat.zero_lt_of_lt hb) h
  refine lt_of_lt_of_le hlow (Nat.le_of_mul_le_mul_left ?_ (Nat.zero_lt_of_lt hb))
  rw [Nat.mul_comm b (b ^ left.length)]
  exact hpow.trans hhigh

/-- **Lengths first, then from the top digit down**: the order of the numbers. -/
theorem ordering_ofDigits (hb : 1 < b) {left right : List Nat} (hleft : Below b left) (hright : Below b right)
    (hltop : TopNonzero left) (hrtop : TopNonzero right) :
    (ordering left.length right.length).then (ordering left.reverse right.reverse)
      = ordering (ofDigits b left) (ofDigits b right) := by
  rcases lt_trichotomy left.length right.length with hlt | heq | hgt
  · rw [ordering_lt.mpr hlt, ordering_lt.mpr (ofDigits_lt_of_length_lt hb hleft hrtop hlt)]
    rfl
  · have hlen : left.reverse.length = right.reverse.length := by
      rw [List.length_reverse, List.length_reverse, heq]
    have hrev := ordering_reverse hb hlen (fun d hd => hleft d (List.mem_reverse.mp hd))
      (fun d hd => hright d (List.mem_reverse.mp hd))
    rw [List.reverse_reverse, List.reverse_reverse] at hrev
    rw [ordering_eq.mpr heq, Ordering.eq_then, hrev]
  · rw [ordering_gt.mpr hgt, ordering_gt.mpr (ofDigits_lt_of_length_lt hb hright hltop hgt)]
    rfl

end

/-! ## Zeros at the ends -/

theorem ofDigits_zeros_append (b n : Nat) (ds : List Nat) :
    ofDigits b (List.replicate n 0 ++ ds) = b ^ n * ofDigits b ds := by
  rw [Nat.ofDigits_append, Nat.ofDigits_replicate_zero, List.length_replicate, Nat.zero_add]

/-- Zeros above the top digit do not count. -/
theorem ofDigits_rdropWhile (b : Nat) (ds : List Nat) :
    ofDigits b (ds.rdropWhile (· == 0)) = ofDigits b ds := by
  induction ds using List.reverseRecOn with
  | nil => rfl
  | append_singleton ds d ih =>
      rw [List.rdropWhile_concat]
      split
      · rename_i hzero
        rw [ih, eq_of_beq hzero, Nat.ofDigits_append_zero]
      · rfl

theorem topNonzero_rdropWhile (ds : List Nat) : TopNonzero (ds.rdropWhile (· == 0)) := by
  intro h
  have hne : ds.rdropWhile (· == 0) ≠ [] := by
    intro hnil
    rw [hnil] at h
    cases h
  have hlast := List.rdropWhile_last_not (fun d : Nat => d == 0) ds hne
  rw [List.getLast?_eq_some_getLast hne, Option.some.injEq] at h
  exact hlast (beq_iff_eq.mpr h)

theorem drop_takeWhile {α : Type} (p : α → Bool) (as : List α) : as.drop (as.takeWhile p).length = as.dropWhile p :=
  calc as.drop (as.takeWhile p).length
      = (as.takeWhile p ++ as.dropWhile p).drop (as.takeWhile p).length := by rw [List.takeWhile_append_dropWhile]
    _ = as.dropWhile p := List.drop_left

/-- The zeros below the first digit that counts are a power of the base. -/
theorem ofDigits_dropWhile (b : Nat) (ds : List Nat) :
    ofDigits b ds = b ^ (ds.takeWhile (· == 0)).length * ofDigits b (ds.dropWhile (· == 0)) := by
  induction ds with
  | nil => simp
  | cons d ds ih =>
      by_cases hd : d = 0
      · subst hd
        rw [List.takeWhile_cons_of_pos rfl, List.dropWhile_cons_of_pos rfl, Nat.ofDigits_cons, ih, List.length_cons,
          pow_succ]
        ring
      · simp [hd]

theorem TopNonzero.dropWhile {ds : List Nat} (h : TopNonzero ds) : TopNonzero (ds.dropWhile (· == 0)) := by
  intro hlast
  obtain ⟨front, hfront⟩ := List.dropWhile_suffix (fun d : Nat => d == 0) (l := ds)
  refine h ?_
  rw [← hfront, List.getLast?_append, hlast]
  rfl

theorem head_dropWhile_zero (ds : List Nat) : (ds.dropWhile (· == 0)).head? ≠ some 0 := by
  intro h
  have hnot := List.head?_dropWhile_not (fun d : Nat => d == 0) ds
  rw [h] at hnot
  cases hnot

/-! ## Digits as characters -/

/-- The characters of a numeral, last one first, as a vector. -/
theorem ofDigits_digitValue (ds : List Char) : ofDigits 10 (ds.reverse.map digitValue) = natOf ds := by
  induction ds with
  | nil => rfl
  | cons c cs ih =>
      have hcons : natOf (c :: cs) = digitValue c * 10 ^ cs.length + natOf cs := by
        rw [← List.singleton_append, natOf_append]
        simp [natOf]
      rw [List.reverse_cons, List.map_append, Nat.ofDigits_append, ih, List.length_map, List.length_reverse, hcons,
        List.map_cons, List.map_nil, Nat.ofDigits_singleton]
      ring

end CloveDb.Lib
