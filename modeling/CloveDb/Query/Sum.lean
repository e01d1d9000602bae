/-
# CloveDb.Query.Sum — the exact sum of a column

`query/sum.rs`: number tokens are added as signed vectors of decimal digits with a power of ten, never as floats. A token
is aligned with the sum by zeros below the smaller power; equal signs add with carries, different ones subtract the smaller
vector from the larger; zeros at both ends are then dropped. A sum is an integer unless some token had digits behind the
point.

What the accumulator denotes is a rational (`Accumulator.value`), and each token moves it by the rational the token spells.
-/
import CloveDb.Fields.Numeral
import CloveDb.Lib.Digits
import CloveDb.Query.Page

namespace CloveDb.Query

open CloveDb.Lib CloveDb.Fields
open Nat (ofDigits)

/-! ## The accumulator -/

inductive Sum where
  | integer (n : I128)
  | decimal (text : String)
  deriving DecidableEq

def maxSumDigits : Nat := 4096

def maxSumExponent : Int := 4096

/-- The digits stand least significant first; no digits are zero. -/
structure Accumulator where
  digits : List Nat := []
  negative : Bool := false
  power : Int := 0
  fractional : Bool := false

/-- `usize::try_from` -/
def usizeOf (n : Int) : Option Nat := if 0 ≤ n ∧ n < 2 ^ 64 then some n.toNat else none

/-- Two aligned vectors with their signs: the digits of the sum, before zeros are dropped, and its sign. -/
def combine (negative negative' : Bool) (left right : List Nat) : List Nat × Bool :=
  if negative = negative' then
    let (digits, carry) := addInto 10 (left ++ List.replicate (right.length - left.length) 0) right 0
    (if 0 < carry then digits ++ [carry] else digits, negative)
  else if (ordering left.length right.length).then (ordering left.reverse right.reverse) = .lt then
    ((subFrom 10 right left 0).1, negative')
  else ((subFrom 10 left right 0).1, negative)

namespace Accumulator

/-- Zeros at both ends are dropped, those below the first digit into the power. -/
def trim (a : Accumulator) : Accumulator :=
  let digits := a.digits.rdropWhile (· == 0)
  let zeros := (digits.takeWhile (· == 0)).length
  { a with digits := digits.drop zeros, power := a.power + zeros }

/-- The part of `add` for a sum that is not zero. -/
def merge (a : Accumulator) (negative : Bool) (power : Int) (right : List Nat) : Result Accumulator :=
  let common := min a.power power
  match usizeOf (a.power - common), usizeOf (power - common) with
  | some leftPadding, some rightPadding =>
      if maxSumDigits < max (a.digits.length + leftPadding) (right.length + rightPadding) then
        .error .decimalSumLimit
      else
        let (digits, sign) := combine a.negative negative (List.replicate leftPadding 0 ++ a.digits)
          (List.replicate rightPadding 0 ++ right)
        let sum := trim { a with digits := digits, negative := sign, power := common }
        if maxSumDigits < sum.digits.length then .error .decimalSumLimit else .ok sum
  | _, _ => .error .decimalSumLimit

variable (tools : PageTools)

/-- `Accumulator::add` -/
def add (a : Accumulator) (token : String) : Result Accumulator := do
  let value ← Codec.Decimal.parse tools.toOutside token
  if value.digits.isEmpty then .ok a
  else
    match I128.ofInt? (value.exponent.val - value.digits.length) with
    | none => .error .decimalSumLimit
    | some power =>
        if ¬(-maxSumExponent ≤ power.val ∧ power.val ≤ maxSumExponent) ∨ maxSumDigits < value.digits.length then
          .error .decimalSumLimit
        else
          let a := { a with fractional := a.fractional || decide (power.val < 0) }
          let right := value.digits.reverse.map digitValue
          if a.digits.isEmpty then .ok { a with digits := right, negative := value.negative, power := power.val }
          else a.merge value.negative power.val right

/-- The token `finish` hands to the codec. -/
def token (a : Accumulator) : String :=
  (if a.negative then "-" else "") ++ String.ofList (a.digits.reverse.map fun v => Char.ofNat ('0'.toNat + v)) ++ "e"
    ++ toString a.power

/-- `Accumulator::finish` -/
def finish (a : Accumulator) : Result Sum :=
  if a.digits.isEmpty then .ok (if a.fractional then .decimal "0" else .integer Codec.zeroI128)
  else if ¬(-maxSumExponent ≤ a.power ∧ a.power ≤ maxSumExponent) then .error .decimalSumLimit
  else if a.fractional then do
    let text ← canonicalNumber tools a.token
    return .decimal text
  else do
    let n ← Codec.integer tools.toOutside a.token
    return .integer n

end Accumulator

/-- Tokens fed to an accumulator in their order, and what it finishes with. -/
def sumTokens (tools : PageTools) (tokens : List String) : Result Sum := do
  let a ← tokens.foldlM (fun (a : Accumulator) token => a.add tools token) {}
  a.finish tools

/-! ## What a sum denotes -/

/-- The number has digits behind the point. -/
def HasFraction (token : String) : Prop := ¬∃ n : ℤ, numeralValue token.toList = n

/-- The exact sum of tokens. -/
def exactSum (tokens : List String) : ℚ := (tokens.map fun token => numeralValue token.toList).sum

namespace Accumulator

def value (a : Accumulator) : ℚ := signOf a.negative * (ofDigits 10 a.digits : ℕ) * 10 ^ a.power

/-- Decimal digits without zeros at either end. -/
structure Normal (a : Accumulator) : Prop where
  below : Below 10 a.digits
  top : TopNonzero a.digits
  bottom : a.digits.head? ≠ some 0

end Accumulator

/-! ## One addition -/

theorem combine_same {left right : List Nat} (hleft : Below 10 left) (hright : Below 10 right) (negative : Bool) :
    (combine negative negative left right).2 = negative ∧ Below 10 (combine negative negative left right).1 ∧
      ofDigits 10 (combine negative negative left right).1 = ofDigits 10 left + ofDigits 10 right := by
  have hpadded : Below 10 (left ++ List.replicate (right.length - left.length) 0) :=
    hleft.append (Below.zeros (by decide) _)
  have hlen : right.length ≤ (left ++ List.replicate (right.length - left.length) 0).length := by
    rw [List.length_append, List.length_replicate]
    omega
  have hvalue := addInto_value (b := 10) _ right 0 hlen
  have hbelow := addInto_below (b := 10) (by decide) (left ++ List.replicate (right.length - left.length) 0) right 0
  have hcarry := addInto_carry hpadded hright (by decide) (Nat.zero_le 1)
  have hlength := addInto_length (b := 10) (left ++ List.replicate (right.length - left.length) 0) right 0
  rw [Nat.ofDigits_append_replicate_zero, ← hlength] at hvalue
  rw [combine, if_pos rfl]
  generalize addInto 10 (left ++ List.replicate (right.length - left.length) 0) right 0 = sum at *
  obtain ⟨digits, carry⟩ := sum
  refine ⟨rfl, ?_⟩
  by_cases hzero : 0 < carry
  · simp only [if_pos hzero]
    refine ⟨hbelow.append fun d hd => ?_, ?_⟩
    · rw [List.mem_singleton.mp hd]
      exact lt_of_le_of_lt hcarry (by decide)
    · rw [Nat.ofDigits_append, Nat.ofDigits_singleton]
      exact hvalue
  · simp only [if_neg hzero]
    refine ⟨hbelow, ?_⟩
    rw [Nat.eq_zero_of_not_pos hzero] at hvalue
    exact hvalue

/-- The smaller vector is taken from the larger one. -/
theorem sub_spec {large small : List Nat} (hlarge : Below 10 large) (hsmall : Below 10 small)
    (hltop : TopNonzero small) (hle : ofDigits 10 small ≤ ofDigits 10 large) :
    Below 10 (subFrom 10 large small 0).1 ∧
      ofDigits 10 (subFrom 10 large small 0).1 + ofDigits 10 small = ofDigits 10 large := by
  have hlen : small.length ≤ large.length := by
    by_contra hlt
    exact absurd (ofDigits_lt_of_length_lt (by decide) hlarge hltop (Nat.lt_of_not_le hlt)) (Nat.not_lt.mpr hle)
  exact ⟨(subFrom_spec hlarge hsmall hlen (Nat.zero_le 1)).1, subFrom_value (by decide) hlarge hsmall hlen hle⟩

theorem combine_spec {left right : List Nat} (hleft : Below 10 left) (hright : Below 10 right)
    (hltop : TopNonzero left) (hrtop : TopNonzero right) (negative negative' : Bool) :
    Below 10 (combine negative negative' left right).1 ∧
      signOf (combine negative negative' left right).2 * (ofDigits 10 (combine negative negative' left right).1 : ℕ)
        = signOf negative * (ofDigits 10 left : ℕ) + signOf negative' * (ofDigits 10 right : ℕ) := by
  by_cases hsign : negative = negative'
  · subst hsign
    obtain ⟨hnegative, hbelow, hvalue⟩ := combine_same hleft hright negative
    refine ⟨hbelow, ?_⟩
    rw [hnegative, hvalue]
    push_cast
    ring
  · have hopposite : signOf negative' = -signOf negative := by
      cases negative <;> cases negative' <;> simp_all [signOf]
    have horder := ordering_ofDigits (by decide) hleft hright hltop hrtop
    rw [combine, if_neg hsign]
    split
    · rename_i hlt
      rw [horder, ordering_lt] at hlt
      obtain ⟨hbelow, hvalue⟩ := sub_spec hright hleft hltop hlt.le
      refine ⟨hbelow, ?_⟩
      rw [hopposite, ← hvalue]
      push_cast
      ring
    · rename_i hge
      rw [horder, ordering_lt] at hge
      obtain ⟨hbelow, hvalue⟩ := sub_spec hleft hright hrtop (Nat.le_of_not_lt hge)
      refine ⟨hbelow, ?_⟩
      rw [hopposite, ← hvalue]
      push_cast
      ring

namespace Accumulator

theorem trim_spec {a : Accumulator} (h : Below 10 a.digits) :
    a.trim.Normal ∧ a.trim.value = a.value ∧ a.power ≤ a.trim.power := by
  have hdigits : a.trim.digits = (a.digits.rdropWhile (· == 0)).dropWhile (· == 0) := drop_takeWhile _ _
  refine ⟨⟨?_, ?_, ?_⟩, ?_, ?_⟩
  · rw [hdigits]
    intro d hd
    exact h d ((List.rdropWhile_prefix _ _).subset ((List.dropWhile_suffix _).subset hd))
  · rw [hdigits]
    exact (topNonzero_rdropWhile _).dropWhile
  · rw [hdigits]
    exact head_dropWhile_zero _
  · have hpower : a.trim.power = a.power + ((a.digits.rdropWhile (· == 0)).takeWhile (· == 0)).length := rfl
    rw [value, value, hdigits, hpower, ← ofDigits_rdropWhile 10 a.digits, ofDigits_dropWhile 10 (a.digits.rdropWhile _),
      zpow_add₀ (by norm_num), zpow_natCast]
    push_cast
    show signOf a.negative * _ * _ = _
    ring
  · show a.power ≤ a.power + _
    omega

theorem usizeOf_some {n : Int} {k : Nat} (h : usizeOf n = some k) : (k : Int) = n := by
  unfold usizeOf at h
  split at h
  · cases h
    omega
  · cases h

/-- Zeros below the digits, to reach a smaller power. -/
theorem padded_spec {digits : List Nat} {power common : Int} {padding : Nat} (hbelow : Below 10 digits)
    (htop : TopNonzero digits) (hne : digits ≠ []) (hpadding : usizeOf (power - common) = some padding) :
    Below 10 (List.replicate padding 0 ++ digits) ∧ TopNonzero (List.replicate padding 0 ++ digits) ∧
      ((ofDigits 10 (List.replicate padding 0 ++ digits) : ℕ) : ℚ) * 10 ^ common = (ofDigits 10 digits : ℕ) * 10 ^ power := by
  refine ⟨(Below.zeros (by decide) padding).append hbelow, ?_, ?_⟩
  · unfold TopNonzero
    rw [List.getLast?_append_of_ne_nil _ hne]
    exact htop
  · have hpower : power = padding + common := by
      have := usizeOf_some hpadding
      omega
    rw [ofDigits_zeros_append, hpower, zpow_add₀ (by norm_num), zpow_natCast]
    push_cast
    ring

theorem merge_spec {a s : Accumulator} {negative : Bool} {power : Int} {right : List Nat} (ha : a.Normal)
    (hne : a.digits ≠ []) (hright : Below 10 right) (htop : TopNonzero right) (hne' : right ≠ [])
    (h : a.merge negative power right = .ok s) :
    s.Normal ∧ s.value = a.value + signOf negative * (ofDigits 10 right : ℕ) * 10 ^ power ∧
      s.fractional = a.fractional ∧ min a.power power ≤ s.power := by
  unfold merge at h
  dsimp only at h
  split at h
  · rename_i leftPadding rightPadding hleftPadding hrightPadding
    obtain ⟨hl, hlt, hlv⟩ := padded_spec ha.below ha.top hne hleftPadding
    obtain ⟨hr, hrt, hrv⟩ := padded_spec hright htop hne' hrightPadding
    obtain ⟨hbelow, hvalue⟩ := combine_spec hl hr hlt hrt a.negative negative
    split at h
    · cases h
    · split at h
      · cases h
      · cases h
        obtain ⟨hnormal, htrim, hpower⟩ := trim_spec hbelow (a := { a with
          digits := (combine a.negative negative _ _).1, negative := (combine a.negative negative _ _).2,
          power := min a.power power })
        refine ⟨hnormal, ?_, rfl, hpower⟩
        rw [htrim, value, value, hvalue, add_mul, mul_assoc, hlv, mul_assoc, hrv]
        ring
  · cases h

/-- What the digits of a token that is not zero contribute. -/
theorem right_spec {d : Codec.Decimal} (hd : d.Normal) (hne : d.digits ≠ []) :
    let right := d.digits.reverse.map digitValue
    Below 10 right ∧ TopNonzero right ∧ right.head? ≠ some 0 ∧ right ≠ [] ∧
      signOf d.negative * (ofDigits 10 right : ℕ) * 10 ^ (d.exponent.val - d.digits.length) = d.value := by
  have hzero : ∀ c ∈ d.digits, digitValue c = 0 → c = '0' := by
    intro c hc hvalue
    by_contra hne
    exact absurd hvalue (digitValue_pos (hd.digits c hc) hne).ne'
  refine ⟨?_, ?_, ?_, ?_, ?_⟩
  · intro v hv
    obtain ⟨c, hc, rfl⟩ := List.mem_map.mp hv
    exact Nat.lt_succ_of_le (digitValue_le (hd.digits c (List.mem_reverse.mp hc)))
  · intro hlast
    rw [List.getLast?_map, List.getLast?_reverse] at hlast
    obtain ⟨c, hc, hvalue⟩ := Option.map_eq_some_iff.mp hlast
    exact hd.first (hc.trans (congrArg some (hzero c (List.mem_of_head? hc) hvalue)))
  · intro hfirst
    rw [List.head?_map, List.head?_reverse] at hfirst
    obtain ⟨c, hc, hvalue⟩ := Option.map_eq_some_iff.mp hfirst
    exact hd.last (hc.trans (congrArg some (hzero c (List.mem_of_getLast? hc) hvalue)))
  · simp [hne]
  · rw [ofDigits_digitValue, ← Codec.Decimal.value_eq]

end Accumulator

/-! ## Whole tokens -/

/-- A number is whole exactly if the power of its last digit is not negative. -/
theorem whole_iff {d : Codec.Decimal} (hd : d.Normal) (hne : d.digits ≠ []) :
    (∃ n : ℤ, d.value = n) ↔ 0 ≤ d.exponent.val - d.digits.length := by
  constructor
  · rintro ⟨n, hn⟩
    by_contra hneg
    obtain ⟨hbelow, -, hfirst, hright, hvalue⟩ := Accumulator.right_spec hd hne
    obtain ⟨v, vs, hcons⟩ := List.exists_cons_of_ne_nil hright
    rw [hcons] at hbelow hfirst hvalue
    obtain ⟨k, hk⟩ : ∃ k : Nat, d.exponent.val - d.digits.length = -(k + 1 : ℕ) :=
      ⟨(-(d.exponent.val - d.digits.length) - 1).toNat, by omega⟩
    -- the last digit would be a multiple of ten
    have hmul : signOf d.negative * (ofDigits 10 (v :: vs) : ℕ) = n * 10 ^ (k + 1) := by
      rw [hk, zpow_neg, zpow_natCast, hn] at hvalue
      rw [← hvalue]
      field_simp
    obtain ⟨sign, hsign, hone⟩ : ∃ z : ℤ, signOf d.negative = z ∧ (z = 1 ∨ z = -1) := by
      cases d.negative
      · exact ⟨1, by simp [signOf], .inl rfl⟩
      · exact ⟨-1, by simp [signOf], .inr rfl⟩
    obtain ⟨m, hm⟩ : ∃ m : ℕ, ofDigits 10 (v :: vs) = v + 10 * m := ⟨_, Nat.ofDigits_cons⟩
    have hint : sign * (v + 10 * m : ℕ) = n * 10 ^ (k + 1) := by
      rw [hsign, hm] at hmul
      exact_mod_cast hmul
    have hten : (10 : ℤ) ∣ n * 10 ^ (k + 1) := Dvd.dvd.mul_left (dvd_pow_self 10 (Nat.succ_ne_zero k)) n
    have hv : v < 10 := hbelow v List.mem_cons_self
    have hzero : v = 0 := by
      rw [← hint] at hten
      rcases hone with rfl | rfl <;> omega
    exact hfirst (congrArg some hzero)
  · intro hpos
    exact ⟨_, d.value_whole (k := (d.exponent.val - d.digits.length).toNat) (by omega)⟩

namespace Accumulator

/-- **What an accumulator has taken in.** -/
structure Accumulates (a : Accumulator) (tokens : List String) : Prop where
  normal : a.Normal
  value : a.value = exactSum tokens
  fractional : a.fractional = true ↔ ∃ token ∈ tokens, HasFraction token
  whole : a.fractional = false → a.digits = [] ∨ 0 ≤ a.power

theorem accumulates_nil : Accumulates {} [] where
  normal := ⟨fun d hd => absurd hd List.not_mem_nil, by simp [TopNonzero], by simp⟩
  value := by simp [value, exactSum]
  fractional := by simp
  whole _ := .inl rfl

theorem exactSum_concat (tokens : List String) (token : String) :
    exactSum (tokens ++ [token]) = exactSum tokens + numeralValue token.toList := by
  simp [exactSum]

/-- One token more. -/
theorem Accumulates.concat {a s : Accumulator} {tokens : List String} {token : String} (h : Accumulates a tokens)
    (hnormal : s.Normal) (hvalue : s.value = a.value + numeralValue token.toList)
    (hfraction : s.fractional = true ↔ a.fractional = true ∨ HasFraction token)
    (hwhole : s.fractional = false → s.digits = [] ∨ 0 ≤ s.power) : Accumulates s (tokens ++ [token]) where
  normal := hnormal
  value := by rw [hvalue, h.value, exactSum_concat]
  fractional := by
    rw [hfraction, h.fractional]
    simp [or_and_right, exists_or]
  whole := hwhole

variable {tools : PageTools}

/-- **A token moves the sum by the number it spells.** -/
theorem add_spec (hreads : ReadsNumbers tools.toOutside) {a s : Accumulator} {tokens : List String} {token : String}
    (htoken : jsonNumber token.toList = true) (ha : Accumulates a tokens) (h : a.add tools token = .ok s) :
    Accumulates s (tokens ++ [token]) := by
  obtain ⟨d, hparse, h⟩ := bind_eq_ok.mp h
  obtain ⟨hd, hdvalue⟩ := Codec.parse_value hreads htoken hparse
  split at h
  · rename_i hempty
    cases h
    have hzero : numeralValue token.toList = 0 := by
      rw [← hdvalue, Codec.Decimal.value, List.isEmpty_iff.mp hempty]
      simp [fracOf]
    refine ha.concat ha.normal (by rw [hzero, add_zero]) ?_ ha.whole
    have hnone : ¬HasFraction token := fun hno => hno ⟨0, by rw [hzero]; rfl⟩
    simp [hnone]
  · rename_i hempty
    have hne : d.digits ≠ [] := fun hnil => hempty (by rw [hnil]; rfl)
    obtain ⟨hbelow, htop, hbottom, hright, hcontribution⟩ := right_spec hd hne
    split at h
    · cases h
    · rename_i power hpower
      rw [← Codec.ofInt?_val hpower, hdvalue] at hcontribution
      have hfraction : (a.fractional || decide (power.val < 0)) = true ↔ a.fractional = true ∨ HasFraction token := by
        rw [Bool.or_eq_true, decide_eq_true_iff, HasFraction, ← hdvalue, whole_iff hd hne,
          ← Codec.ofInt?_val hpower, Int.not_le]
      have hwhole : (a.fractional || decide (power.val < 0)) = false → a.fractional = false ∧ 0 ≤ power.val := by
        intro hno
        rw [Bool.or_eq_false_iff, decide_eq_false_iff_not] at hno
        exact ⟨hno.1, Int.not_lt.mp hno.2⟩
      split at h
      · cases h
      · dsimp only at h
        split at h
        · rename_i hstart
          cases h
          have hzero : a.value = 0 := by
            rw [value, List.isEmpty_iff.mp hstart]
            simp
          refine ha.concat ⟨hbelow, htop, hbottom⟩ ?_ hfraction fun hno => .inr (hwhole hno).2
          rw [hzero, zero_add]
          exact hcontribution
        · rename_i hstart
          have hne' : a.digits ≠ [] := fun hnil => hstart (by rw [hnil]; rfl)
          obtain ⟨hnormal, hvalue, hfrac, hmin⟩ := merge_spec (a := { a with
            fractional := a.fractional || decide (power.val < 0) }) ⟨ha.normal.below, ha.normal.top, ha.normal.bottom⟩
            hne' hbelow htop hright h
          refine ha.concat hnormal (by rw [hvalue, hcontribution]; rfl) (by rw [hfrac]; exact hfraction) fun hno => ?_
          rw [hfrac] at hno
          obtain ⟨hold, hpos⟩ := hwhole hno
          rcases ha.whole hold with hnil | hpos'
          · exact absurd hnil hne'
          · exact .inr ((le_min hpos' hpos).trans hmin)

theorem add_error (hreads : ReadsNumbers tools.toOutside) {a : Accumulator} {token : String}
    (htoken : jsonNumber token.toList = true) : a.add tools token ≠ .error .sumOverflow := by
  intro h
  rcases bind_eq_error.mp h with hparse | ⟨d, -, h⟩
  · cases Codec.parse_error hreads htoken hparse
  · split at h
    · cases h
    · split at h
      · cases h
      · split at h
        · cases h
        · dsimp only at h
          split at h
          · cases h
          · unfold merge at h
            dsimp only at h
            split at h
            · split at h
              · cases h
              · split at h <;> cases h
            · cases h

/-- **Tokens taken one after the other.** -/
theorem foldlM_spec (hreads : ReadsNumbers tools.toOutside) {rest : List String} :
    ∀ {a : Accumulator} {tokens : List String}, (∀ token ∈ rest, jsonNumber token.toList = true) →
      Accumulates a tokens →
      (∃ s, rest.foldlM (fun (a : Accumulator) token => a.add tools token) a = .ok s ∧ Accumulates s (tokens ++ rest)) ∨
        ∃ e, e ≠ .sumOverflow ∧ rest.foldlM (fun (a : Accumulator) token => a.add tools token) a = .error e := by
  induction rest with
  | nil =>
      intro a tokens _ ha
      exact .inl ⟨a, rfl, by rwa [List.append_nil]⟩
  | cons token rest ih =>
      intro a tokens hrest ha
      have htoken := hrest token List.mem_cons_self
      rw [List.foldlM_cons]
      cases hadd : a.add tools token with
      | error e =>
          refine .inr ⟨e, ?_, rfl⟩
          rintro rfl
          exact add_error hreads htoken hadd
      | ok s =>
          have hs := add_spec hreads htoken ha hadd
          rw [← List.singleton_append, ← List.append_assoc]
          exact ih (fun t ht => hrest t (List.mem_cons_of_mem _ ht)) hs

/-! ## The result -/

/-- The characters of a sum's digits. -/
theorem digitChars_spec {a : Accumulator} (ha : a.Normal) (hne : a.digits ≠ []) :
    let chars := a.digits.reverse.map fun v => Char.ofNat ('0'.toNat + v)
    Significant chars ∧ natOf chars = ofDigits 10 a.digits := by
  have hchar : ∀ v < 10, (Char.ofNat ('0'.toNat + v)).isDigit = true ∧ digitValue (Char.ofNat ('0'.toNat + v)) = v := by
    decide
  have hzero : ∀ v < 10, Char.ofNat ('0'.toNat + v) = '0' → v = 0 := by decide
  refine ⟨⟨?_, ?_, ?_, ?_⟩, ?_⟩
  · intro c hc
    obtain ⟨v, hv, rfl⟩ := List.mem_map.mp hc
    exact (hchar v (ha.below v (List.mem_reverse.mp hv))).1
  · simp [hne]
  · intro hfirst
    rw [List.head?_map, List.head?_reverse] at hfirst
    obtain ⟨v, hv, hvalue⟩ := Option.map_eq_some_iff.mp hfirst
    exact ha.top (hv.trans (congrArg some (hzero v (ha.below v (List.mem_of_getLast? hv)) hvalue)))
  · intro hlast
    rw [List.getLast?_map, List.getLast?_reverse] at hlast
    obtain ⟨v, hv, hvalue⟩ := Option.map_eq_some_iff.mp hlast
    exact ha.bottom (hv.trans (congrArg some (hzero v (ha.below v (List.mem_of_head? hv)) hvalue)))
  · rw [← ofDigits_digitValue, ← List.map_reverse, List.reverse_reverse, List.map_map]
    congr 1
    conv_rhs => rw [← List.map_id a.digits]
    exact List.map_congr_left fun v hv => (hchar v (ha.below v hv)).2

theorem toList_token (a : Accumulator) :
    a.token.toList = spelled a.negative (a.digits.reverse.map fun v => Char.ofNat ('0'.toNat + v)) a.power := by
  unfold token spelled
  rw [String.toList_append, String.toList_append, String.toList_append, String.toList_ofList, List.append_assoc]
  cases a.negative <;> rfl

/-- The token of a sum is read back as the sum. -/
theorem token_spec (hreads : ReadsNumbers tools.toOutside) {a : Accumulator} (ha : a.Normal) (hne : a.digits ≠ []) :
    jsonNumber a.token.toList = true ∧ ∀ d, Codec.Decimal.parse tools.toOutside a.token = .ok d →
      Significant d.digits ∧ d.value = a.value ∧ d.exponent.val - d.digits.length = a.power := by
  obtain ⟨hchars, hnat⟩ := digitChars_spec ha hne
  have hjson : jsonNumber a.token.toList = true := by
    rw [toList_token]
    exact jsonNumber_spelled hchars a.negative a.power
  refine ⟨hjson, fun d hparse => ?_⟩
  obtain ⟨hd, hdvalue⟩ := Codec.parse_value hreads hjson hparse
  rw [toList_token, numeralValue_spelled hchars.digits hchars.nonempty] at hdvalue
  have hpos := hchars.pos a.power
  have hdne : d.digits ≠ [] := by
    intro hnil
    rw [Codec.Decimal.value, hnil, fracOf, mul_zero, zero_mul, mul_assoc] at hdvalue
    rcases mul_eq_zero.mp hdvalue.symm with hsign | hzero
    · cases hneg : a.negative <;> simp [signOf, hneg] at hsign
    · exact hpos.ne' hzero
  have hsig : Significant d.digits := ⟨hd.digits, hdne, hd.first, hd.last⟩
  rw [Codec.Decimal.value_eq] at hdvalue
  refine ⟨hsig, ?_, (hsig.unique hchars hdvalue).2.2⟩
  rw [Codec.Decimal.value_eq, hdvalue, hnat]
  rfl

end Accumulator

theorem toList_canonical (d : Codec.Decimal) (power : Int) :
    ((if d.negative then "-" else "") ++ String.ofList d.digits ++ "e" ++ toString power).toList
      = spelled d.negative d.digits power := by
  unfold spelled
  rw [String.toList_append, String.toList_append, String.toList_append, String.toList_ofList, List.append_assoc]
  cases d.negative <;> rfl

theorem canonicalNumber_spec {tools : PageTools} {token text : String} {d : Codec.Decimal}
    (hparse : Codec.Decimal.parse tools.toOutside token = .ok d) (hd : Significant d.digits)
    (h : canonicalNumber tools token = .ok text) : CanonicalSpelling text d.value := by
  unfold canonicalNumber at h
  rw [hparse, ok_bind, if_neg (by simp [hd.nonempty])] at h
  split at h
  · cases h
  · rename_i power hpower
    cases h
    refine .inr ⟨d.negative, d.digits, power.val, hd, toList_canonical d power.val, ?_⟩
    rw [Codec.ofInt?_val hpower, Codec.Decimal.value_eq]

/-- The sum is the exact one: an integer if no token has digits behind the point, else in its canonical spelling. -/
def Sum.Denotes (tokens : List String) : Sum → Prop
  | .integer n => (∀ token ∈ tokens, ¬HasFraction token) ∧ (n.val : ℚ) = exactSum tokens
  | .decimal text => (∃ token ∈ tokens, HasFraction token) ∧ CanonicalSpelling text (exactSum tokens)

namespace Accumulator

variable {tools : PageTools}

theorem Accumulates.none_fractional {a : Accumulator} {tokens : List String} (ha : Accumulates a tokens)
    (h : a.fractional ≠ true) : ∀ token ∈ tokens, ¬HasFraction token :=
  fun token htoken hfraction => h (ha.fractional.mpr ⟨token, htoken, hfraction⟩)

/-- A whole sum as an `i128`. -/
theorem integer_token (hreads : ReadsNumbers tools.toOutside) {a : Accumulator} (ha : a.Normal) (hne : a.digits ≠ [])
    (hlimit : a.power ≤ maxSumExponent) (hwhole : 0 ≤ a.power) :
    (∃ n, Codec.integer tools.toOutside a.token = .ok n ∧ (n.val : ℚ) = a.value) ∨
      (Codec.integer tools.toOutside a.token = .error .sumOverflow ∧ ¬(-2 ^ 127 ≤ a.value ∧ a.value < 2 ^ 127)) ∨
      ∃ message, Codec.integer tools.toOutside a.token = .error (.validation message) := by
  obtain ⟨hjson, hread⟩ := token_spec hreads ha hne
  cases hparse : Codec.Decimal.parse tools.toOutside a.token with
  | error e =>
      refine .inr (.inr ⟨"numeric exponent exceeds i128", ?_⟩)
      rw [Codec.integer, hparse, Codec.parse_error hreads hjson hparse]
      rfl
  | ok d =>
      obtain ⟨hsig, hvalue, hpower⟩ := hread d hparse
      have hsmall : -2 ^ 127 ≤ a.power ∧ a.power < 2 ^ 127 := by
        unfold maxSumExponent at hlimit
        omega
      have hfits : I128.ofInt? (d.exponent.val - d.digits.length) = some ⟨a.power, hsmall⟩ := by
        rw [hpower, I128.ofInt?, dif_pos hsmall]
      rw [← hvalue]
      rcases Codec.integer_spec hparse hsig hfits hwhole with hok | herr
      · exact .inl hok
      · exact .inr (.inl herr)

/-- A sum that is not fractional and not zero has a power that is not negative. -/
theorem Accumulates.power_nonneg {a : Accumulator} {tokens : List String} (ha : Accumulates a tokens)
    (hne : a.digits ≠ []) (h : ¬a.fractional = true) : 0 ≤ a.power :=
  (ha.whole (Bool.not_eq_true _ ▸ h)).resolve_left hne

theorem finish_ok (hreads : ReadsNumbers tools.toOutside) {a : Accumulator} {tokens : List String} {s : Sum}
    (ha : Accumulates a tokens) (h : a.finish tools = .ok s) : s.Denotes tokens := by
  unfold finish at h
  split at h
  · rename_i hempty
    have hzero : exactSum tokens = 0 := by
      rw [← ha.value, Accumulator.value, List.isEmpty_iff.mp hempty]
      simp
    cases h
    split
    · rename_i hfractional
      exact ⟨ha.fractional.mp hfractional, .inl ⟨hzero, rfl⟩⟩
    · rename_i hfractional
      refine ⟨ha.none_fractional hfractional, ?_⟩
      rw [hzero]
      rfl
  · rename_i hempty
    have hne : a.digits ≠ [] := fun hnil => hempty (by rw [hnil]; rfl)
    obtain ⟨hjson, hread⟩ := token_spec hreads ha.normal hne
    split at h
    · cases h
    · rename_i hlimit
      split at h
      · rename_i hfractional
        obtain ⟨text, htext, h⟩ := bind_eq_ok.mp h
        cases h
        obtain ⟨d, hparse, -⟩ := bind_eq_ok.mp htext
        obtain ⟨hsig, hvalue, -⟩ := hread d hparse
        refine ⟨ha.fractional.mp hfractional, ?_⟩
        rw [← ha.value, ← hvalue]
        exact canonicalNumber_spec hparse hsig htext
      · rename_i hfractional
        obtain ⟨n, hn, h⟩ := bind_eq_ok.mp h
        cases h
        refine ⟨ha.none_fractional hfractional, ?_⟩
        rw [← ha.value]
        rcases integer_token hreads ha.normal hne (not_not.mp hlimit).2 (ha.power_nonneg hne hfractional) with
          ⟨m, hm, hvalue⟩ | ⟨herr, -⟩ | ⟨message, herr⟩
        · rw [hm] at hn
          cases hn
          exact hvalue
        · rw [herr] at hn
          cases hn
        · rw [herr] at hn
          cases hn

theorem finish_overflow (hreads : ReadsNumbers tools.toOutside) {a : Accumulator} {tokens : List String}
    (ha : Accumulates a tokens) (h : a.finish tools = .error .sumOverflow) :
    (∀ token ∈ tokens, ¬HasFraction token) ∧ ¬(-2 ^ 127 ≤ exactSum tokens ∧ exactSum tokens < 2 ^ 127) := by
  unfold finish at h
  split at h
  · cases h
  · rename_i hempty
    have hne : a.digits ≠ [] := fun hnil => hempty (by rw [hnil]; rfl)
    obtain ⟨hjson, -⟩ := token_spec hreads ha.normal hne
    split at h
    · cases h
    · rename_i hlimit
      split at h
      · -- the canonical spelling has errors of its own
        rcases bind_eq_error.mp h with h | ⟨text, -, h⟩
        · rcases bind_eq_error.mp h with hparse | ⟨d, -, h⟩
          · cases Codec.parse_error hreads hjson hparse
          · split at h
            · cases h
            · split at h <;> cases h
        · cases h
      · rename_i hfractional
        refine ⟨ha.none_fractional hfractional, ?_⟩
        rw [← ha.value]
        rcases bind_eq_error.mp h with h | ⟨n, -, h⟩
        · rcases integer_token hreads ha.normal hne (not_not.mp hlimit).2 (ha.power_nonneg hne hfractional) with
            ⟨m, hm, -⟩ | ⟨-, hrange⟩ | ⟨message, herr⟩
          · rw [hm] at h
            cases h
          · exact hrange
          · rw [herr] at h
            cases h
        · cases h

end Accumulator

/-! ## The sum of a list -/

section

variable {tools : PageTools} {tokens : List String}

theorem sumTokens_ok (hreads : ReadsNumbers tools.toOutside) (htokens : ∀ token ∈ tokens, jsonNumber token.toList = true)
    {s : Sum} (h : sumTokens tools tokens = .ok s) : s.Denotes tokens := by
  obtain ⟨a, ha, hfinish⟩ := bind_eq_ok.mp h
  rcases Accumulator.foldlM_spec hreads htokens Accumulator.accumulates_nil with ⟨a', ha', hacc⟩ | ⟨e, -, herr⟩
  · rw [ha'] at ha
    cases ha
    exact Accumulator.finish_ok hreads hacc hfinish
  · rw [herr] at ha
    cases ha

theorem sumTokens_overflow (hreads : ReadsNumbers tools.toOutside)
    (htokens : ∀ token ∈ tokens, jsonNumber token.toList = true) (h : sumTokens tools tokens = .error .sumOverflow) :
    (∀ token ∈ tokens, ¬HasFraction token) ∧ ¬(-2 ^ 127 ≤ exactSum tokens ∧ exactSum tokens < 2 ^ 127) := by
  rcases Accumulator.foldlM_spec hreads htokens Accumulator.accumulates_nil with ⟨a, ha, hacc⟩ | ⟨e, hne, herr⟩
  · rw [sumTokens, ha] at h
    exact Accumulator.finish_overflow hreads hacc h
  · rw [sumTokens, herr] at h
    exact absurd (Except.error.inj h) hne

/-- The exact sum does not know the order. -/
theorem Sum.Denotes.perm {tokens' : List String} {s : Sum} (hperm : tokens'.Perm tokens) (h : s.Denotes tokens') :
    s.Denotes tokens := by
  have hsum : exactSum tokens' = exactSum tokens := (hperm.map _).sum_eq
  cases s with
  | integer n => exact ⟨fun token htoken => h.1 token (hperm.mem_iff.mpr htoken), h.2.trans hsum⟩
  | decimal text =>
      obtain ⟨⟨token, htoken, hfraction⟩, hspelling⟩ := h
      exact ⟨⟨token, hperm.mem_iff.mp htoken, hfraction⟩, hsum ▸ hspelling⟩

/-- Tokens have one exact sum. -/
theorem Sum.Denotes.unique {s s' : Sum} (h : s.Denotes tokens) (h' : s'.Denotes tokens) : s = s' := by
  cases s with
  | integer n =>
      cases s' with
      | integer n' =>
          have hval : (n.val : ℚ) = n'.val := h.2.trans h'.2.symm
          exact congrArg Sum.integer (Subtype.ext (by exact_mod_cast hval))
      | decimal text =>
          obtain ⟨⟨token, htoken, hfraction⟩, -⟩ := h'
          exact absurd hfraction (h.1 token htoken)
  | decimal text =>
      cases s' with
      | integer n =>
          obtain ⟨⟨token, htoken, hfraction⟩, -⟩ := h
          exact absurd hfraction (h'.1 token htoken)
      | decimal text' => exact congrArg Sum.decimal (h.2.unique h'.2)

end

/-- **The sum of a column is exact.** A sum that is returned is the rational sum of the tokens, an integer unless a token has
digits behind the point; only a whole sum outside `i128` overflows; and the order of the tokens does not count. -/
theorem sum_exact (tools : PageTools) (hreads : ReadsNumbers tools.toOutside) (tokens : List String)
    (htokens : ∀ token ∈ tokens, jsonNumber token.toList = true) :
    (∀ s, sumTokens tools tokens = .ok s → s.Denotes tokens) ∧
      (sumTokens tools tokens = .error .sumOverflow →
        (∀ token ∈ tokens, ¬HasFraction token) ∧ ¬(-2 ^ 127 ≤ exactSum tokens ∧ exactSum tokens < 2 ^ 127)) ∧
      ∀ tokens', tokens'.Perm tokens → ∀ s s', sumTokens tools tokens = .ok s → sumTokens tools tokens' = .ok s' →
        s = s' := by
  refine ⟨fun s => sumTokens_ok hreads htokens, sumTokens_overflow hreads htokens, ?_⟩
  intro tokens' hperm s s' hs hs'
  have htokens' : ∀ token ∈ tokens', jsonNumber token.toList = true :=
    fun token htoken => htokens token (hperm.mem_iff.mp htoken)
  exact (sumTokens_ok hreads htokens hs).unique ((sumTokens_ok hreads htokens' hs').perm hperm)

/-- Tools that read JSON numbers and nothing else. -/
def numberTools : PageTools :=
  { Tools.listed [] with
    rawValue := fun token => if jsonNumber token.toList then some token else none
    rawValue_number := by
      intro token raw c rest h _ _
      split at h
      · rename_i hnumber
        cases h
        exact isNumber_of_jsonNumber hnumber
      · cases h
    similarityText := fun _ _ => "0"
    queryBytes := fun _ _ _ => [] }

theorem numberTools_reads : ReadsNumbers numberTools.toOutside := ⟨fun _ h => if_pos h⟩

theorem sum_exact_cancelled :
    sumTokens numberTools ["1e1", "-0.25", "-1e1"] = .ok (.decimal "-25e-2") ∧
      (Sum.decimal "-25e-2").Denotes ["1e1", "-0.25", "-1e1"] := by
  have hsum : sumTokens numberTools ["1e1", "-0.25", "-1e1"] = .ok (.decimal "-25e-2") := by decide
  exact ⟨hsum, (sum_exact numberTools numberTools_reads ["1e1", "-0.25", "-1e1"] (by decide)).1 _ hsum⟩

/-! ## One spelling for equal numbers -/

section

variable {tools : PageTools} {token text : String}

/-- What `canonical_number` returns is the canonical spelling of the number the token denotes. -/
theorem canonicalNumber_denotes (hreads : ReadsNumbers tools.toOutside) (htoken : jsonNumber token.toList = true)
    (h : canonicalNumber tools token = .ok text) : CanonicalSpelling text (numeralValue token.toList) := by
  obtain ⟨d, hparse, hrest⟩ := bind_eq_ok.mp h
  obtain ⟨hd, hvalue⟩ := Codec.parse_value hreads htoken hparse
  rw [← hvalue]
  by_cases hempty : d.digits = []
  · rw [if_pos (by rw [hempty]; rfl)] at hrest
    cases hrest
    refine .inl ⟨?_, rfl⟩
    rw [Codec.Decimal.value, hempty, fracOf, mul_zero, zero_mul]
  · exact canonicalNumber_spec hparse ⟨hd.digits, hempty, hd.first, hd.last⟩ h

/-- A canonical spelling that was returned is accepted again and stays as it is. -/
theorem canonicalNumber_again (hreads : ReadsNumbers tools.toOutside) (htoken : jsonNumber token.toList = true)
    (h : canonicalNumber tools token = .ok text) : canonicalNumber tools text = .ok text := by
  have hjson := (canonicalNumber_denotes hreads htoken h).jsonNumber_eq
  obtain ⟨d, hparse, hrest⟩ := bind_eq_ok.mp h
  obtain ⟨hd, -⟩ := Codec.parse_value hreads htoken hparse
  by_cases hempty : d.digits = []
  · rw [if_pos (by rw [hempty]; rfl)] at hrest
    cases hrest
    unfold canonicalNumber
    rw [Codec.parse_jsonNumber hreads hjson]
    rfl
  · rw [if_neg (by simp [hempty])] at hrest
    split at hrest
    · cases hrest
    · rename_i power hpower
      cases hrest
      -- the exponent that is read again is the one the digits had
      have hexponent : d.exponent.val = power.val + d.digits.length := by
        rw [Codec.ofInt?_val hpower]
        omega
      have hread := Codec.Decimal.ofText_spelled ⟨hd.digits, hempty, hd.first, hd.last⟩ d.negative power d.exponent hexponent
      unfold canonicalNumber
      rw [Codec.parse_jsonNumber hreads hjson, toList_canonical, hread, ok_bind, if_neg (by simp [hempty]), hpower]

end

/-- **Canonical numbers are canonical.** Two tokens have the same canonical spelling exactly when they denote the same
rational; a canonical spelling is a JSON number that is accepted and stays as it is; and `integer` reads a token, with any
exponent that the parser accepts, exactly when it denotes an integer of the `i128` range. -/
theorem canonical_number_canonical (tools : PageTools) (hreads : ReadsNumbers tools.toOutside) :
    (∀ a b s t : String, jsonNumber a.toList = true → jsonNumber b.toList = true → canonicalNumber tools a = .ok s →
      canonicalNumber tools b = .ok t → (s = t ↔ numeralValue a.toList = numeralValue b.toList)) ∧
    (∀ a s : String, jsonNumber a.toList = true → canonicalNumber tools a = .ok s →
      jsonNumber s.toList = true ∧ canonicalNumber tools s = .ok s) ∧
    ∀ (a : String) (d : Codec.Decimal), jsonNumber a.toList = true → Codec.Decimal.parse tools.toOutside a = .ok d →
      ∀ n : I128, Codec.integer tools.toOutside a = .ok n ↔ numeralValue a.toList = n.val := by
  refine ⟨?_, ?_, ?_⟩
  · intro a b s t ha hb hs ht
    have hspells := canonicalNumber_denotes hreads ha hs
    have hspellt := canonicalNumber_denotes hreads hb ht
    constructor
    · rintro rfl
      rw [← hspells.numeralValue_eq, ← hspellt.numeralValue_eq]
    · intro heq
      rw [heq] at hspells
      exact hspells.unique hspellt
  · intro a s ha hs
    exact ⟨(canonicalNumber_denotes hreads ha hs).jsonNumber_eq, canonicalNumber_again hreads ha hs⟩
  · intro a d ha hparse n
    obtain ⟨hd, hvalue⟩ := Codec.parse_value hreads ha hparse
    rw [← hvalue]
    exact Codec.integer_iff hparse hd n

theorem canonical_number_canonical_quarter :
    canonicalNumber numberTools "-0.250" = .ok "-25e-2" ∧ canonicalNumber numberTools "-2.5E-1" = .ok "-25e-2" ∧
      numeralValue "-0.250".toList = numeralValue "-2.5E-1".toList := by
  have hfirst : canonicalNumber numberTools "-0.250" = .ok "-25e-2" := by decide
  have hsecond : canonicalNumber numberTools "-2.5E-1" = .ok "-25e-2" := by decide
  exact ⟨hfirst, hsecond, ((canonical_number_canonical numberTools numberTools_reads).1 _ _ _ _ (by decide) (by decide)
    hfirst hsecond).mp rfl⟩

end CloveDb.Query
