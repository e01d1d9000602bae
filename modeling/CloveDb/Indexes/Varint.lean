/-
# CloveDb.Indexes.Varint — numbers in a few bytes

`put_varint` and `get_varint` of `indexes/worker.rs`: seven bits a byte, the low ones first, the high bit
set on every byte but the last. A `u64` takes ten bytes at most.
-/
import CloveDb.Lib.Bytes
import CloveDb.Units

namespace CloveDb.Indexes

open CloveDb.Lib

/-- The bytes of a number, `fuel` of them before the last. -/
def varintBytes : Nat → Nat → Bytes
  | 0, v => [UInt8.ofNat v]
  | fuel + 1, v =>
      if 128 ≤ v then UInt8.ofNat (v % 128 + 128) :: varintBytes fuel (v / 128) else [UInt8.ofNat v]

/-- `put_varint` -/
def putVarint (v : Nat) : Bytes := varintBytes 9 v

/-- The loop of `get_varint`. The bits read so far are below `2 ^ shift`, so that adding is `|`; bits
shifted out of the word are lost. -/
def getVarintLoop : Nat → Nat → Bytes → Result (Nat × Bytes)
  | _, _, [] => .error (.validation "truncated reverse row")
  | shift, v, b :: rest =>
      let v := v + (b.toNat % 128 * 2 ^ shift) % 2 ^ 64
      if b.toNat < 128 then .ok (v, rest)
      else if 63 < shift + 7 then .error (.validation "corrupt reverse row")
      else getVarintLoop (shift + 7) v rest

/-- `get_varint` -/
def getVarint (bytes : Bytes) : Result (Nat × Bytes) := getVarintLoop 0 0 bytes

/-- The loop reads what was written, from any shift at which the rest of the number fits the word. -/
theorem getVarintLoop_varintBytes (fuel shift acc v : Nat) (rest : Bytes) (hshift : shift + 7 * fuel ≤ 63)
    (hv : v * 2 ^ shift < 2 ^ 64) (hfuel : v < 2 ^ (7 * (fuel + 1))) :
    getVarintLoop shift acc (varintBytes fuel v ++ rest) = .ok (acc + v * 2 ^ shift, rest) := by
  have hlast : ∀ {shift acc v : Nat}, v < 128 → v * 2 ^ shift < 2 ^ 64 →
      getVarintLoop shift acc ([UInt8.ofNat v] ++ rest) = .ok (acc + v * 2 ^ shift, rest) := by
    intro shift acc v hsmall hfit
    have hbyte : (UInt8.ofNat v).toNat = v := by
      rw [UInt8.toNat_ofNat', Nat.mod_eq_of_lt (by omega)]
    rw [List.singleton_append, getVarintLoop]
    rw [hbyte, if_pos hsmall, Nat.mod_eq_of_lt hsmall, Nat.mod_eq_of_lt hfit]
  induction fuel generalizing shift acc v with
  | zero => exact hlast (by simpa using hfuel) hv
  | succ fuel ih =>
      unfold varintBytes
      split
      · rename_i hbig
        have hbyte : (UInt8.ofNat (v % 128 + 128)).toNat = v % 128 + 128 := by
          rw [UInt8.toNat_ofNat', Nat.mod_eq_of_lt (by omega)]
        have hpow : 2 ^ (shift + 7) = 2 ^ shift * 128 := pow_add 2 shift 7
        have hsplit : v * 2 ^ shift = v % 128 * 2 ^ shift + v / 128 * 2 ^ (shift + 7) := by
          conv_lhs => rw [← Nat.mod_add_div v 128]
          rw [hpow]
          ring
        rw [List.cons_append, getVarintLoop]
        rw [hbyte, if_neg (by omega), if_neg (by omega),
          ih (shift + 7) _ (v / 128) (by omega) (by omega) ?_]
        · rw [show (v % 128 + 128) % 128 = v % 128 by omega,
            Nat.mod_eq_of_lt (show v % 128 * 2 ^ shift < 2 ^ 64 by omega), hsplit, Nat.add_assoc]
        · rw [Nat.div_lt_iff_lt_mul (by decide)]
          calc v < 2 ^ (7 * (fuel + 1 + 1)) := hfuel
            _ = 2 ^ (7 * (fuel + 1)) * 128 := by
                rw [show 7 * (fuel + 1 + 1) = 7 * (fuel + 1) + 7 by ring, pow_add]
                rfl
      · rename_i hsmall
        exact hlast (by omega) hv

/-- **A number is read back**, whatever follows it. -/
theorem getVarint_putVarint {v : Nat} (hv : v < 2 ^ 64) (rest : Bytes) :
    getVarint (putVarint v ++ rest) = .ok (v, rest) := by
  unfold getVarint putVarint
  rw [getVarintLoop_varintBytes 9 0 0 v rest (by decide) (by omega) (by omega)]
  simp

end CloveDb.Indexes
