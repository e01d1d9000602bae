/-
# CloveDb.Lib.Bytes — byte strings: fixed-width numbers and UTF-8 text

Byte strings are lists of `UInt8`. This module has the two ways a program writes a number of a
fixed width (most or least significant byte first), each with its decoder and round trip, and the
UTF-8 bytes of a string with the checked way back. Nothing here knows about a file or a record.
-/
import Mathlib.Data.List.Basic
import Mathlib.Data.List.Lex
import Mathlib.Data.Nat.ModEq
import Mathlib.Tactic.Common
import Mathlib.Tactic.Ring

namespace CloveDb.Lib

/-- A byte string. -/
abbrev Bytes := List UInt8

/-- Bytes are ordered by their number, so byte strings are ordered lexicographically. -/
instance linearOrderUInt8 : LinearOrder UInt8 where
  le_refl _ := UInt8.le_refl _
  le_trans _ _ _ := UInt8.le_trans
  le_antisymm _ _ := UInt8.le_antisymm
  le_total _ _ := UInt8.le_total _ _
  lt_iff_le_not_ge a b := by
    rw [UInt8.lt_iff_toNat_lt, UInt8.le_iff_toNat_le, UInt8.le_iff_toNat_le]
    omega
  toDecidableLE := inferInstance

/-! ## Numbers of a fixed width -/

/-- The `w` low bytes of `n`, most significant first. -/
def beBytes : Nat → Nat → Bytes
  | 0, _ => []
  | w + 1, n => beBytes w (n / 256) ++ [UInt8.ofNat n]

/-- The number a byte string denotes, most significant byte first. -/
def beNat (bs : Bytes) : Nat := bs.foldl (fun acc b => acc * 256 + b.toNat) 0

/-- The `w` low bytes of `n`, least significant first. -/
def leBytes : Nat → Nat → Bytes
  | 0, _ => []
  | w + 1, n => UInt8.ofNat n :: leBytes w (n / 256)

/-- The number a byte string denotes, least significant byte first. -/
def leNat : Bytes → Nat
  | [] => 0
  | b :: bs => b.toNat + 256 * leNat bs

@[simp] theorem length_beBytes (w n : Nat) : (beBytes w n).length = w := by
  induction w generalizing n with
  | zero => rfl
  | succ w ih => simp [beBytes, ih]

@[simp] theorem length_leBytes (w n : Nat) : (leBytes w n).length = w := by
  induction w generalizing n with
  | zero => rfl
  | succ w ih => simp [leBytes, ih]

theorem beNat_concat (bs : Bytes) (b : UInt8) : beNat (bs ++ [b]) = beNat bs * 256 + b.toNat := by
  simp [beNat, List.foldl_append]

/-- The low byte and the rest of a number, put together again below `256 ^ (w + 1)`. -/
theorem mod_pow_succ_split (n w : Nat) :
    n / 256 % 256 ^ w * 256 + n % 256 = n % 256 ^ (w + 1) := by
  rw [pow_succ', Nat.mod_mul]
  ring

theorem beNat_beBytes (w n : Nat) : beNat (beBytes w n) = n % 256 ^ w := by
  induction w generalizing n with
  | zero => simp [beBytes, beNat, Nat.mod_one]
  | succ w ih =>
      rw [beBytes, beNat_concat, ih, ← mod_pow_succ_split]
      simp

theorem leNat_leBytes (w n : Nat) : leNat (leBytes w n) = n % 256 ^ w := by
  induction w generalizing n with
  | zero => simp [leBytes, leNat, Nat.mod_one]
  | succ w ih =>
      rw [leBytes, leNat, ih, ← mod_pow_succ_split]
      simp only [UInt8.toNat_ofNat']
      omega

/-- A number that fits the width is read back exactly. -/
theorem beNat_beBytes_of_lt {w n : Nat} (h : n < 256 ^ w) : beNat (beBytes w n) = n := by
  rw [beNat_beBytes, Nat.mod_eq_of_lt h]

theorem leNat_leBytes_of_lt {w n : Nat} (h : n < 256 ^ w) : leNat (leBytes w n) = n := by
  rw [leNat_leBytes, Nat.mod_eq_of_lt h]

theorem leBytes_injective {w a b : Nat} (ha : a < 256 ^ w) (hb : b < 256 ^ w) (h : leBytes w a = leBytes w b) : a = b := by
  have hnat := congrArg leNat h
  rwa [leNat_leBytes_of_lt ha, leNat_leBytes_of_lt hb] at hnat

/-- A part with its length in front of it: nothing that follows belongs to it. -/
theorem sizedPart_append_inj {w : Nat} {a b x y : Bytes} (ha : a.length < 256 ^ w) (hb : b.length < 256 ^ w)
    (h : leBytes w a.length ++ (a ++ x) = leBytes w b.length ++ (b ++ y)) : a = b ∧ x = y := by
  obtain ⟨hlen, hrest⟩ := List.append_inj h (by rw [length_leBytes, length_leBytes])
  exact List.append_inj hrest (leBytes_injective ha hb hlen)

theorem leNat_lt (bs : Bytes) : leNat bs < 256 ^ bs.length := by
  induction bs with
  | nil => decide
  | cons b bs ih =>
      have hb := b.toNat_lt
      rw [leNat, List.length_cons, pow_succ]
      omega

/-- The bytes of the number that bytes are. -/
theorem leBytes_leNat (bs : Bytes) : leBytes bs.length (leNat bs) = bs := by
  induction bs with
  | nil => rfl
  | cons b bs ih =>
      have hb := b.toNat_lt
      have hlow : UInt8.ofNat (b.toNat + 256 * leNat bs) = b := by
        apply UInt8.toNat_inj.mp
        rw [UInt8.toNat_ofNat', Nat.add_mul_mod_self_left, Nat.mod_eq_of_lt hb]
      have hhigh : (b.toNat + 256 * leNat bs) / 256 = leNat bs := by omega
      rw [List.length_cons, leNat, leBytes, hlow, hhigh, ih]

/-- A fact about a byte is 256 facts. -/
theorem forall_byte {P : UInt8 → Prop} (h : ∀ n : Fin 256, P (UInt8.ofNat n)) (b : UInt8) : P b := by
  simpa using h ⟨b.toNat, b.toNat_lt⟩

/-! ## Text -/

/-- The UTF-8 bytes of a string. -/
def utf8 (s : String) : Bytes := s.toByteArray.data.toList

/-- The string a byte string spells, if it is UTF-8. -/
def fromUtf8 (bs : Bytes) : Option String := String.fromUTF8? ⟨bs.toArray⟩

theorem fromUtf8_utf8 (s : String) : fromUtf8 (utf8 s) = some s := by
  have hb : (⟨(utf8 s).toArray⟩ : ByteArray) = s.toByteArray := by
    simp [utf8]
  have hv : (⟨(utf8 s).toArray⟩ : ByteArray).IsValidUTF8 := hb ▸ s.isValidUTF8
  rw [fromUtf8, String.fromUTF8?, dif_pos hv, Option.some.injEq, ← String.toByteArray_inj]
  exact hb

theorem utf8EncodeChar_ascii {b : UInt8} (h : b < 128) : String.utf8EncodeChar (Char.ofNat b.toNat) = [b] := by
  have hall : ∀ n : Fin 128, String.utf8EncodeChar (Char.ofNat n.val) = [UInt8.ofNat n.val] := by decide
  simpa using hall ⟨b.toNat, UInt8.lt_iff_toNat_lt.mp h⟩

/-- Text of bytes below 128, one character each, is those bytes. -/
theorem utf8_ascii (bs : Bytes) (h : ∀ b ∈ bs, b < 128) :
    utf8 (String.ofList (bs.map fun b => Char.ofNat b.toNat)) = bs := by
  have hflat : (bs.map fun b => Char.ofNat b.toNat).flatMap String.utf8EncodeChar = bs := by
    induction bs with
    | nil => rfl
    | cons b bs ih =>
        rw [List.map_cons, List.flatMap_cons, utf8EncodeChar_ascii (h b List.mem_cons_self),
          ih fun b' hb => h b' (List.mem_cons_of_mem _ hb), List.singleton_append]
  rw [utf8, String.toByteArray_ofList, List.utf8Encode, hflat]
  simp

theorem utf8_injective : Function.Injective utf8 := by
  intro s t h
  have hs := fromUtf8_utf8 s
  rw [h, fromUtf8_utf8 t] at hs
  exact (Option.some.inj hs).symm

end CloveDb.Lib
