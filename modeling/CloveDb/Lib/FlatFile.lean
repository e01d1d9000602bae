/-
# CloveDb.Lib.FlatFile — one flat array of bytes, read and written by position

A file is the list of its bytes. `slice` reads a range, `writeAt` overwrites one (growing the file
when it reaches past the end), `setLen` cuts the file or extends it with zeros. The lemmas say how
ranges split and join, and what a range reads after a write to the same or to another place; a
proof about a file format needs no positions of single bytes beyond them.
-/
import CloveDb.Lib.Bytes
import Mathlib.Data.List.Basic
import Mathlib.Tactic.Common

namespace CloveDb.Lib

/-- `n` zero bytes. -/
def zeros (n : Nat) : Bytes := List.replicate n 0

@[simp] theorem length_zeros (n : Nat) : (zeros n).length = n := List.length_replicate

/-- The bytes `off .. off + n`, as far as the file has them. -/
def slice (f : Bytes) (off n : Nat) : Bytes := (f.drop off).take n

/-- Overwrite the range that starts at `off`; a gap behind the end of the file is filled with
zeros. -/
def writeAt (f : Bytes) (off : Nat) (data : Bytes) : Bytes :=
  f.take off ++ zeros (off - f.length) ++ data ++ f.drop (off + data.length)

/-- Cut the file to `n` bytes, or extend it to `n` bytes with zeros. -/
def setLen (f : Bytes) (n : Nat) : Bytes := f.take n ++ zeros (n - f.length)

/-! ## Ranges -/

theorem length_slice (f : Bytes) (off n : Nat) :
    (slice f off n).length = min n (f.length - off) := by
  simp [slice]

theorem length_slice_of_le {f : Bytes} {off n : Nat} (h : off + n ≤ f.length) :
    (slice f off n).length = n := by
  rw [length_slice]
  omega

@[simp] theorem slice_zero_len (f : Bytes) (off : Nat) : slice f off 0 = [] := by
  simp [slice]

theorem slice_self (f : Bytes) : slice f 0 f.length = f := by
  simp [slice]

/-- Two ranges that meet are one range. -/
theorem slice_append_slice (f : Bytes) (off n m : Nat) :
    slice f off n ++ slice f (off + n) m = slice f off (n + m) := by
  rw [slice, slice, slice, List.take_add, List.drop_drop]

/-- A range of a range. -/
theorem slice_slice {f : Bytes} {off n a m : Nat} (h : a + m ≤ n) :
    slice (slice f off n) a m = slice f (off + a) m := by
  rw [slice, slice, slice, List.drop_take, List.drop_drop, List.take_take, min_eq_left (by omega)]

/-- A range inside the first of two strings. -/
theorem slice_append_left {f g : Bytes} {off n : Nat} (h : off + n ≤ f.length) :
    slice (f ++ g) off n = slice f off n := by
  rw [slice, slice, List.drop_append_of_le_length (by omega),
    List.take_append_of_le_length (by rw [List.length_drop]; omega)]

/-- A range inside the second of two strings. -/
theorem slice_append_right {f g : Bytes} {off n : Nat} (h : f.length ≤ off) :
    slice (f ++ g) off n = slice g (off - f.length) n := by
  rw [slice, slice, List.drop_append, List.drop_eq_nil_of_le h, List.nil_append]

/-- The whole first string, read in front of another. -/
theorem slice_append_exact (f g : Bytes) : slice (f ++ g) 0 f.length = f := by
  rw [slice_append_left (by omega), slice_self]

theorem slice_zeros {n off m : Nat} (h : off + m ≤ n) : slice (zeros n) off m = zeros m := by
  simp only [slice, zeros, List.drop_replicate, List.take_replicate]
  congr 1
  omega

theorem zeros_append_zeros (n m : Nat) : zeros n ++ zeros m = zeros (n + m) :=
  List.replicate_append_replicate

/-- Strings of one length, put together. -/
theorem length_flatten_of_forall {parts : List Bytes} {n : Nat} (h : ∀ p ∈ parts, p.length = n) :
    parts.flatten.length = parts.length * n := by
  induction parts with
  | nil => simp
  | cons p parts ih =>
      rw [List.flatten_cons, List.length_append, h p List.mem_cons_self,
        ih fun q hq => h q (List.mem_cons_of_mem _ hq), List.length_cons, Nat.add_mul, Nat.one_mul,
        Nat.add_comm]

/-- The `i`-th of several strings of one length, read from all of them put together. -/
theorem slice_flatten {parts : List Bytes} {n : Nat} (h : ∀ p ∈ parts, p.length = n) {i : Nat}
    (hi : i < parts.length) : slice parts.flatten (i * n) n = parts.get ⟨i, hi⟩ := by
  induction parts generalizing i with
  | nil => exact absurd hi (Nat.not_lt_zero _)
  | cons p parts ih =>
      have hp := h p List.mem_cons_self
      rw [List.flatten_cons]
      cases i with
      | zero =>
          rw [Nat.zero_mul, ← hp, slice_append_exact]
          rfl
      | succ i =>
          have hskip : (i + 1) * n - p.length = i * n := by
            rw [hp, Nat.add_mul, Nat.one_mul, Nat.add_sub_cancel]
          rw [slice_append_right (by rw [hp, Nat.add_mul]; omega), hskip,
            ih (fun q hq => h q (List.mem_cons_of_mem _ hq)) (Nat.lt_of_succ_lt_succ hi)]
          rfl

/-! ## Writing -/

theorem length_writeAt (f : Bytes) (off : Nat) (data : Bytes) :
    (writeAt f off data).length = max f.length (off + data.length) := by
  simp only [writeAt, List.length_append, List.length_take, length_zeros, List.length_drop]
  omega

/-- A write that starts inside the file needs no filler. -/
theorem writeAt_of_le {f : Bytes} {off : Nat} {data : Bytes} (h : off ≤ f.length) :
    writeAt f off data = f.take off ++ data ++ f.drop (off + data.length) := by
  rw [writeAt, Nat.sub_eq_zero_of_le h]
  simp [zeros]

@[simp] theorem writeAt_nil {f : Bytes} {off : Nat} (h : off ≤ f.length) : writeAt f off [] = f := by
  simp [writeAt_of_le h]

/-- Reading inside what was written. -/
theorem slice_writeAt_inside {f : Bytes} {off : Nat} {data : Bytes} {a n : Nat}
    (h : off ≤ f.length) (ha : a + n ≤ data.length) :
    slice (writeAt f off data) (off + a) n = slice data a n := by
  have hl : (f.take off).length = off := by
    rw [List.length_take]
    omega
  rw [writeAt_of_le h, List.append_assoc, slice_append_right (by omega), hl,
    Nat.add_sub_cancel_left, slice_append_left ha]

theorem slice_writeAt_same {f : Bytes} {off : Nat} {data : Bytes} (h : off ≤ f.length) :
    slice (writeAt f off data) off data.length = data := by
  have hs : slice (writeAt f off data) (off + 0) data.length = slice data 0 data.length :=
    slice_writeAt_inside h (by omega)
  rw [Nat.add_zero, slice_self] at hs
  exact hs

/-- Reading before what was written. -/
theorem slice_writeAt_before {f : Bytes} {off : Nat} {data : Bytes} {a n : Nat}
    (h : off ≤ f.length) (ha : a + n ≤ off) :
    slice (writeAt f off data) a n = slice f a n := by
  have hl : (f.take off).length = off := by
    rw [List.length_take]
    omega
  rw [writeAt_of_le h, List.append_assoc, slice_append_left (by omega)]
  simp only [slice, List.drop_take, List.take_take]
  rw [min_eq_left (by omega)]

/-- Reading after what was written. -/
theorem slice_writeAt_after {f : Bytes} {off : Nat} {data : Bytes} {a n : Nat}
    (h : off ≤ f.length) (ha : off + data.length ≤ a) :
    slice (writeAt f off data) a n = slice f a n := by
  have hl : (f.take off ++ data).length = off + data.length := by
    rw [List.length_append, List.length_take]
    omega
  rw [writeAt_of_le h, slice_append_right (by omega), hl]
  simp only [slice, List.drop_drop]
  congr 2
  omega

/-- Reading apart from what was written. -/
theorem slice_writeAt_apart {f : Bytes} {off : Nat} {data : Bytes} {a n : Nat}
    (h : off ≤ f.length) (ha : a + n ≤ off ∨ off + data.length ≤ a) :
    slice (writeAt f off data) a n = slice f a n :=
  ha.elim (slice_writeAt_before h) (slice_writeAt_after h)

/-- One long write is two writes that meet. -/
theorem writeAt_append {f : Bytes} {off : Nat} (a b : Bytes) (h : off ≤ f.length) :
    writeAt f off (a ++ b) = writeAt (writeAt f off a) (off + a.length) b := by
  have hl : (f.take off ++ a).length = off + a.length := by
    rw [List.length_append, List.length_take]
    omega
  have htake : (writeAt f off a).take (off + a.length) = f.take off ++ a := by
    rw [writeAt_of_le h, ← hl, List.take_left]
  have hdrop : (writeAt f off a).drop (off + a.length + b.length) =
      f.drop (off + (a ++ b).length) := by
    rw [writeAt_of_le h, ← hl, ← List.drop_drop, List.drop_left, hl, List.drop_drop,
      List.length_append, Nat.add_assoc]
  rw [writeAt_of_le (f := writeAt f off a) (by rw [length_writeAt]; omega), htake, hdrop,
    writeAt_of_le h]
  simp only [List.append_assoc]

/-- A write inside the first of two strings. -/
theorem writeAt_append_left {f g : Bytes} {off : Nat} {data : Bytes}
    (h : off + data.length ≤ f.length) : writeAt (f ++ g) off data = writeAt f off data ++ g := by
  rw [writeAt_of_le (by rw [List.length_append]; omega), writeAt_of_le (by omega),
    List.take_append_of_le_length (by omega), List.drop_append_of_le_length h]
  simp only [List.append_assoc]

/-- A write inside the first `n` bytes, seen on those bytes. -/
theorem slice_writeAt_front {f : Bytes} {off n : Nat} {data : Bytes} (hd : off + data.length ≤ n)
    (hn : n ≤ f.length) : slice (writeAt f off data) 0 n = writeAt (slice f 0 n) off data := by
  have hl : (f.take n).length = n := by
    rw [List.length_take]
    omega
  have hw : (writeAt (f.take n) off data).length = n := by
    rw [length_writeAt, hl]
    omega
  have hsplit : writeAt f off data = writeAt (f.take n) off data ++ f.drop n := by
    conv_lhs => rw [← List.take_append_drop n f, writeAt_append_left (by rw [hl]; exact hd)]
  have hfront := slice_append_exact (writeAt (f.take n) off data) (f.drop n)
  rw [hw] at hfront
  rw [hsplit, hfront]
  rfl

/-- Zeros written over zeros. -/
theorem writeAt_zeros {f : Bytes} {n off k : Nat} (hlo : f.length ≤ off)
    (hhi : off + k ≤ f.length + n) : writeAt (f ++ zeros n) off (zeros k) = f ++ zeros n := by
  obtain ⟨m, rfl⟩ := Nat.exists_eq_add_of_le hlo
  rw [writeAt_of_le (by rw [List.length_append, length_zeros]; omega), List.take_length_add_append,
    length_zeros, Nat.add_assoc, List.drop_length_add_append]
  simp only [zeros, List.take_replicate, List.drop_replicate, List.append_assoc,
    List.replicate_append_replicate]
  congr 2
  omega

/-! ## Changing the length -/

@[simp] theorem length_setLen (f : Bytes) (n : Nat) : (setLen f n).length = n := by
  simp only [setLen, List.length_append, List.length_take, length_zeros]
  omega

theorem setLen_self (f : Bytes) : setLen f f.length = f := by
  simp [setLen, zeros]

/-- What stays inside both lengths is kept. -/
theorem slice_setLen {f : Bytes} {m a n : Nat} (h : a + n ≤ m) (hf : a + n ≤ f.length) :
    slice (setLen f m) a n = slice f a n := by
  rw [setLen, slice_append_left (by rw [List.length_take]; omega)]
  simp only [slice, List.drop_take, List.take_take]
  rw [min_eq_left (by omega)]

/-- What lies behind the old end reads as zeros. -/
theorem slice_setLen_new {f : Bytes} {m a n : Nat} (h : a + n ≤ m) (hf : f.length ≤ a) :
    slice (setLen f m) a n = zeros n := by
  rw [setLen, List.take_of_length_le (by omega), slice_append_right hf, slice_zeros (by omega)]

end CloveDb.Lib
