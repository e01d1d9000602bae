/-
# CloveDb.Lib.OrderedCode — codes whose bytes order as what they stand for

A code is ordered when the bytes of two values compare as the values do, and self-delimiting when no
code is a proper start of another one. Both follow from one relation: `Before a b` says that `a` and `b`
first differ at a byte both of them have, the one of `a` smaller. What follows after that byte does not
count, so codes that differ so can be put one after the other, and complementing every byte turns the
order around.

`Agrees o a b` says that the codes `a` and `b` compare as `o`; parts that agree compose with
`Ordering.then`.
-/
import CloveDb.Lib.Bytes
import Mathlib.Order.Basic
import Mathlib.Order.Lattice

namespace CloveDb.Lib

/-! ## Comparing -/

/-- How two elements of a linear order compare. -/
def ordering {α : Type} [LinearOrder α] (a b : α) : Ordering :=
  if a < b then .lt else if a = b then .eq else .gt

section

variable {α : Type} [LinearOrder α] {a b : α}

theorem ordering_lt : ordering a b = .lt ↔ a < b := by
  unfold ordering
  split
  · simp [*]
  · split <;> simp [*]

theorem ordering_eq : ordering a b = .eq ↔ a = b := by
  unfold ordering
  split
  · rename_i h
    simp [h.ne]
  · split <;> simp [*]

theorem ordering_gt : ordering a b = .gt ↔ b < a := by
  unfold ordering
  split
  · rename_i h
    simp [h.le]
  · rename_i h
    split
    · rename_i heq
      simp [heq]
    · rename_i hne
      simp [lt_of_le_of_ne (not_lt.mp h) (Ne.symm hne)]

@[simp] theorem ordering_self (a : α) : ordering a a = .eq := ordering_eq.mpr rfl

/-- Lists compare by their heads first. -/
theorem ordering_cons (a b : α) (as bs : List α) :
    ordering (a :: as) (b :: bs) = (ordering a b).then (ordering as bs) := by
  rcases lt_trichotomy a b with hlt | rfl | hgt
  · rw [ordering_lt.mpr hlt, ordering_lt.mpr (List.Lex.rel hlt)]
    rfl
  · rw [ordering_self, Ordering.eq_then]
    rcases lt_trichotomy as bs with hlt | rfl | hgt
    · rw [ordering_lt.mpr hlt, ordering_lt.mpr (List.Lex.cons hlt)]
    · rw [ordering_self, ordering_self]
    · rw [ordering_gt.mpr hgt, ordering_gt.mpr (List.Lex.cons hgt)]
  · rw [ordering_gt.mpr hgt, ordering_gt.mpr (List.Lex.rel hgt)]
    rfl

end

/-! ## The first byte that differs -/

/-- `a` and `b` first differ at a byte both have, that of `a` smaller. -/
def Before (a b : Bytes) : Prop :=
  ∃ p x y s t, a = p ++ x :: s ∧ b = p ++ y :: t ∧ x < y

theorem Before.cons_lt {x y : UInt8} (h : x < y) (s t : Bytes) : Before (x :: s) (y :: t) :=
  ⟨[], x, y, s, t, rfl, rfl, h⟩

theorem Before.prepend {a b : Bytes} (h : Before a b) (c : Bytes) : Before (c ++ a) (c ++ b) := by
  obtain ⟨p, x, y, s, t, rfl, rfl, hxy⟩ := h
  exact ⟨c ++ p, x, y, s, t, (List.append_assoc c p _).symm, (List.append_assoc c p _).symm, hxy⟩

theorem Before.append {a b : Bytes} (h : Before a b) (s t : Bytes) : Before (a ++ s) (b ++ t) := by
  obtain ⟨p, x, y, s', t', rfl, rfl, hxy⟩ := h
  exact ⟨p, x, y, s' ++ s, t' ++ t, by simp, by simp, hxy⟩

theorem Before.lt {a b : Bytes} (h : Before a b) : a < b := by
  obtain ⟨p, x, y, s, t, rfl, rfl, hxy⟩ := h
  induction p with
  | nil => exact List.Lex.rel hxy
  | cons c p ih => exact List.Lex.cons ih

/-- Neither is a start of the other. -/
theorem Before.not_start {a b : Bytes} (h : Before a b) : ¬a <+: b ∧ ¬b <+: a := by
  constructor
  · rintro ⟨t, rfl⟩
    have hlt := (h.append t []).lt
    rw [List.append_nil] at hlt
    exact lt_irrefl _ hlt
  · rintro ⟨t, rfl⟩
    have hlt := (h.append [] t).lt
    rw [List.append_nil] at hlt
    exact lt_irrefl _ hlt

/-- Every byte turned into its complement. -/
def complement (bytes : Bytes) : Bytes := bytes.map fun b => ~~~b

theorem complement_lt {x y : UInt8} (h : x < y) : ~~~y < ~~~x := by
  rw [UInt8.lt_iff_toNat_lt] at h ⊢
  rw [UInt8.toNat_not, UInt8.toNat_not, show UInt8.size = 256 from rfl]
  have := x.toNat_lt
  have := y.toNat_lt
  omega

theorem Before.complement {a b : Bytes} (h : Before a b) :
    Before (complement b) (CloveDb.Lib.complement a) := by
  obtain ⟨p, x, y, s, t, rfl, rfl, hxy⟩ := h
  refine ⟨CloveDb.Lib.complement p, ~~~y, ~~~x, CloveDb.Lib.complement t, CloveDb.Lib.complement s, ?_, ?_,
    complement_lt hxy⟩
  · simp [CloveDb.Lib.complement]
  · simp [CloveDb.Lib.complement]

/-! ## Codes that compare as their values -/

/-- The codes `a` and `b` compare as `o`. -/
def Agrees (o : Ordering) (a b : Bytes) : Prop :=
  match o with
  | .lt => Before a b
  | .eq => a = b
  | .gt => Before b a

namespace Agrees

variable {o o' : Ordering} {a b s t : Bytes}

theorem append (h : Agrees o a b) (h' : Agrees o' s t) : Agrees (o.then o') (a ++ s) (b ++ t) := by
  cases o with
  | lt => exact Before.append h s t
  | gt => exact Before.append h t s
  | eq =>
      obtain rfl : a = b := h
      cases o' with
      | lt => exact Before.prepend h' a
      | gt => exact Before.prepend h' a
      | eq => exact congrArg (a ++ ·) h'

theorem prepend (c : Bytes) (h : Agrees o a b) : Agrees o (c ++ a) (c ++ b) :=
  append (o := .eq) rfl h

theorem complement (h : Agrees o a b) : Agrees o.swap (complement a) (complement b) := by
  cases o with
  | lt => exact Before.complement h
  | gt => exact Before.complement h
  | eq => exact congrArg CloveDb.Lib.complement h

theorem ordering_eq_of (h : Agrees o a b) : ordering a b = o := by
  cases o with
  | lt => exact ordering_lt.mpr (Before.lt h)
  | gt => exact ordering_gt.mpr (Before.lt h)
  | eq => exact ordering_eq.mpr h

/-- A code that starts another one is that one. -/
theorem eq_of_start (h : Agrees o a b) (hstart : a <+: b) : a = b := by
  cases o with
  | lt => exact absurd hstart (Before.not_start h).1
  | gt => exact absurd hstart (Before.not_start h).2
  | eq => exact h

end Agrees

/-- Two bytes, whatever follows when they differ. -/
theorem agrees_cons (x y : UInt8) {o : Ordering} {s t : Bytes} (h : Agrees o s t) :
    Agrees ((ordering x y).then o) (x :: s) (y :: t) := by
  rcases lt_trichotomy x y with hlt | rfl | hgt
  · rw [ordering_lt.mpr hlt]
    exact Before.cons_lt hlt s t
  · rw [ordering_eq.mpr rfl]
    exact h.prepend [x]
  · rw [ordering_gt.mpr hgt]
    exact Before.cons_lt hgt t s

/-- First bytes that differ decide. -/
theorem agrees_of_ne {x y : UInt8} (h : x ≠ y) (s t : Bytes) :
    Agrees (ordering x y) (x :: s) (y :: t) := by
  rcases lt_or_gt_of_ne h with hlt | hgt
  · rw [ordering_lt.mpr hlt]
    exact Before.cons_lt hlt s t
  · rw [ordering_gt.mpr hgt]
    exact Before.cons_lt hgt t s

/-! ## Numbers of a fixed width -/

/-- Numbers of a fixed width, most significant byte first. -/
theorem agrees_beBytes (w : Nat) {n m : Nat} (hn : n < 256 ^ w) (hm : m < 256 ^ w) :
    Agrees (ordering n m) (beBytes w n) (beBytes w m) := by
  induction w generalizing n m with
  | zero =>
      obtain rfl : n = 0 := by simpa using hn
      obtain rfl : m = 0 := by simpa using hm
      rfl
  | succ w ih =>
      rw [pow_succ] at hn hm
      have hhigh := ih (Nat.div_lt_of_lt_mul (by omega)) (Nat.div_lt_of_lt_mul (by omega))
        (n := n / 256) (m := m / 256)
      -- a number compares by its high part, then by its low byte
      have hlow : Agrees (ordering (UInt8.ofNat n) (UInt8.ofNat m)) [UInt8.ofNat n] [UInt8.ofNat m] := by
        have h := agrees_cons (UInt8.ofNat n) (UInt8.ofNat m) (o := .eq) (rfl : ([] : Bytes) = [])
        rwa [Ordering.then_eq] at h
      have hsplit : ordering n m
          = (ordering (n / 256) (m / 256)).then (ordering (UInt8.ofNat n) (UInt8.ofNat m)) := by
        have hbyte : ∀ k : Nat, (UInt8.ofNat k).toNat = k % 256 := fun k => UInt8.toNat_ofNat'
        rcases lt_trichotomy (n / 256) (m / 256) with hlt | heq | hgt
        · rw [ordering_lt.mpr hlt, ordering_lt.mpr (by omega : n < m)]
          rfl
        · rw [ordering_eq.mpr heq]
          show ordering n m = ordering (UInt8.ofNat n) (UInt8.ofNat m)
          rcases lt_trichotomy n m with hlt | rfl | hgt
          · rw [ordering_lt.mpr hlt, eq_comm, ordering_lt, UInt8.lt_iff_toNat_lt, hbyte, hbyte]
            omega
          · rw [ordering_eq.mpr rfl, ordering_eq.mpr rfl]
          · rw [ordering_gt.mpr hgt, eq_comm, ordering_gt, UInt8.lt_iff_toNat_lt,
              hbyte, hbyte]
            omega
        · rw [ordering_gt.mpr hgt, ordering_gt.mpr (by omega : m < n)]
          rfl
      rw [hsplit]
      exact hhigh.append hlow

end CloveDb.Lib
