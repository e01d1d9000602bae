/-
# CloveDb.Lib.WeighedQueue — a bounded queue that keeps the sum of its weights

A queue of items with a running total of their weights and a bound on it. A new item goes to the back, after items at
the front have gone until it fits; the total is changed with each item and never counted anew. It is `Exact` if it is
the sum of the weights and within the bound. Every operation keeps it so, except a change of an item in place that
changes its weight.

Totals are machine words: a subtraction that would go below zero wraps and is recorded.
-/
import CloveDb.Lib.Bytes
import Mathlib.Algebra.BigOperators.Group.List.Basic
import Mathlib.Data.List.Perm.Basic

namespace CloveDb.Lib

structure WeighedQueue (α : Type) where
  items : List α
  total : Nat
  /-- A subtraction went below zero. -/
  underflow : Bool
  deriving DecidableEq

namespace WeighedQueue

variable {α : Type} (weight : α → Nat) (bound : Nat)

def empty : WeighedQueue α := ⟨[], 0, false⟩

def clear (q : WeighedQueue α) : WeighedQueue α := { q with items := [], total := 0 }

/-- Take a weight off the total. -/
def discharge (w : Nat) (q : WeighedQueue α) : WeighedQueue α :=
  { q with
    total := if w ≤ q.total then q.total - w else q.total + 2 ^ 64 - w
    underflow := q.underflow || decide (q.total < w) }

/-- Take items from the front until `w` more fits, or none is left. -/
def makeRoom (w : Nat) : List α → WeighedQueue α → WeighedQueue α
  | [], q => { q with items := [] }
  | x :: xs, q =>
      if bound < q.total + w then makeRoom w xs (q.discharge (weight x)) else { q with items := x :: xs }

/-- A new item, unless it is too heavy for the bound. -/
def push (x : α) (q : WeighedQueue α) : WeighedQueue α :=
  let q := makeRoom weight bound (weight x) q.items q
  if weight x ≤ bound then { q with items := q.items ++ [x], total := q.total + weight x } else q

/-- Take the item at a place out. -/
def removeAt (i : Nat) (q : WeighedQueue α) : WeighedQueue α :=
  match q.items[i]? with
  | none => q
  | some x => { q with items := q.items.eraseIdx i }.discharge (weight x)

/-- Take the item at a place to the back, changed on the way. -/
def moveToBack (f : α → α) (i : Nat) (q : WeighedQueue α) : WeighedQueue α :=
  match q.items[i]? with
  | none => q
  | some x => { q with items := q.items.eraseIdx i ++ [f x] }

/-- Change the item at a place. The total stays. -/
def modifyAt (f : α → α) (i : Nat) (q : WeighedQueue α) : WeighedQueue α := { q with items := q.items.modify i f }

/-! ## The total is the sum -/

/-- The total is the sum of the weights and within the bound, and no subtraction went below zero. -/
structure Exact (q : WeighedQueue α) : Prop where
  sum : q.total = (q.items.map weight).sum
  bounded : q.total ≤ bound
  sound : q.underflow = false

variable {weight bound} {q : WeighedQueue α}

theorem exact_empty : Exact weight bound (empty : WeighedQueue α) := ⟨rfl, Nat.zero_le _, rfl⟩

theorem Exact.clear (h : Exact weight bound q) : Exact weight bound q.clear := ⟨rfl, Nat.zero_le _, h.sound⟩

/-- An item that is in the total can be taken off it. -/
theorem Exact.discharge {x : α} {rest : List α} (h : Exact weight bound q)
    (hsum : weight x + (rest.map weight).sum = (q.items.map weight).sum) :
    Exact weight bound ({ q with items := rest }.discharge (weight x)) := by
  have hle : weight x ≤ q.total := by rw [h.sum]; omega
  refine ⟨?_, ?_, ?_⟩
  · change (if weight x ≤ q.total then q.total - weight x else _) = (rest.map weight).sum
    rw [if_pos hle, h.sum]
    omega
  · change (if weight x ≤ q.total then q.total - weight x else _) ≤ bound
    rw [if_pos hle]
    exact (Nat.sub_le _ _).trans h.bounded
  · change (q.underflow || decide (q.total < weight x)) = false
    rw [h.sound, decide_eq_false (not_lt.mpr hle)]
    rfl

/-- Items go until there is room, or the queue is empty. -/
theorem Exact.makeRoom {w : Nat} {items : List α} (h : Exact weight bound { q with items := items }) :
    Exact weight bound (makeRoom weight bound w items q) ∧
      ((makeRoom weight bound w items q).total + w ≤ bound ∨ (makeRoom weight bound w items q).total = 0) := by
  induction items generalizing q with
  | nil => exact ⟨h, .inr h.sum⟩
  | cons x xs ih =>
      rw [WeighedQueue.makeRoom]
      split
      next => exact ih (h.discharge (show weight x + (xs.map weight).sum = _ by rw [List.map_cons, List.sum_cons]))
      next hroom => exact ⟨h, .inl (not_lt.mp hroom)⟩

theorem Exact.push {x : α} (h : Exact weight bound q) : Exact weight bound (q.push weight bound x) := by
  obtain ⟨hroom, hfits⟩ := h.makeRoom (w := weight x)
  rw [WeighedQueue.push]
  split
  next hlight =>
    refine ⟨?_, ?_, hroom.sound⟩
    · change _ + weight x = ((_ ++ [x]).map weight).sum
      rw [hroom.sum, List.map_append, List.sum_append, List.map_singleton, List.sum_singleton]
    · change _ + weight x ≤ bound
      rcases hfits with hfits | hzero
      · exact hfits
      · rw [hzero, Nat.zero_add]
        exact hlight
  next => exact hroom

theorem sum_eraseIdx {l : List α} {i : Nat} {x : α} (hx : l[i]? = some x) :
    weight x + ((l.eraseIdx i).map weight).sum = (l.map weight).sum := by
  obtain ⟨hi, rfl⟩ := List.getElem?_eq_some_iff.mp hx
  rw [← List.sum_cons, ← List.map_cons]
  exact ((List.getElem_cons_eraseIdx_perm hi).map weight).sum_eq

theorem Exact.removeAt (h : Exact weight bound q) (i : Nat) : Exact weight bound (q.removeAt weight i) := by
  rw [WeighedQueue.removeAt]
  split
  next => exact h
  next x hx => exact h.discharge (sum_eraseIdx hx)

theorem Exact.moveToBack {f : α → α} (h : Exact weight bound q) (hf : ∀ x, weight (f x) = weight x) (i : Nat) :
    Exact weight bound (q.moveToBack f i) := by
  rw [WeighedQueue.moveToBack]
  split
  next => exact h
  next x hx =>
    refine ⟨?_, h.bounded, h.sound⟩
    rw [List.map_append, List.sum_append, List.map_singleton, List.sum_singleton, hf, Nat.add_comm, sum_eraseIdx hx]
    exact h.sum

theorem sum_modify {f : α → α} {l : List α} {i : Nat} {x : α} (hx : l[i]? = some x) :
    ((l.modify i f).map weight).sum + weight x = (l.map weight).sum + weight (f x) := by
  induction l generalizing i with
  | nil => cases hx
  | cons y l ih =>
      cases i with
      | zero =>
          obtain rfl := Option.some.inj hx
          rw [List.modify_zero_cons, List.map_cons, List.map_cons, List.sum_cons, List.sum_cons]
          omega
      | succ i =>
          have htail := ih (i := i) hx
          rw [List.modify_succ_cons, List.map_cons, List.map_cons, List.sum_cons, List.sum_cons]
          omega

/-- A change in place keeps the total right if it keeps the weight of what it changes, and only then. -/
theorem Exact.modifyAt_iff {f : α → α} {i : Nat} {x : α} (h : Exact weight bound q) (hx : q.items[i]? = some x) :
    Exact weight bound (q.modifyAt f i) ↔ weight (f x) = weight x := by
  have hsum : _ + weight x = _ + weight (f x) := sum_modify hx
  have hold := h.sum
  constructor
  · intro hexact
    have hnew : q.total = ((q.items.modify i f).map weight).sum := hexact.sum
    omega
  · intro hsame
    refine ⟨?_, h.bounded, h.sound⟩
    change q.total = ((q.items.modify i f).map weight).sum
    omega

end WeighedQueue

end CloveDb.Lib
