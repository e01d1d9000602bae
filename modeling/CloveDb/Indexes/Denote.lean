/-
# CloveDb.Indexes.Denote — what a plan reads, as a set of rows

An index holds exactly what its rows put into it. Over such indexes a plan has a meaning that names no table
of the index file: the rows with a key in a range, with a term, with a term near another one, and their unions
and intersections. `nodeSet` computes it, whether sets of rows are combined or row numbers.
-/
import CloveDb.Indexes.Execution
import CloveDb.Indexes.Maintain
import CloveDb.Indexes.Values
import CloveDb.Lib.Smallest

namespace CloveDb.Indexes

open CloveDb.Lib CloveDb.Fields CloveDb.Query

/-! ## Starts of keys -/

/-- Bytes above ones that have no end start with them. -/
theorem start_of_endOf_none {p e : Bytes} (h : endOf p = none) (hlt : p < e) : p <+: e := by
  induction p generalizing e with
  | nil => exact List.nil_prefix
  | cons b p ih =>
      rw [endOf] at h
      split at h
      · cases h
      · rename_i hnone
        split at h
        · cases h
        · rename_i hmax
          rw [not_not] at hmax
          subst hmax
          cases hlt with
          | @rel _ _ c e hlt =>
              rw [UInt8.lt_iff_toNat_lt] at hlt
              have := c.toNat_lt
              exact absurd hlt (by rw [show (255 : UInt8).toNat = 255 from rfl]; omega)
          | cons hlt => exact (List.prefix_cons_inj 255).mpr (ih hnone hlt)

/-- Below the end of a start is what is below the start, and what begins with it. -/
theorem lt_endOf_iff {p q : Bytes} (h : endOf p = some q) (e : Bytes) : e < q ↔ e < p ∨ p <+: e := by
  induction p generalizing q e with
  | nil => cases h
  | cons b p ih =>
      rw [endOf] at h
      split at h
      · rename_i q' hq'
        cases h
        cases e with
        | nil => exact ⟨fun _ => .inl (List.nil_lt_cons b p), fun _ => List.nil_lt_cons b q'⟩
        | cons c e =>
            rw [List.cons_lt_cons_iff, List.cons_lt_cons_iff, List.cons_prefix_cons, ih hq' e, eq_comm (a := b)]
            tauto
      · rename_i hnone
        split at h
        · rename_i hmax
          cases h
          cases e with
          | nil => exact ⟨fun _ => .inl (List.nil_lt_cons b p), fun _ => List.nil_lt_cons _ []⟩
          | cons c e =>
              -- nothing follows that is greater than all of `p`, so the first byte decides
              have hrest : e < p ∨ p <+: e := by
                rcases lt_trichotomy e p with hlt | rfl | hgt
                · exact .inl hlt
                · exact .inr List.prefix_rfl
                · exact .inr (start_of_endOf_none hnone hgt)
              have hnext : c < b + 1 ↔ c < b ∨ c = b := by
                rw [UInt8.lt_iff_toNat_lt, UInt8.lt_iff_toNat_lt, ← UInt8.toNat_inj, UInt8.toNat_add]
                have hb : b.toNat ≠ 255 := fun heq => hmax (UInt8.toNat_inj.mp heq)
                have := b.toNat_lt
                rw [show (1 : UInt8).toNat = 1 from rfl, Nat.mod_eq_of_lt (by omega)]
                omega
              rw [List.cons_lt_cons_iff, List.cons_lt_cons_iff, List.cons_prefix_cons, hnext, eq_comm (a := b)]
              have hnil : ¬e < [] := List.not_lt_nil e
              tauto
        · cases h

/-- A code of bytes below the last one has an end. -/
theorem endOf_isSome {b : UInt8} (hb : b ≠ 255) (p : Bytes) : ∃ q, endOf (b :: p) = some q := by
  rw [endOf]
  split
  · exact ⟨_, rfl⟩
  · exact ⟨_, if_pos hb⟩

theorem endOf_append_isSome {p q : Bytes} (h : endOf p = some q) (front : Bytes) :
    ∃ q', endOf (front ++ p) = some q' := by
  induction front with
  | nil => exact ⟨q, h⟩
  | cons b front ih =>
      obtain ⟨q', hq'⟩ := ih
      exact ⟨b :: q', by rw [List.cons_append, endOf, hq']⟩

theorem not_append_lt (x y : Bytes) : ¬x ++ y < x := by
  induction x with
  | nil => exact List.not_lt_nil y
  | cons b x ih =>
      rw [List.cons_append, List.cons_lt_cons_iff]
      exact fun h => h.elim (lt_irrefl b) fun h => ih h.2

/-! ## Ranges of entries -/

/-- A key lies between two bounds. -/
def Between (lower upper : Option Bytes) (k : Bytes) : Prop := below lower k = false ∧ beyond upper k = false

theorem below_eq_false {lower : Option Bytes} {k : Bytes} : below lower k = false ↔ ∀ lo, lower = some lo → ¬k < lo := by
  cases lower <;> simp [below]

theorem beyond_eq_false {upper : Option Bytes} {k : Bytes} : beyond upper k = false ↔ ∀ hi, upper = some hi → k < hi := by
  cases upper <;> simp [beyond]

/-- The keys between bytes and their end begin with them; bytes without an end are all of the last one. -/
theorem between_start_iff (p e : Bytes) : Between (some p) (endOf p) e ↔ p <+: e := by
  unfold Between
  rw [below_eq_false, beyond_eq_false]
  simp only [Option.some.injEq, forall_eq']
  constructor
  · rintro ⟨hlower, hupper⟩
    cases hend : endOf p with
    | none =>
        rcases (not_lt.mp hlower).eq_or_lt with rfl | hlt
        · exact List.prefix_rfl
        · exact start_of_endOf_none hend hlt
    | some q => exact ((lt_endOf_iff hend e).mp (hupper q hend)).resolve_left hlower
  · rintro ⟨t, rfl⟩
    exact ⟨not_append_lt p t, fun q hq => (lt_endOf_iff hq _).mpr (.inr ⟨t, rfl⟩)⟩

/-- A range is a choice of single entries, since they ascend. -/
theorem range_eq_filter (entries : Table Bytes String) (lower upper : Option Bytes) :
    range entries lower upper = entries.rows.filter fun r => !below lower r.1 && !beyond upper r.1 := by
  have hbelow : entries.rows.Pairwise fun a b => below lower b.1 = true → below lower a.1 = true := by
    refine entries.ascending.imp fun {a b} hab hb => ?_
    cases lower with
    | none => cases hb
    | some lo => exact decide_eq_true (hab.trans (of_decide_eq_true hb))
  have hbeyond : entries.rows.Pairwise fun a b => (!beyond upper b.1) = true → (!beyond upper a.1) = true := by
    refine entries.ascending.imp fun {a b} hab hb => ?_
    rw [Bool.not_eq_true', beyond_eq_false] at hb ⊢
    exact fun hi h => hab.trans (hb hi h)
  unfold range
  split
  next hcrossed =>
    symm
    rw [List.filter_eq_nil_iff]
    intro r _ hr
    obtain ⟨hlower, hupper⟩ := Bool.and_eq_true_iff.mp hr
    rw [Bool.not_eq_true', below_eq_false] at hlower
    rw [Bool.not_eq_true', beyond_eq_false] at hupper
    unfold crossed at hcrossed
    split at hcrossed
    · exact hlower _ rfl ((hupper _ rfl).trans_le (of_decide_eq_true hcrossed))
    · cases hcrossed
  next =>
    rw [takeWhile_eq_filter (hbeyond.sublist (List.dropWhile_sublist _)), dropWhile_eq_filter hbelow,
      List.filter_filter]
    simp only [Bool.and_comm]

theorem mem_range {entries : Table Bytes String} {lower upper : Option Bytes} {k : Bytes} {row : String} :
    (k, row) ∈ range entries lower upper ↔ entries.get k = some row ∧ Between lower upper k := by
  rw [range_eq_filter, List.mem_filter, Table.mem_rows_iff, Bool.and_eq_true, Bool.not_eq_true', Bool.not_eq_true']
  rfl

/-- The entries of a start are those that begin with it. -/
theorem range_start (entries : Table Bytes String) (p : Bytes) :
    range entries (some p) (endOf p) = entries.rows.filter fun r => p.isPrefixOf r.1 := by
  rw [range_eq_filter]
  refine List.filter_congr fun r _ => ?_
  rw [Bool.eq_iff_iff, Bool.and_eq_true, Bool.not_eq_true', Bool.not_eq_true', List.isPrefixOf_iff_prefix]
  exact between_start_iff p r.1

end CloveDb.Indexes
