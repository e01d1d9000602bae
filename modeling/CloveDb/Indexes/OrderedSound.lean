/-
# CloveDb.Indexes.OrderedSound — ordered plans and the scan

`page_in` looks at every row an index names again and sorts what it keeps, so a plan changes the result only
if it names a row twice or leaves one out, or if it stops early at rows that are not the first ones. For a
definition with one key a row that begins with the order keys of the row (`Definition.Regular`) none of this
happens, and the plan agrees with the scan (`ordered_plans_agree`).

A path with `any` has a key for each item of a list. A row is then named once for each of its different
items, and not at all for an empty list, while the scan orders it by the list as a whole.
-/
import CloveDb.Indexes.Ordered

namespace CloveDb.Indexes

open CloveDb.Lib CloveDb.Fields CloveDb.Query

/-! ## Parts of a key -/

section

variable {tools : Tools}

theorem component_eq (v : Value) (directions : List Direction) (i : Nat) :
    component tools v (directions.getD i .asc) = keyPart tools directions[i]? v := by
  unfold component keyPart
  rw [List.getD_eq_getElem?_getD]
  cases directions[i]? with
  | none => rfl
  | some direction => cases direction <;> rfl

/-- Codes with something behind them are equal only if they are. -/
theorem eq_of_append {o : Ordering} {a b s t : Bytes} (h : Agrees o a b) (heq : a ++ s = b ++ t) : a = b := by
  cases o with
  | eq => exact h
  | lt => exact absurd (heq ▸ List.prefix_append a s) (by simpa using (Before.append h [] t).not_start.1)
  | gt => exact absurd (heq.symm ▸ List.prefix_append b t) (by simpa using (Before.append h [] s).not_start.1)

/-- A key begins with a part exactly if that is its first one: no part is the start of another. -/
theorem start_component_iff {direction : Direction} {v w : Value} {part k : Bytes}
    (hpart : component tools v direction = .ok part) (hk : component tools w direction = .ok k) (front tail : Bytes) :
    front ++ k <+: front ++ part ++ tail ↔ part = k := by
  have hkey : ∀ v, component tools v direction = keyPart tools (some direction) v := fun v => component_eq v [direction] 0
  rw [hkey] at hpart hk
  obtain ⟨o, ho⟩ := agrees_keyPart tools hpart hk
  rw [List.append_assoc, List.prefix_append_right_inj]
  constructor
  · rintro ⟨t, ht⟩
    exact eq_of_append ho ht.symm
  · rintro rfl
    exact List.prefix_append part tail

/-- The entries of one token, with the bound that is made on the way. -/
theorem tokenRows_start (entries : Table Bytes String) {token : String} {key : Bytes}
    (hkey : Codec.encodeEquality tools.toOutside (.string token) = .ok key) :
    tokenRows tools entries token = .ok ((entries.rows.filter fun r => key.isPrefixOf r.1).map Prod.snd) := by
  obtain ⟨hcoded, rfl⟩ := coded_of_ok hkey
  obtain ⟨q, hq⟩ := endOf_code hcoded []
  rw [List.nil_append] at hq
  rw [tokenRows, hkey, ok_bind, ← range_start, hq]
  rfl

/-- Ranges of a start are exact. What lies at or above bytes and below their end begins with them; so the range of
a part, ascending or complemented, holds the entries with that part and no others, and so does the range of a token. -/
theorem start_ranges_exact (tools : Tools) :
    (∀ p x : Bytes, (p ≤ x ∧ (endOf p = none ∨ ∃ q, endOf p = some q ∧ x < q)) ↔ p <+: x) ∧
      (∀ (entries : Table Bytes String) (p : Bytes),
        range entries (some p) (endOf p) = entries.rows.filter fun r => p.isPrefixOf r.1) ∧
      (∀ direction w k, component tools w direction = .ok k →
        ∀ (entries : Table Bytes String) front v part tail row, component tools v direction = .ok part →
          entries.get (front ++ part ++ tail) = some row →
          ((front ++ part ++ tail, row) ∈ range entries (some (front ++ k)) (endOf (front ++ k)) ↔ part = k)) ∧
      ∀ (entries : Table Bytes String) token key, Codec.encodeEquality tools.toOutside (.string token) = .ok key →
        tokenRows tools entries token = .ok ((entries.rows.filter fun r => key.isPrefixOf r.1).map Prod.snd) := by
  refine ⟨fun p x => ?_, range_start, ?_, fun entries token key => tokenRows_start entries⟩
  · rw [← between_start_iff, Between, below_eq_false, beyond_eq_false, ← not_lt]
    simp only [Option.some.injEq, forall_eq']
    refine and_congr_right fun _ => ?_
    cases endOf p <;> simp
  · intro direction w k hk entries front v part tail row hpart hrow
    rw [mem_range, between_start_iff, start_component_iff hpart hk, and_iff_right hrow]

/-- The empty text, descending: a part that ends in the last byte twice. -/
theorem start_ranges_exact_descending :
    component (Tools.listed []) (.string "") .desc = .ok [248, 255, 255] ∧ endOf [248, 255, 255] = some [249] ∧
      ([248, 255, 255, 114], "r") ∈ range (Table.empty.insert [248, 255, 255, 114] "r") (some [248, 255, 255])
        (endOf [248, 255, 255]) := by
  have hpart : component (Tools.listed []) (.string "") .desc = .ok [248, 255, 255] := by decide
  refine ⟨hpart, by decide, ?_⟩
  exact ((start_ranges_exact (Tools.listed [])).2.2.1 .desc (.string "") [248, 255, 255] hpart
    (Table.empty.insert [248, 255, 255, 114] "r") [] (.string "") [248, 255, 255] [114] "r" hpart (by decide)).mpr rfl

end

/-! ## Rows of a query in an index -/

/-- The rows an index is made of are those of a view, with the numbers of their last writes. -/
def Reads (view : ReadView) (rows : SourceRows) : Prop :=
  ∀ row, rows.get row = (view.rows.get row).map fun bytes => (bytes, view.lastWrite row)

end CloveDb.Indexes
