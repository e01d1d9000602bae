/-
# CloveDb.Indexes.LeafSound — a comparison answered by an index and by a scan

An index of values answers a comparison with a range of its entries. The keys of a row begin with the codes of
its values, so a range is a condition on these codes: how they compare with the code of the literal, and
whether their first byte, the type, is the same. A scan asks the same of the codes where the type of a value
is its first byte. It is not for booleans, whose two values have first bytes of their own, and a scan fails
where an order is asked of a value that has none.
-/
import CloveDb.Indexes.Denote

namespace CloveDb.Indexes

open CloveDb.Lib CloveDb.Fields CloveDb.Query

variable {tools : Tools} {older : Bytes → Result Reverse} {table : String} {rows : SourceRows}

/-! ## Bounds and types -/

/-- The byte a code begins with. -/
def typeByte (tools : Tools) (v : Value) : UInt8 := UInt8.ofNat (v.key tools.toOutside).rank

theorem typeByte_toNat (v : Value) : (typeByte tools v).toNat = (v.key tools.toOutside).rank := by
  have := (Codec.rank_range (v.key tools.toOutside)).2
  unfold typeByte
  rw [UInt8.toNat_ofNat', Nat.mod_eq_of_lt (by omega)]

theorem typeByte_ne_max (tools : Tools) (v : Value) : typeByte tools v ≠ 255 := by
  intro heq
  have hrank := (Codec.rank_range (v.key tools.toOutside)).2
  rw [← typeByte_toNat, heq, show (255 : UInt8).toNat = 255 from rfl] at hrank
  omega

section

variable {v w : Value}

theorem code_head (hv : Coded tools v) : ∃ s, code tools v = typeByte tools v :: s :=
  Codec.append_head (show Codec.append tools.toOutside true v = .ok (code tools v) from hv)

/-- A code has an end. -/
theorem endOf_code (hw : Coded tools w) (front : Bytes) : ∃ q, endOf (front ++ code tools w) = some q := by
  obtain ⟨s, hs⟩ := code_head hw
  obtain ⟨q, hq⟩ := endOf_isSome (typeByte_ne_max tools w) s
  rw [← hs] at hq
  exact endOf_append_isSome hq front

end

end CloveDb.Indexes
