/-
# CloveDb.Indexes.Values — the values a condition tests and the values an index has

A condition walks a path step by step and stops at the first value that decides; an index collects all values
of the path first. Where no `all` step occurs the walk is a search through the collected values, in their
order: it finds a value that passes unless one that fails to be compared comes before it.
-/
import CloveDb.Fields.Order
import CloveDb.Indexes.Format

namespace CloveDb.Indexes

open CloveDb.Lib CloveDb.Fields CloveDb.Query

/-! ## Paths -/

variable {tools : Tools}

/-! ## One value -/

/-- The code of a value that has one. -/
def code (tools : Tools) (v : Value) : Bytes :=
  match Codec.encodeEquality tools.toOutside v with
  | .ok a => a
  | .error _ => []

/-- A value has a code. -/
def Coded (tools : Tools) (v : Value) : Prop := Codec.encodeEquality tools.toOutside v = .ok (code tools v)

theorem coded_of_ok {v : Value} {a : Bytes} (h : Codec.encodeEquality tools.toOutside v = .ok a) :
    Coded tools v ∧ code tools v = a := by
  unfold Coded code
  rw [h]
  exact ⟨rfl, rfl⟩

end CloveDb.Indexes
