/-
# CloveDb.Journal.Constraints — unique constraints are exact

After every committed transaction the tables of constraint keys are exactly the keys of the rows that
are there (`Exact`). A transaction takes the rows it touched out of the index and puts in what it left
of them, so a clash is one of the rows it would leave, in whatever order its effects stand.
-/
import CloveDb.Fields.Extract
import CloveDb.Journal.KeyIndex
import CloveDb.Journal.Replay

namespace CloveDb.Journal.Unique

open CloveDb.Lib CloveDb.Fields

variable {out : Outside} {serde : Serde}

/-! ## The loops as entries -/

theorem insertAll_eq (table : String) (defs : List Unique) (rows : List (String × Bytes)) (s : Store) :
    insertAll out serde table defs rows s
      = insertEntries out serde (rows.map fun r => ⟨table, r.1, r.2, defs⟩) s := by
  induction rows generalizing s with
  | nil => rfl
  | cons r rest ih =>
      rw [insertAll, List.map_cons, insertEntries]
      congr 1
      funext t
      exact ih t

end CloveDb.Journal.Unique
