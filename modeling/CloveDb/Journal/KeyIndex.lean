/-
# CloveDb.Journal.KeyIndex — the two tables of constraint keys as one index

`Indexed own s` says that `__unique_keys` and `__unique_rows` of `s` are the two directions of the map
`own`, which gives each row of each table its keys. Taking a row out and putting one in change `own` at
that row only; a row can be put in exactly when no other row has one of its keys.
-/
import CloveDb.Journal.Unique

namespace CloveDb.Journal.Unique

open CloveDb.Lib CloveDb.Fields

variable {out : Outside} {serde : Serde}

/-! ## Many rows -/

/-- A row to put in, with the constraints of its table. -/
structure Entry where
  table : String
  row : String
  bytes : Bytes
  defs : List Unique

variable (out serde) in
/-- Rows put in one after the other. -/
def insertEntries : List Entry → Store → Result Store
  | [], s => .ok s
  | e :: es, s => do
      let s ← insert out serde s e.table e.row e.bytes e.defs
      insertEntries es s

theorem insertEntries_keysOnly {es : List Entry} {s t : Store}
    (h : insertEntries out serde es s = .ok t) : KeysOnly s t := by
  induction es generalizing s with
  | nil =>
      cases h
      exact .refl _
  | cons e es ih =>
      obtain ⟨u, hu, h⟩ := bind_eq_ok.mp h
      exact (insert_keysOnly out serde hu).trans (ih h)

end CloveDb.Journal.Unique
