/-
# CloveDb.Indexes.Planner — which indexes can answer a condition

`indexes/planner.rs`, without the costs. A comparison is turned into ranges of entries of an index of the
right kind, or into terms of an index of posting blocks; conditions under `and` and `or` combine what their
parts have. A recipe that is `covered` promises exactly the rows of its condition, so that they are not looked
at again.
-/
import CloveDb.Indexes.Rows

namespace CloveDb.Indexes

open CloveDb.Lib CloveDb.Fields CloveDb.Query

/-! ## Plans -/

/-- `end`: the least bytes above all that start with `p`. -/
def endOf : Bytes → Option Bytes
  | [] => none
  | b :: p =>
      match endOf p with
      | some q => some (b :: q)
      | none => if b ≠ 255 then some [b + 1] else none

variable (tools : Tools)

end CloveDb.Indexes
