/-
# CloveDb.Indexes.Ordered — index plans that keep the order of a query

`indexes/ordered.rs`, without the costs, and `equality_terms` of `indexes/planner.rs`. An index whose first
paths a condition fixes by equality is read from the bytes of these values on; if the paths after them are
those the query is ordered by, its entries come in the order of the query, and the plan may stop at the limit
once its condition is covered.

What a cost decides here is only which of several covered filters is used; the estimates are an argument.
-/
import CloveDb.Fields.Extract
import CloveDb.Fields.Order
import CloveDb.Indexes.Denote
import CloveDb.Indexes.LeafSound
import CloveDb.Lib.OrderedCode
import CloveDb.Lib.Smallest
import CloveDb.Query.Page
import Mathlib.Data.List.MinMax
import Mathlib.Data.List.Nodup
import Mathlib.Data.Prod.Lex
import Mathlib.Data.Set.Finite.List
import Mathlib.Data.String.Basic
import Mathlib.Order.Lex
import Mathlib.Order.Preorder.Finite

namespace CloveDb.Indexes

open CloveDb.Lib CloveDb.Fields CloveDb.Query

/-! ## Equalities -/

variable (tools : Tools)

/-- `component` -/
def component (value : Value) (direction : Direction) : Result Bytes := do
  let bytes ← Codec.encodeEquality tools.toOutside value
  return if direction ≠ .asc then complement bytes else bytes

end CloveDb.Indexes
