/-
# CloveDb.Indexes.Execution — plans over the indexes are run

`indexes/execution.rs`, without the counters of work. A range is read with a cursor from its lower bound
until its upper one; posting blocks are combined as row numbers as long as they are all of one index; an
ordered plan walks its entries forward, or backwards by groups of one value whose rows still ascend.
-/
import CloveDb.Indexes.Planner

namespace CloveDb.Indexes

open CloveDb.Lib CloveDb.Fields CloveDb.Query

/-! ## Ranges -/

/-- A key before the lower bound. -/
def below (lower : Option Bytes) (k : Bytes) : Bool := lower.any fun lo => decide (k < lo)

/-- A key at the upper bound or after it. -/
def beyond (upper : Option Bytes) (k : Bytes) : Bool := upper.any fun hi => decide (hi ≤ k)

/-- The bounds leave nothing between them. -/
def crossed : Option Bytes → Option Bytes → Bool
  | some lo, some hi => decide (hi ≤ lo)
  | _, _ => false

/-- `range`: the entries it visits, one after the other. -/
def range (entries : Table Bytes String) (lower upper : Option Bytes) : List (Bytes × String) :=
  if crossed lower upper then []
  else (entries.rows.dropWhile fun r => below lower r.1).takeWhile fun r => !beyond upper r.1

/-! ## Ordered reads -/

variable (tools : Tools)

/-! ## Plans -/

/-- The entries of one token. -/
def tokenRows (entries : Table Bytes String) (token : String) : Result (List String) := do
  let key ← Codec.encodeEquality tools.toOutside (.string token)
  return (range entries (some key) (some ((endOf key).getD key))).map Prod.snd

variable {tools}

end CloveDb.Indexes
