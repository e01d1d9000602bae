/-
# CloveDb.Indexes.Format — definitions and keys of indexes

`indexes/format.rs`, with the keys and the values of a row from `indexes/worker.rs`. An entry of an index is
the value of a row followed by the key of the row. A definition with several paths has one entry a row: its
values one after the other, those of a descending path complemented.
-/
import CloveDb.Indexes.Trigram
import CloveDb.Query.Eval

namespace CloveDb.Indexes

open CloveDb.Lib CloveDb.Fields CloveDb.Query

/-! ## Definitions -/

inductive Kind where
  | value
  | token
  | trigram
  | lastWrite
  | parts
  deriving DecidableEq, Repr

inductive Direction where
  | asc
  | desc
  deriving DecidableEq, Repr

structure Definition where
  table : String
  paths : List Path
  kind : Kind
  directions : List Direction
  deriving DecidableEq

variable (tools : Tools)

/-! ## Values of a row -/

/-- `path_values`, with the number of `any` steps still to walk: the values a path selects in a row. -/
def pathValuesN (bytes : Bytes) : Nat → Path → Result (List Value)
  | 0, path => do
      let v ← pathValue tools.toOutside bytes path
      return [v]
  | n + 1, path =>
      match path.steps.findIdx? (· == .any) with
      | none => do
          let v ← pathValue tools.toOutside bytes path
          return [v]
      | some i => do
          match ← extract tools.toOutside bytes (path.steps.take i) with
          | .array items => do
              let parts ← collect (fun k => pathValuesN bytes n (atIndex path i k)) (List.range items.length)
              return parts.flatten
          | _ => return []

/-- `path_values` -/
def pathValues (bytes : Bytes) (path : Path) : Result (List Value) :=
  pathValuesN tools bytes (path.steps.countP (· == .any)) path

/-! ## Keys -/

/-- `entry_key` -/
def entryKey (value : Value) (row : String) : Result Bytes := do
  let key ← Codec.encodeEquality tools.toOutside value
  let suffix ← Codec.encode tools.toOutside (.string row)
  return key ++ suffix

/-- The part of a key a value of a compound definition is. -/
def keyPart (direction : Option Direction) (value : Value) : Result Bytes := do
  let part ← Codec.encodeEquality tools.toOutside value
  return if direction = some .desc then complement part else part

/-- The parts of a key, from the `i`-th value on. -/
def keyParts (directions : List Direction) : Nat → List Value → Result Bytes
  | _, [] => .ok []
  | i, v :: vs => do
      let part ← keyPart tools directions[i]? v
      let rest ← keyParts directions (i + 1) vs
      return part ++ rest

/-- `definition_key` -/
def definitionKey (d : Definition) (value : Value) (row : String) : Result Bytes :=
  if d.paths.length ≤ 1 then entryKey tools value row
  else
    match value with
    | .array values => do
        let parts ← keyParts tools d.directions 0 values
        let suffix ← Codec.encode tools.toOutside (.string row)
        return [8] ++ parts ++ [0] ++ suffix
    | _ => .error (.validation "invalid compound index value")

end CloveDb.Indexes
