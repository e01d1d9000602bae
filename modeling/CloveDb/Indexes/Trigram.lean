/-
# CloveDb.Indexes.Trigram — posting blocks

`indexes/trigram.rs`. The rows that have a term are kept as blocks of ascending row numbers: the first in
the key, behind the number of the term, the others as differences in the value. A block of more than
`blockMax` bytes is split. Rows and terms are numbered as they come; `ids` and `reverse` lead from a
number to its row and back.
-/
import CloveDb.Indexes.Varint
import CloveDb.Lib.Table
import Mathlib.Data.List.Sort
import Mathlib.Data.String.Basic

namespace CloveDb.Indexes

open CloveDb.Lib

/-! ## Counters of a row -/

/-- `RowStats`: what the sampler counts of one row. -/
structure RowStats where
  key : String
  missing : Nat
  nulls : Nat
  fanout : Nat
  jsonBytes : Nat
  keyBytes : Nat
  values : List Bytes
  unorderable : Nat
  deriving DecidableEq, Repr

namespace Trigram

def corrupt {α : Type} : Result α := .error (.validation "corrupt trigram index")

/-! ## Blocks -/

/-- The differences of a block, added up. -/
def decodeDeltas : Nat → Nat → Bytes → Result (List Nat)
  | _, _, [] => .ok []
  | 0, _, _ :: _ => corrupt
  | fuel + 1, last, b :: bs => do
      let (delta, rest) ← getVarint (b :: bs)
      if 2 ^ 64 ≤ last + delta then corrupt
      else
        let ids ← decodeDeltas fuel (last + delta) rest
        return (last + delta) :: ids

/-! ## Records of rows -/

/-- `Record` -/
structure Record where
  id : Nat
  tris : List Nat
  flags : UInt8
  fanout : Nat
  json : Nat
  deriving DecidableEq, Repr

def encodeTris : Nat → List Nat → Bytes
  | _, [] => []
  | last, t :: ts => putVarint (t - last) ++ encodeTris t ts

/-- `Record::encode` -/
def Record.encode (r : Record) : Bytes :=
  [3] ++ putVarint r.id ++ [r.flags] ++ putVarint r.fanout ++ putVarint r.json ++
    putVarint r.tris.length ++ encodeTris 0 r.tris

def decodeTris : Nat → Nat → Bytes → Result (List Nat)
  | 0, _, _ => .ok []
  | n + 1, last, bytes => do
      let (d, rest) ← getVarint bytes
      if 2 ^ 32 ≤ last + d then corrupt
      else
        let ts ← decodeTris n (last + d) rest
        return (last + d) :: ts

/-- `Record::decode` -/
def Record.decode : Bytes → Result Record
  | 3 :: bytes => do
      let (id, bytes) ← getVarint bytes
      match bytes with
      | [] => corrupt
      | flags :: bytes =>
          let (fanout, bytes) ← getVarint bytes
          let (json, bytes) ← getVarint bytes
          let (n, bytes) ← getVarint bytes
          let tris ← decodeTris n 0 bytes
          return ⟨id, tris, flags, fanout, json⟩
  | _ => corrupt

end Trigram

end CloveDb.Indexes
