/-
# CloveDb.Indexes.Builder — the bulk build of a term index

`Builder` of `indexes/trigram.rs`. Rows come in the order of their keys and are numbered as they come. The
records and row numbers wait in buffers, the postings in blocks of the table's own format. `flushSome`
writes a part of what is held, stage by stage, and is called again until nothing is left; how much one call
writes depends on a budget of bytes and on the clock, whose answers are given as a list.
-/
import CloveDb.Indexes.Trigram

namespace CloveDb.Indexes.Trigram

open CloveDb.Lib

/-! ## Writing out -/

/-- A cursor at the end of a table takes keys in ascending order only. -/
def appendAll {K : Type} [LinearOrder K] {V : Type} :
    List (K × V) → Table K V → Result (Table K V)
  | [], t => .ok t
  | (k, v) :: items, t =>
      match t.rows.getLast? with
      | some (last, _) =>
          if last < k then appendAll items (t.insert k v)
          else .error (.validation "unordered key")
      | none => appendAll items (t.insert k v)

/-- The rule `run!` of `flush_some`: items behind the end of the table are appended, others inserted. -/
def runItems {K : Type} [LinearOrder K] {V : Type} (items : List (K × V)) (t : Table K V) :
    Result (Table K V) :=
  match items with
  | [] => .ok t
  | (first, v) :: rest =>
      if t.rows.getLast?.all fun r => decide (r.1 < first) then appendAll ((first, v) :: rest) t
      else .ok (((first, v) :: rest).foldl (fun t r => t.insert r.1 r.2) t)

end CloveDb.Indexes.Trigram
