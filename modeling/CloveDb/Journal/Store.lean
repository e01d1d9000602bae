/-
# CloveDb.Journal.Store — what one database holds

The tables of a primary database: the change log with its numbers and consumers, the tables of rows
(user tables and the images of resets), the references to attachments, and the tables of the
synchronous checks. A table that was never opened is an empty one.

Texts and bytes that `serde_json` makes for keys are parameters with the laws the code relies on:
the text of a pair can be read back, and the bytes of a table and a number never start those of
another.
-/
import CloveDb.Fields.Extract
import CloveDb.Journal.Change
import CloveDb.Lib.Table
import Mathlib.Data.String.Basic

namespace CloveDb.Journal

open CloveDb.Lib CloveDb.Fields

structure Consumer where
  generation : Nat
  ackedSeq : Nat
  active : Bool
  internal : Bool
  needsRebuild : Bool
  deriving DecidableEq, Repr

structure ConsumerToken where
  databaseUuid : Bytes
  name : String
  generation : Nat
  deriving DecidableEq, Repr

structure BlobRef where
  id : String
  size : UInt64
  deriving DecidableEq, Repr

/-- The change log: the numbers of `__seq` it uses, `__changes` and `__consumers`. -/
structure Log where
  head : Nat
  journalBytes : Nat
  floor : Nat
  consumerGeneration : Nat
  dbUuid : Bytes
  changes : Table Nat Bytes
  consumers : Table String Consumer

/-- A unique constraint: the paths that make its key. -/
abbrev Unique := List Path

structure Store where
  log : Log
  resetGeneration : Nat
  /-- The tables of rows by name, `__reset_N` included. -/
  tables : Table String (Table String Bytes)
  /-- `__reset_N_blobs` -/
  blobImages : Table String (Table String BlobRef)
  /-- `__blob_refs` -/
  refs : Table String BlobRef
  /-- `__lastwrite` -/
  lastWrite : Table String Nat
  /-- `__unique_definitions` -/
  uniqueDefs : Table String (List Unique)
  /-- `__unique_keys` -/
  uniqueKeys : Table Bytes String
  /-- `__unique_rows` -/
  uniqueRows : Table String (List Bytes)
  /-- `__id_contracts` -/
  idContracts : Table String Path

/-- What the store takes from `serde_json`. -/
structure Serde where
  /-- The text of a pair of strings. -/
  pair : String → String → String
  unpair : String → Option (String × String)
  unpair_pair : ∀ a b, unpair (pair a b) = some (a, b)
  /-- The bytes of a table and the number of a constraint. -/
  index : String → Nat → Bytes
  /-- These bytes are an array, which no other array continues. -/
  index_inj : ∀ a i x b j y, index a i ++ x = index b j ++ y → a = b ∧ i = j

namespace Serde

variable (serde : Serde)

theorem pair_inj {a b c d : String} (h : serde.pair a b = serde.pair c d) : a = c ∧ b = d := by
  have h := congrArg serde.unpair h
  rw [serde.unpair_pair, serde.unpair_pair, Option.some.injEq, Prod.mk.injEq] at h
  exact h

/-- The pairs of some keys. -/
def unpairAll (keys : List String) : Result (List (String × String)) :=
  collect (fun k =>
    match serde.unpair k with
    | none => .error .serialization
    | some p => .ok p) keys

/-- Each item after a mark, with another mark at the end. -/
def marked {α : Type} (mark stop : α) : List α → List α
  | [] => [stop]
  | a :: as => mark :: a :: marked mark stop as

theorem marked_inj {α : Type} {mark stop : α} (hne : mark ≠ stop) {as bs x y : List α}
    (h : marked mark stop as ++ x = marked mark stop bs ++ y) : as = bs ∧ x = y := by
  induction as generalizing bs with
  | nil =>
      cases bs with
      | nil => exact ⟨rfl, (List.cons.inj h).2⟩
      | cons b bs => exact absurd (List.cons.inj h).1.symm hne
  | cons a as ih =>
      cases bs with
      | nil => exact absurd (List.cons.inj h).1 hne
      | cons b bs =>
          have hnext := List.cons.inj (List.cons.inj h).2
          obtain ⟨hrest, hxy⟩ := ih hnext.2
          exact ⟨by rw [hnext.1, hrest], hxy⟩

/-- The items of a marked list and what follows it. -/
def unmark (done : List Char) : List Char → Option (List Char × List Char)
  | '+' :: c :: rest => unmark (c :: done) rest
  | '.' :: rest => some (done.reverse, rest)
  | _ => none

theorem unmark_marked (done as rest : List Char) :
    unmark done (marked '+' '.' as ++ rest) = some (done.reverse ++ as, rest) := by
  induction as generalizing done with
  | nil => simp [marked, unmark]
  | cons a as ih => simp [marked, unmark, ih]

/-- Texts and bytes with these laws, for concrete runs. -/
def simple : Serde where
  pair a b := String.ofList (marked '+' '.' a.toList ++ b.toList)
  unpair k := (unmark [] k.toList).map fun p => (String.ofList p.1, String.ofList p.2)
  unpair_pair a b := by simp [unmark_marked]
  index a i := marked 1 0 (utf8 a) ++ marked 1 0 (List.replicate i 1)
  index_inj := by
    intro a i x b j y h
    rw [List.append_assoc, List.append_assoc] at h
    obtain ⟨hab, h⟩ := marked_inj (by decide) h
    obtain ⟨hij, -⟩ := marked_inj (by decide) h
    have hlen := congrArg List.length hij
    simp only [List.length_replicate] at hlen
    exact ⟨utf8_injective hab, hlen⟩

end Serde

namespace Store

/-- The rows of a table. -/
def rows (s : Store) (table : String) : Table String Bytes := (s.tables.get table).getD .empty

def setRows (s : Store) (table : String) (rows : Table String Bytes) : Store :=
  { s with tables := s.tables.insert table rows }

/-- `delete_table` -/
def deleteTable (s : Store) (table : String) : Store := { s with tables := s.tables.remove table }

@[simp] theorem rows_setRows_self (s : Store) (table : String) (r : Table String Bytes) :
    (s.setRows table r).rows table = r := by
  simp [rows, setRows]

theorem rows_setRows_ne (s : Store) {table other : String} (r : Table String Bytes)
    (h : other ≠ table) : (s.setRows table r).rows other = s.rows other := by
  simp [rows, setRows, Table.get_insert_ne _ _ h]

theorem rows_deleteTable_ne (s : Store) {table other : String} (h : other ≠ table) :
    (s.deleteTable table).rows other = s.rows other := by
  simp [rows, deleteTable, Table.get_remove_ne _ h]

end Store

/-- `validate_table`: names of user tables. -/
def reserved (name : String) : Bool := ['_', '_'].isPrefixOf name.toList

def validateTable (name : String) : Result Unit :=
  if reserved name then .error (.validation "table prefix __ is reserved") else .ok ()

end CloveDb.Journal
