/-
# CloveDb.Journal.Writes — the transactions that write user tables

`apply_changes`, `replace_table`, `rewrite_tables_with_blobs` of `repository.rs` and `publish_blob` of
`journal_blob.rs`. Each gives its effects in the order it makes them: a row written or deleted, a
reference of an attachment put or removed, or one reset that refers to an image of the whole table.
-/
import CloveDb.Journal.Log

namespace CloveDb.Journal

open CloveDb.Lib

/-- What a database manager knows apart from the database. -/
structure Manager where
  isBlobTable : String → Bool
  /-- The program holds only the search key. -/
  searchOnly : Bool
  /-- The tables with protected fields. -/
  sealedTables : List String
  /-- `open_blob_version_row(table, row, id).len()` -/
  blobLength : String → String → String → Result UInt64
  /-- `blob_store()?.write_atomic_with_mode(table, row, id, bytes, …)` -/
  writeBlob : String → String → String → Bytes → Result Unit

/-- A row to write: table, key, value. -/
abbrev Write := String × String × Bytes

/-- A row to delete: table, key. -/
abbrev Del := String × String

section

variable (mgr : Manager) (serde : Serde)

def Manager.ensureWritable : Result Unit :=
  if mgr.searchOnly then
    .error (.validation "this program holds only the search key, so the database is read-only; open it with the read key to write")
  else .ok ()

def Manager.refuseSealed : List String → Result Unit
  | [] => .ok ()
  | table :: rest =>
      if table ∈ mgr.sealedTables then
        .error (.validation "a table with protected fields is written through its entity (`Repository::set` or `commit_entities`), not with raw bytes")
      else refuseSealed rest

def validateTables : List String → Result Unit
  | [] => .ok ()
  | table :: rest => do
      validateTable table
      validateTables rest

/-! ## References of attachments -/

/-- `journal_blob::put` -/
def putRef (s : Store) (table id : String) (r : BlobRef) : Store × ChangeKind :=
  ({ s with refs := s.refs.insert (serde.pair table id) r }, .blobPut table id r.id r.size)

/-- `journal_blob::remove` -/
def removeRef (s : Store) (table id : String) : Store × List ChangeKind :=
  match s.refs.get (serde.pair table id) with
  | none => (s, [])
  | some old =>
      ({ s with refs := s.refs.remove (serde.pair table id) }, [.blobDelete table id old.id old.size])

/-- The rows of an attachment table have references of the right size. -/
def checkRefs (s : Store) (table : String) : List String → Result Unit
  | [] => .ok ()
  | k :: ks =>
      match s.refs.get (serde.pair table k) with
      | none => .error (.validation "blob metadata has no immutable file")
      | some r => do
          let length ← mgr.blobLength table k r.id
          if length ≠ r.size then .error (.validation "blob size differs from reference")
          else checkRefs s table ks

/-- References of a table whose rows are gone are removed. -/
def dropRefs (table : String) : List (String × String) → Store → Store × List ChangeKind
  | [], s => (s, [])
  | (t, k) :: rest, s =>
      if t = table ∧ (s.rows table).get k = none then
        let (s, removed) := removeRef serde s table k
        let (s, more) := dropRefs table rest s
        (s, removed ++ more)
      else dropRefs table rest s

/-- `validate_blob_rows` -/
def validateBlobRows (s : Store) (table : String) : Result (Store × List ChangeKind) :=
  if !mgr.isBlobTable table then .ok (s, [])
  else do
    checkRefs mgr serde s table (s.rows table).keys
    let keys ← serde.unpairAll s.refs.keys
    return dropRefs serde table keys s

/-! ## Single rows -/

/-- The loop over the written rows in `apply_changes`. -/
def applyWrites : List Write → Store → Result (Store × List ChangeKind)
  | [], s => .ok (s, [])
  | (table, key, value) :: rest, s =>
      if mgr.isBlobTable table && (s.refs.get (serde.pair table key)).isNone then
        .error (.validation "blob metadata requires set_with_blob or a previously written blob")
      else do
        let (s, effects) ← applyWrites rest (s.setRows table ((s.rows table).insert key value))
        return (s, .upsert table key value :: effects)

/-- One turn of the loop over the deleted rows in `apply_changes`. -/
def applyDelete (s : Store) (table key : String) : Bool × Store × List ChangeKind :=
  let found := ((s.rows table).get key).isSome
  let s := s.setRows table ((s.rows table).remove key)
  let deleted := if found then [.delete table key] else []
  if mgr.isBlobTable table then
    let (s, removed) := removeRef serde s table key
    (found || !removed.isEmpty, s, deleted ++ removed)
  else (found, s, deleted)

def applyDeletes : List Del → Store → List Bool × Store × List ChangeKind
  | [], s => ([], s, [])
  | (table, key) :: rest, s =>
      let (removed, s, effects) := applyDelete mgr serde s table key
      let (others, s, more) := applyDeletes rest s
      (removed :: others, s, effects ++ more)

/-- The write of `apply_changes`. -/
def applyWrite (writes : List Write) (deletes : List Del) (s : Store) :
    Result (List Bool × Store × List ChangeKind) := do
  let (s, written) ← applyWrites mgr serde writes s
  let (removed, s, deleted) := applyDeletes mgr serde deletes s
  return (removed, s, written ++ deleted)

/-! ## Whole tables -/

def resetName (generation : Nat) : String := "__reset_" ++ toString generation

/-- The references of a table. -/
def refsOf (s : Store) (table : String) : Table String BlobRef :=
  s.refs.retain fun k _ => (serde.unpair k).any fun p => p.1 == table

/-- `capture_reset` -/
def captureReset (s : Store) (table : String) : Result (Store × List ChangeKind) := do
  let generation ← checkedAdd s.resetGeneration 1 "reset generation exhausted"
  let snapshot := resetName generation
  let _ ← serde.unpairAll s.refs.keys
  let image := (s.rows table).rows.foldl (fun t r => t.insert r.1 r.2) (s.rows snapshot)
  let blobs := (refsOf serde s table).rows.foldl (fun t r => t.insert r.1 r.2)
    ((s.blobImages.get (snapshot ++ "_blobs")).getD .empty)
  let s := { s.setRows snapshot image with
    resetGeneration := generation
    blobImages := s.blobImages.insert (snapshot ++ "_blobs") blobs }
  return (s, [.tableReset table snapshot])

/-- The write of `replace_table`. -/
def replaceWrite (table : String) (entries : List (String × Bytes)) (s : Store) :
    Result (Unit × Store × List ChangeKind) := do
  let (s, removed) ← validateBlobRows mgr serde (s.setRows table (.ofList entries)) table
  let (s, reset) ← captureReset serde s table
  return ((), s, removed ++ reset)

/-- The deletes of `rewrite_tables_with_blobs`, which record references only. -/
def rewriteDeletes : List Del → Store → Store × List ChangeKind
  | [], s => (s, [])
  | (table, key) :: rest, s =>
      let s := s.setRows table ((s.rows table).remove key)
      if mgr.isBlobTable table then
        let (s, removed) := removeRef serde s table key
        let (s, more) := rewriteDeletes rest s
        (s, removed ++ more)
      else rewriteDeletes rest s

def putRefs : List (String × String × BlobRef) → Store → Store × List ChangeKind
  | [], s => (s, [])
  | (table, key, r) :: rest, s =>
      let (s, put) := putRef serde s table key r
      let (s, more) := putRefs rest s
      (s, put :: more)

def rewriteRows (writes : List Write) (s : Store) : Store :=
  writes.foldl (fun s w => s.setRows w.1 ((s.rows w.1).insert w.2.1 w.2.2)) s

def resetAll : List String → Store → Result (Store × List ChangeKind)
  | [], s => .ok (s, [])
  | table :: rest, s => do
      let (s, removed) ← validateBlobRows mgr serde s table
      let (s, reset) ← captureReset serde s table
      let (s, more) ← resetAll rest s
      return (s, removed ++ reset ++ more)

/-- The tables of a rewrite, each once and in order. -/
def rewriteTables (writes : List Write) (deletes : List Del) : List String :=
  (Table.ofList ((writes.map fun w => (w.1, ())) ++ deletes.map fun d => (d.1, ()))).keys

/-- The write of `rewrite_tables_with_blobs`; `prepared` are the attachments written before. -/
def rewriteWrite (writes : List Write) (deletes : List Del)
    (prepared : List (String × String × BlobRef)) (s : Store) :
    Result (Unit × Store × List ChangeKind) := do
  let (s, removed) := rewriteDeletes mgr serde deletes s
  let (s, put) := putRefs serde prepared s
  let (s, resets) ← resetAll mgr serde (rewriteTables writes deletes) (rewriteRows writes s)
  return ((), s, removed ++ put ++ resets)

/-! ## Attachments -/

def badPath (table : String) : Bool :=
  table == "" || table.toList.any (fun c => c == '/' || c == '\\' || c == ':') || table == ".." ||
    table == "."

/-- `prepare_blob`, where `id` is the name the file gets. -/
def prepareBlob (table row : String) (bytes : Bytes) (id : String) : Result BlobRef := do
  validateTable table
  if badPath table then .error (.validation "invalid blob table path")
  else if !mgr.isBlobTable table then .error (.validation "not a blob table")
  else
    mgr.writeBlob table row id bytes
    return ⟨id, UInt64.ofNat bytes.length⟩

/-- The write of `publish_blob`. -/
def publishWrite (table id : String) (blob : BlobRef) (row : Option Bytes) (s : Store) :
    Result (Unit × Store × List ChangeKind) :=
  let (s, put) := putRef serde s table id blob
  match row with
  | none => .ok ((), s, [put])
  | some value =>
      .ok ((), s.setRows table ((s.rows table).insert id value), [put, .upsert table id value])

/-! ## The calls -/

variable (out : Fields.Outside) (retention : Retention)

/-- `apply_changes` -/
def applyChanges (writes : List Write) (deletes : List Del) (s : Store) :
    Result (List Bool × Store) := do
  validateTables (writes.map Prod.fst ++ deletes.map Prod.fst)
  mgr.ensureWritable
  writeWithSink out serde retention (applyWrite mgr serde writes deletes) s

/-- `replace_table` -/
def replaceTable (table : String) (entries : List (String × Bytes)) (s : Store) :
    Result (Unit × Store) := do
  mgr.refuseSealed [table]
  mgr.ensureWritable
  validateTable table
  writeWithSink out serde retention (replaceWrite mgr serde table entries) s

/-- The attachments of a rewrite with the names their files get, and the copies of others with what
copying each gave. -/
def prepareAll (blobs : List (Write × String)) (copies : List (String × String × Result BlobRef)) :
    Result (List (String × String × BlobRef)) := do
  let written ← collect (fun b => do
    let r ← prepareBlob mgr b.1.1 b.1.2.1 b.1.2.2 b.2
    return (b.1.1, b.1.2.1, r)) blobs
  let copied ← collect (fun c => do
    validateTable c.1
    if !mgr.isBlobTable c.1 || badPath c.1 then .error (.validation "invalid blob table")
    else
      let r ← c.2.2
      return (c.1, c.2.1, r)) copies
  return written ++ copied

/-- `rewrite_tables_with_blobs` -/
def rewriteTablesWithBlobs (writes : List Write) (deletes : List Del) (blobs : List (Write × String))
    (copies : List (String × String × Result BlobRef)) (s : Store) : Result (Unit × Store) := do
  mgr.ensureWritable
  let prepared ← prepareAll mgr blobs copies
  validateTables (rewriteTables writes deletes)
  writeWithSink out serde retention (rewriteWrite mgr serde writes deletes prepared) s

/-- `publish_blob` -/
def publishBlob (table id : String) (bytes : Bytes) (row : Option Bytes) (file : String) (s : Store) :
    Result (Unit × Store) := do
  let blob ← prepareBlob mgr table id bytes file
  writeWithSink out serde retention (publishWrite serde table id blob row) s

end

end CloveDb.Journal
