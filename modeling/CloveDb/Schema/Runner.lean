/-
# CloveDb.Schema.Runner — preparing and committing a schema migration

`MigrationRun::execute` reads every row of the source, asks the registered step for each, decides row by row what
becomes of it (`fate`), and writes the staged rows in one transaction. The decision looks at the stored target only,
never at the other rows of the same run. `execute` is the run on a source and a target table; the durable writes of an
in-place run, in their order, are in `Schema.Stopped`.
-/
import CloveDb.Lib.Table
import CloveDb.Schema.Chain
import Mathlib.Data.String.Basic

namespace CloveDb.Schema

open CloveDb.Lib

inductive TargetConflictPolicy where
  | fail
  | skip
  | overwriteIfCompatible
  | overwrite
  deriving DecidableEq, Repr

structure ResolvedEndpoint where
  db : String
  table : String
  storage : TableStorageMode
  deriving DecidableEq, Repr

structure MigrationPlan where
  kind : MigrationKind
  fromEnd : ResolvedEndpoint
  toEnd : ResolvedEndpoint
  effectiveDeleteSource : Bool
  deriving DecidableEq, Repr

/-- A table's rows and the blobs they refer to. -/
structure Content where
  rows : Table String Bytes
  blobs : Table String Bytes
  deriving DecidableEq

/-- What a run uses of the rest of the library and of JSON: the non-empty text under `id` of a JSON object, the layout
hash of a sample, the overwrite check against the target's layout, and what the write transaction itself refuses. -/
structure RunnerTools where
  idOf : Bytes → Option String
  captureFromSampleJson : Bytes → Result String
  checkCompatibleOverwrite : Bytes → Bytes → Result Bool
  admits : Content → Result Unit

/-- A migration run: its plan, policy and step, and the id it drew. -/
structure MigrationRun where
  plan : MigrationPlan
  conflictPolicy : TargetConflictPolicy
  decoder : SchemaDecoder
  migrationId : String
  fromLayoutHash : String
  toLayoutHash : String

structure StagedRecord where
  sourceKey : String
  storageKey : String
  metadataBytes : Bytes
  blob : Option Bytes
  blobSidecarCopy : Bool
  deriving DecidableEq, Repr

/-- What becomes of a source row. -/
inductive Fate where
  /-- the step skipped it -/
  | skipped
  /-- its key is taken, which the report lists as a conflict -/
  | conflict (storageKey : String)
  /-- its key is taken, which the report counts as a skip -/
  | keyTaken
  | staged (record : StagedRecord)
  deriving DecidableEq, Repr

def Fate.record? : Fate → Option StagedRecord
  | .staged r => some r
  | _ => none

def Fate.conflict? : Fate → Option String
  | .conflict k => some k
  | _ => none

/-- The key a migrated row is stored under. -/
def storageKeyForMetadata (tools : RunnerTools) (metadataBytes : Bytes) (sourceKey : String) : String :=
  (tools.idOf metadataBytes).getD sourceKey

namespace MigrationRun

variable (tools : RunnerTools) (run : MigrationRun)

def inPlace : Bool := run.plan.kind = .inPlaceEvolve

/-- The row as it is staged. -/
def stage (key : String) (m : MigratedRecord) : StagedRecord where
  sourceKey := key
  storageKey := storageKeyForMetadata tools m.metadataBytes key
  metadataBytes := m.metadataBytes
  blob := m.blob
  blobSidecarCopy := run.plan.fromEnd.storage = .blobSidecar ∧ run.plan.toEnd.storage = .blobSidecar

def context (key : String) : MigrationRecordContext :=
  ⟨key, run.plan.fromEnd.storage, run.plan.toEnd.storage, run.plan.kind = .externalImport⟩

/-- One round of the row loop. -/
def fate (target : Table String Bytes) (entry : String × Bytes) : Result Fate := do
  match ← run.decoder.migrateRecord (run.context entry.1) entry.2 with
  | .skip => .ok .skipped
  | .migrated m =>
      let record := run.stage tools entry.1 m
      match target.get record.storageKey with
      | none => .ok (.staged record)
      | some existing =>
          if run.inPlace then .ok (.staged record)
          else
            match run.conflictPolicy with
            | .fail => .ok (.conflict record.storageKey)
            | .skip => .ok .keyTaken
            | .overwrite => .ok (.staged record)
            | .overwriteIfCompatible => do
                if ← tools.checkCompatibleOverwrite existing m.metadataBytes then .ok (.staged record)
                else .ok (.conflict record.storageKey)

/-- A target that has rows is refused under `Fail`, before any row is read. -/
def assertTargetAvailable (target : Table String Bytes) : Result Unit :=
  if run.inPlace then .ok ()
  else if target.rows.length = 0 then .ok ()
  else if run.conflictPolicy = .fail then
    .error (.targetTableOccupied run.plan.toEnd.db run.plan.toEnd.table target.rows.length)
  else .ok ()

end MigrationRun

/-- What the report of a run says of its rows. -/
structure MigrationReport where
  sourceCount : Nat
  skippedEntries : List String
  wouldSkip : Nat
  conflicts : List String
  errors : List String
  deriving DecidableEq, Repr

structure PreparedMigration where
  report : MigrationReport
  staged : List StagedRecord
  sourceEntries : List (String × Bytes)
  deriving DecidableEq

namespace PreparedMigration

def storageKeys (p : PreparedMigration) : List String := p.staged.map (·.storageKey)

def isExecutable (p : PreparedMigration) : Bool :=
  p.report.errors = [] && p.report.conflicts = [] && p.staged ≠ []

end PreparedMigration

/-- The report of some fates. -/
def reportOf (policy : TargetConflictPolicy) (entries : List (String × Bytes)) (fates : List Fate) : MigrationReport :=
  let conflicts := fates.filterMap Fate.conflict?
  let wouldSkip := fates.countP (· == .keyTaken)
  let staged := fates.filterMap Fate.record?
  { sourceCount := entries.length
    skippedEntries := ((entries.zip fates).filter (·.2 == .skipped)).map (·.1.1)
    wouldSkip := wouldSkip
    conflicts := conflicts
    errors :=
      if conflicts ≠ [] ∧ policy = .fail then []
      else if staged = [] ∧ wouldSkip = entries.length then ["no records to migrate after conflict resolution"]
      else [] }

namespace MigrationRun

variable (tools : RunnerTools) (run : MigrationRun)

/-- `prepare`: it only reads. -/
def prepare (entries : List (String × Bytes)) (target : Table String Bytes) : Result PreparedMigration := do
  run.assertTargetAvailable target
  let fates ← collect (run.fate tools target) entries
  .ok ⟨reportOf run.conflictPolicy entries fates, fates.filterMap Fate.record?, entries⟩

/-- The blob a staged row brings along: that of its source row, or the one the step made. -/
def blobOf (sourceBlobs : Table String Bytes) (r : StagedRecord) : Result (Option Bytes) :=
  if r.blobSidecarCopy then
    match sourceBlobs.get r.sourceKey with
    | none => .error (.notFound r.sourceKey)
    | some b => .ok (some b)
  else
    match r.blob with
    | none => .ok none
    | some b =>
        if run.plan.toEnd.storage = .blobSidecar then .ok (some b)
        else .error (.validation "not a blob table")

/-- Whether a staged row has a blob to prepare. -/
def bringsBlob (r : StagedRecord) : Bool := r.blobSidecarCopy || r.blob.isSome

/-- The rows after the batch: in place the source keys go first, then the staged rows are written in their order. -/
def rewriteRows (staged : List StagedRecord) (rows : Table String Bytes) : Table String Bytes :=
  let kept := if run.inPlace then staged.foldl (fun t r => t.remove r.sourceKey) rows else rows
  staged.foldl (fun t r => t.insert r.storageKey r.metadataBytes) kept

/-- The blob references after the batch. -/
def rewriteBlobs (staged : List StagedRecord) (prepared : List (String × Bytes)) (blobs : Table String Bytes) :
    Table String Bytes :=
  let kept :=
    if run.inPlace ∧ run.plan.toEnd.storage = .blobSidecar then staged.foldl (fun t r => t.remove r.sourceKey) blobs
    else blobs
  prepared.foldl (fun t b => t.insert b.1 b.2) kept

/-- The blobs of the staged rows, under the keys they are stored under. -/
def preparedBlobs (sourceBlobs : Table String Bytes) (staged : List StagedRecord) : Result (List (String × Bytes)) := do
  let found ← collect (fun r => (run.blobOf sourceBlobs r).map fun b => b.map fun b => (r.storageKey, b)) staged
  .ok (found.filterMap id)

/-- `rewrite_tables_with_blobs`: one transaction, refused as a whole. -/
def rewriteTables (source target : Content) (staged : List StagedRecord) : Result Content := do
  let prepared ← run.preparedBlobs source.blobs staged
  let content : Content := ⟨run.rewriteRows staged target.rows, run.rewriteBlobs staged prepared target.blobs⟩
  tools.admits content
  .ok content

/-- The tables and the report after a run. -/
structure Executed where
  source : Content
  target : Content
  report : MigrationReport

/-- `delete_raw` for every row the run had read. -/
def deleteSource (entries : List (String × Bytes)) (source : Content) : Content :=
  ⟨entries.foldl (fun t e => t.remove e.1) source.rows, entries.foldl (fun t e => t.remove e.1) source.blobs⟩

/-- `execute` without a dry run before it: prepare, and if something is staged and nothing is in conflict, commit. In
place, source and target are one table. -/
def execute (source target : Content) : Result Executed := do
  let p ← run.prepare tools source.rows.rows target.rows
  if p.isExecutable then
    let target' ← run.rewriteTables tools source target p.staged
    .ok {
      source :=
        if run.inPlace then target'
        else if run.plan.effectiveDeleteSource then deleteSource p.sourceEntries source
        else source
      target := target'
      report := p.report }
  else .ok ⟨source, target, p.report⟩

/-- The highest saved version of the written keys; if they have none, the bound of the last manifest. -/
def maxBackupVersion (versions : Table String Nat) (chain : TableMigrationChain) (keys : List String) : Nat :=
  let highest := keys.foldl (fun highest k => max highest ((versions.get k).getD 0)) 0
  if 0 < highest then highest
  else
    match chain.manifests.getLast? with
    | some last => last.versionScope.backupVersionsTo
    | none => 0

/-- The manifest of a run. -/
def manifest (fromVersion toVersion maxVersion : Nat) : MigrationManifest where
  migrationId := run.migrationId
  kind := run.plan.kind
  fromSchema := ⟨run.plan.fromEnd.db, run.plan.fromEnd.table, run.plan.fromEnd.table, fromVersion⟩
  toSchema := ⟨run.plan.toEnd.db, run.plan.toEnd.table, run.plan.toEnd.table, toVersion⟩
  versionScope := ⟨1, maxVersion, run.plan.fromEnd.table, some ("primary_before_" ++ run.migrationId)⟩
  fromLayoutHash := run.fromLayoutHash
  toLayoutHash := run.toLayoutHash

end MigrationRun

end CloveDb.Schema
