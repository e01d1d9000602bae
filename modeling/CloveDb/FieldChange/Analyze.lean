/-
# CloveDb.FieldChange.Analyze — what a change of fields looks at before it writes

`analyze` of `migration/encrypted/fields/analyze.rs`. It plans every named table, opens the keys, compares the settings
of the fields that stay, and then looks at the rows and the saved versions. Of a row it looks at one thing only: whether
the fields that change are there. A saved version may lack one if the program allowed it, unless the field becomes a hash.
-/
import CloveDb.FieldChange.Rewrite

namespace CloveDb.FieldChange

open CloveDb.Lib CloveDb.FieldCrypto CloveDb.Fields CloveDb.Backup

/-- A table in the description of a database. -/
structure Described where
  name : String
  tableId : Option String
  fields : List SealedField
  deriving DecidableEq

/-- An entry of `__blob_refs`. -/
structure Item where
  table : String
  row : String
  blobId : String
  size : Nat
  deriving DecidableEq

/-- What `analyze` reads of a closed database. `Lock` is a locked data key. -/
structure Database (Lock : Type) where
  /-- the path of the main file, and whether there is a file -/
  path : String
  present : Bool
  /-- the file starts with the signature of an unencrypted one -/
  plainFile : Bool
  tables : Option (List Described)
  rows : String → Option (Table String Bytes)
  lock : Option Lock
  carried : Option (Table String Bytes)
  uniquePaths : String → List Path
  refs : List Item
  /-- the saved versions of each table, if there is a history file -/
  history : Option (String → Option (Table String Bytes))

/-- `KeyMode`; the functions are what the keys given make of a lock. -/
inductive KeyMode (Root Lock : Type) where
  | none
  | whole (keys : Result (FieldKeys Root))
  | field (unlock : Lock → Result (FieldKeys Root)) (create : Result (FieldKeys Root))

/-- `ChangeFields`, as far as the analysis reads it. -/
structure ChangeFields (Root Lock : Type) where
  keys : KeyMode Root Lock
  tables : List (String × List SealedSpec)
  oneWayConfirmed : Bool
  allowWithout : List String

structure Move where
  table : String
  toProtected : Bool
  deriving DecidableEq

structure Counts where
  rows : Nat
  versions : Nat
  deriving DecidableEq

structure Analysis (Root : Type) where
  tables : List Described
  plans : List TablePlan
  oldIds : List (Option String)
  keys : Option (FieldKeys Root)
  madeKeys : Bool
  counts : List Counts
  hashValues : Nat
  allowedVersionsWithout : List (String × String × Nat)
  moves : List Move

section

variable {Root N Lock : Type} (crypto : Primitives Root N) (tools : RawTools)

def planNamed (tables : List Described) (named : String × List SealedSpec) : Result (TablePlan × Option String) :=
  match tables.find? fun t => t.name == named.1 with
  | none => .error (.validation ("the database has no table '" ++ named.1 ++ "'"))
  | some t => do
      let plan ← planTable named.1 t.fields named.2
      .ok (plan, t.tableId)

/-- The keys, and whether they were made now. -/
def openKeys (db : Database Lock) (tables : List Described) (mode : KeyMode Root Lock) (needed : Bool) :
    Result (Option (FieldKeys Root) × Bool) :=
  match mode with
  | .none => .ok (none, false)
  | .whole keys => do
      let keys ← keys
      .ok (some keys, false)
  | .field unlock create =>
      match db.lock with
      | some lock => do
          let keys ← unlock lock
          .ok (some keys, false)
      | none =>
          if tables.any fun t => !t.fields.isEmpty then
            .error (.validation "this database keeps the lock of its field keys outside the main file (`field_keys_file`), which this version does not change; nothing was changed")
          else if needed then do
            let keys ← create
            .ok (some keys, true)
          else .ok (none, false)

def loadKeys (db : Database Lock) : Option (FieldKeys Root) → Result (Option (FieldKeys Root))
  | none => .ok none
  | some keys => do
      let keys ← load crypto keys db.carried
      .ok (some keys)

/-- The comparison of the settings of one field that is kept. -/
def settleStep (keys : FieldKeys Root) (table tableId : String) (step : FieldStep) : Result FieldStep :=
  match step.kind, step.was, step.declared with
  | .keep, some was, some spec =>
      if spec.method = .encrypt then .ok step
      else
        let comparable := if spec.method = .hash then keys.read.isSome else keys.search.isSome
        match was.check with
        | none => .ok step
        | some stored =>
            if !comparable then .ok step
            else do
              let expected ← settingsCheck crypto keys tableId spec
              let kind ← settled table step (expected == some stored)
              .ok { step with kind }
  | _, _, _ => .ok step

def settlePlan (keys : Option (FieldKeys Root)) (p : TablePlan × Option String) : Result TablePlan :=
  match keys, p.2 with
  | some keys, some tableId => do
      let steps ← collect (settleStep crypto keys p.1.table tableId) p.1.steps
      .ok { p.1 with steps }
  | _, _ => .ok p.1

def checkNeeds (confirmed : Bool) (keys : Option (FieldKeys Root)) (plan : TablePlan) : Result Unit :=
  let refused := fun why => Except.error (ClError.validation ("table '" ++ plan.table ++ "': " ++ why))
  if plan.needs.oneWay && !confirmed then
    refused "this change loses a value for good (a hash, or a fingerprint that does not keep the value) and has to be confirmed with `confirm_one_way()`. Nothing was changed"
  else if plan.needs.read || plan.needs.search then
    match keys with
    | none => refused "this change needs the keys of the fields; set them. Nothing was changed"
    | some keys =>
        if plan.needs.read && keys.read.isNone then
          refused "this change needs the read key, which this program does not hold. Nothing was changed"
        else if plan.needs.search && keys.search.isNone then
          refused "this change needs the search key, which this program does not hold. Nothing was changed"
        else .ok ()
  else .ok ()

/-- The first key of a path. -/
def firstKey (path : Path) : Option String :=
  match path.steps.head? with
  | some (.key k) => some k
  | _ => none

def checkUnique (db : Database Lock) (plan : TablePlan) : Result Unit :=
  match ((db.uniquePaths plan.table).filterMap firstKey).find? fun k => k ∈ plan.rewrites.map FieldStep.key with
  | none => .ok ()
  | some first => .error (.validation ("table '" ++ plan.table ++ "': a unique constraint is on field '" ++ first ++
      "', which this change rewrites, and the constraint holds the value. Remove the constraint, make the change, then add it again on the fingerprint of the field. Nothing was changed"))

/-- `safe_part`: a name that can be the name of a file. -/
def safePart (part : String) : Bool :=
  part ≠ "" && part ≠ "." && part ≠ ".." && part.toList.all fun c => c ≠ '/' && c ≠ '\\' && c ≠ ':'

def badName : ClError :=
  badMigration "an attachment has a name that cannot be a file name; nothing was changed"

/-- The checks of `plan_blobs`, and of `required_bytes` for the tables that move. -/
def checkRefs (refs : List Item) (moves : List Move) : Result Unit :=
  if refs.all fun r => safePart r.table && safePart r.blobId &&
      (r.row ≠ "" || !moves.any fun m => m.table == r.table) then .ok ()
  else .error badName

def movesOf (refs : List Item) (plans : List TablePlan) : List Move :=
  (plans.filter fun p => (p.newTableId || p.dropTableId) && refs.any fun r => r.table == p.table).map
    fun p => ⟨p.table, p.newTableId⟩

/-! ## Rows and saved versions -/

def lacking (rows : List RawRow) (step : FieldStep) : Nat := rows.countP fun r => (r.get step.key).isNone

/-- The values of a table that get a hash. -/
def hashCount (rows : List RawRow) (steps : List FieldStep) : Nat :=
  ((steps.filter FieldStep.hashes).map fun s => rows.countP fun r => (r.get s.key).isSome).sum

def readRows (table : Table String Bytes) : Result (List RawRow) := collect (fun r => RawRow.parse tools r.2) table.rows

def checkRows (plan : TablePlan) (rows : List RawRow) : Result Unit :=
  match plan.rewrites.find? fun s => 0 < lacking rows s with
  | none => .ok ()
  | some s => .error (.validation ("table '" ++ plan.table ++ "': " ++ toString (lacking rows s) ++
      " rows hold no value for field '" ++ s.key ++ "', and a protected field has to hold one. Nothing was changed"))

/-- One saved version: the row it holds, none for a deletion. -/
def readVersion (table : String) (version : String × Bytes) : Result (Option RawRow) := do
  if !(← isV2 tools.toSerdeJson version.2) then
    .error (badMigration ("table '" ++ table ++
      "': the history is not in the current form: open the database once to bring it to it. Nothing was changed"))
  else do
    let record ← decodeRecord tools.toSerdeJson table version.1 version.2
    match record.data with
    | none => .ok none
    | some data => do
        let row ← RawRow.parse tools data
        .ok (some row)

/-- A step whose field a saved version may lack. -/
def mayLack (allowed : List String) (step : FieldStep) : Bool := allowed.contains step.key && !step.hashes

def checkVersions (allowed : List String) (plan : TablePlan) (rows : List RawRow) :
    Result (List (String × String × Nat)) :=
  let missing := plan.rewrites.filter fun s => 0 < lacking rows s
  match missing.find? fun s => !mayLack allowed s with
  | none => .ok (missing.map fun s => (plan.table, s.key, lacking rows s))
  | some s => .error (.validation ("table '" ++ plan.table ++ "': " ++ toString (lacking rows s) ++
      " saved versions hold no value for field '" ++ s.key ++ "' (an older layout). They can stay as they are with `allow_old_versions_without(\"" ++
      s.key ++ "\")`; a hash allows no exception. Nothing was changed"))

/-- The saved versions of a table, if its history has any. -/
def versionsOf (db : Database Lock) (table : String) : List (String × Bytes) :=
  match db.history.bind fun h => h table with
  | none => []
  | some versions => versions.rows

/-- The rows and versions of one table: counts, values that get a hash, and versions allowed to lack a field. -/
def lookAt (db : Database Lock) (allowed : List String) (plan : TablePlan) :
    Result (Counts × Nat × List (String × String × Nat)) :=
  let size := ((db.rows plan.table).map fun t => t.rows.length).getD 0
  if plan.rewrites = [] then .ok (⟨size, 0⟩, 0, [])
  else
    match db.rows plan.table with
    -- the text is that of the storage
    | none => .error (badMigration ("Table '" ++ plan.table ++ "' does not exist"))
    | some table => do
        let rows ← readRows tools table
        checkRows plan rows
        let versions ← collect (readVersion tools plan.table) (versionsOf db plan.table)
        let kept := versions.filterMap id
        let without ← checkVersions allowed plan kept
        .ok (⟨size, kept.length⟩, hashCount rows plan.rewrites + hashCount kept plan.rewrites, without)

def analyze (db : Database Lock) (c : ChangeFields Root Lock) : Result (Analysis Root) := do
  if c.tables = [] then .error (.validation "name at least one table whose fields are to change")
  else if !db.present then .error (.validation ("there is no database at " ++ db.path))
  else
    match c.keys, db.plainFile with
    | .whole _, true => .error (.validation
        "the database is not encrypted as a whole: set the keys of its fields instead")
    | .field _ _, false | .none, false => .error .encryptedOpenFailed
    | _, _ =>
        match db.tables with
        | none => .error (badMigration "the file has no description of its tables")
        | some tables => do
            let planned ← collect (planNamed tables) c.tables
            let (opened, madeKeys) ← openKeys db tables c.keys
              (planned.any fun p => p.1.needs.read || p.1.needs.search)
            let keys ← loadKeys crypto db opened
            let plans ← collect (settlePlan crypto keys) planned
            let _ ← collect (checkNeeds c.oneWayConfirmed keys) plans
            let _ ← collect (checkUnique db) plans
            let moves := movesOf db.refs plans
            checkRefs db.refs moves
            let seen ← collect (lookAt tools db c.allowWithout) plans
            .ok ⟨tables, plans, planned.map Prod.snd, keys, madeKeys, seen.map Prod.fst,
              (seen.map fun s => s.2.1).sum, (seen.map fun s => s.2.2).flatten, moves⟩

end

end CloveDb.FieldChange
