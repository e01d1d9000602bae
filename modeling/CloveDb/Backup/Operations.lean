/-
# CloveDb.Backup.Operations — writes, deletes and restores of a table with history

Each call is a program of two commits: the row in the main file, and then the record in the history. A call may end
between them with an error, and the first commit stays. The runs here are runs of whole calls, one after the other.
-/
import CloveDb.Backup.Store
import CloveDb.Lib.CrashProg
import CloveDb.Schema.Chain

namespace CloveDb.Backup

open CloveDb.Lib CloveDb.Schema

/-- A table with its history and its migration chain. -/
structure BackedTable where
  rows : Table String Bytes
  backups : Backups
  chain : TableMigrationChain
  deriving DecidableEq

/-- The time of a call. -/
structure Clock where
  timestamp : Int
  date : String
  deriving DecidableEq, Repr

/-- What the calls use of the rest: the name of the table, and what a write transaction refuses. -/
structure TableTools where
  name : String
  admits : Table String Bytes → Result Unit

namespace BackedTable

variable (tools : TableTools)

/-- `apply_changes`: one transaction on the rows. -/
def applyChanges (change : Table String Bytes → Table String Bytes) : Prog BackedTable ClError Unit := do
  let t ← Prog.read
  match tools.admits (change t.rows) with
  | .error e => Prog.fail e
  | .ok _ => Prog.effect fun t => { t with rows := change t.rows }

/-- One transaction on the history. -/
def writeRecord (record : BackupRecord) : Prog BackedTable ClError Unit := do
  let t ← Prog.read
  match t.backups.write record with
  | .error e => Prog.fail e
  | .ok backups => Prog.effect fun t => { t with backups := backups }

/-- A record before it gets its number. -/
def newRecord (now : Clock) (operation : BackupOperation) (key : String) (data : Option Bytes)
    (restoredVersion : Option Nat) (bulkId : Option String) : BackupRecord :=
  ⟨0, now.timestamp, now.date, operation, tools.name, key, data, restoredVersion, bulkId, false⟩

def recordSet (now : Clock) (key : String) (data : Bytes) : Prog BackedTable ClError Unit :=
  writeRecord (newRecord tools now .set key (some data) none none)

def recordDelete (now : Clock) (key : String) : Prog BackedTable ClError Unit :=
  writeRecord (newRecord tools now .delete key none none none)

def recordRestore (now : Clock) (key : String) (restoredVersion : Nat) (data : Option Bytes) (bulkId : Option String) :
    Prog BackedTable ClError Unit :=
  writeRecord (newRecord tools now .restore key data (some restoredVersion) bulkId)

/-- `set_prepared`. -/
def set (now : Clock) (key : String) (value : Bytes) : Prog BackedTable ClError Unit := do
  applyChanges tools (·.insert key value)
  recordSet tools now key value

/-- `delete`: a record is written only if there was a row. -/
def delete (now : Clock) (key : String) : Prog BackedTable ClError Bool := do
  let t ← Prog.read
  applyChanges tools (·.remove key)
  if (t.rows.get key).isSome then do
    recordDelete tools now key
    Prog.ret true
  else Prog.ret false

/-- Put a row back as a record has it. -/
def putBack (key : String) (data : Option Bytes) : Prog BackedTable ClError Unit :=
  match data with
  | some data => applyChanges tools (·.insert key data)
  | none => applyChanges tools (·.remove key)

def restoreByVersion (now : Clock) (key : String) (version : Nat) : Prog BackedTable ClError Unit := do
  let t ← Prog.read
  Prog.lift (t.chain.assertRestorable version)
  match t.backups.find key version with
  | none => Prog.fail (.notFound ("version " ++ toString version ++ " not found"))
  | some record =>
      match record.operation with
      | .delete => do
          putBack tools key none
          recordRestore tools now key version none none
      | _ => do
          putBack tools key record.data
          recordRestore tools now key version record.data record.bulkId

def restoreAt (now : Clock) (key : String) (timestamp : Int) : Prog BackedTable ClError Unit := do
  let t ← Prog.read
  match t.backups.versionByAt key timestamp with
  | none => Prog.fail (.notFound "no record at this timestamp")
  | some record => restoreByVersion tools now key record.version

/-- `write_bulk`; `bulkId` is the id it draws. -/
def setBulk (bulkId : String) (entries : List BulkEntry) : Prog BackedTable ClError Unit :=
  if entries = [] then Prog.fail (.validation "no valid ids provided")
  else Prog.effect fun t => { t with backups := { t.backups with bulks := t.backups.bulks.insert bulkId entries } }

/-- The data a record stands for. -/
def restoredData (record : BackupRecord) : Option Bytes :=
  if record.operation = .delete then none else record.data

/-- The loop of `BackupManager::restore_bulk`: a record of the restore for each entry, and the data to put back. -/
def restoreRecords (now : Clock) (bulkId : String) :
    List BulkEntry → Prog BackedTable ClError (List (String × Option Bytes))
  | [] => Prog.ret []
  | entry :: rest => do
      let t ← Prog.read
      match t.backups.find entry.key entry.version with
      | none => Prog.fail (.notFound ("backup record " ++ backupKey entry.key entry.version ++ " not found"))
      | some record => do
          writeRecord (newRecord tools now .restoreBulk entry.key (restoredData record) (some entry.version) (some bulkId))
          let results ← restoreRecords now bulkId rest
          Prog.ret ((entry.key, restoredData record) :: results)

/-- `DatabaseManager::restore_bulk`: check all entries, write the records, then put the rows back one by one. -/
def restoreBulk (now : Clock) (bulkId : String) : Prog BackedTable ClError Unit := do
  let t ← Prog.read
  match t.backups.bulks.get bulkId with
  | none => Prog.fail (.notFound ("bulk_id " ++ bulkId ++ " not found"))
  | some entries => do
      let _ ← Prog.lift (collect (fun e => t.chain.assertRestorable e.version) entries)
      let results ← restoreRecords tools now bulkId entries
      Prog.each results fun r => putBack tools r.1 r.2

/-- The calls of a run. -/
inductive Call where
  | set (now : Clock) (key : String) (value : Bytes)
  | delete (now : Clock) (key : String)
  | restoreByVersion (now : Clock) (key : String) (version : Nat)
  | restoreAt (now : Clock) (key : String) (timestamp : Int)
  | setBulk (bulkId : String) (entries : List BulkEntry)
  | restoreBulk (now : Clock) (bulkId : String)

def perform : Call → Prog BackedTable ClError Unit
  | .set now key value => set tools now key value
  | .delete now key => do
      let _ ← delete tools now key
      Prog.ret ()
  | .restoreByVersion now key version => restoreByVersion tools now key version
  | .restoreAt now key timestamp => restoreAt tools now key timestamp
  | .setBulk bulkId entries => setBulk bulkId entries
  | .restoreBulk now bulkId => restoreBulk tools now bulkId

/-- The table after some calls, whatever each of them returned. -/
def run (calls : List Call) (t : BackedTable) : BackedTable :=
  calls.foldl (fun t call => (perform tools call t).final) t

/-! ## What the calls keep -/

section Preserves

variable {tools} {I : BackedTable → Prop}

/-- A condition on the history and the chain that every write of a record keeps. -/
structure KeptByRecords (I : BackedTable → Prop) : Prop where
  rows : ∀ t rows, I t → I { t with rows := rows }
  bulks : ∀ t bulks, I t → I { t with backups := { t.backups with bulks := bulks } }
  record : ∀ t record backups, t.backups.write record = .ok backups → I t → I { t with backups := backups }

theorem applyChanges_preserves (hI : KeptByRecords I) (change : Table String Bytes → Table String Bytes) :
    Prog.Preserves I (applyChanges tools change) := by
  refine .read fun t => ?_
  split
  · exact .fail _
  · exact .effect fun t ht => hI.rows t _ ht

theorem writeRecord_preserves (hI : KeptByRecords I) (record : BackupRecord) :
    Prog.Preserves I (writeRecord record) := by
  refine Prog.Spec.read fun t ht => ?_
  split
  · exact .fail fun s hs => hs ▸ ht
  · rename_i backups hwrite
    refine .effect fun s hs => ?_
    rw [hs]
    exact ⟨hI.record t record backups hwrite ht, hI.record t record backups hwrite ht⟩

theorem putBack_preserves (hI : KeptByRecords I) (key : String) (data : Option Bytes) :
    Prog.Preserves I (putBack tools key data) := by
  cases data with
  | none => exact applyChanges_preserves hI _
  | some data => exact applyChanges_preserves hI _

theorem restoreByVersion_preserves (hI : KeptByRecords I) (now : Clock) (key : String) (version : Nat) :
    Prog.Preserves I (restoreByVersion tools now key version) := by
  refine .read fun t => .bind (.lift _) fun _ => ?_
  split
  · exact .fail _
  · split
    · exact .bind (putBack_preserves hI _ _) fun _ => writeRecord_preserves hI _
    · exact .bind (putBack_preserves hI _ _) fun _ => writeRecord_preserves hI _

theorem restoreRecords_preserves (hI : KeptByRecords I) (now : Clock) (bulkId : String) (entries : List BulkEntry) :
    Prog.Preserves I (restoreRecords tools now bulkId entries) := by
  induction entries with
  | nil => exact .ret _
  | cons entry rest ih =>
      refine .read fun t => ?_
      split
      · exact .fail _
      · exact .bind (writeRecord_preserves hI _) fun _ => .bind ih fun _ => .ret _

/-- What every write of a record keeps, every call keeps. -/
theorem perform_preserves (hI : KeptByRecords I) (call : Call) : Prog.Preserves I (perform tools call) := by
  cases call with
  | set now key value => exact .bind (applyChanges_preserves hI _) fun _ => writeRecord_preserves hI _
  | delete now key =>
      refine .bind (.read fun t => .bind (applyChanges_preserves hI _) fun _ => ?_) fun _ => .ret ()
      split
      · exact .bind (writeRecord_preserves hI _) fun _ => .ret _
      · exact .ret _
  | restoreByVersion now key version => exact restoreByVersion_preserves hI now key version
  | restoreAt now key timestamp =>
      refine .read fun t => ?_
      split
      · exact .fail _
      · exact restoreByVersion_preserves hI _ _ _
  | setBulk bulkId entries =>
      rw [perform, setBulk]
      split
      · exact .fail _
      · exact .effect fun t ht => hI.bulks t _ ht
  | restoreBulk now bulkId =>
      refine .read fun t => ?_
      split
      · exact .fail _
      · exact .bind (.lift _) fun _ => .bind (restoreRecords_preserves hI _ _ _) fun _ =>
          .each fun _ _ => putBack_preserves hI _ _

theorem run_preserves (hI : KeptByRecords I) (calls : List Call) {t : BackedTable} (ht : I t) :
    I (run tools calls t) := by
  induction calls generalizing t with
  | nil => exact ht
  | cons call calls ih => exact ih (perform_preserves hI call t ht).2

theorem keptByRecords_consistent : KeptByRecords fun t => t.backups.Consistent where
  rows _ _ ht := ht
  bulks _ _ ht := ⟨ht.stored, ht.numbered⟩
  record _ _ _ hwrite ht := ht.write hwrite

end Preserves

/-! ## The history of a key -/

/-- **The history of a key is its own**: exactly the records written for it, one for each version from 1 to its current
one, by version; a choice by time takes one of them. -/
structure OwnHistory (b : Backups) (key : String) : Prop where
  records : b.history key = b.own key
  versions : (b.history key).map (·.version) = List.range' 1 (b.currentVersion key)
  chosen : ∀ timestamp r, b.versionByAt key timestamp = some r → r ∈ b.own key

theorem ownHistory_iff {b : Backups} (hb : b.Consistent) (key : String) :
    OwnHistory b key ↔ ∀ key', key' ≠ key → 0 < b.currentVersion key' → startsWith key' (key ++ ":") = false := by
  rw [← hb.history_eq_own_iff]
  constructor
  · exact OwnHistory.records
  · intro heq
    refine ⟨heq, heq ▸ hb.numbered key, fun timestamp r hr => ?_⟩
    rw [Backups.versionByAt, heq] at hr
    exact List.mem_of_mem_filter (List.mem_of_getLast? hr)

/-- After any calls on a table whose history starts empty, the history of a key is its own exactly when no other key
with saved versions consists of that key, a colon and more. -/
theorem history_own_after_calls_iff (rows : Table String Bytes) (chain : TableMigrationChain) (calls : List Call)
    (key : String) :
    OwnHistory (run tools calls ⟨rows, .empty, chain⟩).backups key ↔
      ∀ key', key' ≠ key → 0 < (run tools calls ⟨rows, .empty, chain⟩).backups.currentVersion key' →
        startsWith key' (key ++ ":") = false :=
  ownHistory_iff (run_preserves keptByRecords_consistent calls Backups.consistent_empty) key

/-- A record of the key `a:b` is in the history of `a`, and a restore of `a` by time takes its version. -/
theorem colon_key_in_history :
    (run ⟨"t", fun _ => .ok ()⟩
        [.set ⟨1, "1"⟩ "a" [1], .set ⟨2, "2"⟩ "a:b" [2], .set ⟨3, "3"⟩ "a:b" [3]]
        ⟨.empty, .empty, ⟨.fresh "t", []⟩⟩).backups.versionByAt "a" 3 =
      some ⟨2, 3, "3", .set, "t", "a:b", some [3], none, none, false⟩ := by
  decide

end BackedTable

end CloveDb.Backup
