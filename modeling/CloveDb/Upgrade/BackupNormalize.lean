/-
# CloveDb.Upgrade.BackupNormalize — histories of all forms become records

`eager_normalize` of `upgrade/backup_normalize.rs`. Histories were once kept as plain payloads, then as records with
their payload as numbers, now as records with their payload as it is. The conversion works on a copy beside the file:
the rows of the history tables are written anew in batches, the copy is compared with a snapshot from before, and only
then it gets the file's name. A failure is part of the result and takes the copy away.

Any step may fail, with any error (`fault`), and the process may be stopped between any two effects, also inside the
copying. redb is its tables: an open repairs what needs it, a commit is one effect, compacting changes no table.
-/
import CloveDb.Backup.Codec
import CloveDb.Lib.CrashProg

namespace CloveDb.Upgrade

open CloveDb.Lib CloveDb.Backup

/-! ## Files -/

/-- A table of a backup file, by the type of its values. -/
inductive StoredTable where
  | versions (rows : Table String Nat)
  | bytes (rows : Table String Bytes)

/-- How redb finds a file. -/
inductive FileState where
  | clean
  /-- after an unclean stop: a read-only open refuses it -/
  | needsRepair
  | unreadable
  deriving DecidableEq

structure BackupFile where
  /-- as they are once the file is repaired -/
  tables : Table String StoredTable
  state : FileState

/-- What is under the name of the copy. -/
inductive Sibling where
  /-- a part of a copy, or anything else -/
  | part
  | file (f : BackupFile)

/-- The two files, and the result so far. -/
structure Conversion where
  real : Option BackupFile
  copy : Option Sibling
  upgraded : Bool
  entriesConverted : Nat

/-- The steps that can fail by themselves. -/
inductive NormalizeStep where
  | removeStale
  | readOpen
  | scan
  | copy
  | compareCopy
  | openCopy
  | readRows (table : String)
  | write (table : String) (batch : List (String × Bytes))
  | verify
  | compact
  | sync
  | rename
  | removeCopy

/-- What one run is given. -/
structure Normalize where
  json : SerdeJson
  /-- `from_slice::<BulkRecord>` reads it -/
  isBulkRecord : Bytes → Bool
  registered : List String
  /-- time and date of the conversion -/
  now : Int × String
  /-- the clock of `encode_record` -/
  later : Int × String
  fault : NormalizeStep → Option ClError

/-- `BATCH_SIZE` -/
def batchSize : Nat := 1000

/-- `mismatch` -/
def mismatch (context : String) : ClError :=
  .backupNormalizeFailed ("conversion verification mismatch: " ++ context)

abbrev ConvProg := Prog Conversion ClError

/-! ## Tables and rows -/

/-- `strip_suffix` -/
def stripSuffix (ending name : String) : Option String :=
  if ending.toList <:+ name.toList then some (String.ofList (name.toList.take (name.length - ending.length))) else none

/-- `history_tables`: all but the companions of a table that is there. -/
def historyTables (tables registered : List String) : List String :=
  tables.filter fun name =>
    registered.contains name ||
      !((stripSuffix "_version" name).or (stripSuffix "_bulk" name)).any fun parent => tables.contains parent

/-- `open_table` for rows of bytes. -/
def openBytes (tables : Table String StoredTable) (name : String) : Result (Table String Bytes) :=
  match tables.get name with
  | some (.bytes rows) => .ok rows
  | _ => .error .database

/-- `open_table` for rows of numbers. -/
def openVersions (tables : Table String StoredTable) (name : String) : Result (Table String Nat) :=
  match tables.get name with
  | some (.versions rows) => .ok rows
  | _ => .error .database

namespace Normalize

variable (N : Normalize)

/-- Whether some rows are all records of the new form; the first that cannot be read is an error. -/
def checkRows : List (String × Bytes) → Result Bool
  | [] => .ok true
  | (_, value) :: rows => do
      let one ← isV2 N.json value
      let rest ← checkRows rows
      return one && rest

def checkTables (tables : Table String StoredTable) : List String → Result Bool
  | [] => .ok true
  | name :: names => do
      let rows ← openBytes tables name
      let one ← N.checkRows rows.rows
      let rest ← checkTables tables names
      return one && rest

/-- A record that had no date gets the conversion's. -/
def fill (record : BackupRecord) : BackupRecord :=
  if record.dateFromMigration ∧ record.date = "" then { record with timestamp := N.now.1, date := N.now.2 } else record

/-- The row a row becomes. -/
def convertRow (name : String) (row : String × Bytes) : Result (String × Bytes) := do
  let record ← decodeRecord N.json name row.1 row.2
  let encoded ← encodeRecord N.json N.later (N.fill record)
  return (row.1, encoded)

/-- A step that may fail. -/
def attempting (step : NormalizeStep) : ConvProg Unit := Prog.lift (match N.fault step with
  | some e => .error e
  | none => .ok ())

/-- The tables of a file after a commit of some rows. -/
def insertRows (name : String) (batch : List (String × Bytes)) (tables : Table String StoredTable) :
    Table String StoredTable :=
  match tables.get name with
  | some (.bytes rows) => tables.insert name (.bytes (batch.foldl (fun rows r => rows.insert r.1 r.2) rows))
  | _ => tables

/-- `write_batch` -/
def writeBatch (name : String) (batch : List (String × Bytes)) : ConvProg Unit := do
  N.attempting (.write name batch)
  Prog.effect fun s =>
    { s with
      copy := match s.copy with
        | some (.file f) => some (.file { f with tables := insertRows name batch f.tables })
        | copy => copy }

/-- The rows of one table, with those that wait for their batch. -/
def convertRows (name : String) : List (String × Bytes) → List (String × Bytes) → ConvProg Unit
  | [], batch => if batch.isEmpty then Prog.ret () else N.writeBatch name batch
  | row :: rows, batch => do
      let new ← Prog.lift (N.convertRow name row)
      Prog.effect fun s => { s with entriesConverted := s.entriesConverted + 1 }
      if (batch ++ [new]).length = batchSize then do
        N.writeBatch name (batch ++ [new])
        convertRows name rows []
      else convertRows name rows (batch ++ [new])

def convertTable (before : Table String StoredTable) (name : String) : ConvProg Unit := do
  N.attempting (.readRows name)
  let rows ← Prog.lift (openBytes before name)
  N.convertRows name rows.rows []

/-! ## Verification -/

/-- One row of a table with records. -/
def verifyRecord (name : String) (after : Table String Bytes) (row : String × Bytes) : Result Unit :=
  match after.get row.1 with
  | none => .error (mismatch name)
  | some actual => do
      let expected ← decodeRecord N.json name row.1 row.2
      let new ← isV2 N.json actual
      if new = false then .error (mismatch name)
      else do
        let record ← decodeRecord N.json name row.1 actual
        if N.fill expected ≠ record then .error (mismatch (name ++ "/" ++ row.1)) else .ok ()

/-- One row of a `_bulk` table. -/
def verifyBulk (name : String) (after : Table String Bytes) (row : String × Bytes) : Result Unit :=
  match after.get row.1 with
  | none => .error (mismatch name)
  | some actual =>
      if row.2 ≠ actual then .error (mismatch name)
      else if N.isBulkRecord actual then .ok () else .error .serialization

/-- One row of a `_version` table. -/
def verifyVersion (name : String) (after : Table String Nat) (row : String × Nat) : Result Unit :=
  if after.get row.1 = some row.2 then .ok () else .error (mismatch name)

def verifyTable (data : List String) (before after : Table String StoredTable) (name : String) : Result Unit :=
  if !data.contains name && (stripSuffix "_version" name).isSome then do
    let left ← openVersions before name
    let right ← openVersions after name
    if left.rows.length ≠ right.rows.length then .error (mismatch name)
    else left.rows.forM (verifyVersion name right)
  else do
    let left ← openBytes before name
    let right ← openBytes after name
    if left.rows.length ≠ right.rows.length then .error (mismatch name)
    else if !data.contains name && (stripSuffix "_bulk" name).isSome then left.rows.forM (N.verifyBulk name right)
    else left.rows.forM (N.verifyRecord name right)

/-- `verify` -/
def verify (data : List String) (before after : Table String StoredTable) : Result Unit :=
  if after.keys ≠ before.keys then .error (mismatch "table inventory")
  else before.keys.forM (N.verifyTable data before after)

/-! ## The conversion -/

/-- The scan of a file that opens read-only: nothing is to be done if its records are all of the new form. -/
def scanSource (file : BackupFile) : ConvProg Bool := do
  N.attempting .readOpen
  match file.state with
  | .unreadable => Prog.fail .database
  | .needsRepair => Prog.ret false
  | .clean => do
      N.attempting .scan
      Prog.lift (N.checkTables file.tables (historyTables file.tables.keys N.registered))

/-- The copy, made and compared. -/
def copyFile (file : BackupFile) : ConvProg Unit := do
  N.attempting .copy
  Prog.effect fun s => { s with copy := some .part }
  Prog.effect fun s => { s with copy := some (.file file) }
  N.attempting .compareCopy

/-- `format_open` of the copy: the tables it holds. -/
def openCopy : ConvProg (Table String StoredTable) := do
  N.attempting .openCopy
  let s ← Prog.read
  match s.copy with
  | some (.file f) => if f.state = .unreadable then Prog.fail .database else Prog.ret f.tables
  | _ => Prog.fail .database

/-- The comparison of the copy with the snapshot. -/
def verifyCopy (data : List String) (before : Table String StoredTable) : ConvProg Unit := do
  N.attempting .verify
  let s ← Prog.read
  match s.copy with
  | some (.file f) => Prog.lift (N.verify data before f.tables)
  | _ => Prog.fail .database

/-- Compact, close, sync and rename. -/
def replaceFile : ConvProg Unit := do
  N.attempting .compact
  Prog.effect fun s =>
    { s with
      copy := match s.copy with
        | some (.file f) => some (.file { f with state := .clean })
        | copy => copy }
  N.attempting .sync
  N.attempting .rename
  Prog.effect fun s =>
    match s.copy with
    | some (.file f) => { s with real := some f, copy := none }
    | _ => s
  Prog.effect fun s => { s with upgraded := true }

/-- The rows are converted in the copy, and the copy takes the file's place. -/
def convert (file : BackupFile) : ConvProg Unit := do
  N.copyFile file
  let before ← N.openCopy
  let data := historyTables before.keys N.registered
  Prog.each data (N.convertTable before)
  N.verifyCopy data before
  N.replaceFile

/-- The closure `attempt`. -/
def attempt (file : BackupFile) : ConvProg Unit := do
  let done ← N.scanSource file
  if done then Prog.effect fun s => { s with upgraded := true } else N.convert file

/-- What a run reports. -/
structure Report where
  upgraded : Bool
  entriesConverted : Nat
  failure : Option ClError

/-- Take away what is under the name of the copy. -/
def removeSibling (step : NormalizeStep) : ConvProg Unit := do
  let s ← Prog.read
  match s.copy with
  | none => Prog.ret ()
  | some _ => do
      N.attempting step
      Prog.effect fun s => { s with copy := none }

/-- `eager_normalize` -/
def eagerNormalize : ConvProg Report := do
  Prog.effect fun s => { s with upgraded := false, entriesConverted := 0 }
  let s ← Prog.read
  match s.real with
  | none => Prog.ret ⟨false, 0, none⟩
  | some file => do
      N.removeSibling .removeStale
      let ended ← Prog.capture (N.attempt file)
      match ended with
      | .ok () => do
          let s ← Prog.read
          Prog.ret ⟨s.upgraded, s.entriesConverted, none⟩
      | .error e => do
          N.removeSibling .removeCopy
          let s ← Prog.read
          Prog.ret ⟨s.upgraded, s.entriesConverted, some e⟩

/-! ## What a converted file is -/

/-- The tables and keys are the same; every row of a history table is a record of the new form that says what the old
row said, with the conversion's date where it had none; every other table is unchanged. -/
structure Converted (old new : Table String StoredTable) : Prop where
  names : new.keys = old.keys
  history : ∀ name ∈ historyTables old.keys N.registered, ∃ before after, old.get name = some (.bytes before) ∧
    new.get name = some (.bytes after) ∧ after.keys = before.keys ∧
    ∀ key value, before.get key = some value → ∃ value' record, after.get key = some value' ∧
      decodeRecord N.json name key value = .ok record ∧ decodeRecord N.json name key value' = .ok (N.fill record) ∧
      isV2 N.json value' = .ok true
  companions : ∀ name ∈ old.keys, name ∉ historyTables old.keys N.registered → new.get name = old.get name

/-! ## Verification says enough -/

theorem forM_eq_ok {α : Type} {f : α → Result Unit} {l : List α} : l.forM f = .ok () ↔ ∀ x ∈ l, f x = .ok () := by
  induction l with
  | nil => exact iff_of_true rfl fun _ => nofun
  | cons a l ih =>
      change (f a >>= fun _ => l.forM f) = _ ↔ _
      rw [bind_eq_ok, List.forall_mem_cons]
      constructor
      · rintro ⟨⟨⟩, ha, hl⟩
        exact ⟨ha, ih.mp hl⟩
      · rintro ⟨ha, hl⟩
        exact ⟨(), ha, ih.mpr hl⟩

variable {N} {old new : Table String StoredTable} {name : String}

theorem openBytes_eq_ok {tables : Table String StoredTable} {rows : Table String Bytes}
    (h : openBytes tables name = .ok rows) : tables.get name = some (.bytes rows) := by
  unfold openBytes at h
  split at h
  next rows' hget =>
    obtain rfl := Except.ok.inj h
    exact hget
  next => cases h

theorem openVersions_eq_ok {tables : Table String StoredTable} {rows : Table String Nat}
    (h : openVersions tables name = .ok rows) : tables.get name = some (.versions rows) := by
  unfold openVersions at h
  split at h
  next rows' hget =>
    obtain rfl := Except.ok.inj h
    exact hget
  next => cases h

/-- What a verified row of a history table says. -/
theorem verifyRecord_ok {after : Table String Bytes} {row : String × Bytes}
    (h : N.verifyRecord name after row = .ok ()) : ∃ value' record, after.get row.1 = some value' ∧
      decodeRecord N.json name row.1 row.2 = .ok record ∧ decodeRecord N.json name row.1 value' = .ok (N.fill record) ∧
      isV2 N.json value' = .ok true := by
  unfold verifyRecord at h
  split at h
  next => cases h
  next actual hactual =>
    obtain ⟨record, hrecord, hafter⟩ := bind_eq_ok.mp h
    obtain ⟨isNew, hnew, hform⟩ := bind_eq_ok.mp hafter
    split at hform
    next => cases hform
    next htrue =>
      obtain ⟨read, hread, hsame⟩ := bind_eq_ok.mp hform
      split at hsame
      next => cases hsame
      next heq =>
        rw [not_not] at heq
        rw [Bool.not_eq_false] at htrue
        exact ⟨actual, record, hactual, hrecord, heq ▸ hread, htrue ▸ hnew⟩

theorem verifyBulk_ok {after : Table String Bytes} {row : String × Bytes} (h : N.verifyBulk name after row = .ok ()) :
    after.get row.1 = some row.2 := by
  unfold verifyBulk at h
  split at h
  next => cases h
  next actual hactual =>
    split at h
    next => cases h
    next heq => rw [hactual, not_not.mp heq]

/-- A table that is no history table is a companion by its name. -/
theorem companion_of_not_history {registered names : List String} (hname : name ∈ names)
    (h : name ∉ historyTables names registered) :
    (stripSuffix "_version" name).isSome = true ∨ (stripSuffix "_bulk" name).isSome = true := by
  by_contra hnone
  rw [not_or, Bool.not_eq_true, Bool.not_eq_true, Option.isSome_eq_false_iff, Option.isSome_eq_false_iff,
    Option.isNone_iff_eq_none, Option.isNone_iff_eq_none] at hnone
  refine h (List.mem_filter.mpr ⟨hname, ?_⟩)
  rw [hnone.1, hnone.2]
  exact Bool.or_true _

/-- A verified history table. -/
theorem verifyTable_history {data : List String} (hdata : name ∈ data) (h : N.verifyTable data old new name = .ok ()) :
    ∃ before after, old.get name = some (.bytes before) ∧ new.get name = some (.bytes after) ∧
      after.keys = before.keys ∧ ∀ key value, before.get key = some value →
        ∃ value' record, after.get key = some value' ∧ decodeRecord N.json name key value = .ok record ∧
          decodeRecord N.json name key value' = .ok (N.fill record) ∧ isV2 N.json value' = .ok true := by
  have hcontains : data.contains name = true := List.contains_iff_mem.mpr hdata
  rw [verifyTable, hcontains] at h
  obtain ⟨before, hbefore, hright⟩ := bind_eq_ok.mp h
  obtain ⟨after, hafter, hrows⟩ := bind_eq_ok.mp hright
  split at hrows
  next => cases hrows
  next hcount =>
    have hall : ∀ row ∈ before.rows, N.verifyRecord name after row = .ok () := forM_eq_ok.mp hrows
    have hrecord : ∀ key value, before.get key = some value → _ := fun key value hget =>
      verifyRecord_ok (hall (key, value) ((before.mem_rows_iff key value).mpr hget))
    refine ⟨before, after, openBytes_eq_ok hbefore, openBytes_eq_ok hafter, ?_, hrecord⟩
    refine Table.keys_eq_of_counted (not_not.mp hcount) fun key hkey => ?_
    obtain ⟨value, hvalue⟩ := (before.mem_keys_iff key).mp hkey
    obtain ⟨value', -, hvalue', -⟩ := hrecord key value hvalue
    exact (after.mem_keys_iff key).mpr ⟨value', hvalue'⟩

/-- A verified companion. -/
theorem verifyTable_companion {data : List String} (hdata : name ∉ data)
    (hname : (stripSuffix "_version" name).isSome = true ∨ (stripSuffix "_bulk" name).isSome = true)
    (h : N.verifyTable data old new name = .ok ()) : new.get name = old.get name := by
  have hcontains : data.contains name = false := by
    rw [← Bool.not_eq_true, List.contains_iff_mem]
    exact hdata
  rw [verifyTable, hcontains, Bool.not_false, Bool.true_and, Bool.true_and] at h
  split at h
  next hversion =>
    obtain ⟨left, hleft, hright⟩ := bind_eq_ok.mp h
    obtain ⟨right, hafter, hrows⟩ := bind_eq_ok.mp hright
    split at hrows
    next => cases hrows
    next hcount =>
      have hall : ∀ row ∈ left.rows, verifyVersion name right row = .ok () := forM_eq_ok.mp hrows
      obtain rfl : right = left := Table.eq_of_counted (not_not.mp hcount) fun key value hget => by
        have hrow := hall (key, value) ((left.mem_rows_iff key value).mpr hget)
        unfold verifyVersion at hrow
        split at hrow
        next heq => exact heq
        next => cases hrow
      rw [openVersions_eq_ok hleft, openVersions_eq_ok hafter]
  next hversion =>
    obtain ⟨left, hleft, hright⟩ := bind_eq_ok.mp h
    obtain ⟨right, hafter, hrows⟩ := bind_eq_ok.mp hright
    rw [if_pos (hname.resolve_left hversion)] at hrows
    split at hrows
    next => cases hrows
    next hcount =>
      have hall : ∀ row ∈ left.rows, N.verifyBulk name right row = .ok () := forM_eq_ok.mp hrows
      obtain rfl : right = left := Table.eq_of_counted (not_not.mp hcount) fun key value hget =>
        verifyBulk_ok (hall (key, value) ((left.mem_rows_iff key value).mpr hget))
      rw [openBytes_eq_ok hleft, openBytes_eq_ok hafter]

/-- **A copy that is verified is converted**, whatever was written to it. -/
theorem converted_of_verify (h : N.verify (historyTables old.keys N.registered) old new = .ok ()) :
    N.Converted old new := by
  unfold verify at h
  split at h
  next => cases h
  next hkeys =>
    rw [forM_eq_ok] at h
    refine ⟨not_not.mp hkeys, fun name hname => ?_, fun name hname hnot => ?_⟩
    · exact verifyTable_history hname (h name (List.mem_filter.mp hname).1)
    · exact verifyTable_companion hnot (companion_of_not_history hname hnot) (h name hname)

/-! ## Records of the new form -/

/-- A record of the new form reads the same whatever table and key it is under, and has its date. -/
theorem decodeRecord_of_isV2 {J : SerdeJson} {bytes : Bytes} (h : isV2 J bytes = .ok true) :
    ∃ record, (∀ table key, decodeRecord J table key bytes = .ok record) ∧
      ¬(record.dateFromMigration = true ∧ record.date = "") := by
  unfold isV2 at h
  split at h
  next => cases h
  next fields hfields =>
    split at h
    next henvelope =>
      obtain ⟨record, hrecord, hform⟩ := bind_eq_ok.mp h
      have hdecode : ∀ table key, decodeRecord J table key bytes = decodeEnvelope J fields := by
        intro table key
        rw [decodeRecord, hfields]
        exact if_pos henvelope
      refine ⟨record, fun table key => ?_, ?_⟩
      · rw [hdecode, ← hdecode "" "", hrecord]
      · rintro ⟨hflag, hdate⟩
        have hold := Except.ok.inj hform
        rw [hflag, hdate] at hold
        simp at hold
    next => cases h

theorem checkRows_eq_true {rows : List (String × Bytes)} :
    N.checkRows rows = .ok true ↔ ∀ row ∈ rows, isV2 N.json row.2 = .ok true := by
  induction rows with
  | nil => exact iff_of_true rfl fun _ => nofun
  | cons row rows ih =>
      rw [checkRows, List.forall_mem_cons, ← ih, bind_eq_ok]
      constructor
      · rintro ⟨one, hone, hmore⟩
        obtain ⟨rest, hrest, hboth⟩ := bind_eq_ok.mp hmore
        obtain ⟨rfl, rfl⟩ := Bool.and_eq_true_iff.mp (Except.ok.inj hboth)
        exact ⟨hone, hrest⟩
      · rintro ⟨hone, hrest⟩
        exact ⟨true, hone, bind_eq_ok.mpr ⟨true, hrest, rfl⟩⟩

theorem checkTables_eq_true {tables : Table String StoredTable} {names : List String} :
    N.checkTables tables names = .ok true ↔ ∀ name ∈ names, ∃ rows, tables.get name = some (.bytes rows) ∧
      ∀ key value, rows.get key = some value → isV2 N.json value = .ok true := by
  induction names with
  | nil => exact iff_of_true rfl fun _ => nofun
  | cons name names ih =>
      rw [checkTables, List.forall_mem_cons, ← ih, bind_eq_ok]
      constructor
      · rintro ⟨rows, hrows, hmore⟩
        obtain ⟨one, hone, hmore⟩ := bind_eq_ok.mp hmore
        obtain ⟨rest, hrest, hboth⟩ := bind_eq_ok.mp hmore
        obtain ⟨rfl, rfl⟩ := Bool.and_eq_true_iff.mp (Except.ok.inj hboth)
        refine ⟨⟨rows, openBytes_eq_ok hrows, fun key value hget => ?_⟩, hrest⟩
        exact checkRows_eq_true.mp hone (key, value) ((rows.mem_rows_iff key value).mpr hget)
      · rintro ⟨⟨rows, hrows, hnew⟩, hrest⟩
        refine ⟨rows, by rw [openBytes, hrows], bind_eq_ok.mpr ⟨true, ?_, bind_eq_ok.mpr ⟨true, hrest, rfl⟩⟩⟩
        exact checkRows_eq_true.mpr fun row hrow => hnew row.1 row.2 ((rows.mem_rows_iff row.1 row.2).mp hrow)

/-- A file of new records only is converted as it is. -/
theorem converted_self (h : N.checkTables old (historyTables old.keys N.registered) = .ok true) :
    N.Converted old old := by
  refine ⟨rfl, fun name hname => ?_, fun _ _ _ => rfl⟩
  obtain ⟨rows, hrows, hnew⟩ := checkTables_eq_true.mp h name hname
  refine ⟨rows, rows, hrows, hrows, rfl, fun key value hget => ?_⟩
  obtain ⟨record, hrecord, hdated⟩ := decodeRecord_of_isV2 (hnew key value hget)
  refine ⟨value, record, hget, hrecord name key, ?_, hnew key value hget⟩
  rw [fill, if_neg hdated]
  exact hrecord name key

/-- In a converted file nothing is left to do. -/
theorem Converted.check (h : N.Converted old new) :
    N.checkTables new (historyTables new.keys N.registered) = .ok true := by
  rw [checkTables_eq_true, h.names]
  intro name hname
  obtain ⟨before, after, -, hafter, hkeys, hrows⟩ := h.history name hname
  refine ⟨after, hafter, fun key value hget => ?_⟩
  have hkey : key ∈ before.keys := hkeys ▸ (after.mem_keys_iff key).mpr ⟨value, hget⟩
  obtain ⟨oldValue, hold⟩ := (before.mem_keys_iff key).mp hkey
  obtain ⟨value', -, hvalue', -, -, hnew⟩ := hrows key oldValue hold
  rw [hget] at hvalue'
  obtain rfl := Option.some.inj hvalue'
  exact hnew

/-! ## Runs -/

section

variable {file : BackupFile}

/-- The file is as it was, and the run has not said otherwise. -/
def Untouched (file : BackupFile) (s : Conversion) : Prop := s.real = some file ∧ s.upgraded = false

/-- A converted file has taken the place of the old one. -/
def Replaced (N : Normalize) (file : BackupFile) (s : Conversion) : Prop :=
  ∃ f, s.real = some f ∧ f.state = .clean ∧ N.Converted file.tables f.tables

/-- The file is the whole old one or the whole new one. -/
def Whole (N : Normalize) (file : BackupFile) (s : Conversion) : Prop := s.real = some file ∨ N.Replaced file s

theorem preserves_attempting {I : Conversion → Prop} (step : NormalizeStep) : Prog.Preserves I (N.attempting step) :=
  Prog.Preserves.lift _

theorem preserves_writeBatch (name : String) (batch : List (String × Bytes)) :
    Prog.Preserves (Untouched file) (N.writeBatch name batch) :=
  (preserves_attempting _).bind fun _ => .effect fun _ hs => hs

theorem preserves_convertRows (name : String) (rows batch : List (String × Bytes)) :
    Prog.Preserves (Untouched file) (N.convertRows name rows batch) := by
  induction rows generalizing batch with
  | nil =>
      rw [convertRows]
      split
      · exact .ret ()
      · exact preserves_writeBatch name batch
  | cons row rows ih =>
      rw [convertRows]
      refine (Prog.Preserves.lift _).bind fun new => .bind (.effect fun _ hs => hs) fun _ => ?_
      split
      · exact (preserves_writeBatch name _).bind fun _ => ih []
      · exact ih _

theorem preserves_convertTable (before : Table String StoredTable) (name : String) :
    Prog.Preserves (Untouched file) (N.convertTable before name) :=
  (preserves_attempting _).bind fun _ => (Prog.Preserves.lift _).bind fun rows => preserves_convertRows name rows.rows []

/-- What holds at the end of a part that worked, and otherwise only that the file is untouched. -/
def EndsIn {α : Type} (file : BackupFile) (Q : α → Conversion → Prop) (r : Except ClError α) (s : Conversion) : Prop :=
  Untouched file s ∧ ∀ a, r = .ok a → Q a s

theorem spec_copyFile : Prog.Spec (Untouched file) (N.copyFile file) (Untouched file)
    (EndsIn file fun _ s => s.copy = some (.file file)) := by
  refine Prog.Spec.bind (preserves_attempting .copy) (fun _ => ?_) fun _ _ hs => ⟨hs, nofun⟩
  refine Prog.Spec.bind (Q := fun _ => Untouched file) (.effect fun _ hs => ⟨hs, hs⟩) (fun _ => ?_)
    fun _ _ hs => ⟨hs, nofun⟩
  refine Prog.Spec.bind (Q := fun _ s => Untouched file s ∧ s.copy = some (.file file))
    (.effect fun _ hs => ⟨hs, hs, rfl⟩) (fun _ => ?_) fun _ _ hs => ⟨hs.1, nofun⟩
  exact fun s hs => ⟨fun _ => nofun, hs.1, fun _ _ => hs.2⟩

/-- The snapshot is of the file. -/
theorem spec_openCopy : Prog.Spec (fun s => Untouched file s ∧ s.copy = some (.file file)) N.openCopy (Untouched file)
    (EndsIn file fun before _ => before = file.tables) := by
  refine Prog.Spec.bind (Q := fun _ s => Untouched file s ∧ s.copy = some (.file file))
    (fun s hs => ⟨fun _ => nofun, hs⟩) (fun _ => .read fun s hs => ?_) fun _ _ hs => ⟨hs.1, nofun⟩
  rw [hs.2]
  dsimp only
  split
  · exact .fail fun t ht => ⟨ht ▸ hs.1, nofun⟩
  · exact .ret fun t ht => ⟨ht ▸ hs.1, fun _ h => (Except.ok.inj h).symm⟩

theorem spec_verifyCopy (data : List String) (before : Table String StoredTable) :
    Prog.Spec (Untouched file) (N.verifyCopy data before) (Untouched file)
      (EndsIn file fun _ s => ∃ f, s.copy = some (.file f) ∧ N.verify data before f.tables = .ok ()) := by
  refine Prog.Spec.bind (preserves_attempting .verify) (fun _ => .read fun s hs => ?_) fun _ _ hs => ⟨hs, nofun⟩
  split
  next f hcopy =>
    rintro t rfl
    exact ⟨fun _ => nofun, hs, fun _ h => ⟨f, hcopy, h⟩⟩
  next => exact .fail fun t ht => ⟨ht ▸ hs, nofun⟩

/-- At the end of the attempt: the new file is there and the run says so, or the old one is untouched. -/
def Ended (N : Normalize) (file : BackupFile) (r : Except ClError Unit) (s : Conversion) : Prop :=
  match r with
  | .ok () => s.upgraded = true ∧ N.Replaced file s
  | .error _ => Untouched file s

theorem spec_replaceFile : Prog.Spec
    (fun s => Untouched file s ∧ ∃ f, s.copy = some (.file f) ∧ N.Converted file.tables f.tables)
    N.replaceFile (N.Whole file) (N.Ended file) := by
  refine Prog.Spec.bind
    (Q := fun _ s => Untouched file s ∧ ∃ f, s.copy = some (.file f) ∧ N.Converted file.tables f.tables)
    (fun s hs => ⟨fun _ => nofun, hs⟩) (fun _ => ?_) fun _ _ hs => hs.1
  -- from the close on, the copy is a whole file
  let Ready (s : Conversion) : Prop :=
    Untouched file s ∧ ∃ f, s.copy = some (.file f) ∧ f.state = .clean ∧ N.Converted file.tables f.tables
  refine Prog.Spec.bind (Q := fun _ => Ready) (.effect ?_) (fun _ => ?_) fun _ _ hs => hs.1
  · rintro s ⟨hs, f, hcopy, hconverted⟩
    refine ⟨.inl hs.1, hs, { f with state := .clean }, ?_, rfl, hconverted⟩
    rw [hcopy]
  refine Prog.Spec.bind (Q := fun _ => Ready) (fun s hs => ⟨fun _ => nofun, hs⟩) (fun _ => ?_) fun _ _ hs => hs.1
  refine Prog.Spec.bind (Q := fun _ => Ready) (fun s hs => ⟨fun _ => nofun, hs⟩) (fun _ => ?_) fun _ _ hs => hs.1
  refine Prog.Spec.next (S := fun _ => N.Replaced file) (.effect ?_) fun _ => .effect fun s hs => ⟨.inr hs, rfl, hs⟩
  rintro s ⟨-, f, hcopy, hclean, hconverted⟩
  rw [hcopy]
  have hreplaced : N.Replaced file { s with real := some f, copy := none } := ⟨f, rfl, hclean, hconverted⟩
  exact ⟨.inr hreplaced, (), rfl, hreplaced⟩

theorem spec_convert : Prog.Spec (Untouched file) (N.convert file) (N.Whole file) (N.Ended file) := by
  have hkeep {α : Type} {p : ConvProg α} {P : Conversion → Prop} {Q : Except ClError α → Conversion → Prop}
      (h : Prog.Spec P p (Untouched file) Q) : Prog.Spec P p (N.Whole file) Q :=
    h.imp (fun _ hs => hs) (fun _ hs => .inl hs.1) fun _ _ hs => hs
  refine Prog.Spec.bind (hkeep spec_copyFile) (fun _ => ?_) fun _ _ hs => hs.1
  refine Prog.Spec.bind ((hkeep spec_openCopy).imp (fun _ hs => ⟨hs.1, hs.2 () rfl⟩) (fun _ hs => hs) fun _ _ hs => hs)
    (fun before => ?_) fun _ _ hs => hs.1
  -- the tables of the snapshot are those of the file
  intro s hs
  obtain rfl : before = file.tables := hs.2 before rfl
  revert s
  refine Prog.Spec.bind
    ((hkeep (Prog.Preserves.each fun name _ => preserves_convertTable file.tables name)).imp (fun _ hs => hs.1)
      (fun _ hs => hs) fun _ _ hs => hs) (fun _ => ?_) fun _ _ hs => hs
  refine Prog.Spec.bind (hkeep (spec_verifyCopy _ _)) (fun _ => ?_) fun _ _ hs => hs.1
  refine spec_replaceFile.imp (fun s hs => ?_) (fun _ hs => hs) fun _ _ hs => hs
  obtain ⟨f, hcopy, hverified⟩ := hs.2 () rfl
  exact ⟨hs.1, f, hcopy, converted_of_verify hverified⟩

theorem spec_scanSource : Prog.Spec (Untouched file) (N.scanSource file) (Untouched file)
    (EndsIn file fun done _ => done = true → file.state = .clean ∧
      N.checkTables file.tables (historyTables file.tables.keys N.registered) = .ok true) := by
  refine Prog.Spec.bind (preserves_attempting .readOpen) (fun _ => ?_) fun _ _ hs => ⟨hs, nofun⟩
  split
  next => exact .fail fun _ hs => ⟨hs, nofun⟩
  next => exact .ret fun _ hs => ⟨hs, fun _ h hdone => absurd ((Except.ok.inj h).trans hdone) (by decide)⟩
  next hclean =>
    refine Prog.Spec.bind (preserves_attempting .scan) (fun _ => ?_) fun _ _ hs => ⟨hs, nofun⟩
    exact fun s hs => ⟨fun _ => nofun, hs, fun done h hdone => ⟨hclean, hdone ▸ h⟩⟩

theorem spec_attempt : Prog.Spec (Untouched file) (N.attempt file) (N.Whole file) (N.Ended file) := by
  refine Prog.Spec.bind (spec_scanSource.imp (fun _ hs => hs) (fun _ hs => .inl hs.1) fun _ _ hs => hs)
    (fun done => ?_) fun _ _ hs => hs.1
  cases done with
  | false => exact spec_convert.imp (fun _ hs => hs.1) (fun _ hs => hs) fun _ _ hs => hs
  | true =>
      refine .effect fun s hs => ⟨.inl hs.1.1, rfl, file, hs.1.1, ?_⟩
      obtain ⟨hclean, hcheck⟩ := hs.2 true rfl rfl
      exact ⟨hclean, converted_self hcheck⟩

theorem preserves_removeSibling {I : Conversion → Prop} (hI : ∀ s, I s → I { s with copy := none }) (step : NormalizeStep) :
    Prog.Preserves I (N.removeSibling step) := by
  refine .read fun s => ?_
  split
  · exact .ret ()
  · exact (preserves_attempting step).bind fun _ => .effect hI

/-- What a run leaves: the whole file, and the new one if it says so. -/
def Left (N : Normalize) (file : BackupFile) (r : Except ClError Report) (s : Conversion) : Prop :=
  N.Whole file s ∧ ∀ report, r = .ok report → report.upgraded = true → N.Replaced file s

theorem spec_eagerNormalize :
    Prog.Spec (fun s => s.real = some file) N.eagerNormalize (N.Whole file) (N.Left file) := by
  refine Prog.Spec.next (S := fun _ => Untouched file) (.effect fun s hs => ⟨.inl hs, (), rfl, hs, rfl⟩) fun _ => ?_
  refine .read fun s hs => ?_
  rw [hs.1]
  refine Prog.Spec.bind
    ((preserves_removeSibling (fun _ ht => ht) .removeStale).imp (fun t ht => ht ▸ hs) (fun _ ht => .inl ht.1)
      fun _ _ ht => ht) (fun _ => ?_) fun _ _ ht => ⟨.inl ht.1, nofun⟩
  refine (spec_attempt (N := N)).capture.next fun ended => ?_
  cases ended with
  | ok =>
      refine .read fun t ht => .ret fun t' ht' => ?_
      subst ht'
      exact ⟨.inr ht.2, fun _ _ _ => ht.2⟩
  | error e =>
      -- a failure leaves the file as it was
      refine Prog.Spec.bind ((preserves_removeSibling (fun _ ht => ht) .removeCopy).imp (fun _ ht => ht)
        (fun _ ht => .inl ht.1) fun _ _ ht => ht) (fun _ => ?_) fun _ _ ht => ⟨.inl ht.1, nofun⟩
      refine .read fun t ht => .ret fun t' ht' => ?_
      subst ht'
      refine ⟨.inl ht.1, fun report hreport hupgraded => ?_⟩
      obtain rfl := Except.ok.inj hreport
      exact absurd (ht.2.symm.trans hupgraded) (by decide)

/-- The file is `file`, and no entry was converted. -/
def Idle (file : BackupFile) (s : Conversion) : Prop := s.real = some file ∧ s.entriesConverted = 0

/-- In a converted file the attempt finds nothing to do. -/
theorem preserves_attempt (hclean : file.state = .clean)
    (hcheck : N.checkTables file.tables (historyTables file.tables.keys N.registered) = .ok true) :
    Prog.Preserves (Idle file) (N.attempt file) := by
  have hscan : Prog.Spec (Idle file) (N.scanSource file) (Idle file)
      fun r s => Idle file s ∧ ∀ done, r = .ok done → done = true := by
    refine Prog.Spec.bind (preserves_attempting .readOpen) (fun _ => ?_) fun _ _ hs => ⟨hs, nofun⟩
    rw [hclean]
    refine Prog.Spec.bind (preserves_attempting .scan) (fun _ => ?_) fun _ _ hs => ⟨hs, nofun⟩
    rw [hcheck]
    exact fun s hs => ⟨fun _ => nofun, hs, fun done h => (Except.ok.inj h).symm⟩
  refine hscan.bind (fun done s hs => ?_) fun _ _ hs => hs.1
  obtain rfl : done = true := hs.2 done rfl
  rw [if_pos rfl]
  have hidle : Prog.Preserves (Idle file) (Prog.effect fun s => { s with upgraded := true } : ConvProg Unit) :=
    .effect fun _ ht => ht
  exact hidle s hs.1

theorem spec_eagerNormalize_again (hclean : file.state = .clean)
    (hcheck : N.checkTables file.tables (historyTables file.tables.keys N.registered) = .ok true) :
    Prog.Spec (fun s => s.real = some file) N.eagerNormalize (Idle file)
      fun r s => Idle file s ∧ ∀ report, r = .ok report → report.entriesConverted = 0 := by
  refine Prog.Spec.next (S := fun _ => Idle file) (.effect fun s hs => ⟨⟨hs, rfl⟩, (), rfl, hs, rfl⟩) fun _ => ?_
  refine .read fun s hs => ?_
  rw [hs.1]
  refine Prog.Spec.bind
    ((preserves_removeSibling (fun _ ht => ht) .removeStale).imp (fun t ht => ht ▸ hs) (fun _ ht => ht)
      fun _ _ ht => ht) (fun _ => ?_) fun _ _ ht => ⟨ht, nofun⟩
  refine (Prog.Spec.capture (preserves_attempt hclean hcheck)).next fun ended => ?_
  have hreport (failure : Option ClError) : Prog.Spec (Idle file)
      (do let s ← Prog.read; Prog.ret ⟨s.upgraded, s.entriesConverted, failure⟩ : ConvProg Report) (Idle file)
      fun r s => Idle file s ∧ ∀ report, r = .ok report → report.entriesConverted = 0 := by
    refine .read fun t ht => .ret fun t' ht' => ?_
    subst ht'
    refine ⟨ht, fun report h => ?_⟩
    obtain rfl := Except.ok.inj h
    exact ht.2
  cases ended with
  | ok => exact hreport none
  | error e =>
      exact Prog.Spec.bind (preserves_removeSibling (fun _ ht => ht) .removeCopy) (fun _ => hreport (some e))
        fun _ _ ht => ⟨ht, nofun⟩

/-- **The conversion keeps the history.** Wherever a run is stopped and however it ends, the file is the whole old one or
the whole converted one. If the run reports the file upgraded, it is the converted one; and running it again, at any
time and with any faults, leaves the file as it is and reports no entry converted. -/
theorem eager_normalize_keeps_history (N : Normalize) (s : Conversion) (file : BackupFile) (hfile : s.real = some file) :
    (∀ t ∈ Prog.states N.eagerNormalize s, N.Whole file t) ∧ N.Whole file (N.eagerNormalize s).final ∧
      ∀ report, (N.eagerNormalize s).result = .ok report → report.upgraded = true →
        ∃ f, (N.eagerNormalize s).final.real = some f ∧ N.Converted file.tables f.tables ∧
          ∀ N' : Normalize, N'.json = N.json → N'.registered = N.registered →
            (∀ t ∈ Prog.states N'.eagerNormalize (N.eagerNormalize s).final, t.real = some f) ∧
              ∀ again, (N'.eagerNormalize (N.eagerNormalize s).final).result = .ok again →
                again.entriesConverted = 0 := by
  obtain ⟨hstates, hwhole, hupgraded⟩ := spec_eagerNormalize (N := N) s hfile
  refine ⟨?_, hwhole, fun report hreport hup => ?_⟩
  · intro t ht
    rcases List.mem_cons.mp ht with rfl | ht
    · exact .inl hfile
    · exact hstates t ht
  · obtain ⟨f, hf, hclean, hconverted⟩ := hupgraded report hreport hup
    refine ⟨f, hf, hconverted, ?_⟩
    intro N' hjson hregistered
    have hcheck : N'.checkTables f.tables (historyTables f.tables.keys N'.registered) = .ok true := by
      have hnew := checkTables_eq_true.mp hconverted.check
      rw [← hjson, ← hregistered] at hnew
      exact checkTables_eq_true.mpr hnew
    have hagain := spec_eagerNormalize_again hclean hcheck (N.eagerNormalize s).final hf
    refine ⟨fun t ht => ?_, hagain.2.2⟩
    rcases List.mem_cons.mp ht with rfl | ht
    · exact hf
    · exact (hagain.1 t ht).1

end

/-- A run without faults, for one registered table. -/
def sample : Normalize where
  json := Sample.json
  isBulkRecord := fun _ => true
  registered := ["notes"]
  now := (7, "d")
  later := (8, "e")
  fault := fun _ => none

/-- A history with a plain payload. -/
def sampleFile : BackupFile where
  tables := Table.empty.insert "notes" (.bytes (Table.empty.insert "a:1" [255]))
  state := .needsRepair

theorem eager_normalize_keeps_history_sample :
    ∃ report f, (sample.eagerNormalize ⟨some sampleFile, some .part, false, 3⟩).result = .ok report ∧
      report.entriesConverted = 1 ∧
      (sample.eagerNormalize ⟨some sampleFile, some .part, false, 3⟩).final.real = some f ∧
      sample.Converted sampleFile.tables f.tables := by
  obtain ⟨report, hreport⟩ := exists_of_isOk
    (x := (sample.eagerNormalize ⟨some sampleFile, some .part, false, 3⟩).result) (by decide +kernel)
  have hcounts : ((sample.eagerNormalize ⟨some sampleFile, some .part, false, 3⟩).result.toOption.map
      fun report => (report.upgraded, report.entriesConverted)) = some (true, 1) := by decide +kernel
  rw [hreport] at hcounts
  obtain ⟨hup, hone⟩ := Prod.mk.inj (Option.some.inj hcounts)
  obtain ⟨f, hf, hconverted, -⟩ := (eager_normalize_keeps_history sample ⟨some sampleFile, some .part, false, 3⟩
    sampleFile rfl).2.2 report hreport hup
  exact ⟨report, f, hreport, hone, hf, hconverted⟩

end Normalize

end CloveDb.Upgrade
