/-
# CloveDb.Backup.Names — the histories of all tables in one backup file

`CloveDb.Backup.Store` follows the history of one table. In the file each table has three redb tables: its records under
its own name, the last versions under the name with `_version`, and the bulks under the name with `_bulk`. Whether two
histories are apart is a matter of these names.

A redb table is opened with a type, and with another type than it has it does not open. So registration refuses a table
named like the versions of another. A table named like the bulks of another has the same type, and is accepted: the two
then share a redb table (`bulk_named_table_interferes`).
-/
import CloveDb.Backup.Codec
import CloveDb.Backup.Operations

namespace CloveDb.Backup

open CloveDb.Lib

def versionTableName (table : String) : String := table ++ "_version"

def bulkTableName (table : String) : String := table ++ "_bulk"

structure BulkRecord where
  bulkId : String
  timestamp : Int
  date : String
  table : String
  entries : List BulkEntry
  deriving DecidableEq

/-- What histories take from other crates: `serde_json` for bulks, and the text of an error. -/
structure HistoryTools extends SerdeJson where
  printBulk : BulkRecord → Bytes
  readBulk : Bytes → Option BulkRecord
  display : ClError → String

/-- A redb table with its type. -/
inductive TypedTable where
  | bytes (rows : Table String Bytes)
  | numbers (rows : Table String Nat)

/-- The redb tables of the backup file. -/
abbrev HistoryFile := String → Option TypedTable

namespace HistoryFile

variable (file : HistoryFile)

/-- `open_table` of a read: the table has to be there, with the type. -/
def openBytes (name : String) : Result (Table String Bytes) :=
  match file name with
  | some (.bytes rows) => .ok rows
  | _ => .error .database

@[inherit_doc openBytes]
def openNumbers (name : String) : Result (Table String Nat) :=
  match file name with
  | some (.numbers rows) => .ok rows
  | _ => .error .database

/-- `open_table` of a write: a table that is not there is made. -/
def createBytes (name : String) : Result (Table String Bytes) :=
  match file name with
  | none => .ok .empty
  | some (.bytes rows) => .ok rows
  | some (.numbers _) => .error .database

@[inherit_doc createBytes]
def createNumbers (name : String) : Result (Table String Nat) :=
  match file name with
  | none => .ok .empty
  | some (.numbers rows) => .ok rows
  | some (.bytes _) => .error .database

def put (name : String) (table : TypedTable) : HistoryFile := Function.update file name (some table)

/-- The three tables can be read. -/
def initialized (table : String) : Bool :=
  (file.openBytes table).isOk && (file.openNumbers (versionTableName table)).isOk &&
    (file.openBytes (bulkTableName table)).isOk

def initTable (table : String) : Result HistoryFile :=
  if file.initialized table then .ok file
  else do
    let data ← file.createBytes table
    let file := file.put table (.bytes data)
    let versions ← file.createNumbers (versionTableName table)
    let file := file.put (versionTableName table) (.numbers versions)
    let bulks ← file.createBytes (bulkTableName table)
    .ok (file.put (bulkTableName table) (.bytes bulks))

/-- The tables of a database, registered one after the other. -/
def register : HistoryFile → List String → Result HistoryFile
  | file, [] => .ok file
  | file, table :: tables => do
      let file ← file.initTable table
      register file tables

/-! ## Operations -/

def nextVersion (table key : String) : Result (HistoryFile × Nat) := do
  let versions ← file.createNumbers (versionTableName table)
  let next := (versions.get key).getD 0 + 1
  if 2 ^ 64 ≤ next then .error (.validation "backup version exhausted")
  else .ok (file.put (versionTableName table) (.numbers (versions.insert key next)), next)

variable (tools : HistoryTools)

/-- `write`: one transaction. -/
def write (now : Int × String) (record : BackupRecord) : Result HistoryFile := do
  let (file, version) ← file.nextVersion record.table record.key
  let data ← encodeRecord tools.toSerdeJson now { record with version := version }
  let rows ← file.createBytes record.table
  if (rows.get (backupKey record.key version)).isSome then
    .error (.validation ("backup version collision: " ++ backupKey record.key version))
  else .ok (file.put record.table (.bytes (rows.insert (backupKey record.key version) data)))

/-- The record of an operation; `write` gives it its number. -/
def recordOf (now : Clock) (table key : String) (operation : BackupOperation) (data : Option Bytes)
    (restoredVersion : Option Nat) (bulkId : Option String) : BackupRecord :=
  ⟨0, now.timestamp, now.date, operation, table, key, data, restoredVersion, bulkId, false⟩

/-- The loop of `restore_bulk`; what it wrote before an error stays. -/
def restoreEntries (now : Clock) (table bulkId : String) : HistoryFile → List BulkEntry → HistoryFile × Result Unit
  | file, [] => (file, .ok ())
  | file, entry :: entries =>
      let written : Result HistoryFile := do
        let rows ← file.openBytes table
        match rows.get (backupKey entry.key entry.version) with
        | none => .error (.notFound ("backup record " ++ backupKey entry.key entry.version ++ " not found"))
        | some bytes => do
            let record ← decodeRecord tools.toSerdeJson table (backupKey entry.key entry.version) bytes
            let data := if record.operation = .delete then none else record.data
            file.write tools (now.timestamp, now.date)
              (recordOf now table entry.key .restoreBulk data (some entry.version) (some bulkId))
      match written with
      | .error e => (file, .error e)
      | .ok file => restoreEntries now table bulkId file entries

/-- An operation on the history of a table. `bulkId` of `writeBulk` is the identifier that is drawn. -/
inductive HistoryOp where
  | recordSet (key : String) (data : Bytes)
  | recordDelete (key : String)
  | recordRestore (key : String) (restoredVersion : Nat) (data : Option Bytes) (bulkId : Option String)
  | restoreBulk (bulkId : String)
  | writeBulk (bulkId : String) (entries : List BulkEntry)

/-- A transaction that failed leaves the file. -/
def kept (file : HistoryFile) : Result HistoryFile → HistoryFile × Result Unit
  | .error e => (file, .error e)
  | .ok file => (file, .ok ())

def readBulkRecord (bytes : Bytes) : Result BulkRecord :=
  match tools.readBulk bytes with
  | none => .error .serialization
  | some bulk => .ok bulk

def perform (now : Clock) (table : String) : HistoryOp → HistoryFile × Result Unit
  | .recordSet key data =>
      file.kept (file.write tools (now.timestamp, now.date) (recordOf now table key .set (some data) none none))
  | .recordDelete key =>
      file.kept (file.write tools (now.timestamp, now.date) (recordOf now table key .delete none none none))
  | .recordRestore key version data bulkId =>
      file.kept (file.write tools (now.timestamp, now.date) (recordOf now table key .restore data (some version) bulkId))
  | .restoreBulk bulkId =>
      let found : Result BulkRecord := do
        let bulks ← file.openBytes (bulkTableName table)
        match bulks.get bulkId with
        | none => .error (.notFound ("bulk_id " ++ bulkId ++ " not found"))
        | some bytes => readBulkRecord tools bytes
      match found with
      | .error e => (file, .error e)
      | .ok bulk => restoreEntries tools now table bulkId file bulk.entries
  | .writeBulk bulkId entries =>
      if entries = [] then (file, .error (.validation "no valid ids provided"))
      else file.kept do
        let bulks ← file.createBytes (bulkTableName table)
        .ok (file.put (bulkTableName table)
          (.bytes (bulks.insert bulkId (tools.printBulk ⟨bulkId, now.timestamp, now.date, table, entries⟩))))

/-! ## Reading -/

/-- The records that are read, and the texts of those that are not. -/
def readRecords (table : String) : List (String × Bytes) → List BackupRecord × List String
  | [] => ([], [])
  | (text, bytes) :: rows =>
      let (records, unreadable) := readRecords table rows
      match decodeRecord tools.toSerdeJson table text bytes with
      | .ok record => (record :: records, unreadable)
      | .error e => (records, (text ++ ": " ++ tools.display e) :: unreadable)

def history (table key : String) : Result (List BackupRecord) := do
  let rows ← file.openBytes table
  let (records, unreadable) := readRecords tools table (rows.rows.filter fun r => startsWith r.1 (key ++ ":"))
  if unreadable = [] then .ok (records.insertionSort fun r r' => r.version ≤ r'.version)
  else .error (.backupNormalizeFailed
    (toString unreadable.length ++ " unreadable backup records: " ++ String.intercalate "; " unreadable))

def currentVersion (table key : String) : Result Nat := do
  let versions ← file.openNumbers (versionTableName table)
  .ok ((versions.get key).getD 0)

def listBulk (table : String) : Result (List BulkRecord) := do
  let bulks ← file.openBytes (bulkTableName table)
  let records ← collect (fun r => readBulkRecord tools r.2) bulks.rows
  .ok (records.insertionSort fun r r' => r.timestamp ≤ r'.timestamp)

/-! ## Footprints -/

/-- The redb tables of a table. -/
def names (table : String) : List String := [table, versionTableName table, bulkTableName table]

theorem put_ne {name name' : String} (h : name' ≠ name) (t : TypedTable) : file.put name t name' = file name' := by
  rw [put, Function.update_of_ne h]

theorem write_frame {file file' : HistoryFile} {tools : HistoryTools} {now : Int × String} {record : BackupRecord}
    (h : file.write tools now record = .ok file') {name : String} (hname : name ∉ names record.table) :
    file' name = file name := by
  simp only [names, List.mem_cons, List.not_mem_nil, or_false, not_or] at hname
  obtain ⟨⟨mid, version⟩, hnext, h⟩ := bind_eq_ok.mp h
  obtain ⟨data, -, h⟩ := bind_eq_ok.mp h
  obtain ⟨rows, -, h⟩ := bind_eq_ok.mp h
  obtain ⟨versions, -, hnext⟩ := bind_eq_ok.mp hnext
  dsimp only at hnext
  split at hnext
  · cases hnext
  cases hnext
  split at h
  · cases h
  cases h
  rw [put_ne _ hname.1, put_ne _ hname.2.1]

theorem kept_frame {file : HistoryFile} {result : Result HistoryFile} {name : String}
    (h : ∀ file', result = .ok file' → file' name = file name) : (file.kept result).1 name = file name := by
  cases result with
  | error e => rfl
  | ok file' => exact h file' rfl

theorem restoreEntries_frame {tools : HistoryTools} {now : Clock} {table bulkId : String} {entries : List BulkEntry}
    {name : String} (hname : name ∉ names table) :
    (restoreEntries tools now table bulkId file entries).1 name = file name := by
  induction entries generalizing file with
  | nil => rfl
  | cons entry entries ih =>
      rw [restoreEntries]
      dsimp only
      split
      · rfl
      · rename_i file' hwritten
        obtain ⟨rows, -, hwritten⟩ := bind_eq_ok.mp hwritten
        split at hwritten
        · cases hwritten
        · obtain ⟨record, -, hwritten⟩ := bind_eq_ok.mp hwritten
          exact (ih file').trans (write_frame hwritten hname)

/-- **An operation on a table leaves every redb table that is not one of its three.** -/
theorem perform_frame {tools : HistoryTools} {now : Clock} {table : String} (op : HistoryOp) {name : String}
    (hname : name ∉ names table) : (file.perform tools now table op).1 name = file name := by
  cases op with
  | recordSet key data => exact kept_frame fun file' h => write_frame h hname
  | recordDelete key => exact kept_frame fun file' h => write_frame h hname
  | recordRestore key version data bulkId => exact kept_frame fun file' h => write_frame h hname
  | restoreBulk bulkId =>
      rw [perform]
      split
      · rfl
      · exact restoreEntries_frame file hname
  | writeBulk bulkId entries =>
      rw [perform]
      split
      · rfl
      · refine kept_frame fun file' h => ?_
        obtain ⟨bulks, -, h⟩ := bind_eq_ok.mp h
        cases h
        refine put_ne _ (fun heq => hname ?_) _
        simp [names, heq]

/-- All that is read of the history of a table. -/
structure SameHistory (tools : HistoryTools) (file file' : HistoryFile) (table : String) : Prop where
  history : ∀ key, file'.history tools table key = file.history tools table key
  currentVersion : ∀ key, file'.currentVersion table key = file.currentVersion table key
  listBulk : file'.listBulk tools table = file.listBulk tools table

theorem sameHistory_of_names {tools : HistoryTools} {file file' : HistoryFile} {table : String}
    (h : ∀ name ∈ names table, file' name = file name) : SameHistory tools file file' table := by
  have hdata : file' table = file table := h _ (by simp [names])
  have hversions : file' (versionTableName table) = file (versionTableName table) := h _ (by simp [names])
  have hbulks : file' (bulkTableName table) = file (bulkTableName table) := h _ (by simp [names])
  constructor
  · intro key
    simp only [history, openBytes, hdata]
  · intro key
    simp only [currentVersion, openNumbers, hversions]
  · simp only [listBulk, openBytes, hbulks]

/-! ## Names that registration accepts -/

/-- The three tables are there, each with its type. -/
structure Registered (file : HistoryFile) (table : String) : Prop where
  data : ∃ rows, file table = some (.bytes rows)
  versions : ∃ rows, file (versionTableName table) = some (.numbers rows)
  bulks : ∃ rows, file (bulkTableName table) = some (.bytes rows)

/-- A later file has the tables of an earlier one with their types. -/
structure Extends (file file' : HistoryFile) : Prop where
  bytes : ∀ name, (∃ rows, file name = some (.bytes rows)) → ∃ rows, file' name = some (.bytes rows)
  numbers : ∀ name, (∃ rows, file name = some (.numbers rows)) → ∃ rows, file' name = some (.numbers rows)

theorem Registered.mono {file file' : HistoryFile} {table : String} (h : Registered file table)
    (hext : Extends file file') : Registered file' table :=
  ⟨hext.bytes _ h.data, hext.numbers _ h.versions, hext.bytes _ h.bulks⟩

theorem Extends.refl (file : HistoryFile) : Extends file file := ⟨fun _ h => h, fun _ h => h⟩

theorem Extends.trans {file mid file' : HistoryFile} (h : Extends file mid) (h' : Extends mid file') :
    Extends file file' :=
  ⟨fun name hname => h'.bytes name (h.bytes name hname), fun name hname => h'.numbers name (h.numbers name hname)⟩

theorem openBytes_eq_ok {file : HistoryFile} {name : String} {rows : Table String Bytes} :
    file.openBytes name = .ok rows ↔ file name = some (.bytes rows) := by
  rw [openBytes]
  split
  · rename_i rows' h
    simp [h]
  · rename_i h
    simp only [reduceCtorEq, false_iff]
    exact fun heq => h rows heq

theorem openNumbers_eq_ok {file : HistoryFile} {name : String} {rows : Table String Nat} :
    file.openNumbers name = .ok rows ↔ file name = some (.numbers rows) := by
  rw [openNumbers]
  split
  · rename_i rows' h
    simp [h]
  · rename_i h
    simp only [reduceCtorEq, false_iff]
    exact fun heq => h rows heq

theorem extends_putBytes {file : HistoryFile} {name : String} {rows : Table String Bytes}
    (h : file.createBytes name = .ok rows) (rows' : Table String Bytes) : Extends file (file.put name (.bytes rows')) := by
  refine ⟨fun name' hname' => ?_, fun name' hname' => ?_⟩
  · by_cases heq : name' = name
    · exact ⟨rows', by rw [heq, put, Function.update_self]⟩
    · rwa [put_ne _ heq]
  · obtain ⟨numbers, hnumbers⟩ := hname'
    have hne : name' ≠ name := by
      rintro rfl
      rw [createBytes, hnumbers] at h
      cases h
    exact ⟨numbers, by rw [put_ne _ hne, hnumbers]⟩

theorem extends_putNumbers {file : HistoryFile} {name : String} {rows : Table String Nat}
    (h : file.createNumbers name = .ok rows) (rows' : Table String Nat) :
    Extends file (file.put name (.numbers rows')) := by
  refine ⟨fun name' hname' => ?_, fun name' hname' => ?_⟩
  · obtain ⟨bytes, hbytes⟩ := hname'
    have hne : name' ≠ name := by
      rintro rfl
      rw [createNumbers, hbytes] at h
      cases h
    exact ⟨bytes, by rw [put_ne _ hne, hbytes]⟩
  · by_cases heq : name' = name
    · exact ⟨rows', by rw [heq, put, Function.update_self]⟩
    · rwa [put_ne _ heq]

theorem initTable_spec {file file' : HistoryFile} {table : String} (h : file.initTable table = .ok file') :
    Extends file file' ∧ Registered file' table := by
  rw [initTable] at h
  split at h
  · rename_i hinit
    cases h
    rw [initialized, Bool.and_eq_true, Bool.and_eq_true] at hinit
    obtain ⟨⟨hdata, hversions⟩, hbulks⟩ := hinit
    obtain ⟨data, hdata⟩ := exists_of_isOk hdata
    obtain ⟨versions, hversions⟩ := exists_of_isOk hversions
    obtain ⟨bulks, hbulks⟩ := exists_of_isOk hbulks
    exact ⟨.refl file, ⟨data, openBytes_eq_ok.mp hdata⟩, ⟨versions, openNumbers_eq_ok.mp hversions⟩,
      ⟨bulks, openBytes_eq_ok.mp hbulks⟩⟩
  · obtain ⟨data, hdata, h⟩ := bind_eq_ok.mp h
    obtain ⟨versions, hversions, h⟩ := bind_eq_ok.mp h
    obtain ⟨bulks, hbulks, h⟩ := bind_eq_ok.mp h
    cases h
    have hfirst := extends_putBytes hdata data
    have hsecond := extends_putNumbers hversions versions
    have hthird := extends_putBytes hbulks bulks
    refine ⟨hfirst.trans (hsecond.trans hthird), ?_, ?_, ?_⟩
    · exact (hsecond.trans hthird).bytes _ ⟨data, Function.update_self _ _ _⟩
    · exact hthird.numbers _ ⟨versions, Function.update_self _ _ _⟩
    · exact ⟨bulks, Function.update_self _ _ _⟩

theorem register_spec {file file' : HistoryFile} {tables : List String} (h : file.register tables = .ok file') :
    Extends file file' ∧ ∀ table ∈ tables, Registered file' table := by
  induction tables generalizing file with
  | nil =>
      cases h
      exact ⟨.refl _, nofun⟩
  | cons table tables ih =>
      obtain ⟨mid, hmid, h⟩ := bind_eq_ok.mp h
      obtain ⟨hext, htable⟩ := initTable_spec hmid
      obtain ⟨hext', htables⟩ := ih h
      exact ⟨hext.trans hext', List.forall_mem_cons.mpr ⟨htable.mono hext', htables⟩⟩

theorem append_inj_left {a b c : String} (h : a ++ c = b ++ c) : a = b := by
  have hlist := congrArg String.toList h
  rw [String.toList_append, String.toList_append] at hlist
  exact String.toList_injective (List.append_cancel_right hlist)

/-- Two registered tables have no redb table in common, unless one has the name of the bulks of the other. -/
theorem names_disjoint {file : HistoryFile} {t u : String} (ht : Registered file t) (hu : Registered file u) (hne : u ≠ t)
    (htu : u ≠ bulkTableName t) (hut : t ≠ bulkTableName u) : ∀ name ∈ names u, name ∉ names t := by
  have htypes : ∀ {a b : String}, (∃ rows, file a = some (.bytes rows)) → (∃ rows, file b = some (.numbers rows)) →
      a ≠ b := by
    rintro a b ⟨rows, ha⟩ ⟨rows', hb⟩ rfl
    rw [ha] at hb
    cases hb
  intro name hname
  simp only [names, List.mem_cons, List.not_mem_nil, or_false] at hname
  simp only [names, List.mem_cons, List.not_mem_nil, or_false, not_or]
  rcases hname with rfl | rfl | rfl
  · exact ⟨hne, htypes hu.data ht.versions, htu⟩
  · exact ⟨(htypes ht.data hu.versions).symm, fun heq => hne (append_inj_left heq),
      (htypes ht.bulks hu.versions).symm⟩
  · exact ⟨hut.symm, htypes hu.bulks ht.versions, fun heq => hne (append_inj_left heq)⟩

/-- The operations of a run, each with its time and its table. -/
def run (tools : HistoryTools) (file : HistoryFile) (ops : List (Clock × String × HistoryOp)) : HistoryFile :=
  ops.foldl (fun file o => (file.perform tools o.1 o.2.1 o.2.2).1) file

/-- In a run on registered tables, no operation on one table changes what is read of another. -/
def Independent (tools : HistoryTools) (tables : List String) : Prop :=
  ∀ (file file₀ : HistoryFile) (ops : List (Clock × String × HistoryOp)), file.register tables = .ok file₀ →
    (∀ o ∈ ops, o.2.1 ∈ tables) → ∀ t ∈ tables, ∀ u ∈ tables, u ≠ t → ∀ (now : Clock) (op : HistoryOp),
      SameHistory tools (file₀.run tools ops) ((file₀.run tools ops).perform tools now t op).1 u

theorem independent_of_names {tools : HistoryTools} {tables : List String}
    (h : ∀ t ∈ tables, ∀ u ∈ tables, u ≠ bulkTableName t) : Independent tools tables := by
  intro file file₀ ops hregister _ t ht u hu hne now op
  obtain ⟨-, hregistered⟩ := register_spec hregister
  refine sameHistory_of_names fun name hname => perform_frame _ op ?_
  exact names_disjoint (hregistered t ht) (hregistered u hu) hne (h t ht u hu) (h u hu t ht) name hname

/-! ## Tables that share a redb table -/

/-- No table has a row. -/
def Blank (file : HistoryFile) : Prop := ∀ name t, file name = some t → t = .bytes .empty ∨ t = .numbers .empty

theorem Blank.createBytes {file : HistoryFile} (h : file.Blank) {name : String} {rows : Table String Bytes}
    (hrows : file.createBytes name = .ok rows) : rows = .empty := by
  rw [HistoryFile.createBytes] at hrows
  split at hrows
  · exact (Except.ok.inj hrows).symm
  · rename_i rows' hrows'
    cases hrows
    rcases h name _ hrows' with heq | heq <;> cases heq
    rfl
  · cases hrows

theorem Blank.createNumbers {file : HistoryFile} (h : file.Blank) {name : String} {rows : Table String Nat}
    (hrows : file.createNumbers name = .ok rows) : rows = .empty := by
  rw [HistoryFile.createNumbers] at hrows
  split at hrows
  · exact (Except.ok.inj hrows).symm
  · rename_i rows' hrows'
    cases hrows
    rcases h name _ hrows' with heq | heq <;> cases heq
    rfl
  · cases hrows

theorem Blank.put {file : HistoryFile} (h : file.Blank) (name : String) {t : TypedTable}
    (ht : t = .bytes .empty ∨ t = .numbers .empty) : (file.put name t).Blank := by
  intro name' t' ht'
  by_cases heq : name' = name
  · rw [heq, HistoryFile.put, Function.update_self] at ht'
    cases ht'
    exact ht
  · rw [put_ne _ heq] at ht'
    exact h name' t' ht'

theorem Blank.initTable {file file' : HistoryFile} (h : file.Blank) {table : String}
    (hinit : file.initTable table = .ok file') : file'.Blank := by
  rw [HistoryFile.initTable] at hinit
  split at hinit
  · cases hinit
    exact h
  · obtain ⟨data, hdata, hinit⟩ := bind_eq_ok.mp hinit
    obtain ⟨versions, hversions, hinit⟩ := bind_eq_ok.mp hinit
    obtain ⟨bulks, hbulks, hinit⟩ := bind_eq_ok.mp hinit
    cases hinit
    have hfirst := h.put table (.inl (congrArg TypedTable.bytes (h.createBytes hdata)))
    have hsecond := hfirst.put (versionTableName table)
      (.inr (congrArg TypedTable.numbers (hfirst.createNumbers hversions)))
    exact hsecond.put _ (.inl (congrArg TypedTable.bytes (hsecond.createBytes hbulks)))

theorem Blank.register {file file' : HistoryFile} (h : file.Blank) {tables : List String}
    (hregister : file.register tables = .ok file') : file'.Blank := by
  induction tables generalizing file with
  | nil =>
      cases hregister
      exact h
  | cons table tables ih =>
      obtain ⟨mid, hmid, hregister⟩ := bind_eq_ok.mp hregister
      exact ih (h.initTable hmid) hregister

/-- The first version of a row in a blank file: its table then has one record. -/
theorem Blank.recordSet {file : HistoryFile} (h : file.Blank) {table : String} (htable : Registered file table)
    (tools : HistoryTools) (now : Clock) (key : String) (data : Bytes) :
    ∃ bytes, (file.perform tools now table (.recordSet key data)).1 table =
      some (.bytes (Table.empty.insert (backupKey key 1) bytes)) := by
  obtain ⟨rows, hrows⟩ := htable.data
  obtain ⟨versions, hversions⟩ := htable.versions
  have hne : table ≠ versionTableName table := by
    intro heq
    rw [← heq, hrows] at hversions
    cases hversions
  obtain rfl : rows = .empty := h.createBytes (show file.createBytes table = .ok rows by rw [HistoryFile.createBytes, hrows])
  obtain rfl : versions = .empty := h.createNumbers
    (show file.createNumbers (versionTableName table) = .ok versions by rw [HistoryFile.createNumbers, hversions])
  have hnext : file.nextVersion table key =
      .ok (file.put (versionTableName table) (.numbers (Table.empty.insert key 1)), 1) := by
    rw [nextVersion, HistoryFile.createNumbers, hversions, ok_bind]
    simp
  obtain ⟨bytes, hbytes⟩ : ∃ bytes, encodeRecord tools.toSerdeJson (now.timestamp, now.date)
      { recordOf now table key .set (some data) none none with version := 1 } = .ok bytes := by
    simp [encodeRecord, recordOf]
  have hrest : (file.put (versionTableName table) (.numbers (Table.empty.insert key 1))).createBytes table = .ok .empty := by
    rw [HistoryFile.createBytes, put_ne _ hne, hrows]
  refine ⟨bytes, ?_⟩
  have hwrite : file.write tools (now.timestamp, now.date) (recordOf now table key .set (some data) none none) =
      .ok ((file.put (versionTableName table) (.numbers (Table.empty.insert key 1))).put table
        (.bytes (Table.empty.insert (backupKey key 1) bytes))) := by
    refine bind_eq_ok.mpr ⟨_, hnext, bind_eq_ok.mpr ⟨bytes, hbytes, bind_eq_ok.mpr ⟨.empty, hrest, ?_⟩⟩⟩
    rw [Table.get_empty, Option.isSome_none, if_neg Bool.false_ne_true]
    rfl
  rw [perform, hwrite]
  exact Function.update_self _ _ _

theorem listBulk_of_rows {tools : HistoryTools} {file : HistoryFile} {table : String} {rows : Table String Bytes}
    (h : file (bulkTableName table) = some (.bytes rows)) : file.listBulk tools table = (do
      let records ← collect (fun r => readBulkRecord tools r.2) rows.rows
      .ok (records.insertionSort fun r r' => r.timestamp ≤ r'.timestamp)) := by
  rw [listBulk, openBytes_eq_ok.mpr h, ok_bind]

/-- A record that is written into the bulks of another table shows in them, or makes them unreadable. -/
theorem shared_table_interferes {file : HistoryFile} (hblank : file.Blank) {t : String} (ht : Registered file t)
    (hu : Registered file (bulkTableName t)) (tools : HistoryTools) (now : Clock) (key : String) (data : Bytes) :
    file.listBulk tools t = .ok [] ∧
      (file.perform tools now (bulkTableName t) (.recordSet key data)).1.listBulk tools t ≠ .ok [] := by
  constructor
  · obtain ⟨rows, hrows⟩ := ht.bulks
    rcases hblank _ _ hrows with heq | heq <;> cases heq
    rw [listBulk_of_rows hrows]
    rfl
  · obtain ⟨bytes, hafter⟩ := hblank.recordSet hu tools now key data
    rw [listBulk_of_rows hafter]
    intro hlist
    obtain ⟨records, hrecords, hsorted⟩ := bind_eq_ok.mp hlist
    have hlength := collect_length hrecords
    rw [← List.length_insertionSort (fun r r' : BulkRecord => r.timestamp ≤ r'.timestamp), Except.ok.inj hsorted] at hlength
    cases hlength

/-- **Histories of different tables do not interfere exactly if no table has the name of another's bulks.** -/
theorem histories_independent_iff (tools : HistoryTools) (tables : List String)
    (haccepted : ∃ file₀, register (fun _ => none) tables = .ok file₀) :
    Independent tools tables ↔ ∀ t ∈ tables, ∀ u ∈ tables, u ≠ bulkTableName t := by
  refine ⟨?_, independent_of_names⟩
  rintro hall t ht u hu rfl
  obtain ⟨file₀, hregister⟩ := haccepted
  obtain ⟨-, hregistered⟩ := register_spec hregister
  have hblank : file₀.Blank := @Blank.register (fun _ => none) file₀ nofun _ hregister
  have hne : t ≠ bulkTableName t := by
    intro heq
    have hlength := congrArg String.length heq
    have hsuffix : "_bulk".length = 5 := by decide
    rw [bulkTableName, String.length_append] at hlength
    omega
  obtain ⟨hbefore, hafter⟩ := shared_table_interferes hblank (hregistered t ht) (hregistered _ hu) tools ⟨0, ""⟩ "k" []
  exact hafter ((hall _ file₀ [] hregister nofun _ hu t ht hne ⟨0, ""⟩ (.recordSet "k" [])).listBulk.trans hbefore)

/-- The tools of concrete histories; no bulk is read in them. -/
def sampleTools : HistoryTools := { Sample.json with printBulk := fun _ => [], readBulk := fun _ => none, display := fun _ => "" }

theorem histories_independent_pair :
    (∃ file₀, register (fun _ => none) ["a", "b"] = .ok file₀) ∧ Independent sampleTools ["a", "b"] := by
  have haccepted : ∃ file₀, register (fun _ => none) ["a", "b"] = .ok file₀ := exists_of_isOk (by decide)
  exact ⟨haccepted, (histories_independent_iff sampleTools ["a", "b"] haccepted).mpr (by decide)⟩

/-- `t` and `t_bulk` are both accepted. A row of `t_bulk` is set, and the list of the bulks of `t`, which was empty, is
not the empty list any more. -/
theorem bulk_named_table_interferes :
    ∃ file₀, register (fun _ => none) ["t", "t_bulk"] = .ok file₀ ∧ file₀.listBulk sampleTools "t" = .ok [] ∧
      (file₀.perform sampleTools ⟨0, ""⟩ "t_bulk" (.recordSet "k" [])).1.listBulk sampleTools "t" ≠ .ok [] := by
  obtain ⟨file₀, hregister⟩ := exists_of_isOk (show (register (fun _ => none) ["t", "t_bulk"]).isOk = true by decide)
  obtain ⟨-, hregistered⟩ := register_spec hregister
  have hblank : file₀.Blank := @Blank.register (fun _ => none) file₀ nofun _ hregister
  exact ⟨file₀, hregister, shared_table_interferes hblank (hregistered "t" (by simp)) (hregistered "t_bulk" (by simp))
    sampleTools ⟨0, ""⟩ "k" []⟩

end HistoryFile

end CloveDb.Backup
