/-
# CloveDb.Backup.Codec — history records as bytes

`backup/codec.rs`. A record is one JSON object: its metadata as `serde_json` prints it, and, put in before the closing
brace, its payload: the payload's own bytes if they are JSON, base64 if they are not. The decoder finds the payload by
where it stands in the text and takes the spaces around it for part of it. An object counts as a record when enough of
the metadata's names are there; anything else is a payload from before records existed.

`serde_json` is a parameter (`SerdeJson`): it reads back what it prints.
-/
import Mathlib
import CloveDb.Backup.Base64
import CloveDb.Backup.Store
import CloveDb.Lib.JsonObject
import CloveDb.Lib.NumberedName
import CloveDb.Lib.Table

namespace CloveDb.Backup

open CloveDb.Lib CloveDb.Lib.JsonText

def nullText : Bytes := utf8 "null"

def boolText (b : Bool) : Bytes := if b then utf8 "true" else utf8 "false"

/-- `serde_json` for the types of a record's fields. -/
structure SerdeJson extends JsonText where
  printU64 : Nat → Bytes
  readU64 : Bytes → Option Nat
  printI64 : Int → Bytes
  readI64 : Bytes → Option Int
  /-- `Option<Vec<u8>>`, as records once held their payload -/
  readPayload : Bytes → Option (Option Bytes)
  scan_u64 : ∀ n, scan (printU64 n) = some (printU64 n).length
  read_u64 : ∀ n, n < 2 ^ 64 → readU64 (printU64 n) = some n
  scan_i64 : ∀ n, scan (printI64 n) = some (printI64 n).length
  read_i64 : ∀ n, -2 ^ 63 ≤ n → n < 2 ^ 63 → readI64 (printI64 n) = some n
  scan_null : scan nullText = some nullText.length
  scan_bool : ∀ b, scan (boolText b) = some (boolText b).length
  string_not_null : readString nullText = none
  u64_not_null : readU64 nullText = none

variable (J : SerdeJson)

/-! ## Fields and metadata -/

/-- `Fields`: the last value of each name, and the names that came again. -/
structure RecordFields where
  values : Table String Raw
  duplicates : List String

def RecordFields.insert (fields : RecordFields) (entry : String × Raw) : RecordFields :=
  ⟨fields.values.insert entry.1 entry.2,
    if (fields.values.get entry.1).isSome then fields.duplicates ++ [entry.1] else fields.duplicates⟩

def RecordFields.ofEntries (entries : List (String × Raw)) : RecordFields :=
  entries.foldl RecordFields.insert ⟨Table.empty, []⟩

def RecordFields.has (fields : RecordFields) (name : String) : Bool := (fields.values.get name).isSome

/-- `from_slice::<Fields>`. -/
def parseFields (bytes : Bytes) : Option RecordFields := (J.parseObject bytes).map RecordFields.ofEntries

def envelope (fields : RecordFields) : Bool :=
  !fields.has "id" &&
    decide (4 ≤ (["version", "timestamp", "date", "operation", "table", "key"].filter fields.has).length)

structure Metadata where
  version : Nat
  timestamp : Int
  date : String
  operation : BackupOperation
  table : String
  key : String
  bulkId : Option String
  restoredVersion : Option Nat
  dateFromMigration : Bool

def Metadata.fromRecord (r : BackupRecord) : Metadata :=
  ⟨r.version, r.timestamp, r.date, r.operation, r.table, r.key, r.bulkId, r.restoredVersion, r.dateFromMigration⟩

def Metadata.record (m : Metadata) (data : Option Bytes) : BackupRecord :=
  { version := m.version, timestamp := m.timestamp, date := m.date, operation := m.operation, table := m.table,
    key := m.key, data, restoredVersion := m.restoredVersion, bulkId := m.bulkId,
    dateFromMigration := m.dateFromMigration }

def BackupOperation.name : BackupOperation → String
  | .set => "Set"
  | .delete => "Delete"
  | .restore => "Restore"
  | .restoreBulk => "RestoreBulk"

def BackupOperation.ofName (name : String) : Option BackupOperation :=
  [BackupOperation.set, .delete, .restore, .restoreBulk].find? fun op => op.name == name

/-- A unit variant is read from its name, or from an object with its name and `null`. -/
def readOperation (raw : Bytes) : Option BackupOperation :=
  match J.readString raw with
  | some name => BackupOperation.ofName name
  | none =>
      match J.parseObject raw with
      | some [(name, value)] => if value.value = nullText then BackupOperation.ofName name else none
      | _ => none

def readOption {α : Type} (read : Bytes → Option α) (raw : Bytes) : Option (Option α) :=
  if raw = nullText then some none else (read raw).map some

def printOption {α : Type} (print : α → Bytes) : Option α → Bytes
  | none => nullText
  | some a => print a

def readBool (raw : Bytes) : Option Bool := [true, false].find? fun b => boolText b == raw

/-- A read of `serde_json`, with its error. -/
def parsed {α : Type} (value : Option α) : Result α :=
  match value with
  | some a => .ok a
  | none => .error .serialization

/-- A field of `Metadata` that has to be there. -/
def required {α : Type} (fields : RecordFields) (name : String) (read : Bytes → Option α) : Result α :=
  parsed ((fields.values.get name).bind fun raw => read raw.value)

/-- A field of `Metadata` with `#[serde(default)]`. -/
def defaulted {α : Type} (fields : RecordFields) (name : String) (default : α) (read : Bytes → Option α) : Result α :=
  match fields.values.get name with
  | some raw => parsed (read raw.value)
  | none => .ok default

/-- `from_slice::<Metadata>`, of an object whose names are known to differ. -/
def readMetadata (fields : RecordFields) : Result Metadata := do
  let version ← required fields "version" J.readU64
  let timestamp ← required fields "timestamp" J.readI64
  let date ← required fields "date" J.readString
  let operation ← required fields "operation" (readOperation J)
  let table ← required fields "table" J.readString
  let key ← required fields "key" J.readString
  let bulkId ← defaulted fields "bulk_id" none (readOption J.readString)
  let restoredVersion ← defaulted fields "restored_version" none (readOption J.readU64)
  let dateFromMigration ← defaulted fields "date_from_migration" false readBool
  .ok ⟨version, timestamp, date, operation, table, key, bulkId, restoredVersion, dateFromMigration⟩

/-- A member with no spaces around its value. -/
def bare (name : String) (value : Bytes) : Member := ⟨name, [], value, []⟩

/-- The members `to_vec(&metadata)` prints. -/
def metadataMembers (m : Metadata) : List Member :=
  [bare "version" (J.printU64 m.version), bare "timestamp" (J.printI64 m.timestamp),
    bare "date" (J.printString m.date), bare "operation" (J.printString m.operation.name),
    bare "table" (J.printString m.table), bare "key" (J.printString m.key),
    bare "bulk_id" (printOption J.printString m.bulkId),
    bare "restored_version" (printOption J.printU64 m.restoredVersion)] ++
  if m.dateFromMigration then [bare "date_from_migration" (boolText true)] else []

/-! ## The codec -/

/-- The metadata to write: a record that came without a date gets the time of `now`. -/
def Metadata.dated (now : Int × String) (m : Metadata) : Metadata :=
  if m.dateFromMigration ∧ m.date = "" then { m with timestamp := now.1, date := now.2 } else m

/-- The payload's name and bytes, from the comma on. -/
def payloadText (data : Bytes) : Bytes :=
  if (J.parseValue data).isSome then utf8 ",\"doc\":" ++ data
  else utf8 ",\"data_b64\":" ++ J.printString (encodeBase64 data)

def encodeRecord (now : Int × String) (record : BackupRecord) : Result Bytes :=
  if record.operation = .set ∧ record.data = none then .error (invalid "set record has no payload")
  else
    let encoded := J.objectText (metadataMembers J ((Metadata.fromRecord record).dated now))
    match record.data with
    | none => .ok encoded
    | some data =>
        if record.operation = .delete then .error (invalid "delete record contains a payload")
        else .ok (encoded.dropLast ++ payloadText J data ++ [125])

def rawRecord (table key : String) (bytes : Bytes) : Result BackupRecord :=
  match rsplitColon key with
  | none => .error (invalid "backup key is not versioned")
  | some (key, version) =>
      match parseBelow (2 ^ 64) version with
      | none => .error (invalid "invalid backup version suffix")
      | some version =>
          .ok { version, timestamp := 0, date := "", operation := if bytes = [] then .delete else .set, table, key,
                data := if bytes = [] then none else some bytes, restoredVersion := none, bulkId := none,
                dateFromMigration := true }

/-- The payload of a record: as a list of numbers, as itself, or as base64. -/
def readData (fields : RecordFields) : Result (Option Bytes) :=
  match fields.values.get "data" with
  | some raw => parsed (J.readPayload raw.value)
  | none =>
      match fields.values.get "doc" with
      | some raw => .ok (some raw.widened)
      | none =>
          match fields.values.get "data_b64" with
          | some raw => do
              let text ← parsed (J.readString raw.value)
              let data ← decodeBase64 text
              .ok (some data)
          | none => .ok none

/-- The branch of `decode_record` for an object that is a record. -/
def decodeEnvelope (fields : RecordFields) : Result BackupRecord :=
  if fields.duplicates ≠ [] then .error (invalid "duplicate backup envelope field")
  else do
    let meta' ← readMetadata J fields
    if 1 < (["data", "doc", "data_b64"].filter fields.has).length then
      .error (invalid "ambiguous backup payload fields")
    else do
      let data ← readData J fields
      if meta'.operation = .set ∧ data = none then .error (invalid "set record has no payload")
      else if meta'.operation = .delete ∧ data ≠ none then .error (invalid "delete record contains a payload")
      else .ok (meta'.record data)

def decodeRecord (table key : String) (bytes : Bytes) : Result BackupRecord :=
  match parseFields J bytes with
  | some fields => if envelope fields then decodeEnvelope J fields else rawRecord table key bytes
  | none => rawRecord table key bytes

def isV2 (bytes : Bytes) : Result Bool :=
  match parseFields J bytes with
  | none => .ok false
  | some fields =>
      if envelope fields then do
        let record ← decodeRecord J "" "" bytes
        .ok !(fields.has "data" || (record.dateFromMigration && record.date == ""))
      else .ok false

/-! ## The fields of an object written member by member -/

namespace RecordFields

theorem values_foldl (entries : List (String × Raw)) (fields : RecordFields) :
    (entries.foldl insert fields).values = Table.insertAll entries fields.values := by
  induction entries generalizing fields with
  | nil => rfl
  | cons entry entries ih =>
      rw [List.foldl_cons, ih]
      rfl

theorem duplicates_foldl {entries : List (String × Raw)} (hnames : (entries.map Prod.fst).Nodup)
    {fields : RecordFields} (hnew : ∀ entry ∈ entries, fields.values.get entry.1 = none) :
    (entries.foldl insert fields).duplicates = fields.duplicates := by
  induction entries generalizing fields with
  | nil => rfl
  | cons entry entries ih =>
      rw [List.map_cons, List.nodup_cons] at hnames
      have hentry := hnew entry List.mem_cons_self
      rw [List.foldl_cons, ih hnames.2]
      · simp [insert, hentry]
      · intro other hother
        have hne : other.1 ≠ entry.1 := fun heq => hnames.1 (heq ▸ List.mem_map_of_mem hother)
        rw [insert, Table.get_insert_ne _ _ hne]
        exact hnew other (List.mem_cons_of_mem _ hother)

/-- The fields are those of the members: their values with the spaces around them, no other name, none twice. -/
structure Reads (fields : RecordFields) (ms : List Member) : Prop where
  value : ∀ m ∈ ms, ∃ raw, fields.values.get m.name = some raw ∧ raw.value = m.value ∧
    raw.widened = m.lead ++ m.value ++ m.trail
  absent : ∀ name, name ∉ ms.map Member.name → fields.values.get name = none
  duplicates : fields.duplicates = []

variable {fields : RecordFields} {ms : List Member}

theorem Reads.has_eq (h : fields.Reads ms) (name : String) : fields.has name = decide (name ∈ ms.map Member.name) := by
  by_cases hmem : name ∈ ms.map Member.name
  · obtain ⟨m, hm, rfl⟩ := List.mem_map.mp hmem
    obtain ⟨raw, hraw, -⟩ := h.value m hm
    simp [has, hraw, hmem]
  · simp [has, h.absent name hmem, hmem]

variable {α : Type}

theorem Reads.required_eq (h : fields.Reads ms) {name : String} {value : Bytes} (hmem : bare name value ∈ ms)
    {read : Bytes → Option α} {a : α} (hread : read value = some a) : required fields name read = .ok a := by
  obtain ⟨raw, hraw, hvalue, -⟩ := h.value _ hmem
  change fields.values.get name = some raw at hraw
  change raw.value = value at hvalue
  simp only [required, hraw, Option.bind_some, hvalue, hread, parsed]

theorem Reads.defaulted_eq (h : fields.Reads ms) {name : String} {value : Bytes} (hmem : bare name value ∈ ms)
    {read : Bytes → Option α} {a : α} (hread : read value = some a) (default : α) :
    defaulted fields name default read = .ok a := by
  obtain ⟨raw, hraw, hvalue, -⟩ := h.value _ hmem
  change fields.values.get name = some raw at hraw
  change raw.value = value at hvalue
  simp only [defaulted, hraw, hvalue, hread, parsed]

theorem Reads.defaulted_absent (h : fields.Reads ms) {name : String} (hname : name ∉ ms.map Member.name)
    (read : Bytes → Option α) (default : α) : defaulted fields name default read = .ok default := by
  simp only [defaulted, h.absent name hname]

end RecordFields

variable {J}

/-- The fields of an object written member by member. -/
theorem parseFields_objectText {ms : List Member} (hne : ms ≠ []) (hgood : ∀ m ∈ ms, m.Good J.toJsonText)
    (hplain : ∀ m ∈ ms, plainName m.name = true) (hnames : (ms.map Member.name).Nodup) :
    ∃ fields, parseFields J (J.objectText ms) = some fields ∧ fields.Reads ms := by
  refine ⟨_, by rw [parseFields, parseObject_text hne hgood fun m hm => head_plain (hplain m hm), Option.map_some], ?_⟩
  have hfst := map_fst_located (J := J.toJsonText) [125] [123] ms
  have hnodup : ((J.located [125] [123] ms).map Prod.fst).Nodup := by rw [hfst]; exact hnames
  have hvalues : (RecordFields.ofEntries (J.located [125] [123] ms)).values =
      Table.insertAll (J.located [125] [123] ms) Table.empty := RecordFields.values_foldl _ _
  refine ⟨?_, ?_, RecordFields.duplicates_foldl hnodup fun _ _ => rfl⟩
  · intro m hm
    obtain ⟨raw, hraw, hvalue⟩ := exists_located [] [123] ms hgood m hm
    exact ⟨raw, by rw [hvalues, Table.get_insertAll_iff hnodup]; exact .inl hraw, hvalue⟩
  · intro name hname
    rw [hvalues, Option.eq_none_iff_forall_ne_some]
    intro raw hraw
    rcases (Table.get_insertAll_iff hnodup _ _ _).mp hraw with hmem | ⟨-, hempty⟩
    · exact hname (hfst ▸ List.mem_map_of_mem (f := Prod.fst) hmem)
    · cases hempty

/-! ## The members of a record -/

/-- A record's numbers fit their types. -/
structure Metadata.InRange (m : Metadata) : Prop where
  version : m.version < 2 ^ 64
  timestamp : -2 ^ 63 ≤ m.timestamp ∧ m.timestamp < 2 ^ 63
  restoredVersion : ∀ v ∈ m.restoredVersion, v < 2 ^ 64

variable (J) in
/-- The member a payload goes into. -/
def payloadMembers : Option Bytes → List Member
  | none => []
  | some data =>
      match J.parseValue data with
      | some raw => [⟨"doc", raw.before, raw.value, raw.after⟩]
      | none => [bare "data_b64" (J.printString (encodeBase64 data))]

/-- The names a payload may come under. -/
theorem payloadMembers_names (data : Option Bytes) :
    (payloadMembers J data).map Member.name = [] ∨ (payloadMembers J data).map Member.name = ["doc"] ∨
      (payloadMembers J data).map Member.name = ["data_b64"] := by
  cases data with
  | none => exact .inl rfl
  | some data =>
      cases h : J.parseValue data with
      | some raw => exact .inr (.inl (by simp [payloadMembers, h]))
      | none => exact .inr (.inr (by simp [payloadMembers, h, bare]))

theorem metadataMembers_names (m : Metadata) : (metadataMembers J m).map Member.name =
    ["version", "timestamp", "date", "operation", "table", "key", "bulk_id", "restored_version"] ++
      if m.dateFromMigration then ["date_from_migration"] else [] := by
  cases h : m.dateFromMigration <;> simp [metadataMembers, h, bare]

theorem good_bare {name : String} {value : Bytes} (h : J.IsValue value) : Member.Good J.toJsonText (bare name value) :=
  ⟨h, rfl, rfl⟩

theorem isValue_printOption {α : Type} {print : α → Bytes} (h : ∀ a, J.IsValue (print a)) (a : Option α) :
    J.IsValue (printOption print a) := by
  cases a with
  | none => exact J.scan_null
  | some a => exact h a

theorem metadataMembers_good (m : Metadata) : ∀ x ∈ metadataMembers J m, Member.Good J.toJsonText x := by
  intro x hx
  simp only [metadataMembers, List.mem_append, List.mem_cons, List.not_mem_nil, or_false] at hx
  rcases hx with (rfl | rfl | rfl | rfl | rfl | rfl | rfl | rfl) | hx
  · exact good_bare (J.scan_u64 _)
  · exact good_bare (J.scan_i64 _)
  · exact good_bare (J.scan_string _)
  · exact good_bare (J.scan_string _)
  · exact good_bare (J.scan_string _)
  · exact good_bare (J.scan_string _)
  · exact good_bare (isValue_printOption J.scan_string _)
  · exact good_bare (isValue_printOption J.scan_u64 _)
  · split at hx
    · obtain rfl := List.mem_singleton.mp hx
      exact good_bare (J.scan_bool true)
    · cases hx

theorem payloadMembers_good (data : Option Bytes) : ∀ x ∈ payloadMembers J data, Member.Good J.toJsonText x := by
  intro x hx
  cases data with
  | none => cases hx
  | some data =>
      cases h : J.parseValue data with
      | some raw =>
          simp only [payloadMembers, h, List.mem_singleton] at hx
          exact hx ▸ (parseValue_spec h "doc").1
      | none =>
          simp only [payloadMembers, h, List.mem_singleton] at hx
          exact hx ▸ good_bare (J.scan_string _)

/-- The text of an accepted record whose date is not filled in. -/
theorem encodeRecord_text {now : Int × String} {r : BackupRecord} {bytes : Bytes}
    (hdate : ¬(r.dateFromMigration = true ∧ r.date = "")) (h : encodeRecord J now r = .ok bytes) :
    bytes = J.objectText (metadataMembers J (Metadata.fromRecord r) ++ payloadMembers J r.data) ∧
      ¬(r.operation = .set ∧ r.data = none) ∧ ¬(r.operation = .delete ∧ r.data ≠ none) := by
  have hdated : (Metadata.fromRecord r).dated now = Metadata.fromRecord r := if_neg hdate
  simp only [encodeRecord, hdated] at h
  split at h
  · cases h
  next hset =>
  cases hdata : r.data with
  | none =>
      rw [hdata] at h
      cases h
      exact ⟨by simp [payloadMembers], hdata ▸ hset, by simp⟩
  | some data =>
      simp only [hdata] at h
      split at h
      · cases h
      next hdelete =>
      cases h
      refine ⟨?_, hdata ▸ hset, fun hboth => hdelete hboth.1⟩
      have hne : metadataMembers J (Metadata.fromRecord r) ≠ [] := by simp [metadataMembers]
      have hdoc : J.printString "doc" = quoted (utf8 "doc") := J.print_plain "doc" (by decide)
      have hb64 : J.printString "data_b64" = quoted (utf8 "data_b64") := J.print_plain "data_b64" (by decide)
      have htext : utf8 ",\"doc\":" = 44 :: (quoted (utf8 "doc") ++ [58]) := by decide
      have htext' : utf8 ",\"data_b64\":" = 44 :: (quoted (utf8 "data_b64") ++ [58]) := by decide
      cases hvalue : J.parseValue data with
      | some raw =>
          have hwhole := (parseValue_spec hvalue "doc").2
          simp only [payloadMembers, payloadText, hvalue, Option.isSome_some, if_true]
          rw [objectText_concat hne, Member.text, hdoc, hwhole, htext]
          simp
      | none =>
          simp only [payloadMembers, payloadText, hvalue, Option.isSome_none, Bool.false_eq_true, if_false]
          rw [objectText_concat hne, Member.text, bare, hb64, htext']
          simp

/-! ## Reading a record back -/

section ReadBack

variable {fields : RecordFields} {m : Metadata}

theorem ofName_name (op : BackupOperation) : BackupOperation.ofName op.name = some op := by
  cases op <;> decide

theorem readOption_printOption {α : Type} {print : α → Bytes} {read : Bytes → Option α} {a : Option α}
    (hread : ∀ x ∈ a, read (print x) = some x) (hnull : read nullText = none) :
    readOption read (printOption print a) = some a := by
  cases a with
  | none => simp [readOption, printOption]
  | some x =>
      have hx := hread x rfl
      have hne : print x ≠ nullText := by
        intro heq
        rw [heq, hnull] at hx
        cases hx
      simp only [readOption, printOption, hne, if_false, hx, Option.map_some]

theorem readMetadata_of_reads {data : Option Bytes} (hm : m.InRange)
    (h : fields.Reads (metadataMembers J m ++ payloadMembers J data)) : readMetadata J fields = .ok m := by
  have hversion : required fields "version" J.readU64 = .ok m.version :=
    h.required_eq (by simp [metadataMembers]) (J.read_u64 _ hm.version)
  have htimestamp : required fields "timestamp" J.readI64 = .ok m.timestamp :=
    h.required_eq (by simp [metadataMembers]) (J.read_i64 _ hm.timestamp.1 hm.timestamp.2)
  have hdate : required fields "date" J.readString = .ok m.date :=
    h.required_eq (by simp [metadataMembers]) (J.read_string _)
  have hoperation : required fields "operation" (readOperation J) = .ok m.operation := by
    refine h.required_eq (show bare "operation" (J.printString m.operation.name) ∈ _ by simp [metadataMembers]) ?_
    rw [readOperation, J.read_string]
    exact ofName_name m.operation
  have htable : required fields "table" J.readString = .ok m.table :=
    h.required_eq (by simp [metadataMembers]) (J.read_string _)
  have hkey : required fields "key" J.readString = .ok m.key :=
    h.required_eq (by simp [metadataMembers]) (J.read_string _)
  have hbulk : defaulted fields "bulk_id" none (readOption J.readString) = .ok m.bulkId :=
    h.defaulted_eq (by simp [metadataMembers])
      (readOption_printOption (fun x _ => J.read_string x) J.string_not_null) none
  have hrestored : defaulted fields "restored_version" none (readOption J.readU64) = .ok m.restoredVersion :=
    h.defaulted_eq (by simp [metadataMembers])
      (readOption_printOption (fun x hx => J.read_u64 x (hm.restoredVersion x hx)) J.u64_not_null) none
  have hflag : defaulted fields "date_from_migration" false readBool = .ok m.dateFromMigration := by
    cases hflag : m.dateFromMigration with
    | true =>
        have hmem : bare "date_from_migration" (boolText true) ∈ metadataMembers J m ++ payloadMembers J data := by
          simp [metadataMembers, hflag]
        exact h.defaulted_eq hmem (by decide) false
    | false =>
        -- the encoder skips the flag when it is not set, and no payload has its name
        refine h.defaulted_absent ?_ readBool false
        rw [List.map_append, metadataMembers_names, hflag]
        rcases payloadMembers_names (J := J) data with hp | hp | hp <;> rw [hp] <;> decide
  simp only [readMetadata, hversion, htimestamp, hdate, hoperation, htable, hkey, hbulk, hrestored, hflag, ok_bind]

theorem readData_of_reads {data : Option Bytes}
    (h : fields.Reads (metadataMembers J m ++ payloadMembers J data)) : readData J fields = .ok data := by
  have habsent : ∀ name, name ∉ (payloadMembers J data).map Member.name →
      name ∉ (metadataMembers J m).map Member.name → fields.values.get name = none := by
    intro name hpayload hmeta
    refine h.absent name ?_
    rw [List.map_append, List.mem_append]
    exact fun hmem => hmem.elim hmeta hpayload
  have hmeta : ∀ name ∈ ["data", "doc", "data_b64"], name ∉ (metadataMembers J m).map Member.name := by
    rw [metadataMembers_names]
    cases m.dateFromMigration <;> decide
  have hdata : fields.values.get "data" = none := by
    refine habsent _ ?_ (hmeta _ (by simp))
    rcases payloadMembers_names (J := J) data with hp | hp | hp <;> rw [hp] <;> decide
  cases data with
  | none =>
      have hdoc := habsent "doc" (by simp [payloadMembers]) (hmeta _ (by simp))
      have hb64 := habsent "data_b64" (by simp [payloadMembers]) (hmeta _ (by simp))
      simp only [readData, hdata, hdoc, hb64]
  | some data =>
      cases hvalue : J.parseValue data with
      | some raw =>
          obtain ⟨found, hfound, -, hwidened⟩ := h.value ⟨"doc", raw.before, raw.value, raw.after⟩
            (by simp [payloadMembers, hvalue])
          have hwhole := (parseValue_spec hvalue "doc").2
          simp only [readData, hdata, hfound, hwidened, hwhole]
      | none =>
          have hdoc := habsent "doc" (by simp [payloadMembers, hvalue, bare]) (hmeta _ (by simp))
          obtain ⟨found, hfound, hraw, -⟩ := h.value (bare "data_b64" (J.printString (encodeBase64 data)))
            (by simp [payloadMembers, hvalue])
          change fields.values.get "data_b64" = some found at hfound
          change found.value = J.printString (encodeBase64 data) at hraw
          simp only [readData, hdata, hdoc, hfound, hraw, J.read_string, parsed, ok_bind, decodeBase64_encodeBase64]

/-- An encoded record is one by its names, has one payload at most and no `data`. -/
theorem names_of_reads {data : Option Bytes} (h : fields.Reads (metadataMembers J m ++ payloadMembers J data)) :
    envelope fields = true ∧ (["data", "doc", "data_b64"].filter fields.has).length ≤ 1 ∧ fields.has "data" = false := by
  have hhas : fields.has = fun name => decide (name ∈
      (["version", "timestamp", "date", "operation", "table", "key", "bulk_id", "restored_version"] ++
        if m.dateFromMigration then ["date_from_migration"] else []) ++ (payloadMembers J data).map Member.name) := by
    funext name
    rw [h.has_eq, List.map_append, metadataMembers_names]
  rw [envelope, hhas]
  rcases payloadMembers_names (J := J) data with hp | hp | hp <;> rw [hp] <;> cases m.dateFromMigration <;> decide

end ReadBack

/-- The names of an encoded record are plain ones and differ. -/
theorem record_names (m : Metadata) (data : Option Bytes) :
    (∀ x ∈ metadataMembers J m ++ payloadMembers J data, plainName x.name = true) ∧
      ((metadataMembers J m ++ payloadMembers J data).map Member.name).Nodup := by
  have hplain : (∀ x ∈ metadataMembers J m ++ payloadMembers J data, plainName x.name = true) ↔
      ∀ name ∈ (metadataMembers J m ++ payloadMembers J data).map Member.name, plainName name = true := by
    simp only [List.forall_mem_map]
  rw [hplain, List.map_append, metadataMembers_names]
  rcases payloadMembers_names (J := J) data with hp | hp | hp <;> rw [hp] <;> cases m.dateFromMigration <;> decide

/-- Every accepted record whose date is not filled in comes back from its bytes, whatever table and key they are read
under, and its bytes are of the newest format. -/
theorem decodeRecord_encodeRecord (J : SerdeJson) (now : Int × String) (table key : String) {r : BackupRecord}
    {bytes : Bytes} (hrange : (Metadata.fromRecord r).InRange) (hdate : ¬(r.dateFromMigration = true ∧ r.date = ""))
    (h : encodeRecord J now r = .ok bytes) : decodeRecord J table key bytes = .ok r ∧ isV2 J bytes = .ok true := by
  obtain ⟨rfl, hset, hdelete⟩ := encodeRecord_text hdate h
  have hgood : ∀ x ∈ metadataMembers J (Metadata.fromRecord r) ++ payloadMembers J r.data, x.Good J.toJsonText := by
    intro x hx
    rcases List.mem_append.mp hx with hx | hx
    · exact metadataMembers_good _ x hx
    · exact payloadMembers_good _ x hx
  obtain ⟨hplain, hnames⟩ := record_names (J := J) (Metadata.fromRecord r) r.data
  obtain ⟨fields, hfields, hreads⟩ := parseFields_objectText (by simp [metadataMembers]) hgood hplain hnames
  obtain ⟨henvelope, hmodes, hdata⟩ := names_of_reads hreads
  have hrecord : (Metadata.fromRecord r).record r.data = r := rfl
  have hdecode : decodeEnvelope J fields = .ok r := by
    simp only [decodeEnvelope, hreads.duplicates, ne_eq, not_true_eq_false, if_false, readMetadata_of_reads hrange hreads,
      ok_bind, Nat.not_lt.mpr hmodes, readData_of_reads hreads, hrecord]
    exact (if_neg hset).trans (if_neg hdelete)
  have hread : ∀ table key, decodeRecord J table key
      (J.objectText (metadataMembers J (Metadata.fromRecord r) ++ payloadMembers J r.data)) = .ok r := by
    intro table key
    simp only [decodeRecord, hfields, henvelope, if_true, hdecode]
  refine ⟨hread table key, ?_⟩
  have hfilled : (r.dateFromMigration && r.date == "") = false := by
    simpa [Bool.and_eq_false_iff, not_and_or] using hdate
  simp only [isV2, hfields, henvelope, if_true, hread, ok_bind, hdata, hfilled, Bool.or_self, Bool.not_false]

/-! ## A printer that meets the laws

Strings in quotes with two escapes, and numbers as strings of digits: enough to run the codec. -/

namespace Sample

def escapeByte (b : UInt8) : Bytes := if b = 34 then [92, 1] else if b = 92 then [92, 2] else [b]

def escape (bs : Bytes) : Bytes := bs.flatMap escapeByte

def unescape : Bytes → Bytes
  | 92 :: 1 :: rest => 34 :: unescape rest
  | 92 :: 2 :: rest => 92 :: unescape rest
  | b :: rest => b :: unescape rest
  | [] => []

def literals : List Bytes := [nullText, boolText true, boolText false]

def scan (text : Bytes) : Option Nat :=
  if text.head? = some 34 then (text.tail.findIdx? (· == 34)).map (· + 2)
  else (literals.find? fun v => v.isPrefixOf text).map List.length

def printString (s : String) : Bytes := quoted (escape (utf8 s))

def readString (raw : Bytes) : Option String :=
  if raw.head? = some 34 then fromUtf8 (unescape raw.tail.dropLast) else none

def printU64 (n : Nat) : Bytes := printString (toString n)

def readU64 (raw : Bytes) : Option Nat := (readString raw).map fun s => Nat.ofDigitChars 10 s.toList 0

/-- Numbers below zero go to the odd ones. -/
def printI64 (n : Int) : Bytes := printU64 (if 0 ≤ n then (2 * n).toNat else (-2 * n - 1).toNat)

def readI64 (raw : Bytes) : Option Int :=
  (readU64 raw).map fun n => if n % 2 = 0 then (n / 2 : Nat) else -((n / 2 : Nat) + 1 : Int)

/-- What the scanner takes for a value. -/
def Value (v : Bytes) : Prop := (∃ body, 34 ∉ body ∧ v = quoted body) ∨ v ∈ literals

theorem unescape_escape (bs : Bytes) : unescape (escape bs) = bs := by
  induction bs with
  | nil => rfl
  | cons b bs ih =>
      rw [escape, List.flatMap_cons, escapeByte]
      split_ifs with hquote hslash
      · subst hquote
        exact congrArg (34 :: ·) ih
      · subst hslash
        exact congrArg (92 :: ·) ih
      · rw [List.singleton_append, unescape]
        · exact congrArg (b :: ·) ih
        · exact fun _ heq => absurd heq hslash
        · exact fun _ heq => absurd heq hslash

theorem quote_not_mem_escape (bs : Bytes) : 34 ∉ escape bs := by
  rw [escape, List.mem_flatMap]
  rintro ⟨b, -, hb⟩
  rw [escapeByte] at hb
  split_ifs at hb with hquote hslash
  · simp at hb
  · simp at hb
  · exact hquote (List.mem_singleton.mp hb).symm

theorem findIdx_quote {body : Bytes} (h : 34 ∉ body) (rest : Bytes) :
    (body ++ 34 :: rest).findIdx? (· == 34) = some body.length := by
  have hbody : body.findIdx? (· == 34) = none := by
    rw [List.findIdx?_eq_none_iff]
    intro b hb
    have hne : b ≠ 34 := fun heq => h (heq ▸ hb)
    simpa using hne
  simp [List.findIdx?_append, hbody, List.findIdx?_cons]

theorem scan_value {v : Bytes} (h : Value v) (rest : Bytes) : scan (v ++ rest) = some v.length := by
  rcases h with ⟨body, hbody, rfl⟩ | hv
  · have htail : (quoted body ++ rest).tail = body ++ 34 :: rest := by simp [quoted]
    rw [scan, if_pos (by simp [quoted]), htail, findIdx_quote hbody]
    simp [quoted]
  · simp only [literals, List.mem_cons, List.not_mem_nil, or_false] at hv
    rcases hv with rfl | rfl | rfl <;> rfl

theorem exists_value {text : Bytes} {n : Nat} (h : scan text = some n) :
    ∃ v rest, text = v ++ rest ∧ v.length = n ∧ Value v := by
  rw [scan] at h
  split at h
  next hhead =>
    obtain ⟨tail, rfl⟩ := List.head?_eq_some_iff.mp hhead
    simp only [List.tail_cons, Option.map_eq_some_iff] at h
    obtain ⟨i, hi, rfl⟩ := h
    obtain ⟨hlt, hquote, hfirst⟩ := List.findIdx?_eq_some_iff_getElem.mp hi
    have hi34 : tail[i] = 34 := by simpa using hquote
    have hbody : 34 ∉ tail.take i := by
      intro hmem
      obtain ⟨j, hj, hj34⟩ := List.mem_take_iff_getElem.mp hmem
      exact hfirst j (by omega) (by simp [hj34])
    refine ⟨quoted (tail.take i), tail.drop (i + 1), ?_, ?_, .inl ⟨_, hbody, rfl⟩⟩
    · have hsplit : tail = tail.take i ++ 34 :: tail.drop (i + 1) := by
        rw [← hi34, ← List.drop_eq_getElem_cons hlt, List.take_append_drop]
      simpa [quoted] using hsplit
    · simp only [quoted, List.length_cons, List.length_append, List.length_take, List.length_nil]
      omega
  next =>
    simp only [Option.map_eq_some_iff] at h
    obtain ⟨v, hv, rfl⟩ := h
    have hmem := List.mem_of_find?_eq_some hv
    have hstart := List.find?_some hv
    obtain ⟨rest, rfl⟩ := List.isPrefixOf_iff_prefix.mp hstart
    exact ⟨v, rest, rfl, rfl, .inr hmem⟩

theorem value_of_scan {v : Bytes} (h : scan v = some v.length) : Value v := by
  obtain ⟨v', rest, hv, hlen, hvalue⟩ := exists_value h
  have hrest : rest = [] := by
    have hlength := congrArg List.length hv
    rw [List.length_append] at hlength
    exact List.length_eq_zero_iff.mp (by omega)
  rw [hv, hrest, List.append_nil]
  exact hvalue

theorem scan_self {v : Bytes} (h : Value v) : scan v = some v.length := by
  have hscan := scan_value h []
  rwa [List.append_nil] at hscan

theorem value_printString (s : String) : Value (printString s) := .inl ⟨_, quote_not_mem_escape _, rfl⟩

theorem read_printString (s : String) : readString (printString s) = some s := by
  have htail : (quoted (escape (utf8 s))).tail.dropLast = escape (utf8 s) := by
    rw [quoted, List.tail_cons, List.dropLast_concat]
  rw [readString, printString, if_pos (by simp [quoted]), htail, unescape_escape, fromUtf8_utf8]

theorem read_printU64 (n : Nat) : readU64 (printU64 n) = some n := by
  rw [readU64, printU64, read_printString, Option.map_some, Nat.toString_eq_ofList_toDigits, String.toList_ofList,
    Nat.ofDigitChars_ten_toDigits]

theorem read_printI64 (n : Int) : readI64 (printI64 n) = some n := by
  rw [readI64, printI64, read_printU64, Option.map_some]
  congr 1
  split_ifs <;> omega

/-- Plain names have no byte that is escaped. -/
theorem escape_plain {s : String} (h : plainName s = true) : escape (utf8 s) = utf8 s := by
  have hchar : ∀ n : Fin 128, (Char.ofNat n).isAlphanum || Char.ofNat n == '_' →
      (String.utf8EncodeChar (Char.ofNat n)).flatMap escapeByte = String.utf8EncodeChar (Char.ofNat n) := by
    decide
  have hutf8 : utf8 s = s.toList.flatMap String.utf8EncodeChar := by
    conv_lhs => rw [← String.ofList_toList (s := s)]
    rw [utf8, String.toByteArray_ofList, List.utf8Encode]
    simp
  rw [hutf8, escape, List.flatMap_assoc]
  refine List.flatMap_congr fun c hc => ?_
  have hplain := List.all_eq_true.mp h c hc
  have hlt : c.toNat < 128 := by
    simp only [Char.isAlphanum, Char.isAlpha, Char.isUpper, Char.isLower, Char.isDigit, Bool.or_eq_true, Bool.and_eq_true,
      decide_eq_true_eq, beq_iff_eq, ge_iff_le, UInt32.le_iff_toNat_le] at hplain
    rcases hplain with ((⟨-, h⟩ | ⟨-, h⟩) | ⟨-, h⟩) | rfl
    · exact Nat.lt_of_le_of_lt h (by decide)
    · exact Nat.lt_of_le_of_lt h (by decide)
    · exact Nat.lt_of_le_of_lt h (by decide)
    · decide
  have hc' := hchar ⟨c.toNat, hlt⟩
  simp only [Char.ofNat_toNat] at hc'
  exact hc' hplain

def json : SerdeJson where
  scan := scan
  printString := printString
  readString := readString
  scan_take := by
    intro text n h
    obtain ⟨v, rest, rfl, rfl, hv⟩ := exists_value h
    exact ⟨by simp, by rw [List.take_left]; exact scan_self hv⟩
  scan_append := fun h _ => scan_value (value_of_scan h) _
  scan_head := by
    intro v h
    rcases value_of_scan h with ⟨body, -, rfl⟩ | hv
    · exact ⟨34, rfl, rfl⟩
    · simp only [literals, List.mem_cons, List.not_mem_nil, or_false] at hv
      rcases hv with rfl | rfl | rfl
      · exact ⟨110, rfl, rfl⟩
      · exact ⟨116, rfl, rfl⟩
      · exact ⟨102, rfl, rfl⟩
  scan_string := fun s => scan_self (value_printString s)
  read_string := read_printString
  print_plain := fun s h => by rw [printString, escape_plain h]
  printU64 := printU64
  readU64 := readU64
  printI64 := printI64
  readI64 := readI64
  readPayload := fun _ => none
  scan_u64 := fun _ => scan_self (value_printString _)
  read_u64 := fun n _ => read_printU64 n
  scan_i64 := fun _ => scan_self (value_printString _)
  read_i64 := fun n _ _ => read_printI64 n
  scan_null := rfl
  scan_bool := by decide
  string_not_null := rfl
  u64_not_null := rfl

/-- A record with an odd payload. -/
def record : BackupRecord :=
  { version := 3, timestamp := -5, date := "d", operation := .set, table := "t", key := "a:b", data := some [32, 110, 255],
    restoredVersion := some 1, bulkId := none, dateFromMigration := true }

end Sample

theorem decodeRecord_encodeRecord_sample : ∃ bytes, encodeRecord Sample.json (0, "") Sample.record = .ok bytes ∧
    decodeRecord Sample.json "t" "k" bytes = .ok Sample.record ∧ isV2 Sample.json bytes = .ok true := by
  obtain ⟨bytes, hbytes⟩ := exists_of_isOk (x := encodeRecord Sample.json (0, "") Sample.record) (by decide)
  exact ⟨bytes, hbytes, decodeRecord_encodeRecord Sample.json (0, "") "t" "k" ⟨by decide, by decide, by decide⟩
    (by decide) hbytes⟩

end CloveDb.Backup
