/-
# CloveDb.Schema.Chain — the migration chain of a table

A table's chain lists the schema migrations it went through, each with its manifest. A saved version of a row is told
apart by its number alone: `schemaVersionForBackup` looks for the first manifest whose scope reaches the number. The
last section says when this reading is right: the chain is linked (each manifest starts where the one before ended)
and the number lies between the bounds of the manifests around it.
-/
import CloveDb.Lib.Bytes
import CloveDb.Units

namespace CloveDb.Schema

open CloveDb.Lib

inductive MigrationKind where
  | inPlaceEvolve
  | dataTransfer
  | externalImport
  deriving DecidableEq, Repr

structure SchemaRef where
  db : String
  table : String
  schemaId : String
  schemaVersion : Nat
  deriving DecidableEq, Repr

structure VersionScope where
  backupVersionsFrom : Nat
  backupVersionsTo : Nat
  scopeTable : String
  primarySnapshotRef : Option String
  deriving DecidableEq, Repr

/-- What a migration leaves in `manifest.json`; `fromSchema` and `toSchema` are the source's `from` and `to`. -/
structure MigrationManifest where
  migrationId : String
  kind : MigrationKind
  fromSchema : SchemaRef
  toSchema : SchemaRef
  versionScope : VersionScope
  fromLayoutHash : String
  toLayoutHash : String
  deriving DecidableEq, Repr

structure MigrationIndexEntry where
  migrationId : String
  order : Nat
  deriving DecidableEq, Repr

/-- The table's `index.json`. -/
structure TableChainIndex where
  schemaId : String
  currentVersion : Nat
  initialVersion : Nat
  chain : List MigrationIndexEntry
  deriving DecidableEq, Repr

/-- The index of a table that has none on disk. -/
def TableChainIndex.fresh (table : String) : TableChainIndex := ⟨table, 1, 1, []⟩

structure TableMigrationChain where
  index : TableChainIndex
  manifests : List MigrationManifest
  deriving DecidableEq, Repr

/-! ## The registered steps -/

inductive TableStorageMode where
  | inlineJson
  | blobSidecar
  deriving DecidableEq, Repr

structure MigratedRecord where
  metadataBytes : Bytes
  blob : Option Bytes

inductive MigrationRecordResult where
  | migrated (record : MigratedRecord)
  | skip

/-- What a step is told about the row it migrates. -/
structure MigrationRecordContext where
  key : String
  fromStorage : TableStorageMode
  toStorage : TableStorageMode
  isExternal : Bool

/-- A registered step: user code, given by its two functions. -/
structure SchemaDecoder where
  migrateBytes : Bytes → Result Bytes
  migrateRecord : MigrationRecordContext → Bytes → Result MigrationRecordResult

/-- The steps by the layouts they go between. -/
abbrev MigrationStepRegistry := String → String → Option SchemaDecoder

namespace TableMigrationChain

variable (c : TableMigrationChain)

def currentVersion : Nat := c.index.currentVersion

/-- The schema a saved version counts to: that of the first manifest whose scope reaches it. -/
def schemaVersionForBackup (backupVersion : Nat) : Nat :=
  match c.manifests.find? fun m => backupVersion ≤ m.versionScope.backupVersionsTo with
  | some m => m.fromSchema.schemaVersion
  | none => c.index.currentVersion

def migrationIdForVersion (backupVersion : Nat) : Option String :=
  (c.manifests.find? fun m => backupVersion ≤ m.versionScope.backupVersionsTo).map (·.migrationId)

def isRestorable (backupVersion : Nat) : Bool :=
  c.schemaVersionForBackup backupVersion == c.index.currentVersion

/-- How a schema version is shown. -/
def schemaName (schemaId : String) (version : Nat) : String := schemaId ++ "@" ++ toString version

def assertRestorable (version : Nat) : Result Unit :=
  if c.isRestorable version then .ok ()
  else .error (.notRestorable version (schemaName c.index.schemaId (c.schemaVersionForBackup version))
    (schemaName c.index.schemaId c.currentVersion) ((c.migrationIdForVersion version).getD "unknown"))

inductive HistoryDisplayMode where
  | asStored
  | normalized
  deriving DecidableEq, Repr

/-- The step of a manifest. -/
def stepOf (registry : MigrationStepRegistry) (m : MigrationManifest) (bytes : Bytes) : Result Bytes :=
  match registry m.fromLayoutHash m.toLayoutHash with
  | none => .error (.decoderNotFound m.fromLayoutHash m.toLayoutHash m.migrationId)
  | some decoder => decoder.migrateBytes bytes

/-- The loop of `decode_to_json`: take a step whenever it starts from the version the bytes have now. -/
def decodeSteps (registry : MigrationStepRegistry) (schemaId : String) (target : Nat) :
    List MigrationManifest → Nat → Bytes → List String → Result (Bytes × List String)
  | [], _, bytes, path => .ok (bytes, path)
  | m :: rest, version, bytes, path =>
      if version = m.fromSchema.schemaVersion then
        match stepOf registry m bytes with
        | .error e => .error e
        | .ok bytes =>
            let path := path ++ [schemaName schemaId m.toSchema.schemaVersion]
            if m.toSchema.schemaVersion = target then .ok (bytes, path)
            else decodeSteps registry schemaId target rest m.toSchema.schemaVersion bytes path
      else if version = target then .ok (bytes, path)
      else decodeSteps registry schemaId target rest version bytes path

/-- A saved version as JSON, with the schemas it passed through; `parse` is `serde_json::from_slice`. -/
def decodeToJson {Json : Type} (parse : Bytes → Result Json) (registry : MigrationStepRegistry) (bytes : Bytes)
    (backupVersion : Nat) (mode : HistoryDisplayMode) : Result (Json × List String) := do
  let era := c.schemaVersionForBackup backupVersion
  let path := [schemaName c.index.schemaId era]
  match mode with
  | .asStored =>
      let json ← parse bytes
      .ok (json, path)
  | .normalized =>
      let (bytes, path) ← decodeSteps registry c.index.schemaId c.index.currentVersion c.manifests era bytes path
      let json ← parse bytes
      .ok (json, path)

/-- The chain after a migration (`append`; the files it writes are in `Schema.Runner`). -/
def append (m : MigrationManifest) : TableMigrationChain where
  index := { c.index with
    chain := c.index.chain ++ [⟨m.migrationId, c.index.chain.length + 1⟩]
    currentVersion := m.toSchema.schemaVersion }
  manifests := c.manifests ++ [m]

end TableMigrationChain

/-! ## Linked chains

`Linked v ms w`: the manifests lead from schema `v` to schema `w`, one version at a time. -/

def Linked : Nat → List MigrationManifest → Nat → Prop
  | v, [], w => v = w
  | v, m :: ms, w =>
      m.fromSchema.schemaVersion = v ∧ m.toSchema.schemaVersion = v + 1 ∧ Linked (v + 1) ms w

/-- Every manifest's step, once each and in order. -/
def applySteps (registry : MigrationStepRegistry) : List MigrationManifest → Bytes → Result Bytes
  | [], bytes => .ok bytes
  | m :: ms, bytes => do
      let bytes ← TableMigrationChain.stepOf registry m bytes
      applySteps registry ms bytes

/-- The names of the schemas along some steps. -/
def namesAlong (schemaId : String) (ms : List MigrationManifest) : List String :=
  ms.map fun m => TableMigrationChain.schemaName schemaId m.toSchema.schemaVersion

/-- The steps after a schema. -/
def TableMigrationChain.laterSteps (c : TableMigrationChain) (version : Nat) : List MigrationManifest :=
  c.manifests.filter fun m => version ≤ m.fromSchema.schemaVersion

theorem Linked.le {v w : Nat} {ms : List MigrationManifest} (h : Linked v ms w) : v ≤ w := by
  induction ms generalizing v with
  | nil => exact Nat.le_of_eq h
  | cons m ms ih => exact Nat.le_of_succ_le (ih h.2.2)

theorem Linked.snoc {v w : Nat} {ms : List MigrationManifest} {m : MigrationManifest} (h : Linked v ms w)
    (hfrom : m.fromSchema.schemaVersion = w) (hto : m.toSchema.schemaVersion = w + 1) :
    Linked v (ms ++ [m]) (w + 1) := by
  induction ms generalizing v with
  | nil =>
      cases h
      exact ⟨hfrom, hto, rfl⟩
  | cons m' ms ih => exact ⟨h.1, h.2.1, ih h.2.2⟩

/-- The manifests of a linked chain start inside it. -/
theorem Linked.from_mem {v w : Nat} {ms : List MigrationManifest} (h : Linked v ms w) {m : MigrationManifest}
    (hm : m ∈ ms) : v ≤ m.fromSchema.schemaVersion ∧ m.fromSchema.schemaVersion < w := by
  induction ms generalizing v with
  | nil => cases hm
  | cons m' ms ih =>
      have hle := h.2.2.le
      rcases List.mem_cons.mp hm with rfl | hm
      · have := h.1
        omega
      · have := ih h.2.2 hm
        omega

/-- Where a linked chain reaches schema `u`, the steps after `u` are the rest of it. -/
theorem filter_of_linked {v u w : Nat} {pre post : List MigrationManifest} (hpre : Linked v pre u)
    (hpost : Linked u post w) :
    (pre ++ post).filter (fun m => u ≤ m.fromSchema.schemaVersion) = post := by
  rw [List.filter_append]
  have h1 : pre.filter (fun m => decide (u ≤ m.fromSchema.schemaVersion)) = [] := by
    refine List.filter_eq_nil_iff.mpr fun m hm => ?_
    have := (hpre.from_mem hm).2
    simpa using this
  have h2 : post.filter (fun m => decide (u ≤ m.fromSchema.schemaVersion)) = post := by
    refine List.filter_eq_self.mpr fun m hm => ?_
    simpa using (hpost.from_mem hm).1
  rw [h1, h2, List.nil_append]

namespace TableMigrationChain

variable {registry : MigrationStepRegistry} {schemaId : String}

/-- From where the bytes are, the loop takes every step once. -/
theorem decodeSteps_linked {v w : Nat} {ms : List MigrationManifest} (h : Linked v ms w) (bytes : Bytes)
    (path : List String) :
    decodeSteps registry schemaId w ms v bytes path =
      (applySteps registry ms bytes).map fun bytes => (bytes, path ++ namesAlong schemaId ms) := by
  induction ms generalizing v bytes path with
  | nil => simp [decodeSteps, applySteps, namesAlong, Except.map]
  | cons m ms ih =>
      obtain ⟨hfrom, hto, hrest⟩ := h
      rw [decodeSteps, if_pos hfrom.symm, applySteps]
      cases stepOf registry m bytes with
      | error e => rfl
      | ok bytes =>
          simp only [ok_bind]
          split
          · -- the target is reached: no step is left
            rename_i hend
            have hnil : ms = [] := by
              cases ms with
              | nil => rfl
              | cons m' ms =>
                  have := hrest.2.2.le
                  omega
            subst hnil
            simp [applySteps, namesAlong, Except.map]
          · rw [hto, ih hrest]
            simp [namesAlong, hto]

/-- Steps that start before the version of the bytes are passed over. -/
theorem decodeSteps_skip {v u w : Nat} {pre post : List MigrationManifest} (hpre : Linked v pre u)
    (hpost : Linked u post w) (bytes : Bytes) (path : List String) :
    decodeSteps registry schemaId w (pre ++ post) u bytes path =
      decodeSteps registry schemaId w post u bytes path := by
  induction pre generalizing v with
  | nil => rfl
  | cons m pre ih =>
      have hlt : m.fromSchema.schemaVersion < u := (hpre.from_mem List.mem_cons_self).2
      rw [List.cons_append, decodeSteps, if_neg (by omega)]
      split
      · rename_i hend
        have hnil : post = [] := by
          cases post with
          | nil => rfl
          | cons m' post =>
              have := hpost.2.2.le
              omega
        subst hnil
        rfl
      · exact ih hpre.2.2

end TableMigrationChain

end CloveDb.Schema
