/-
# CloveDb.Schema.History — saved versions across migrations

The runs of a table with history: calls that write records, migrations in place, transfers into the table, and
transfers out of it. Beside the state goes what the files do not say: under which schema version each record was
written. The chain tells this from the number of a record alone, while numbers count per key and the bound of a
migration is one number for the table. The reading is right in every run in which records are written above all bounds,
and migrations are made with a bound that covers every record and from the version the table has.
-/
import CloveDb.Backup.Operations
import CloveDb.Lib.Runs
import CloveDb.Schema.Transfer

namespace CloveDb.Schema

open CloveDb.Lib CloveDb.Backup

/-- A table, and the schema version under which each record of its history was written. -/
structure Versioned where
  table : BackedTable
  eras : List (BackupRecord × Nat)
  deriving DecidableEq

namespace Versioned

/-- The records that are in `t` and not yet in `s`. -/
def newRecords (s : Versioned) (t : BackedTable) : List BackupRecord :=
  t.backups.written.drop s.table.backups.written.length

/-- The next table, with the version under which its new records were written. -/
def note (s : Versioned) (t : BackedTable) : Versioned :=
  ⟨t, s.eras ++ (s.newRecords t).map fun r => (r, s.table.chain.currentVersion)⟩

/-- Where the rows of a migration come from. -/
inductive Origin where
  /-- the table itself -/
  | inPlace
  /-- another table of the library, in whatever state -/
  | clove (source : Versioned) (blobs : Table String Bytes)
  /-- a table of another redb file -/
  | external (entries : Table String Bytes)

/-- What a migration reads. -/
def Origin.content (o : Origin) (target : Content) : Content :=
  match o with
  | .inPlace => target
  | .clove source blobs => ⟨source.table.rows, blobs⟩
  | .external entries => ⟨entries, .empty⟩

/-- `resolve_from_version`: the version of the table the rows come from; of the target for an import. -/
def Origin.fromVersion (o : Origin) (chain : TableMigrationChain) : Nat :=
  match o with
  | .clove source _ => source.table.chain.currentVersion
  | _ => chain.currentVersion

/-- The version a migration leads to. -/
def Origin.toVersion (o : Origin) (chain : TableMigrationChain) : Nat :=
  match o with
  | .external _ => if o.fromVersion chain = 0 then 1 else o.fromVersion chain + 1
  | _ => o.fromVersion chain + 1

/-- The history that a transfer with `delete_source` inside one database moves along: that of the source, after its
rows were deleted one by one. A key or text that is taken refuses the move. -/
def movedHistory (tools : TableTools) (now : Clock) (run : MigrationRun) (o : Origin) (target : Backups) :
    Option Versioned :=
  match o with
  | .clove source _ =>
      if run.plan.effectiveDeleteSource ∧ run.plan.fromEnd.db = run.plan.toEnd.db ∧
          run.plan.fromEnd.table ≠ run.plan.toEnd.table then
        let deleted := source.note (BackedTable.run tools (source.table.rows.keys.map (.delete now)) source.table)
        if (∀ text ∈ deleted.table.backups.records.keys, target.records.get text = none) ∧
            (∀ key ∈ deleted.table.backups.versions.keys, target.versions.get key = none) ∧
            (∀ id ∈ deleted.table.backups.bulks.keys, target.bulks.get id = none) then some deleted
        else none
      else none
  | _ => none

/-- `rewrite_table_name`, as it changes the table that receives the history. -/
def adopt (s : Versioned) (name : String) (moved : Versioned) : Versioned :=
  let renamed (r : BackupRecord) : BackupRecord := { r with table := name }
  let b := s.table.backups
  let m := moved.table.backups
  ⟨{ s.table with backups := {
        records := m.records.rows.foldl (fun t row => t.insert row.1 (renamed row.2)) b.records
        versions := m.versions.rows.foldl (fun t row => t.insert row.1 row.2) b.versions
        bulks := m.bulks.rows.foldl (fun t row => t.insert row.1 row.2) b.bulks
        written := b.written ++ m.written.map renamed } },
    s.eras ++ moved.eras.map fun e => (renamed e.1, e.2)⟩

/-- The bound that a migration puts into its manifest. -/
def bound (s : Versioned) (keys : List String) : Nat :=
  MigrationRun.maxBackupVersion s.table.backups.versions s.table.chain keys

/-- A migration into the table: its rows, and the manifest at the end of the chain. Refused and empty runs change
nothing. -/
def migrated (runner : RunnerTools) (run : MigrationRun) (o : Origin) (blobs : Table String Bytes) (s : Versioned) :
    Option (Versioned × Nat) :=
  let target : Content := ⟨s.table.rows, blobs⟩
  match run.prepare runner (o.content target).rows.rows target.rows with
  | .error _ => none
  | .ok p =>
      if p.isExecutable then
        match run.rewriteTables runner (o.content target) target p.staged with
        | .error _ => none
        | .ok content =>
            let bound := s.bound p.storageKeys
            let m := run.manifest (o.fromVersion s.table.chain) (o.toVersion s.table.chain) bound
            some (⟨{ s.table with rows := content.rows, chain := s.table.chain.append m }, s.eras⟩, bound)
      else none

inductive Action where
  | call (call : BackedTable.Call)
  /-- a migration with this table as its target -/
  | migrate (now : Clock) (run : MigrationRun) (o : Origin) (blobs : Table String Bytes)
  /-- a transfer out of this table that deletes its rows, and may take its history along -/
  | moveOut (now : Clock) (history : Bool)

variable (tools : TableTools) (runner : RunnerTools)

/-- The table after the deletes of a transfer out of it. -/
def emptied (now : Clock) (s : Versioned) : BackedTable :=
  BackedTable.run tools (s.table.rows.keys.map (.delete now)) s.table

def step (s : Versioned) : Action → Option Versioned
  | .call call => some (s.note (BackedTable.perform tools call s.table).final)
  | .migrate now run o blobs =>
      match migrated runner run o blobs s with
      | none => some s
      | some (s', _) =>
          match movedHistory tools now run o s.table.backups with
          | none => some s'
          | some moved => some (s'.adopt run.plan.toEnd.table moved)
  | .moveOut now history =>
      let s' := s.note (s.emptied tools now)
      if history then some ⟨{ s'.table with backups := .empty }, []⟩ else some s'

/-! ## The condition on a run -/

/-- Records are written with numbers above every bound. -/
def AboveBounds (s : Versioned) (t : BackedTable) : Prop :=
  ∀ r ∈ s.newRecords t, ∀ m ∈ s.table.chain.manifests, m.versionScope.backupVersionsTo < r.version

instance (s : Versioned) (t : BackedTable) : Decidable (s.AboveBounds t) :=
  inferInstanceAs (Decidable (∀ r ∈ s.newRecords t, ∀ m ∈ s.table.chain.manifests, _))

/-- A migration that is made covers every record with its bound, starts from the version the table has, and brings no
history along. -/
def Covers (now : Clock) (run : MigrationRun) (o : Origin) (blobs : Table String Bytes) (s : Versioned) : Prop :=
  ∀ result ∈ migrated runner run o blobs s,
    (∀ e ∈ s.eras, e.1.version ≤ result.2) ∧ o.fromVersion s.table.chain = s.table.chain.currentVersion ∧
      movedHistory tools now run o s.table.backups = none

instance (now : Clock) (run : MigrationRun) (o : Origin) (blobs : Table String Bytes) (s : Versioned) :
    Decidable (Covers tools runner now run o blobs s) :=
  inferInstanceAs (Decidable (∀ result ∈ migrated runner run o blobs s, _))

def Condition (s : Versioned) : Action → Prop
  | .call call => s.AboveBounds (BackedTable.perform tools call s.table).final
  | .migrate now run o blobs => Covers tools runner now run o blobs s
  | .moveOut now _ => s.AboveBounds (s.emptied tools now)

instance (s : Versioned) : (a : Action) → Decidable (Condition tools runner s a)
  | .call _ => inferInstanceAs (Decidable (s.AboveBounds _))
  | .migrate now run o blobs => inferInstanceAs (Decidable (Covers tools runner now run o blobs s))
  | .moveOut _ _ => inferInstanceAs (Decidable (s.AboveBounds _))

/-! ## What a run keeps -/

/-- A record written under `era`: the manifests up to then end before its number, the next one reaches it. -/
structure Placed (start : Nat) (chain : TableMigrationChain) (version era : Nat) : Prop where
  split : ∃ pre post, chain.manifests = pre ++ post ∧ Linked start pre era ∧ Linked era post chain.currentVersion ∧
    (∀ m ∈ pre, m.versionScope.backupVersionsTo < version) ∧
    ∀ m ∈ post.head?, version ≤ m.versionScope.backupVersionsTo

/-- The chain is linked, every record has an era, and is placed in it. -/
structure Invariant (start : Nat) (s : Versioned) : Prop where
  linked : Linked start s.table.chain.manifests s.table.chain.currentVersion
  recorded : s.eras.map Prod.fst = s.table.backups.written
  placed : ∀ e ∈ s.eras, Placed start s.table.chain e.1.version e.2

section Runs

variable {tools runner} {start : Nat} {s : Versioned}

/-- A record above all bounds is placed at the end of the chain. -/
theorem Placed.last {chain : TableMigrationChain} {version : Nat}
    (hlinked : Linked start chain.manifests chain.currentVersion)
    (habove : ∀ m ∈ chain.manifests, m.versionScope.backupVersionsTo < version) :
    Placed start chain version chain.currentVersion :=
  ⟨chain.manifests, [], (List.append_nil _).symm, hlinked, rfl, habove, fun _ => nofun⟩

/-- A manifest whose bound reaches the record leaves it where it is. -/
theorem Placed.append {chain : TableMigrationChain} {version era : Nat} {m : MigrationManifest}
    (h : Placed start chain version era) (hfrom : m.fromSchema.schemaVersion = chain.currentVersion)
    (hto : m.toSchema.schemaVersion = chain.currentVersion + 1) (hbound : version ≤ m.versionScope.backupVersionsTo) :
    Placed start (chain.append m) version era := by
  obtain ⟨pre, post, hsplit, hpre, hpost, hbefore, hnext⟩ := h.split
  refine ⟨pre, post ++ [m], ?_, hpre, ?_, hbefore, fun m' hm' => ?_⟩
  · change chain.manifests ++ [m] = _
    rw [hsplit, List.append_assoc]
  · change Linked era (post ++ [m]) m.toSchema.schemaVersion
    rw [hto]
    exact hpost.snoc hfrom hto
  · cases post with
    | nil =>
        cases hm'
        exact hbound
    | cons m' post =>
        cases hm'
        exact hnext _ rfl

/-- Calls only add records, and leave the chain alone. -/
theorem keptByRecords_grows (c : TableMigrationChain) (l : List BackupRecord) :
    BackedTable.KeptByRecords fun t => t.chain = c ∧ l <+: t.backups.written where
  rows _ _ h := h
  bulks _ _ h := h
  record t record backups hwrite h := by
    obtain ⟨-, rfl⟩ := Backups.write_ok hwrite
    exact ⟨h.1, h.2.trans (List.prefix_append _ _)⟩

/-- Records that are written above all bounds keep the invariant. -/
theorem Invariant.note {t : BackedTable} (hs : Invariant start s) (hchain : t.chain = s.table.chain)
    (hgrows : s.table.backups.written <+: t.backups.written) (habove : s.AboveBounds t) :
    Invariant start (s.note t) where
  linked := by
    change Linked start t.chain.manifests t.chain.currentVersion
    rw [hchain]
    exact hs.linked
  recorded := by
    obtain ⟨new, hnew⟩ := hgrows
    have hdrop : s.newRecords t = new := by
      rw [newRecords, ← hnew, List.drop_left]
    simp only [Versioned.note, List.map_append, List.map_map, hs.recorded, hdrop]
    rw [← hnew]
    simp [Function.comp_def]
  placed := by
    intro e he
    change Placed start t.chain e.1.version e.2
    rw [hchain]
    rcases List.mem_append.mp he with he | he
    · exact hs.placed e he
    · obtain ⟨r, hr, rfl⟩ := List.mem_map.mp he
      exact .last hs.linked (habove r hr)

theorem toVersion_eq (o : Origin) (chain : TableMigrationChain) : o.toVersion chain = o.fromVersion chain + 1 := by
  cases o with
  | inPlace => rfl
  | clove source blobs => rfl
  | external entries =>
      rw [Origin.toVersion]
      split
      · rename_i hzero
        rw [hzero]
      · rfl

/-- What a migration that is made does. -/
theorem migrated_some {run : MigrationRun} {o : Origin} {blobs : Table String Bytes} {result : Versioned × Nat}
    (h : migrated runner run o blobs s = some result) :
    ∃ rows, result.1 = ⟨{ s.table with
        rows := rows
        chain := s.table.chain.append
          (run.manifest (o.fromVersion s.table.chain) (o.toVersion s.table.chain) result.2) }, s.eras⟩ := by
  unfold migrated at h
  dsimp only at h
  split at h
  · cases h
  · split at h
    · split at h
      · cases h
      · cases h
        exact ⟨_, rfl⟩
    · cases h

theorem step_invariant {a : Action} {s' : Versioned} (hcond : Condition tools runner s a)
    (hstep : step tools runner s a = some s') (hs : Invariant start s) : Invariant start s' := by
  cases a with
  | call call =>
      cases hstep
      have hgrows := (@BackedTable.perform_preserves tools _
        (keptByRecords_grows s.table.chain s.table.backups.written) call s.table ⟨rfl, List.prefix_rfl⟩).2
      exact hs.note hgrows.1 hgrows.2 hcond
  | migrate now run o blobs =>
      rw [step] at hstep
      cases hmigrated : migrated runner run o blobs s with
      | none =>
          rw [hmigrated] at hstep
          cases hstep
          exact hs
      | some result =>
          obtain ⟨hcovers, hfrom, hmoved⟩ := hcond result hmigrated
          rw [hmigrated] at hstep
          dsimp only at hstep
          rw [hmoved] at hstep
          cases hstep
          obtain ⟨rows, hresult⟩ := migrated_some hmigrated
          rw [hresult]
          have hto := toVersion_eq o s.table.chain
          rw [hfrom] at hto
          refine ⟨?_, hs.recorded, fun e he => ?_⟩
          · have hsnoc := hs.linked.snoc
              (m := run.manifest (o.fromVersion s.table.chain) (o.toVersion s.table.chain) result.2) hfrom hto
            rw [← hto] at hsnoc
            exact hsnoc
          · exact (hs.placed e he).append hfrom hto (hcovers e he)
  | moveOut now history =>
      have hgrows := @BackedTable.run_preserves tools _
        (keptByRecords_grows s.table.chain s.table.backups.written) (s.table.rows.keys.map (.delete now))
        s.table ⟨rfl, List.prefix_rfl⟩
      have hnote := hs.note hgrows.1 hgrows.2 hcond
      rw [step] at hstep
      dsimp only at hstep
      split at hstep
      · cases hstep
        exact ⟨hnote.linked, rfl, fun _ => nofun⟩
      · cases hstep
        exact hnote

end Runs

/-! ## Reading a saved version -/

/-- **Every saved version is read under its own schema**: the chain tells from the number of a record the schema version
under which it was written; a restore is refused exactly for other schemas; and showing it in the current schema takes
each later step once, in order. -/
structure ReadUnderOwnSchema (s : Versioned) : Prop where
  recorded : s.eras.map Prod.fst = s.table.backups.written
  schema : ∀ e ∈ s.eras, s.table.chain.schemaVersionForBackup e.1.version = e.2
  restorable : ∀ e ∈ s.eras,
    s.table.chain.assertRestorable e.1.version = .ok () ↔ e.2 = s.table.chain.currentVersion
  normalized : ∀ e ∈ s.eras, ∀ (Json : Type) (parse : Bytes → Result Json) (registry : MigrationStepRegistry)
    (bytes : Bytes), s.table.chain.decodeToJson parse registry bytes e.1.version .normalized = do
      let bytes ← applySteps registry (s.table.chain.laterSteps e.2) bytes
      let json ← parse bytes
      .ok (json, TableMigrationChain.schemaName s.table.chain.index.schemaId e.2 ::
        namesAlong s.table.chain.index.schemaId (s.table.chain.laterSteps e.2))

section Reading

variable {start : Nat} {chain : TableMigrationChain} {version era : Nat}

theorem Placed.schema (h : Placed start chain version era) : chain.schemaVersionForBackup version = era := by
  obtain ⟨pre, post, hsplit, -, hpost, hbefore, hnext⟩ := h.split
  have hpre : pre.find? (fun m => decide (version ≤ m.versionScope.backupVersionsTo)) = none := by
    refine List.find?_eq_none.mpr fun m hm => ?_
    have := hbefore m hm
    simpa using this
  rw [TableMigrationChain.schemaVersionForBackup, hsplit, List.find?_append, hpre, Option.none_or]
  cases post with
  | nil => exact hpost.symm
  | cons m post =>
      rw [List.find?_cons_of_pos (by simpa using hnext m rfl)]
      exact hpost.1

theorem Placed.normalized (h : Placed start chain version era) {Json : Type} (parse : Bytes → Result Json)
    (registry : MigrationStepRegistry) (bytes : Bytes) :
    chain.decodeToJson parse registry bytes version .normalized = (do
      let bytes ← applySteps registry (chain.laterSteps era) bytes
      let json ← parse bytes
      .ok (json, TableMigrationChain.schemaName chain.index.schemaId era ::
        namesAlong chain.index.schemaId (chain.laterSteps era))) := by
  have hschema := h.schema
  obtain ⟨pre, post, hsplit, hpre, hpost, -, -⟩ := h.split
  have hlater : chain.laterSteps era = post := by
    rw [TableMigrationChain.laterSteps, hsplit]
    exact filter_of_linked hpre hpost
  have hpost : Linked era post chain.index.currentVersion := hpost
  have hdecode : TableMigrationChain.decodeSteps registry chain.index.schemaId chain.index.currentVersion
      chain.manifests era bytes [TableMigrationChain.schemaName chain.index.schemaId era] =
      (applySteps registry post bytes).map fun bytes =>
        (bytes, [TableMigrationChain.schemaName chain.index.schemaId era] ++ namesAlong chain.index.schemaId post) := by
    rw [hsplit, TableMigrationChain.decodeSteps_skip hpre hpost, TableMigrationChain.decodeSteps_linked hpost]
  rw [TableMigrationChain.decodeToJson, hschema, hlater]
  dsimp only
  rw [hdecode]
  cases applySteps registry post bytes with
  | error e => rfl
  | ok bytes => rfl

theorem Invariant.reads {s : Versioned} (hs : Invariant start s) : s.ReadUnderOwnSchema where
  recorded := hs.recorded
  schema e he := (hs.placed e he).schema
  restorable e he := by
    unfold TableMigrationChain.assertRestorable TableMigrationChain.isRestorable
    rw [(hs.placed e he).schema]
    change (if (e.2 == s.table.chain.currentVersion) = true then _ else _) = _ ↔ _
    by_cases hera : e.2 = s.table.chain.currentVersion
    · simp [hera]
    · simp [hera]
  normalized e he _ parse registry bytes := (hs.placed e he).normalized parse registry bytes

end Reading

/-- A table with no history and no migration yet. -/
def Fresh (table : BackedTable) : Prop := table.backups = .empty ∧ table.chain.manifests = []

/-- **Runs whose records stay above the bounds.** From a table with no history yet, in every run whose steps all meet the
condition, every saved version is read under the schema it was written with. -/
theorem run_reads_own_schema {table : BackedTable} (hfresh : Fresh table) {actions : List Action} {s : Versioned}
    (hmeet : StepsMeet (step tools runner) (Condition tools runner) ⟨table, []⟩ actions)
    (hrun : runSteps (step tools runner) ⟨table, []⟩ actions = some s) : s.ReadUnderOwnSchema := by
  have hstart : Invariant table.chain.currentVersion ⟨table, []⟩ := by
    refine ⟨?_, ?_, fun _ => nofun⟩
    · change Linked _ table.chain.manifests _
      rw [hfresh.2]
      rfl
    · change [] = table.backups.written
      rw [hfresh.1]
      rfl
  exact (runSteps_invariant (I := Invariant table.chain.currentVersion) step_invariant hmeet hrun hstart).reads

/-! ## Two keys and a migration -/

def sampleTable : TableTools := ⟨"t", fun _ => .ok ()⟩

/-- Two versions of `a` and one of `b`, and then a migration in place: its bound is 2. -/
def twoKeys : List Action :=
  [.call (.set ⟨1, "1"⟩ "a" [2]), .call (.set ⟨2, "2"⟩ "a" [3]), .call (.set ⟨3, "3"⟩ "b" [2]),
    .migrate ⟨4, "4"⟩ (MigrationRun.sampleRun .inPlaceEvolve false) .inPlace .empty]

def newTable : Versioned := ⟨⟨.empty, .empty, ⟨.fresh "t", []⟩⟩, []⟩

/-- The second version of `b` is written under schema 2 and read as one of schema 1. -/
theorem second_version_misread :
    ∃ s, runSteps (step sampleTable MigrationRun.sampleTools) newTable (twoKeys ++ [.call (.set ⟨5, "5"⟩ "b" [4])]) =
        some s ∧
      s.table.chain.currentVersion = 2 ∧
      ((⟨2, 5, "5", .set, "t", "b", some [4], none, none, false⟩ : BackupRecord), 2) ∈ s.eras ∧
      s.table.chain.schemaVersionForBackup 2 = 1 := by
  obtain ⟨s, hs⟩ := Option.isSome_iff_exists.mp
    (show (runSteps (step sampleTable MigrationRun.sampleTools) newTable
      (twoKeys ++ [.call (.set ⟨5, "5"⟩ "b" [4])])).isSome = true by decide)
  have hseen : (runSteps (step sampleTable MigrationRun.sampleTools) newTable
      (twoKeys ++ [.call (.set ⟨5, "5"⟩ "b" [4])])).map (fun s => (s.table.chain.currentVersion, s.eras.getLast?,
        s.table.chain.schemaVersionForBackup 2)) =
      some (2, some (⟨2, 5, "5", .set, "t", "b", some [4], none, none, false⟩, 2), 1) := by decide
  rw [hs] at hseen
  simp only [Option.map_some, Option.some.injEq, Prod.mk.injEq] at hseen
  exact ⟨s, hs, hseen.1, List.mem_of_getLast? hseen.2.1, hseen.2.2⟩

/-- The theorem at work: after the migration the next version of `a` has the number 3. -/
theorem run_reads_own_schema_two_keys :
    ∃ s, runSteps (step sampleTable MigrationRun.sampleTools) newTable (twoKeys ++ [.call (.set ⟨5, "5"⟩ "a" [4])]) =
      some s ∧ s.ReadUnderOwnSchema := by
  obtain ⟨s, hs⟩ := Option.isSome_iff_exists.mp
    (show (runSteps (step sampleTable MigrationRun.sampleTools) newTable
      (twoKeys ++ [.call (.set ⟨5, "5"⟩ "a" [4])])).isSome = true by decide)
  exact ⟨s, hs, run_reads_own_schema sampleTable MigrationRun.sampleTools ⟨rfl, rfl⟩ (by decide) hs⟩

end Versioned

end CloveDb.Schema
