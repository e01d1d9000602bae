/-
# CloveDb.Schema.Stopped — an in-place migration that is stopped

The durable writes of an in-place run, one after the other: the blob files, the row transaction, the snapshot, the
manifest, the table's index, the layout, the root index and the meta row. The version a later open sees is that of the
table's index, so a stop between the row transaction and the index leaves migrated rows under the old version, and a
second run migrates them again.
-/
import CloveDb.Lib.CrashProg
import CloveDb.Schema.Transfer

namespace CloveDb.Schema

open CloveDb.Lib

/-- What is on disk about one table. -/
structure Disk where
  content : Content
  /-- blob files written ahead of the row transaction -/
  blobFiles : List Bytes
  snapshots : Table String (List (String × Bytes))
  manifests : Table String MigrationManifest
  index : Option TableChainIndex
  layouts : Table Nat String
  /-- the table's version in the root index -/
  root : Option Nat
  /-- the table's schema version and layout hash in the meta table -/
  metaRow : Option (Nat × String)
  /-- the last saved version of each key -/
  versions : Table String Nat
  deriving DecidableEq

/-- `load_table_chain`: the index, and the manifests it lists that are there. -/
def Disk.chain (d : Disk) (table : String) : TableMigrationChain :=
  let index := d.index.getD (.fresh table)
  ⟨index, index.chain.filterMap fun e => d.manifests.get e.migrationId⟩

/-- The schema version an open sees. -/
def Disk.version (d : Disk) (table : String) : Nat := (d.chain table).currentVersion

namespace MigrationRun

variable (tools : RunnerTools) (run : MigrationRun)

/-- The table of an in-place run. -/
def table : String := run.plan.toEnd.table

/-- Write one blob file, if the row brings a blob. -/
def writeBlob (blobs : Table String Bytes) (r : StagedRecord) : Prog Disk ClError Unit :=
  match run.blobOf blobs r with
  | .error e => Prog.fail e
  | .ok none => Prog.ret ()
  | .ok (some b) => Prog.effect fun d => { d with blobFiles := d.blobFiles ++ [b] }

/-- The layout recorded for the new version: that of the first row written. -/
def newLayout (p : PreparedMigration) : Option String :=
  let captured := p.staged.head?.bind fun r => (tools.captureFromSampleJson r.metadataBytes).toOption
  captured.or (tools.captureFromSampleJson []).toOption

/-- The layout file of a version, unless there is one. -/
def writeLayout (version : Nat) (layout : String) : Prog Disk ClError Unit := do
  let d ← Prog.read
  if (d.layouts.get version).isNone then
    Prog.effect fun d => { d with layouts := d.layouts.insert version layout }
  else Prog.ret ()

/-- The table's index, unless it is on disk as it is. -/
def writeIndex (index : TableChainIndex) : Prog Disk ClError Unit := do
  let d ← Prog.read
  if d.index = some index then Prog.ret ()
  else Prog.effect fun d => { d with index := some index }

/-- `ensure_layout`. -/
def ensureLayout (index : TableChainIndex) (layout : Option String) : Prog Disk ClError Unit :=
  match layout with
  | none => Prog.ret ()
  | some layout => do
      writeLayout index.currentVersion layout
      writeIndex index

/-- `persist_root`. -/
def persistRoot (version : Nat) : Prog Disk ClError Unit := do
  let d ← Prog.read
  if d.root = some version then Prog.ret ()
  else Prog.effect fun d => { d with root := some version }

/-- The table's row of the meta table, where there is one. -/
def writeMeta (version : Nat) (layout : Option String) : Prog Disk ClError Unit := do
  let d ← Prog.read
  match d.metaRow with
  | none => Prog.ret ()
  | some row => Prog.effect fun d => { d with metaRow := some (version, layout.getD row.2) }

/-- What follows the table's index. -/
def finishFiles (index : TableChainIndex) (layout : Option String) : Prog Disk ClError Unit := do
  ensureLayout index layout
  persistRoot index.currentVersion
  writeMeta index.currentVersion layout

/-- The writes of `append`: the snapshot, the manifest, the index. -/
def appendFiles (chain : TableMigrationChain) (m : MigrationManifest) (snapshot : List (String × Bytes)) :
    Prog Disk ClError Unit := do
  Prog.effect fun d => { d with snapshots := d.snapshots.insert m.migrationId snapshot }
  Prog.effect fun d => { d with manifests := d.manifests.insert m.migrationId m }
  Prog.effect fun d => { d with index := some (chain.append m).index }

/-- The row transaction and the files after it. -/
def commitRows (chain : TableMigrationChain) (content : Content) (m : MigrationManifest)
    (snapshot : List (String × Bytes)) (layout : Option String) : Prog Disk ClError Unit := do
  Prog.effect fun d => { d with content := content }
  appendFiles chain m snapshot
  finishFiles (chain.append m).index layout

/-- The manifest of an in-place run on the disk `d`: from the version it has to the next. -/
def nextManifest (d : Disk) (p : PreparedMigration) : MigrationManifest :=
  let chain := d.chain run.table
  run.manifest chain.currentVersion (chain.currentVersion + 1) (maxBackupVersion d.versions chain p.storageKeys)

/-- `commit_prepared` of an in-place run on the disk `d`. -/
def commitPrepared (d : Disk) (p : PreparedMigration) : Prog Disk ClError Unit := do
  Prog.each p.staged (run.writeBlob d.content.blobs)
  let content ← Prog.lift (run.rewriteTables tools d.content d.content p.staged)
  commitRows (d.chain run.table) content (run.nextManifest d p)
    (p.staged.map fun r => (r.storageKey, r.metadataBytes)) (newLayout tools p)

/-- `execute` of an in-place run. -/
def executeInPlace : Prog Disk ClError Unit := do
  let d ← Prog.read
  let p ← Prog.lift (run.prepare tools d.content.rows.rows d.content.rows)
  if p.isExecutable then run.commitPrepared tools d p
  else Prog.ret ()

/-! ## What the run is for -/

/-- The table after the migration; as it was, where the run is refused or has nothing to do. -/
def migrated (content : Content) : Content :=
  match run.prepare tools content.rows.rows content.rows with
  | .error _ => content
  | .ok p =>
      if p.isExecutable then
        match run.rewriteTables tools content content p.staged with
        | .error _ => content
        | .ok content => content
      else content

/-- How many blob files come before the row transaction. -/
def blobCount (content : Content) : Nat :=
  match run.prepare tools content.rows.rows content.rows with
  | .error _ => 0
  | .ok p => p.staged.countP bringsBlob

/-- Old rows under the old version, or migrated rows under the new one. -/
def AllOrNothing (d t : Disk) : Prop :=
  (t.content = d.content ∧ t.version run.table = d.version run.table) ∨
    (t.content = run.migrated tools d.content ∧ t.version run.table = d.version run.table + 1)

/-! ## The writes in order -/

section Order

variable {tools run} {d t : Disk}

/-- Rows and version are as they were. -/
structure Kept (d t : Disk) : Prop where
  content : t.content = d.content
  index : t.index = d.index

theorem Kept.refl : Kept d d := ⟨rfl, rfl⟩

theorem Kept.trans {u : Disk} (h : Kept d t) (h' : Kept t u) : Kept d u :=
  ⟨h'.content.trans h.content, h'.index.trans h.index⟩

theorem Kept.version (h : Kept d t) (table : String) : t.version table = d.version table := by
  rw [Disk.version, Disk.version, Disk.chain, Disk.chain, h.index]
  rfl

theorem blobOf_ok {blobs : Table String Bytes} {r : StagedRecord} {b : Option Bytes}
    (h : run.blobOf blobs r = .ok b) : b.isSome = bringsBlob r := by
  unfold blobOf at h
  unfold bringsBlob
  split at h
  · rename_i hcopy
    split at h
    · cases h
    · cases h
      simp [hcopy]
  · rename_i hcopy
    split at h
    · rename_i hblob
      cases h
      simp [hcopy, hblob]
    · rename_i hblob
      split at h
      · cases h
        simp [hblob]
      · cases h

/-- The blob files before the row transaction: rows and version stay, there is one file for each row that brings a
blob, and an error is that of a row's blob. -/
theorem writeBlobs_run (blobs : Table String Bytes) (staged : List StagedRecord) (d : Disk) :
    (∀ t ∈ (Prog.each staged (run.writeBlob blobs) d).seen, Kept d t) ∧
      Kept d (Prog.each staged (run.writeBlob blobs) d).final ∧
      (Prog.each staged (run.writeBlob blobs) d).seen.length ≤ staged.countP bringsBlob ∧
      ((Prog.each staged (run.writeBlob blobs) d).result = .ok () →
        (Prog.each staged (run.writeBlob blobs) d).seen.length = staged.countP bringsBlob) ∧
      ∀ e, (Prog.each staged (run.writeBlob blobs) d).result = .error e → ∃ r ∈ staged, run.blobOf blobs r = .error e := by
  induction staged generalizing d with
  | nil => exact ⟨fun _ => nofun, .refl, Nat.le_refl _, fun _ => rfl, fun _ => nofun⟩
  | cons r staged ih =>
      have hcount : (r :: staged).countP bringsBlob = staged.countP bringsBlob + if bringsBlob r then 1 else 0 :=
        List.countP_cons
      cases hblob : run.blobOf blobs r with
      | error e =>
          have hrun : Prog.each (r :: staged) (run.writeBlob blobs) d = ⟨[], d, .error e⟩ := by
            have hfirst : run.writeBlob blobs r d = ⟨[], d, .error e⟩ := by
              rw [writeBlob, hblob]
              rfl
            rw [Prog.each, Prog.bind_of_error (e := e) (by rw [hfirst]), hfirst]
          rw [hrun]
          refine ⟨fun _ => nofun, .refl, Nat.zero_le _, nofun, fun e' he' => ?_⟩
          cases he'
          exact ⟨r, List.mem_cons_self, hblob⟩
      | ok b =>
          have hbrings := blobOf_ok hblob
          cases b with
          | none =>
              have hfirst : run.writeBlob blobs r d = ⟨[], d, .ok ()⟩ := by
                rw [writeBlob, hblob]
                rfl
              have hrun : Prog.each (r :: staged) (run.writeBlob blobs) d = Prog.each staged (run.writeBlob blobs) d := by
                rw [Prog.each, Prog.bind_of_ok (a := ()) (by rw [hfirst]), hfirst]
                rfl
              obtain ⟨hseen, hfinal, hle, heq, herr⟩ := ih d
              have hn : (r :: staged).countP bringsBlob = staged.countP bringsBlob := by
                rw [hcount, ← hbrings]
                rfl
              rw [hrun, hn]
              refine ⟨hseen, hfinal, hle, heq, fun e he => ?_⟩
              obtain ⟨r', hr', hb'⟩ := herr e he
              exact ⟨r', List.mem_cons_of_mem _ hr', hb'⟩
          | some b =>
              have hfirst : run.writeBlob blobs r d =
                  ⟨[{ d with blobFiles := d.blobFiles ++ [b] }], { d with blobFiles := d.blobFiles ++ [b] }, .ok ()⟩ := by
                rw [writeBlob, hblob]
                rfl
              have hkept : Kept d { d with blobFiles := d.blobFiles ++ [b] } := ⟨rfl, rfl⟩
              obtain ⟨hseen, hfinal, hle, heq, herr⟩ := ih { d with blobFiles := d.blobFiles ++ [b] }
              have hn : (r :: staged).countP bringsBlob = staged.countP bringsBlob + 1 := by
                rw [hcount, ← hbrings]
                rfl
              rw [Prog.each, Prog.bind_of_ok (a := ()) (by rw [hfirst]), hfirst, hn]
              refine ⟨fun t ht => ?_, hkept.trans hfinal, ?_, fun h => ?_, fun e he => ?_⟩
              · rcases List.mem_append.mp ht with ht | ht
                · rw [List.mem_singleton.mp ht]
                  exact hkept
                · exact hkept.trans (hseen t ht)
              · simp only [List.length_append, List.length_singleton]
                omega
              · have := heq h
                simp only [List.length_append, List.length_singleton]
                omega
              · obtain ⟨r', hr', hb'⟩ := herr e he
                exact ⟨r', List.mem_cons_of_mem _ hr', hb'⟩

/-- Without the blobs of its rows, the row transaction does not happen. -/
theorem rewriteTables_of_blob_error {c : Content} {staged : List StagedRecord} {r : StagedRecord} {e : ClError}
    (hr : r ∈ staged) (h : run.blobOf c.blobs r = .error e) (content : Content) :
    run.rewriteTables tools c c staged ≠ .ok content := by
  intro hok
  obtain ⟨prepared, hprepared, -⟩ := bind_eq_ok.mp hok
  obtain ⟨found, hfound, -⟩ := bind_eq_ok.mp hprepared
  obtain ⟨b, -, hb⟩ := exists_collect hfound hr
  rw [h] at hb
  cases hb

/-- After the table's index nothing changes rows or version. -/
theorem finishFiles_keeps (index : TableChainIndex) (layout : Option String) (c : Content) :
    Prog.Keeps (fun s => s.content = c ∧ s.index = some index) (finishFiles index layout) := by
  refine .bind ?_ fun _ => .bind ?_ fun _ => ?_
  · cases layout with
    | none => exact .ret ()
    | some layout =>
        refine .bind (.read fun s => ?_) fun _ => .read fun s => ?_
        · split
          · exact .effect fun _ hs => hs
          · exact .ret ()
        · split
          · exact .ret ()
          · exact .effect fun _ hs => ⟨hs.1, rfl⟩
  · refine .read fun s => ?_
    split
    · exact .ret ()
    · exact .effect fun _ hs => hs
  · refine .read fun s => ?_
    split
    · exact .ret ()
    · exact .effect fun _ hs => hs

/-- The row transaction, three states with the rows written and the index as before, and then the new index. -/
theorem commitRows_run (chain : TableMigrationChain) (c : Content) (m : MigrationManifest)
    (snapshot : List (String × Bytes)) (layout : Option String) (d : Disk) :
    ∃ mid post, (commitRows chain c m snapshot layout d).seen = mid ++ post ∧ mid.length = 3 ∧
      (∀ t ∈ mid, t.content = c ∧ t.index = d.index) ∧
      (∀ t ∈ post, t.content = c ∧ t.index = some (chain.append m).index) ∧
      (commitRows chain c m snapshot layout d).final.content = c := by
  let d₁ : Disk := { d with content := c }
  let d₂ : Disk := { d₁ with snapshots := d₁.snapshots.insert m.migrationId snapshot }
  let d₃ : Disk := { d₂ with manifests := d₂.manifests.insert m.migrationId m }
  let d₄ : Disk := { d₃ with index := some (chain.append m).index }
  have hrun : commitRows chain c m snapshot layout d =
      ⟨[d₁, d₂, d₃] ++ d₄ :: (finishFiles (chain.append m).index layout d₄).seen,
        (finishFiles (chain.append m).index layout d₄).final,
        (finishFiles (chain.append m).index layout d₄).result⟩ := rfl
  obtain ⟨hseen, -, -, hfinal⟩ := finishFiles_keeps (chain.append m).index layout c d₄ ⟨rfl, rfl⟩
  refine ⟨[d₁, d₂, d₃], d₄ :: (finishFiles (chain.append m).index layout d₄).seen, congrArg Outcome.seen hrun, rfl,
    fun t ht => ?_, fun t ht => ?_, ?_⟩
  · simp only [List.mem_cons, List.not_mem_nil, or_false] at ht
    rcases ht with rfl | rfl | rfl
    · exact ⟨rfl, rfl⟩
    · exact ⟨rfl, rfl⟩
    · exact ⟨rfl, rfl⟩
  · rcases List.mem_cons.mp ht with rfl | ht
    · exact ⟨rfl, rfl⟩
    · exact hseen t ht
  · rw [hrun]
    exact hfinal.1

/-- The writes of a commit whose row transaction is refused: blob files only. -/
theorem commitPrepared_refused {p : PreparedMigration}
    (hrefused : ∀ c, run.rewriteTables tools d.content d.content p.staged ≠ .ok c) :
    (∀ t ∈ (run.commitPrepared tools d p d).seen, Kept d t) ∧ Kept d (run.commitPrepared tools d p d).final ∧
      (run.commitPrepared tools d p d).seen.length ≤ p.staged.countP bringsBlob := by
  obtain ⟨hseen, hfinal, hle, -, -⟩ := @writeBlobs_run run d.content.blobs p.staged d
  cases hblobs : (Prog.each p.staged (run.writeBlob d.content.blobs) d).result with
  | error e =>
      rw [commitPrepared, Prog.bind_of_error hblobs]
      exact ⟨hseen, hfinal, hle⟩
  | ok u =>
      cases hrows : run.rewriteTables tools d.content d.content p.staged with
      | ok c => exact absurd hrows (hrefused c)
      | error e =>
          rw [commitPrepared, Prog.bind_of_ok hblobs]
          have hlift : (Prog.lift (σ := Disk) (run.rewriteTables tools d.content d.content p.staged)
              (Prog.each p.staged (run.writeBlob d.content.blobs) d).final).result = .error e := hrows
          rw [Prog.bind_of_error hlift]
          refine ⟨fun t ht => hseen t ?_, hfinal, ?_⟩
          · simpa [Prog.lift] using ht
          · simpa [Prog.lift] using hle

/-- The writes of a commit: the blob files, and then those of `commitRows`. -/
theorem commitPrepared_run {p : PreparedMigration} {c : Content}
    (hrows : run.rewriteTables tools d.content d.content p.staged = .ok c) :
    ∃ blobs mid post, (run.commitPrepared tools d p d).seen = blobs ++ (mid ++ post) ∧
      blobs.length = p.staged.countP bringsBlob ∧ mid.length = 3 ∧ (∀ t ∈ blobs, Kept d t) ∧
      (∀ t ∈ mid, t.content = c ∧ t.index = d.index) ∧
      (∀ t ∈ post, t.content = c ∧ t.index = some ((d.chain run.table).append (run.nextManifest d p)).index) ∧
      (run.commitPrepared tools d p d).final.content = c := by
  obtain ⟨hseen, hfinal, -, hlength, herror⟩ := @writeBlobs_run run d.content.blobs p.staged d
  cases hblobs : (Prog.each p.staged (run.writeBlob d.content.blobs) d).result with
  | error e =>
      obtain ⟨r, hr, hb⟩ := herror e hblobs
      exact absurd hrows (rewriteTables_of_blob_error hr hb c)
  | ok u =>
      have hlift : (Prog.lift (σ := Disk) (run.rewriteTables tools d.content d.content p.staged)
          (Prog.each p.staged (run.writeBlob d.content.blobs) d).final).result = .ok c := hrows
      obtain ⟨mid, post, hrest, hmid, hmids, hposts, hlast⟩ := commitRows_run (d.chain run.table) c
        (run.nextManifest d p) (p.staged.map fun r => (r.storageKey, r.metadataBytes)) (newLayout tools p)
        (Prog.each p.staged (run.writeBlob d.content.blobs) d).final
      refine ⟨_, mid, post, ?_, hlength hblobs, hmid, hseen, fun t ht => ?_, hposts, ?_⟩
      · rw [commitPrepared, Prog.bind_of_ok hblobs, Prog.bind_of_ok hlift]
        exact congrArg (_ ++ ·) hrest
      · exact ⟨(hmids t ht).1, (hmids t ht).2.trans hfinal.index⟩
      · rw [commitPrepared, Prog.bind_of_ok hblobs, Prog.bind_of_ok hlift]
        exact hlast

/-- The states of a run that does not reach its row transaction. -/
structure Idle (tools : RunnerTools) (run : MigrationRun) (d : Disk) : Prop where
  seen : ∀ t ∈ (run.executeInPlace tools d).seen, Kept d t
  final : (run.executeInPlace tools d).final.content = d.content
  length : (run.executeInPlace tools d).seen.length ≤ run.blobCount tools d.content
  migrated : run.migrated tools d.content = d.content

/-- The states of a run that commits: old rows and version, migrated rows under the old version, migrated rows under
the new one. -/
structure Commits (tools : RunnerTools) (run : MigrationRun) (d : Disk) (old mid new : List Disk) : Prop where
  seen : (run.executeInPlace tools d).seen = old ++ (mid ++ new)
  oldLength : old.length = run.blobCount tools d.content
  midLength : mid.length = 3
  old : ∀ t ∈ old, Kept d t
  mid : ∀ t ∈ mid, t.content = run.migrated tools d.content ∧ t.version run.table = d.version run.table
  new : ∀ t ∈ new, t.content = run.migrated tools d.content ∧ t.version run.table = d.version run.table + 1
  final : (run.executeInPlace tools d).final.content = run.migrated tools d.content

theorem executeInPlace_run (tools : RunnerTools) (run : MigrationRun) (d : Disk) :
    Idle tools run d ∨ ∃ old mid new, Commits tools run d old mid new := by
  cases hp : run.prepare tools d.content.rows.rows d.content.rows with
  | error e =>
      have hrun : run.executeInPlace tools d = ⟨[], d, .error e⟩ := by
        change (Prog.lift (run.prepare tools d.content.rows.rows d.content.rows) >>= _) d = _
        rw [hp]
        rfl
      refine Or.inl ⟨?_, ?_, ?_, ?_⟩
      · rw [hrun]
        exact fun _ => nofun
      · rw [hrun]
      · rw [hrun]
        exact Nat.zero_le _
      · rw [migrated, hp]
  | ok p =>
      have hrun : run.executeInPlace tools d =
          (if p.isExecutable then run.commitPrepared tools d p else Prog.ret ()) d := by
        change (Prog.lift (run.prepare tools d.content.rows.rows d.content.rows) >>= _) d = _
        rw [hp]
        rfl
      have hcount : run.blobCount tools d.content = p.staged.countP bringsBlob := by rw [blobCount, hp]
      by_cases hexec : p.isExecutable = true
      · rw [if_pos hexec] at hrun
        cases hrows : run.rewriteTables tools d.content d.content p.staged with
        | error e =>
            obtain ⟨hseen, hfinal, hlength⟩ := @commitPrepared_refused tools run d p
              fun c hc => by
                rw [hrows] at hc
                cases hc
            refine Or.inl ⟨?_, ?_, ?_, ?_⟩
            · rw [hrun]
              exact hseen
            · rw [hrun]
              exact hfinal.content
            · rw [hrun, hcount]
              exact hlength
            · simp only [migrated, hp, if_pos hexec, hrows]
        | ok c =>
            have hmigrated : run.migrated tools d.content = c := by simp only [migrated, hp, if_pos hexec, hrows]
            obtain ⟨old, mid, new, hseen, hold, hmid, holds, hmids, hnews, hfinal⟩ := commitPrepared_run hrows
            refine Or.inr ⟨old, mid, new, ?_, ?_, hmid, holds, fun t ht => ?_, fun t ht => ?_, ?_⟩
            · rw [hrun]
              exact hseen
            · rw [hcount]
              exact hold
            · obtain ⟨hcontent, hindex⟩ := hmids t ht
              refine ⟨hcontent.trans hmigrated.symm, ?_⟩
              rw [Disk.version, Disk.version, Disk.chain, Disk.chain, hindex]
              rfl
            · obtain ⟨hcontent, hindex⟩ := hnews t ht
              refine ⟨hcontent.trans hmigrated.symm, ?_⟩
              rw [Disk.version, Disk.chain, hindex]
              rfl
            · rw [hrun, hmigrated]
              exact hfinal
      · rw [if_neg hexec] at hrun
        refine Or.inl ⟨?_, ?_, ?_, ?_⟩
        · rw [hrun]
          exact fun _ => nofun
        · rw [hrun]
          rfl
        · rw [hrun]
          exact Nat.zero_le _
        · simp only [migrated, hp, if_neg hexec]

/-- A run that is not stopped leaves the migrated table. -/
theorem executeInPlace_final (tools : RunnerTools) (run : MigrationRun) (d : Disk) :
    (run.executeInPlace tools d).final.content = run.migrated tools d.content := by
  rcases executeInPlace_run tools run d with h | ⟨old, mid, new, h⟩
  · rw [h.final, h.migrated]
  · exact h.final

end Order

/-- The same run, started again: it draws a new id. -/
def again (id : String) : MigrationRun := { run with migrationId := id }

/-- **Stopped migrations.** A run stopped after `k` of its writes is all or nothing, and running it again ends with
every step applied once, exactly when the row transaction is still to come, or the table's index is written, or the
step changes nothing. The three writes in between (rows, snapshot, manifest) are the window. -/
theorem stopped_all_or_nothing_iff {d t : Disk} {k : Nat}
    (h : (Prog.states (run.executeInPlace tools) d)[k]? = some t) :
    (run.AllOrNothing tools d t ∧
        (t.version run.table = d.version run.table →
          ∀ id, ((run.again id).executeInPlace tools t).final.content = run.migrated tools d.content)) ↔
      k ≤ run.blobCount tools d.content ∨ run.blobCount tools d.content + 4 ≤ k ∨
        run.migrated tools d.content = d.content := by
  have hagain : ∀ id, ((run.again id).executeInPlace tools t).final.content = run.migrated tools t.content :=
    fun id => executeInPlace_final tools (run.again id) t
  -- old rows under the old version are safe
  have hsafe : Kept d t → run.AllOrNothing tools d t ∧ (t.version run.table = d.version run.table →
      ∀ id, ((run.again id).executeInPlace tools t).final.content = run.migrated tools d.content) := by
    intro hkept
    refine ⟨Or.inl ⟨hkept.content, hkept.version _⟩, fun _ id => ?_⟩
    rw [hagain id, hkept.content]
  rw [Prog.states] at h
  cases k with
  | zero =>
      cases h
      exact ⟨fun _ => Or.inl (Nat.zero_le _), fun _ => hsafe .refl⟩
  | succ k =>
      rw [List.getElem?_cons_succ] at h
      rcases executeInPlace_run tools run d with hidle | ⟨old, mid, new, hcommits⟩
      · obtain ⟨hk, rfl⟩ := List.getElem?_eq_some_iff.mp h
        have hle := hidle.length
        exact ⟨fun _ => Or.inl (by omega), fun _ => hsafe (hidle.seen _ (List.getElem_mem hk))⟩
      · rw [hcommits.seen, List.getElem?_append] at h
        have hold := hcommits.oldLength
        split at h
        · obtain ⟨hk, rfl⟩ := List.getElem?_eq_some_iff.mp h
          exact ⟨fun _ => Or.inl (by omega), fun _ => hsafe (hcommits.old _ (List.getElem_mem hk))⟩
        · rename_i hlater
          rw [List.getElem?_append, hcommits.midLength] at h
          split at h
          · -- the window: migrated rows, old version
            rename_i hwindow
            have ht := List.mem_of_getElem? h
            obtain ⟨hcontent, hversion⟩ := hcommits.mid t ht
            constructor
            · rintro ⟨(⟨hrows, -⟩ | ⟨-, hnext⟩), -⟩
              · exact Or.inr (Or.inr (hcontent.symm.trans hrows))
              · omega
            · rintro (hk | hk | hsame)
              · omega
              · omega
              · refine ⟨Or.inl ⟨hcontent.trans hsame, hversion⟩, fun _ id => ?_⟩
                rw [hagain id, hcontent.trans hsame]
          · rename_i hafter
            have ht := List.mem_of_getElem? h
            obtain ⟨hcontent, hversion⟩ := hcommits.new t ht
            exact ⟨fun _ => Or.inr (Or.inl (by omega)),
              fun _ => ⟨Or.inr ⟨hcontent, hversion⟩, fun hsame => by omega⟩⟩

/-- A step that puts a byte in front. -/
def growing : MigrationRun where
  plan := ⟨.inPlaceEvolve, ⟨"db", "t", .inlineJson⟩, ⟨"db", "t", .inlineJson⟩, false⟩
  conflictPolicy := .fail
  decoder := ⟨fun bytes => .ok (9 :: bytes), fun _ bytes => .ok (.migrated ⟨9 :: bytes, none⟩)⟩
  migrationId := "mig-1"
  fromLayoutHash := "a"
  toLayoutHash := "b"

/-- One row, and nothing else on disk. -/
def oneRow : Disk where
  content := sampleContent [("k", [2])]
  blobFiles := []
  snapshots := .empty
  manifests := .empty
  index := none
  layouts := .empty
  root := none
  metaRow := none
  versions := .empty

/-- Stopped right after its row transaction, the run leaves the migrated row under the old version; run again, it
migrates the row a second time. -/
theorem stop_then_rerun_migrates_twice :
    ∃ t, (Prog.states (growing.executeInPlace sampleTools) oneRow)[1]? = some t ∧
      t.content.rows.get "k" = some [9, 2] ∧ t.version "t" = oneRow.version "t" ∧
      ((growing.again "mig-2").executeInPlace sampleTools t).final.content.rows.get "k" = some [9, 9, 2] := by
  refine ⟨{ oneRow with content := sampleContent [("k", [9, 2])] }, ?_, ?_, rfl, ?_⟩
  · decide
  · decide
  · decide

/-- The equivalence at the first stop. -/
theorem growing_not_all_or_nothing :
    ∃ t, (Prog.states (growing.executeInPlace sampleTools) oneRow)[1]? = some t ∧
      ((growing.AllOrNothing sampleTools oneRow t ∧
          (t.version "t" = oneRow.version "t" → ∀ id,
            ((growing.again id).executeInPlace sampleTools t).final.content =
              growing.migrated sampleTools oneRow.content)) ↔
        1 ≤ growing.blobCount sampleTools oneRow.content ∨ growing.blobCount sampleTools oneRow.content + 4 ≤ 1 ∨
          growing.migrated sampleTools oneRow.content = oneRow.content) := by
  obtain ⟨t, ht⟩ := Option.isSome_iff_exists.mp
    (show ((Prog.states (growing.executeInPlace sampleTools) oneRow)[1]?).isSome = true by decide)
  exact ⟨t, ht, stopped_all_or_nothing_iff sampleTools growing ht⟩

end MigrationRun

end CloveDb.Schema
