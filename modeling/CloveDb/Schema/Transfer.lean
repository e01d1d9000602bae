/-
# CloveDb.Schema.Transfer — what a migration does to the rows

The two tables after `execute`, row by row. A staged row is found under its storage key when no other staged row has
that key; in place, a row the step skipped stays unless a staged row takes its key. With `delete_source` every row the
run has read goes, whatever became of it.
-/
import CloveDb.Schema.Runner

namespace CloveDb.Schema.MigrationRun

open CloveDb.Lib

variable {tools : RunnerTools} {run : MigrationRun} {target : Table String Bytes} {entry : String × Bytes}

/-! ## Fates -/

theorem fate_skip (h : run.decoder.migrateRecord (run.context entry.1) entry.2 = .ok .skip) :
    run.fate tools target entry = .ok .skipped := by
  rw [fate, h]
  rfl

/-- A row the step migrated is staged, or its key is taken. -/
theorem fate_migrated {m : MigratedRecord} {f : Fate}
    (h : run.decoder.migrateRecord (run.context entry.1) entry.2 = .ok (.migrated m))
    (hf : run.fate tools target entry = .ok f) :
    f = .staged (run.stage tools entry.1 m) ∨ f = .keyTaken ∨ ∃ k, f = .conflict k := by
  rw [fate, h, ok_bind] at hf
  dsimp only at hf
  split at hf
  · exact Or.inl (Except.ok.inj hf).symm
  · split at hf
    · exact Or.inl (Except.ok.inj hf).symm
    · split at hf
      · exact Or.inr (Or.inr ⟨_, (Except.ok.inj hf).symm⟩)
      · exact Or.inr (Or.inl (Except.ok.inj hf).symm)
      · exact Or.inl (Except.ok.inj hf).symm
      · obtain ⟨fits, _, hf⟩ := bind_eq_ok.mp hf
        split at hf
        · exact Or.inl (Except.ok.inj hf).symm
        · exact Or.inr (Or.inr ⟨_, (Except.ok.inj hf).symm⟩)

/-- A staged row is what the step made of the source row. -/
theorem fate_staged {r : StagedRecord} (hf : run.fate tools target entry = .ok (.staged r)) :
    ∃ m, run.decoder.migrateRecord (run.context entry.1) entry.2 = .ok (.migrated m) ∧
      r = run.stage tools entry.1 m := by
  have hstep := hf
  rw [fate] at hstep
  obtain ⟨result, hresult, -⟩ := bind_eq_ok.mp hstep
  cases result with
  | skip =>
      rw [fate_skip hresult] at hf
      cases hf
  | migrated m =>
      rcases fate_migrated hresult hf with h | h | ⟨k, h⟩
      · exact ⟨m, hresult, Fate.staged.inj h⟩
      · cases h
      · cases h

/-! ## Prepared migrations -/

section Prepared

variable {entries : List (String × Bytes)} {p : PreparedMigration}

/-- A prepared migration, by the fates of the rows. -/
theorem prepare_ok (h : run.prepare tools entries target = .ok p) :
    ∃ fates, collect (run.fate tools target) entries = .ok fates ∧
      p = ⟨reportOf run.conflictPolicy entries fates, fates.filterMap Fate.record?, entries⟩ := by
  obtain ⟨_, _, h⟩ := bind_eq_ok.mp h
  obtain ⟨fates, hfates, h⟩ := bind_eq_ok.mp h
  exact ⟨fates, hfates, (Except.ok.inj h).symm⟩

theorem mem_staged (h : run.prepare tools entries target = .ok p) {r : StagedRecord} :
    r ∈ p.staged ↔ ∃ e ∈ entries, run.fate tools target e = .ok (.staged r) := by
  obtain ⟨fates, hfates, rfl⟩ := prepare_ok h
  rw [List.mem_filterMap]
  constructor
  · rintro ⟨f, hf, hr⟩
    cases f with
    | staged r' =>
        cases hr
        exact (mem_collect hfates).mp hf
    | skipped => cases hr
    | conflict k => cases hr
    | keyTaken => cases hr
  · rintro ⟨e, he, hf⟩
    exact ⟨_, (mem_collect hfates).mpr ⟨e, he, hf⟩, rfl⟩

theorem mem_conflicts (h : run.prepare tools entries target = .ok p) {k : String} :
    k ∈ p.report.conflicts ↔ ∃ e ∈ entries, run.fate tools target e = .ok (.conflict k) := by
  obtain ⟨fates, hfates, rfl⟩ := prepare_ok h
  change k ∈ fates.filterMap Fate.conflict? ↔ _
  rw [List.mem_filterMap]
  constructor
  · rintro ⟨f, hf, hk⟩
    cases f with
    | conflict k' =>
        cases hk
        exact (mem_collect hfates).mp hf
    | skipped => cases hk
    | staged r => cases hk
    | keyTaken => cases hk
  · rintro ⟨e, he, hf⟩
    exact ⟨_, (mem_collect hfates).mpr ⟨e, he, hf⟩, rfl⟩

/-- An error in the report goes with nothing staged. -/
theorem errors_eq_nil (h : run.prepare tools entries target = .ok p) (hstaged : p.staged ≠ []) :
    p.report.errors = [] := by
  obtain ⟨fates, hfates, rfl⟩ := prepare_ok h
  simp only [reportOf]
  split
  · rfl
  · rw [if_neg fun hnil => hstaged hnil.1]

theorem isExecutable_iff (h : run.prepare tools entries target = .ok p) :
    p.isExecutable = true ↔ p.report.conflicts = [] ∧ p.staged ≠ [] := by
  rw [PreparedMigration.isExecutable]
  constructor
  · intro hexec
    simp only [Bool.and_eq_true, decide_eq_true_eq] at hexec
    exact ⟨hexec.1.2, hexec.2⟩
  · rintro ⟨hconflicts, hstaged⟩
    simp [errors_eq_nil h hstaged, hconflicts, hstaged]

end Prepared

/-! ## The rows after the batch -/

section Rewritten

variable {staged : List StagedRecord} {rows : Table String Bytes}

/-- The batch by its two lists: the keys it removes and the rows it writes. -/
theorem rewriteRows_eq :
    run.rewriteRows staged rows =
      (staged.map fun r => (r.storageKey, r.metadataBytes)).foldl (fun t r => t.insert r.1 r.2)
        ((if run.inPlace then staged.map (·.sourceKey) else []).foldl (fun t k => t.remove k) rows) := by
  rw [rewriteRows, List.foldl_map]
  split
  · rw [List.foldl_map]
  · rfl

theorem rewriteRows_of_agree {k : String} {v : Bytes} (hmem : ∃ r ∈ staged, r.storageKey = k)
    (hagree : ∀ r ∈ staged, r.storageKey = k → r.metadataBytes = v) :
    (run.rewriteRows staged rows).get k = some v := by
  rw [rewriteRows_eq]
  refine Table.get_foldl_insert_of_agree _ ?_ ?_
  · obtain ⟨r, hr, rfl⟩ := hmem
    simp only [List.map_map, List.mem_map]
    exact ⟨r, hr, rfl⟩
  · intro b hb hkey
    obtain ⟨r, hr, rfl⟩ := List.mem_map.mp hb
    exact hagree r hr hkey

theorem rewriteRows_of_untouched {k : String} (hstorage : ∀ r ∈ staged, r.storageKey ≠ k)
    (hsource : run.inPlace = true → ∀ r ∈ staged, r.sourceKey ≠ k) :
    (run.rewriteRows staged rows).get k = rows.get k := by
  rw [rewriteRows_eq, Table.get_foldl_insert_of_not_mem, Table.get_foldl_remove, if_neg]
  · intro hmem
    split at hmem
    · rename_i hplace
      obtain ⟨r, hr, hkey⟩ := List.mem_map.mp hmem
      exact hsource hplace r hr hkey
    · cases hmem
  · intro hmem
    simp only [List.map_map, List.mem_map] at hmem
    obtain ⟨r, hr, hkey⟩ := hmem
    exact hstorage r hr hkey

end Rewritten

/-! ## Small runs, for the examples below -/

/-- A step that keeps the bytes of a row, and skips empty rows. -/
def sampleDecoder : SchemaDecoder where
  migrateBytes := .ok
  migrateRecord _ bytes := if bytes = [] then .ok .skip else .ok (.migrated ⟨bytes, none⟩)

/-- Rows that start with the byte 1 have the id `"x"`. -/
def sampleTools : RunnerTools where
  idOf bytes := if bytes.head? = some 1 then some "x" else none
  captureFromSampleJson _ := .ok ""
  checkCompatibleOverwrite _ _ := .ok true
  admits _ := .ok ()

def sampleRun (kind : MigrationKind) (deleteSource : Bool) : MigrationRun where
  plan := ⟨kind, ⟨"db", "old", .inlineJson⟩, ⟨"db", "new", .inlineJson⟩, deleteSource⟩
  conflictPolicy := .overwrite
  decoder := sampleDecoder
  migrationId := "mig-1"
  fromLayoutHash := "a"
  toLayoutHash := "b"

def sampleContent (rows : List (String × Bytes)) : Content := ⟨.ofList rows, .empty⟩

/-- Two rows with one id. -/
def sameIds : Content := sampleContent [("a", [1, 1]), ("b", [1, 2])]

/-- Two rows with ids of their own. -/
def ownIds : Content := sampleContent [("a", [1, 1]), ("b", [2])]

/-! ## What a run that returned has done -/

section Executed

variable {source target : Content} {out : Executed}

theorem rewriteTables_rows {staged : List StagedRecord} {content : Content}
    (h : run.rewriteTables tools source target staged = .ok content) :
    content.rows = run.rewriteRows staged target.rows := by
  obtain ⟨prepared, _, h⟩ := bind_eq_ok.mp h
  obtain ⟨_, _, h⟩ := bind_eq_ok.mp h
  cases h
  rfl

/-- A run that returned: nothing was staged or something was in conflict, and the tables are as they were; or the
batch was written and, with `delete_source`, every row that was read is gone from the source. -/
theorem execute_ok (h : run.execute tools source target = .ok out) :
    ∃ p, run.prepare tools source.rows.rows target.rows = .ok p ∧ out.report = p.report ∧
      ((p.isExecutable = false ∧ out.source = source ∧ out.target = target) ∨
        (p.isExecutable = true ∧ out.target.rows = run.rewriteRows p.staged target.rows ∧
          (run.inPlace = false → run.plan.effectiveDeleteSource = true →
            out.source = deleteSource source.rows.rows source))) := by
  obtain ⟨p, hp, h⟩ := bind_eq_ok.mp h
  refine ⟨p, hp, ?_⟩
  split at h
  · rename_i hexec
    obtain ⟨content, hcontent, h⟩ := bind_eq_ok.mp h
    cases h
    refine ⟨rfl, Or.inr ⟨hexec, rewriteTables_rows hcontent, ?_⟩⟩
    intro hplace hdelete
    obtain ⟨fates, _, rfl⟩ := prepare_ok hp
    simp [hplace, hdelete]
  · rename_i hexec
    cases h
    exact ⟨rfl, Or.inl ⟨by simpa using hexec, rfl, rfl⟩⟩

/-- Rows that were migrated and are not counted as skipped are staged, if the report lists no conflict. -/
theorem staged_of_migrated {p : PreparedMigration} (hp : run.prepare tools source.rows.rows target.rows = .ok p)
    (hconflicts : p.report.conflicts = []) {e : String × Bytes} (he : e ∈ source.rows.rows) {m : MigratedRecord}
    (hm : run.decoder.migrateRecord (run.context e.1) e.2 = .ok (.migrated m))
    (htaken : run.fate tools target.rows e ≠ .ok .keyTaken) :
    run.fate tools target.rows e = .ok (.staged (run.stage tools e.1 m)) := by
  obtain ⟨fates, hfates, -⟩ := prepare_ok hp
  obtain ⟨f, -, hf⟩ := exists_collect hfates he
  rcases fate_migrated hm hf with rfl | rfl | ⟨k, rfl⟩
  · exact hf
  · exact absurd hf htaken
  · have hk := (mem_conflicts hp).mpr ⟨e, he, hf⟩
    rw [hconflicts] at hk
    cases hk

/-- **No row is merged or overwritten silently**: what a clean report promises of the rows. -/
structure NothingMerged (tools : RunnerTools) (run : MigrationRun) (source target : Content) (out : Executed) :
    Prop where
  /-- every migrated row that is not counted as skipped is under its storage key -/
  written : ∀ e ∈ source.rows.rows, ∀ m,
    run.decoder.migrateRecord (run.context e.1) e.2 = .ok (.migrated m) →
    run.fate tools target.rows e ≠ .ok .keyTaken →
    out.target.rows.get (storageKeyForMetadata tools m.metadataBytes e.1) = some m.metadataBytes
  /-- no two such rows are under one key -/
  apart : ∀ e ∈ source.rows.rows, ∀ e' ∈ source.rows.rows, ∀ m m',
    run.decoder.migrateRecord (run.context e.1) e.2 = .ok (.migrated m) →
    run.decoder.migrateRecord (run.context e'.1) e'.2 = .ok (.migrated m') →
    run.fate tools target.rows e ≠ .ok .keyTaken → run.fate tools target.rows e' ≠ .ok .keyTaken →
    storageKeyForMetadata tools m.metadataBytes e.1 = storageKeyForMetadata tools m'.metadataBytes e'.1 → e = e'
  /-- in place, the rows the step skipped are still there -/
  kept : run.inPlace = true → ∀ e ∈ source.rows.rows,
    run.decoder.migrateRecord (run.context e.1) e.2 = .ok .skip → out.target.rows.get e.1 = some e.2

/-- The rows of a run have keys of their own: no two staged rows share a storage key, and in place no staged row
takes the key of a row the step skipped (unless it has the same bytes). -/
structure KeysApart (tools : RunnerTools) (run : MigrationRun) (source target : Content) : Prop where
  staged : ∀ e ∈ source.rows.rows, ∀ e' ∈ source.rows.rows, ∀ r r',
    run.fate tools target.rows e = .ok (.staged r) → run.fate tools target.rows e' = .ok (.staged r') →
    r.storageKey = r'.storageKey → e = e'
  skipped : run.inPlace = true → ∀ e ∈ source.rows.rows, ∀ e' ∈ source.rows.rows, ∀ r,
    run.decoder.migrateRecord (run.context e.1) e.2 = .ok .skip →
    run.fate tools target.rows e' = .ok (.staged r) → r.storageKey = e.1 → r.metadataBytes = e.2

/-- A staged row is in the target after the batch, when the keys are apart. -/
theorem rewriteRows_staged {p : PreparedMigration} (hp : run.prepare tools source.rows.rows target.rows = .ok p)
    (happart : ∀ e ∈ source.rows.rows, ∀ e' ∈ source.rows.rows, ∀ r r',
      run.fate tools target.rows e = .ok (.staged r) → run.fate tools target.rows e' = .ok (.staged r') →
      r.storageKey = r'.storageKey → e = e')
    {e : String × Bytes} (he : e ∈ source.rows.rows) {r : StagedRecord}
    (hr : run.fate tools target.rows e = .ok (.staged r)) :
    (run.rewriteRows p.staged target.rows).get r.storageKey = some r.metadataBytes := by
  refine rewriteRows_of_agree ⟨r, (mem_staged hp).mpr ⟨e, he, hr⟩, rfl⟩ ?_
  intro r' hr' hkey
  obtain ⟨e', he', hf'⟩ := (mem_staged hp).mp hr'
  have heq := happart e he e' he' r r' hr hf' hkey.symm
  subst heq
  rw [hr] at hf'
  cases hf'
  rfl

/-- A row the step skipped is not touched by an in-place batch that leaves its key alone. -/
theorem rewriteRows_skipped {p : PreparedMigration} (hp : run.prepare tools source.rows.rows target.rows = .ok p)
    {e : String × Bytes} (he : e ∈ source.rows.rows)
    (hskip : run.decoder.migrateRecord (run.context e.1) e.2 = .ok .skip)
    (hfree : ∀ r ∈ p.staged, r.storageKey ≠ e.1) :
    (run.rewriteRows p.staged target.rows).get e.1 = target.rows.get e.1 := by
  refine rewriteRows_of_untouched hfree fun _ r hr hkey => ?_
  obtain ⟨e', he', hf'⟩ := (mem_staged hp).mp hr
  obtain ⟨m, hm, rfl⟩ := fate_staged hf'
  -- one key, one row: the staged row would be the skipped one
  have hsame : e'.2 = e.2 := by
    have h' := (source.rows.mem_rows_iff e'.1 e'.2).mp he'
    have h := (source.rows.mem_rows_iff e.1 e.2).mp he
    change e'.1 = e.1 at hkey
    rw [hkey, h] at h'
    exact (Option.some.inj h').symm
  change e'.1 = e.1 at hkey
  rw [hkey, hsame, hskip] at hm
  cases hm

/-- The run wrote the row: it was staged, and the batch was committed. -/
def Wrote (tools : RunnerTools) (run : MigrationRun) (source target : Content) (e : String × Bytes) : Prop :=
  (∃ r, run.fate tools target.rows e = .ok (.staged r)) ∧
    ∃ p, run.prepare tools source.rows.rows target.rows = .ok p ∧ p.isExecutable = true

theorem deleteSource_get {e : String × Bytes} (he : e ∈ source.rows.rows) :
    (deleteSource source.rows.rows source).rows.get e.1 = none := by
  change (source.rows.rows.foldl (fun t e => t.remove e.1) source.rows).get e.1 = none
  have hfold := @List.foldl_map (String × Bytes) String _ Prod.fst (fun (t : Table String Bytes) k => t.remove k)
    source.rows.rows source.rows
  rw [← hfold, Table.get_foldl_remove, if_pos (List.mem_map_of_mem he)]

end Executed

end CloveDb.Schema.MigrationRun
