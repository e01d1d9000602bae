/-
# CloveDb.Backup.BulkFailure — a bulk restore that fails

`restore_bulk` checks all noted versions against the table's chain before it writes anything. Then it
walks the entries: each round reads one record and commits one record of the restore, so a round that
cannot read its entry ends the call with the records of the rounds before it in place. The rows are put
back only after the last round.

A stored record may not decode; `damage` says with which error. Records written by the call itself
decode, so damage is looked up for what was stored when the call began.
-/
import CloveDb.Backup.Bulk

namespace CloveDb.Backup.BackedTable

open CloveDb.Lib CloveDb.Schema

variable (tools : TableTools)

/-! ## The call, with records that do not decode -/

/-- What of the damage concerns a table: the records it has. -/
def damageIn (t : BackedTable) (damage : String → Option ClError) (key : String) : Option ClError :=
  if (t.backups.records.get key).isSome then damage key else none

/-- The read of one round. -/
def readEntry (damage : String → Option ClError) (b : Backups) (entry : BulkEntry) :
    Result BackupRecord :=
  match b.find entry.key entry.version with
  | none => .error (.notFound ("backup record " ++ backupKey entry.key entry.version ++ " not found"))
  | some record =>
      match damage (backupKey entry.key entry.version) with
      | some e => .error e
      | none => .ok record

/-- The record of the restore that a round commits. -/
def restoreRecord (now : Clock) (bulkId : String) (entry : BulkEntry) (record : BackupRecord) :
    BackupRecord :=
  newRecord tools now .restoreBulk entry.key (restoredData record) (some entry.version) (some bulkId)

/-- The loop of `BackupManager::restore_bulk`. -/
def restoreEntries (damage : String → Option ClError) (now : Clock) (bulkId : String) :
    List BulkEntry → Prog BackedTable ClError (List (String × Option Bytes))
  | [] => Prog.ret []
  | entry :: rest => do
      let t ← Prog.read
      let record ← Prog.lift (readEntry damage t.backups entry)
      writeRecord (restoreRecord tools now bulkId entry record)
      let results ← restoreEntries damage now bulkId rest
      Prog.ret ((entry.key, restoredData record) :: results)

/-- `DatabaseManager::restore_bulk`. `tracked`: there is a chain for the table to check against. -/
def restoreBulkFrom (damage : String → Option ClError) (tracked : Bool) (now : Clock) (bulkId : String) :
    Prog BackedTable ClError Unit := do
  let t ← Prog.read
  match t.backups.bulks.get bulkId with
  | none => Prog.fail (.notFound ("bulk_id " ++ bulkId ++ " not found"))
  | some entries => do
      let _ ← Prog.lift (if tracked then collect (fun e => t.chain.assertRestorable e.version) entries
        else .ok [])
      let results ← restoreEntries tools (t.damageIn damage) now bulkId entries
      Prog.each results fun r => putBack tools r.1 r.2

/-! ## Where the loop stops -/

/-- The round that ends the loop because its entry cannot be read, when there is one: the rounds before
it read their entries and commit their records. -/
def stopsReading (damage : String → Option ClError) (now : Clock) (bulkId : String) :
    Backups → List BulkEntry → Option Nat
  | _, [] => none
  | b, entry :: rest =>
      match readEntry damage b entry with
      | .error _ => some 0
      | .ok record =>
          match b.write (restoreRecord tools now bulkId entry record) with
          | .error _ => none
          | .ok b => (stopsReading damage now bulkId b rest).map (· + 1)

section Stops

variable {tools} {damage : String → Option ClError} {now : Clock} {bulkId : String} {entry : BulkEntry}
  {rest : List BulkEntry} {record : BackupRecord} {t : BackedTable}

theorem restoreEntries_cons (t : BackedTable) :
    restoreEntries tools damage now bulkId (entry :: rest) t =
      (Prog.lift (readEntry damage t.backups entry) >>= fun record =>
        writeRecord (restoreRecord tools now bulkId entry record) >>= fun _ =>
          restoreEntries tools damage now bulkId rest >>= fun results =>
            Prog.ret ((entry.key, restoredData record) :: results)) t := rfl

theorem restoreEntries_unread {e : ClError} (h : readEntry damage t.backups entry = .error e) :
    restoreEntries tools damage now bulkId (entry :: rest) t = ⟨[], t, .error e⟩ := by
  rw [restoreEntries_cons, h]
  rfl

/-- A round that is over. -/
theorem restoreEntries_next {b : Backups} (h : readEntry damage t.backups entry = .ok record)
    (hwrite : t.backups.write (restoreRecord tools now bulkId entry record) = .ok b) :
    (restoreEntries tools damage now bulkId (entry :: rest) t).final =
        (restoreEntries tools damage now bulkId rest { t with backups := b }).final ∧
      (restoreEntries tools damage now bulkId (entry :: rest) t).result =
        (restoreEntries tools damage now bulkId rest { t with backups := b }).result.map
          fun results => (entry.key, restoredData record) :: results := by
  rw [restoreEntries_cons, h]
  have hrun : (Prog.lift (.ok record) >>= fun record =>
      writeRecord (restoreRecord tools now bulkId entry record) >>= fun _ =>
        restoreEntries tools damage now bulkId rest >>= fun results =>
          Prog.ret ((entry.key, restoredData record) :: results) : Prog BackedTable ClError _) t =
      (writeRecord (restoreRecord tools now bulkId entry record) >>= fun _ =>
        restoreEntries tools damage now bulkId rest >>= fun results =>
          Prog.ret ((entry.key, restoredData record) :: results)) t := rfl
  rw [hrun, Prog.bind_of_ok (congrArg Outcome.result (writeRecord_written hwrite)),
    writeRecord_written hwrite]
  dsimp only
  cases hrest : (restoreEntries tools damage now bulkId rest { t with backups := b }).result with
  | error e =>
      rw [Prog.bind_of_error hrest]
      exact ⟨rfl, rfl⟩
  | ok results =>
      rw [Prog.bind_of_ok hrest]
      exact ⟨rfl, rfl⟩

/-- The loop changes no row, and no key loses a version. -/
theorem restoreEntries_keeps (entries : List BulkEntry) (t : BackedTable) :
    (restoreEntries tools damage now bulkId entries t).final.rows = t.rows ∧
      ∀ key, t.backups.currentVersion key ≤
        (restoreEntries tools damage now bulkId entries t).final.backups.currentVersion key := by
  induction entries generalizing t with
  | nil => exact ⟨rfl, fun _ => le_rfl⟩
  | cons entry rest ih =>
      cases hread : readEntry damage t.backups entry with
      | error e =>
          rw [restoreEntries_unread hread]
          exact ⟨rfl, fun _ => le_rfl⟩
      | ok record =>
          cases hwrite : t.backups.write (restoreRecord tools now bulkId entry record) with
          | error e =>
              have hfull : restoreEntries tools damage now bulkId (entry :: rest) t = ⟨[], t, .error e⟩ := by
                rw [restoreEntries_cons, hread]
                change (writeRecord (restoreRecord tools now bulkId entry record) >>= _) t = _
                rw [Prog.bind_of_error (congrArg Outcome.result (writeRecord_refused hwrite)),
                  writeRecord_refused hwrite]
              rw [hfull]
              exact ⟨rfl, fun _ => le_rfl⟩
          | ok b =>
              obtain ⟨hrows, hversions⟩ := ih { t with backups := b }
              rw [(restoreEntries_next hread hwrite).1]
              refine ⟨hrows, fun key => le_trans ?_ (hversions key)⟩
              change t.backups.currentVersion key ≤ b.currentVersion key
              rw [Backups.currentVersion_write hwrite]
              split <;> omega

/-- A loop that stops at its first entry did nothing; one that stops later left a version. -/
theorem restoreEntries_stops {entries : List BulkEntry} {k : Nat}
    (h : stopsReading tools damage now bulkId t.backups entries = some k) :
    (∃ e, (restoreEntries tools damage now bulkId entries t).result = .error e) ∧
      (k = 0 → (restoreEntries tools damage now bulkId entries t).final = t) ∧
      (k ≠ 0 → ∃ key, t.backups.currentVersion key <
        (restoreEntries tools damage now bulkId entries t).final.backups.currentVersion key) := by
  induction entries generalizing t k with
  | nil => cases h
  | cons entry rest ih =>
      rw [stopsReading] at h
      cases hread : readEntry damage t.backups entry with
      | error e =>
          rw [hread] at h
          cases h
          rw [restoreEntries_unread hread]
          exact ⟨⟨e, rfl⟩, fun _ => rfl, fun hk => absurd rfl hk⟩
      | ok record =>
          rw [hread] at h
          dsimp only at h
          cases hwrite : t.backups.write (restoreRecord tools now bulkId entry record) with
          | error e =>
              rw [hwrite] at h
              cases h
          | ok b =>
              rw [hwrite] at h
              obtain ⟨j, hj, rfl⟩ := Option.map_eq_some_iff.mp h
              obtain ⟨hfinal, hresult⟩ : (restoreEntries tools damage now bulkId (entry :: rest) t).final = _ ∧
                _ := restoreEntries_next hread hwrite
              obtain ⟨⟨e, he⟩, -, -⟩ := ih (t := { t with backups := b }) hj
              rw [hfinal, hresult, he]
              refine ⟨⟨e, rfl⟩, nofun, fun _ => ⟨entry.key, ?_⟩⟩
              have hlater : b.currentVersion entry.key ≤
                  (restoreEntries tools damage now bulkId rest
                    { t with backups := b }).final.backups.currentVersion entry.key :=
                (restoreEntries_keeps rest { t with backups := b }).2 entry.key
              have hnext := Backups.currentVersion_write hwrite entry.key
              rw [if_pos (show entry.key = (restoreRecord tools now bulkId entry record).key from rfl)]
                at hnext
              omega

end Stops

/-! ## What a failed call leaves -/

section Failed

variable {tools} {damage : String → Option ClError} {tracked : Bool} {now : Clock} {bulkId : String}
  {entries : List BulkEntry} {t : BackedTable}

/-- Every noted version can be restored under the table's chain, or there is none to check against. -/
def AllRestorable (tracked : Bool) (t : BackedTable) (entries : List BulkEntry) : Prop :=
  tracked = true → ∀ entry ∈ entries, t.chain.isRestorable entry.version = true

/-- An entry ends the call: its version is not restorable, or it is missing or does not decode. -/
def EntryFails (tools : TableTools) (damage : String → Option ClError) (tracked : Bool) (now : Clock)
    (bulkId : String) (t : BackedTable) (entries : List BulkEntry) : Prop :=
  ¬ AllRestorable tracked t entries ∨
    ∃ k, stopsReading tools (t.damageIn damage) now bulkId t.backups entries = some k

/-- The table has the rows and the history it had. -/
def SameAs (t t' : BackedTable) : Prop :=
  t'.rows = t.rows ∧ t'.backups.records = t.backups.records ∧ t'.backups.versions = t.backups.versions

/-- The checks before the loop. -/
theorem check_ok_iff :
    (∃ l, (if tracked then collect (fun e : BulkEntry => t.chain.assertRestorable e.version) entries
      else .ok [] : Result (List Unit)) = .ok l) ↔ AllRestorable tracked t entries := by
  cases tracked with
  | false => exact ⟨fun _ => nofun, fun _ => ⟨[], rfl⟩⟩
  | true =>
      have hmap : (entries.map fun e => (e, (none : Option Bytes))).map Prod.fst = entries := by
        rw [List.map_map, show (Prod.fst ∘ fun e : BulkEntry => (e, (none : Option Bytes))) = id from rfl,
          List.map_id]
      rw [if_pos rfl, ← hmap, collect_restorable_iff, hmap]
      constructor
      · intro h _ entry hentry
        exact h _ (List.mem_map_of_mem hentry)
      · intro h p hp
        obtain ⟨entry, hentry, rfl⟩ := List.mem_map.mp hp
        exact h rfl entry hentry

theorem restoreBulkFrom_eq (hbulk : t.backups.bulks.get bulkId = some entries) :
    restoreBulkFrom tools damage tracked now bulkId t =
      (Prog.lift (if tracked then collect (fun e : BulkEntry => t.chain.assertRestorable e.version) entries
        else .ok []) >>= fun _ => restoreEntries tools (t.damageIn damage) now bulkId entries >>=
          fun results => Prog.each results fun r => putBack tools r.1 r.2) t := by
  change (match t.backups.bulks.get bulkId with
    | none => Prog.fail _
    | some entries => _ : Prog BackedTable ClError Unit) t = _
  rw [hbulk]

/-- **A bulk restore that fails at an entry changes nothing just if it failed before its first record.**
Either some version is not restorable, which is checked for all entries first, or the first entry
cannot be read. In every other case the records of the rounds before are in the history. -/
theorem failed_restore_unchanged_iff (hbulk : t.backups.bulks.get bulkId = some entries)
    (hfail : EntryFails tools damage tracked now bulkId t entries) :
    (∃ e, (restoreBulkFrom tools damage tracked now bulkId t).result = .error e) ∧
      (SameAs t (restoreBulkFrom tools damage tracked now bulkId t).final ↔
        ¬ AllRestorable tracked t entries ∨
          stopsReading tools (t.damageIn damage) now bulkId t.backups entries = some 0) := by
  rw [restoreBulkFrom_eq hbulk]
  by_cases hall : AllRestorable tracked t entries
  · obtain ⟨l, hl⟩ := check_ok_iff.mpr hall
    obtain ⟨k, hk⟩ := hfail.resolve_left (not_not.mpr hall)
    obtain ⟨⟨e, he⟩, hzero, hlater⟩ := restoreEntries_stops hk
    rw [hl]
    change (∃ e, ((restoreEntries tools (t.damageIn damage) now bulkId entries >>= _) t).result = .error e) ∧
      (SameAs t ((restoreEntries tools (t.damageIn damage) now bulkId entries >>= _) t).final ↔ _)
    rw [Prog.bind_of_error he]
    refine ⟨⟨e, rfl⟩, ?_⟩
    rw [hk, Option.some.injEq, or_iff_right (not_not.mpr hall)]
    constructor
    · rintro ⟨-, -, hversions⟩
      by_contra hne
      obtain ⟨key, hkey⟩ := hlater hne
      rw [Backups.currentVersion, Backups.currentVersion, hversions] at hkey
      exact lt_irrefl _ hkey
    · intro hk0
      dsimp only
      rw [hzero hk0]
      exact ⟨rfl, rfl, rfl⟩
  · cases hcheck : (if tracked then collect (fun e : BulkEntry => t.chain.assertRestorable e.version)
      entries else .ok [] : Result (List Unit)) with
    | ok l => exact absurd (check_ok_iff.mp ⟨l, hcheck⟩) hall
    | error e => exact ⟨⟨e, rfl⟩, fun _ => Or.inl hall, fun _ => ⟨rfl, rfl, rfl⟩⟩

end Failed

/-! ## Small bulks -/

/-- A bulk of the row `a` at its version and of a key without versions. -/
def bulkOfTwo : BackedTable := (setBulk "b" [⟨"a", 1⟩, ⟨"n", 1⟩] rowA).final

/-- The restore fails at the second entry and leaves a record of the first. -/
theorem failed_restore_leaves_record :
    (restoreBulkFrom plainTools (fun _ => none) true ⟨3, "3"⟩ "b" bulkOfTwo).result =
        .error (.notFound "backup record n:1 not found") ∧
      bulkOfTwo.backups.currentVersion "a" = 1 ∧
      (restoreBulkFrom plainTools (fun _ => none) true ⟨3, "3"⟩ "b"
        bulkOfTwo).final.backups.currentVersion "a" = 2 := by
  refine ⟨?_, ?_, ?_⟩ <;> decide

/-- A record that does not decode ends the call at its first entry. -/
theorem failed_restore_unchanged_first :
    SameAs bulkOfTwo (restoreBulkFrom plainTools (fun _ => some .serialization) true ⟨3, "3"⟩ "b"
      bulkOfTwo).final := by
  have hbulk : bulkOfTwo.backups.bulks.get "b" = some [⟨"a", 1⟩, ⟨"n", 1⟩] := by decide
  have hstop : stopsReading plainTools (bulkOfTwo.damageIn fun _ => some .serialization) ⟨3, "3"⟩ "b"
      bulkOfTwo.backups [⟨"a", 1⟩, ⟨"n", 1⟩] = some 0 := by decide
  exact (failed_restore_unchanged_iff hbulk (Or.inr ⟨0, hstop⟩)).2.mpr (Or.inr hstop)

end CloveDb.Backup.BackedTable
