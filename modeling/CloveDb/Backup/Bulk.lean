/-
# CloveDb.Backup.Bulk — undoing a bulk update

`update_bulk` notes the current version of each id just before it writes the row; `restore_bulk` reads the noted
versions back and puts the rows back in the order of the update. What is put back for an entry is therefore the row as
it was just before that entry's update. This undoes the call unless an id had no version yet, a noted version belongs
to another schema, an id repeats with another value in between, or a step on the way back is refused.
-/
import CloveDb.Backup.Operations

namespace CloveDb.Backup.BackedTable

open CloveDb.Lib CloveDb.Schema

variable (tools : TableTools)

/-- The loop of `update_bulk`. -/
def updateRows (now : Clock) : List (String × Bytes) → Prog BackedTable ClError (List BulkEntry)
  | [] => Prog.ret []
  | (id, value) :: rest => do
      let t ← Prog.read
      set tools now id value
      let entries ← updateRows now rest
      Prog.ret (⟨id, t.backups.currentVersion id⟩ :: entries)

/-- `update_bulk`, with the id its bulk draws. -/
def updateBulk (now : Clock) (bulkId : String) (inputs : List (String × Bytes)) : Prog BackedTable ClError Unit := do
  let entries ← updateRows tools now inputs
  setBulk bulkId entries

/-! ## What the calls do when they return -/

section Returned

variable {tools} {t : BackedTable}

theorem applyChanges_admitted (change : Table String Bytes → Table String Bytes)
    (h : tools.admits (change t.rows) = .ok ()) :
    applyChanges tools change t =
      ⟨[{ t with rows := change t.rows }], { t with rows := change t.rows }, .ok ()⟩ := by
  rw [applyChanges, Prog.read_bind, h]
  rfl

theorem applyChanges_refused (change : Table String Bytes → Table String Bytes) {e : ClError}
    (h : tools.admits (change t.rows) = .error e) : applyChanges tools change t = ⟨[], t, .error e⟩ := by
  rw [applyChanges, Prog.read_bind, h]
  rfl

/-- A transaction on the rows returns exactly when it is admitted. -/
theorem applyChanges_result {change : Table String Bytes → Table String Bytes} :
    (applyChanges tools change t).result = .ok () ↔ tools.admits (change t.rows) = .ok () := by
  cases h : tools.admits (change t.rows) with
  | ok u => simp [applyChanges_admitted change h]
  | error e => simp [applyChanges_refused change h]

theorem writeRecord_written {record : BackupRecord} {b : Backups} (h : t.backups.write record = .ok b) :
    writeRecord record t = ⟨[{ t with backups := b }], { t with backups := b }, .ok ()⟩ := by
  rw [writeRecord, Prog.read_bind, h]
  rfl

theorem writeRecord_refused {record : BackupRecord} {e : ClError} (h : t.backups.write record = .error e) :
    writeRecord record t = ⟨[], t, .error e⟩ := by
  rw [writeRecord, Prog.read_bind, h]
  rfl

theorem writeRecord_result {record : BackupRecord} :
    (writeRecord record t).result = .ok () ↔ ∃ b, t.backups.write record = .ok b := by
  cases h : t.backups.write record with
  | ok b => simp [writeRecord_written h]
  | error e => simp [writeRecord_refused h]

/-- A `set` that returned: the row is written, and the next version of its key has its value. -/
theorem set_ok {now : Clock} {key : String} {value : Bytes} (h : (set tools now key value t).result = .ok ()) :
    ∃ b, t.backups.write (newRecord tools now .set key (some value) none none) = .ok b ∧
      (set tools now key value t).final = ⟨t.rows.insert key value, b, t.chain⟩ := by
  obtain ⟨_, hrow, hrecord, hfinal⟩ := Prog.bind_result_ok h
  have hrun := applyChanges_admitted _ (applyChanges_result.mp hrow)
  rw [hrun] at hrecord hfinal
  obtain ⟨b, hwrite⟩ := writeRecord_result.mp hrecord
  refine ⟨b, hwrite, hfinal.trans ?_⟩
  rw [recordSet, writeRecord_written hwrite]

/-- A `delete` that returned: the row is gone, and if there was one the next version says so. -/
theorem delete_ok {now : Clock} {key : String} {found : Bool} (h : (delete tools now key t).result = .ok found) :
    ((t.rows.get key).isSome = true ∧ ∃ b, t.backups.write (newRecord tools now .delete key none none none) = .ok b ∧
        (delete tools now key t).final = ⟨t.rows.remove key, b, t.chain⟩) ∨
      (t.rows.get key = none ∧ (delete tools now key t).final = { t with rows := t.rows.remove key }) := by
  have hread : delete tools now key t =
      (applyChanges tools (·.remove key) >>= fun _ =>
        if (t.rows.get key).isSome then recordDelete tools now key >>= fun _ => Prog.ret true else Prog.ret false) t := rfl
  rw [hread] at h ⊢
  by_cases hsome : (t.rows.get key).isSome = true
  · simp only [if_pos hsome] at h ⊢
    obtain ⟨_, hrow, hrecord, hfinal⟩ := Prog.bind_result_ok h
    rw [applyChanges_admitted _ (applyChanges_result.mp hrow)] at hrecord hfinal
    obtain ⟨_, hwrite, -, hlast⟩ := Prog.bind_result_ok hrecord
    obtain ⟨b, hwrite⟩ := writeRecord_result.mp hwrite
    refine Or.inl ⟨hsome, b, hwrite, hfinal.trans (hlast.trans ?_)⟩
    rw [recordDelete, writeRecord_written hwrite]
    rfl
  · simp only [if_neg hsome] at h ⊢
    obtain ⟨_, hrow, -, hfinal⟩ := Prog.bind_result_ok h
    rw [applyChanges_admitted _ (applyChanges_result.mp hrow)] at hfinal
    exact Or.inr ⟨by simpa using hsome, hfinal⟩

end Returned

/-! ## Tables whose history tells their rows -/

/-- The last version of each key describes its row; a key without versions has no row. -/
def Faithful (t : BackedTable) : Prop :=
  ∀ key, t.rows.get key = (t.backups.find key (t.backups.currentVersion key)).bind restoredData

/-- The tables that `set` and `delete` make of an empty one. -/
inductive Reached (chain : TableMigrationChain) : BackedTable → Prop
  | start : Reached chain ⟨.empty, .empty, chain⟩
  | set {t : BackedTable} (now : Clock) (key : String) (value : Bytes) (ht : Reached chain t)
      (h : (set tools now key value t).result = .ok ()) : Reached chain (set tools now key value t).final
  | delete {t : BackedTable} (now : Clock) (key : String) (found : Bool) (ht : Reached chain t)
      (h : (delete tools now key t).result = .ok found) : Reached chain (delete tools now key t).final

section Faithful

variable {tools} {t : BackedTable}

/-- A record and its row, written together. -/
theorem Faithful.write {record : BackupRecord} {b : Backups} {rows : Table String Bytes} (ht : Faithful t)
    (hwrite : t.backups.write record = .ok b) (hrow : rows.get record.key = restoredData record)
    (hothers : ∀ key, key ≠ record.key → rows.get key = t.rows.get key) : Faithful ⟨rows, b, t.chain⟩ := by
  intro key
  change rows.get key = (b.find key (b.currentVersion key)).bind restoredData
  by_cases hkey : key = record.key
  · subst hkey
    rw [Backups.find_write hwrite, hrow]
    rfl
  · rw [Backups.currentVersion_write hwrite, if_neg hkey, Backups.find_write_ne hwrite fun h => absurd h hkey,
      hothers key hkey]
    exact ht key

theorem set_faithful {now : Clock} {key : String} {value : Bytes} {b : Backups} (ht : Faithful t)
    (hwrite : t.backups.write (newRecord tools now .set key (some value) none none) = .ok b) :
    Faithful ⟨t.rows.insert key value, b, t.chain⟩ :=
  ht.write hwrite (Table.get_insert_self _ _ _) fun _ hkey => Table.get_insert_ne _ _ hkey

/-- In a reached table the history is consistent and tells the rows. -/
theorem Reached.sound {chain : TableMigrationChain} (h : Reached tools chain t) :
    t.backups.Consistent ∧ Faithful t ∧ t.chain = chain := by
  induction h with
  | start => exact ⟨Backups.consistent_empty, fun _ => rfl, rfl⟩
  | set now key value _ hok ih =>
      obtain ⟨b, hwrite, hfinal⟩ := set_ok hok
      rw [hfinal]
      exact ⟨ih.1.write hwrite, set_faithful ih.2.1 hwrite, ih.2.2⟩
  | delete now key found _ hok ih =>
      rcases delete_ok hok with ⟨-, b, hwrite, hfinal⟩ | ⟨hnone, hfinal⟩
      · rw [hfinal]
        refine ⟨ih.1.write hwrite, ih.2.1.write hwrite ?_ fun k hk => Table.get_remove_ne _ hk, ih.2.2⟩
        exact Table.get_remove_self _ _
      · rw [hfinal]
        refine ⟨ih.1, fun k => ?_, ih.2.2⟩
        change (Table.remove _ key).get k = _
        rw [Table.get_remove]
        split
        · rename_i hk
          rw [← ih.2.1 k, hk, hnone]
        · exact ih.2.1 k

end Faithful

/-! ## The plan of an undo -/

/-- For each input the version that is noted, and the row as it is before the write. -/
def undoPlan : Table String Bytes → (String → Nat) → List (String × Bytes) → List (BulkEntry × Option Bytes)
  | _, _, [] => []
  | rows, version, (id, value) :: rest =>
      (⟨id, version id⟩, rows.get id) ::
        undoPlan (rows.insert id value) (fun key => if key = id then version key + 1 else version key) rest

/-- The rows after the inputs. -/
def updated (inputs : List (String × Bytes)) (rows : Table String Bytes) : Table String Bytes :=
  inputs.foldl (fun rows e => rows.insert e.1 e.2) rows

/-- How often an id is among the inputs. -/
def times (id : String) (inputs : List (String × Bytes)) : Nat := inputs.countP fun e => e.1 = id

section Update

variable {tools} {t : BackedTable} {now : Clock}

/-- What a bulk update leaves: the new rows, the entries of the plan, and under each noted version the row as it was. -/
structure Updated (t t' : BackedTable) (inputs : List (String × Bytes)) : Prop where
  rows : t'.rows = updated inputs t.rows
  chain : t'.chain = t.chain
  consistent : t'.backups.Consistent
  current : ∀ key, t'.backups.currentVersion key = t.backups.currentVersion key + times key inputs
  stays : ∀ key version r, t.backups.find key version = some r → t'.backups.find key version = some r
  saved : ∀ p ∈ undoPlan t.rows t.backups.currentVersion inputs, 0 < p.1.version →
    (t'.backups.find p.1.key p.1.version).map restoredData = some p.2

theorem updateRows_ok {inputs : List (String × Bytes)} {entries : List BulkEntry} (hb : t.backups.Consistent)
    (hf : Faithful t) (h : (updateRows tools now inputs t).result = .ok entries) :
    entries = (undoPlan t.rows t.backups.currentVersion inputs).map Prod.fst ∧
      Updated t (updateRows tools now inputs t).final inputs := by
  induction inputs generalizing t entries with
  | nil =>
      cases h
      exact ⟨rfl, rfl, rfl, hb, fun _ => rfl, fun _ _ _ hr => hr, fun _ => nofun⟩
  | cons input rest ih =>
      obtain ⟨id, value⟩ := input
      have hread : updateRows tools now ((id, value) :: rest) t =
          (set tools now id value >>= fun _ => updateRows tools now rest >>= fun entries =>
            Prog.ret (⟨id, t.backups.currentVersion id⟩ :: entries)) t := rfl
      rw [hread] at h ⊢
      obtain ⟨_, hset, hrest, hfinal⟩ := Prog.bind_result_ok h
      obtain ⟨b, hwrite, hmid⟩ := set_ok hset
      rw [hmid] at hrest hfinal
      obtain ⟨later, hlater, hret, hlast⟩ := Prog.bind_result_ok hrest
      cases hret
      obtain ⟨rfl, hup⟩ := ih (hb.write hwrite) (set_faithful hf hwrite) hlater
      have hversion : b.currentVersion =
          fun key => if key = id then t.backups.currentVersion key + 1 else t.backups.currentVersion key :=
        funext fun key => Backups.currentVersion_write hwrite key
      have hstays : ∀ key version r, t.backups.find key version = some r →
          (updateRows tools now rest ⟨t.rows.insert id value, b, t.chain⟩).final.backups.find key version = some r :=
        fun key version r hr => hup.stays key version r (Backups.find_write_of_some hwrite hr)
      rw [hfinal, hlast]
      refine ⟨?_, hup.rows, hup.chain, hup.consistent, fun key => ?_, hstays, fun p hp hpos => ?_⟩
      · rw [undoPlan, ← hversion]
        rfl
      · refine (hup.current key).trans ?_
        change b.currentVersion key + times key rest = _
        rw [hversion, times, times, List.countP_cons]
        by_cases hkey : key = id
        · subst hkey
          simp
          omega
        · simp [hkey, Ne.symm hkey]
      · rw [undoPlan, ← hversion] at hp
        rcases List.mem_cons.mp hp with rfl | hp
        · -- the row before the write is what the last version tells
          obtain ⟨r, hr⟩ := hb.exists_find_iff.mpr ⟨hpos, Nat.le_refl _⟩
          have hrow := hf id
          rw [hr] at hrow
          have hlater := hstays _ _ _ hr
          dsimp only [Prog.ret] at hlater ⊢
          rw [hlater, hrow]
          rfl
        · exact hup.saved p hp hpos

end Update

/-! ## Putting the rows back -/

/-- A row as an entry has it. -/
def putRow (rows : Table String Bytes) (r : String × Option Bytes) : Table String Bytes :=
  match r.2 with
  | some data => rows.insert r.1 data
  | none => rows.remove r.1

/-- Every table on the way is admitted. -/
def StepsAdmitted (rows : Table String Bytes) : List (String × Option Bytes) → Prop
  | [] => True
  | r :: rest => tools.admits (putRow rows r) = .ok () ∧ StepsAdmitted (putRow rows r) rest

/-- What a plan puts back. -/
def putBacks (plan : List (BulkEntry × Option Bytes)) : List (String × Option Bytes) :=
  plan.map fun p => (p.1.key, p.2)

/-- How often an id is among the entries. -/
def timesIn (id : String) (plan : List (BulkEntry × Option Bytes)) : Nat := plan.countP fun p => p.1.key = id

section Restore

variable {tools} {t : BackedTable} {now : Clock} {bulkId : String}

theorem get_putRow (rows : Table String Bytes) (r : String × Option Bytes) (key : String) :
    (putRow rows r).get key = if key = r.1 then r.2 else rows.get key := by
  obtain ⟨id, data⟩ := r
  cases data with
  | none => exact Table.get_remove rows id key
  | some data => exact Table.get_insert rows id key data

theorem putBack_eq (r : String × Option Bytes) : putBack tools r.1 r.2 = applyChanges tools (putRow · r) := by
  obtain ⟨id, data⟩ := r
  cases data with
  | none => rfl
  | some data => rfl

/-- The rows go back one by one, as long as each step is admitted. -/
theorem putBacks_run (results : List (String × Option Bytes)) (t : BackedTable) :
    ((Prog.each results fun r => putBack tools r.1 r.2) t).result = .ok () ↔ StepsAdmitted tools t.rows results := by
  induction results generalizing t with
  | nil => exact ⟨fun _ => trivial, fun _ => rfl⟩
  | cons r rest ih =>
      rw [Prog.each, putBack_eq, StepsAdmitted]
      cases hadmits : tools.admits (putRow t.rows r) with
      | error e =>
          have hfail := congrArg Outcome.result (applyChanges_refused (putRow · r) hadmits)
          rw [Prog.bind_of_error hfail]
          simp
      | ok u =>
          have hrun := applyChanges_admitted (putRow · r) hadmits
          rw [Prog.bind_of_ok (congrArg Outcome.result hrun), hrun]
          simpa using ih { t with rows := putRow t.rows r }

theorem putBacks_final {results : List (String × Option Bytes)} {t : BackedTable}
    (h : StepsAdmitted tools t.rows results) :
    ((Prog.each results fun r => putBack tools r.1 r.2) t).final.rows = results.foldl putRow t.rows := by
  induction results generalizing t with
  | nil => rfl
  | cons r rest ih =>
      obtain ⟨hadmits, hrest⟩ := h
      have hrun := applyChanges_admitted (putRow · r) hadmits
      rw [Prog.each, putBack_eq, Prog.bind_of_ok (congrArg Outcome.result hrun), hrun]
      exact ih (t := { t with rows := putRow t.rows r }) hrest

/-- There is a record under each noted version, and a number left for each record of the restore. -/
structure Readable (t : BackedTable) (plan : List (BulkEntry × Option Bytes)) : Prop where
  saved : ∀ p ∈ plan, 0 < p.1.version
  room : ∀ id, 0 < timesIn id plan → t.backups.currentVersion id + timesIn id plan < 2 ^ 64

section Rounds

variable {entry : BulkEntry} {rest : List BulkEntry} {record : BackupRecord}

/-- The program of one round, by the record it finds. -/
theorem restoreRecords_cons (t : BackedTable) :
    restoreRecords tools now bulkId (entry :: rest) t =
      (match t.backups.find entry.key entry.version with
        | none => Prog.fail (.notFound ("backup record " ++ backupKey entry.key entry.version ++ " not found"))
        | some record =>
            writeRecord (newRecord tools now .restoreBulk entry.key (restoredData record) (some entry.version)
              (some bulkId)) >>= fun _ => restoreRecords tools now bulkId rest >>= fun results =>
                Prog.ret ((entry.key, restoredData record) :: results) : Prog BackedTable ClError _) t := rfl

theorem restoreRecords_missing (hfind : t.backups.find entry.key entry.version = none) :
    restoreRecords tools now bulkId (entry :: rest) t =
      ⟨[], t, .error (.notFound ("backup record " ++ backupKey entry.key entry.version ++ " not found"))⟩ := by
  rw [restoreRecords_cons, hfind]
  rfl

theorem restoreRecords_full {e : ClError} (hfind : t.backups.find entry.key entry.version = some record)
    (hwrite : t.backups.write (newRecord tools now .restoreBulk entry.key (restoredData record) (some entry.version)
      (some bulkId)) = .error e) :
    restoreRecords tools now bulkId (entry :: rest) t = ⟨[], t, .error e⟩ := by
  rw [restoreRecords_cons, hfind]
  dsimp only
  rw [Prog.bind_of_error (congrArg Outcome.result (writeRecord_refused hwrite)), writeRecord_refused hwrite]

theorem restoreRecords_next {b : Backups} (hfind : t.backups.find entry.key entry.version = some record)
    (hwrite : t.backups.write (newRecord tools now .restoreBulk entry.key (restoredData record) (some entry.version)
      (some bulkId)) = .ok b) :
    (restoreRecords tools now bulkId (entry :: rest) t).final =
        (restoreRecords tools now bulkId rest { t with backups := b }).final ∧
      (restoreRecords tools now bulkId (entry :: rest) t).result =
        (restoreRecords tools now bulkId rest { t with backups := b }).result.map
          fun results => (entry.key, restoredData record) :: results := by
  rw [restoreRecords_cons, hfind]
  dsimp only
  rw [Prog.bind_of_ok (congrArg Outcome.result (writeRecord_written hwrite)), writeRecord_written hwrite]
  cases hrest : (restoreRecords tools now bulkId rest { t with backups := b }).result with
  | error e =>
      dsimp only
      rw [Prog.bind_of_error hrest]
      exact ⟨rfl, rfl⟩
  | ok results =>
      dsimp only
      rw [Prog.bind_of_ok hrest]
      exact ⟨rfl, rfl⟩

end Rounds

theorem timesIn_cons (id version) (data : Option Bytes) (plan : List (BulkEntry × Option Bytes)) (key : String) :
    timesIn key ((⟨id, version⟩, data) :: plan) = timesIn key plan + if id = key then 1 else 0 := by
  simp [timesIn, List.countP_cons]

/-- A record of the restore takes one number from its key. -/
theorem readable_cons_iff {b : Backups} {record : BackupRecord} {version : Nat} {data : Option Bytes}
    {plan : List (BulkEntry × Option Bytes)} (hpos : 0 < version) (hwrite : t.backups.write record = .ok b)
    (hroom : t.backups.currentVersion record.key + 1 < 2 ^ 64) :
    Readable t ((⟨record.key, version⟩, data) :: plan) ↔ Readable { t with backups := b } plan := by
  have hcurrent : ∀ key, b.currentVersion key = t.backups.currentVersion key + if record.key = key then 1 else 0 := by
    intro key
    rw [Backups.currentVersion_write hwrite]
    by_cases hkey : record.key = key
    · simp [hkey]
    · simp [hkey, Ne.symm hkey]
  constructor
  · intro h
    refine ⟨fun p hp => h.saved p (List.mem_cons_of_mem _ hp), fun key hkey => ?_⟩
    have hkeyed := h.room key (by rw [timesIn_cons]; omega)
    rw [timesIn_cons] at hkeyed
    change b.currentVersion key + _ < _
    rw [hcurrent]
    omega
  · intro h
    refine ⟨fun p hp => ?_, fun key hkey => ?_⟩
    · rcases List.mem_cons.mp hp with rfl | hp
      · exact hpos
      · exact h.saved p hp
    · rw [timesIn_cons]
      by_cases hlater : 0 < timesIn key plan
      · have hkeyed := h.room key hlater
        change b.currentVersion key + _ < _ at hkeyed
        rw [hcurrent] at hkeyed
        omega
      · rw [timesIn_cons] at hkey
        split at hkey
        · rename_i hrecord
          subst hrecord
          rw [if_pos rfl]
          omega
        · omega

/-- The loop over the noted versions returns what the plan puts back, exactly when they can be read; it changes no
row. -/
theorem restoreRecords_run {plan : List (BulkEntry × Option Bytes)} (hb : t.backups.Consistent)
    (hsaved : ∀ p ∈ plan, 0 < p.1.version → (t.backups.find p.1.key p.1.version).map restoredData = some p.2) :
    (restoreRecords tools now bulkId (plan.map Prod.fst) t).final.rows = t.rows ∧
      (∀ results, (restoreRecords tools now bulkId (plan.map Prod.fst) t).result = .ok results →
        results = putBacks plan) ∧
      ((∃ results, (restoreRecords tools now bulkId (plan.map Prod.fst) t).result = .ok results) ↔ Readable t plan) := by
  induction plan generalizing t with
  | nil =>
      refine ⟨rfl, fun results h => ?_, fun _ => ⟨fun _ => nofun, fun id h => ?_⟩, fun _ => ⟨[], rfl⟩⟩
      · cases h
        rfl
      · cases h
  | cons p plan ih =>
      obtain ⟨⟨id, version⟩, data⟩ := p
      rw [List.map_cons]
      cases hfind : t.backups.find id version with
      | none =>
          -- there is no such version: it was noted as zero
          rw [restoreRecords_missing hfind]
          refine ⟨rfl, fun _ => nofun, fun h => ?_, fun hreadable => ?_⟩
          · obtain ⟨_, h⟩ := h
            cases h
          · have h := hsaved _ List.mem_cons_self (hreadable.saved _ List.mem_cons_self)
            rw [hfind] at h
            cases h
      | some record =>
          have hpos : 0 < version := (hb.exists_find_iff.mp ⟨record, hfind⟩).1
          have hdata : restoredData record = data := by
            have h := hsaved _ List.mem_cons_self hpos
            rw [hfind] at h
            exact Option.some.inj h
          have hroom := hb.exists_write_iff
            (newRecord tools now .restoreBulk id (restoredData record) (some version) (some bulkId))
          cases hwrite : t.backups.write
              (newRecord tools now .restoreBulk id (restoredData record) (some version) (some bulkId)) with
          | error e =>
              rw [restoreRecords_full hfind hwrite]
              refine ⟨rfl, fun _ => nofun, fun h => ?_, fun hreadable => ?_⟩
              · obtain ⟨_, h⟩ := h
                cases h
              · have h := hreadable.room id (by rw [timesIn_cons]; simp)
                rw [timesIn_cons, if_pos rfl] at h
                obtain ⟨b, hok⟩ := hroom.mpr (by change t.backups.currentVersion id + 1 < _; omega)
                rw [hwrite] at hok
                cases hok
          | ok b =>
              obtain ⟨hfinal, hresult⟩ := @restoreRecords_next tools t now bulkId ⟨id, version⟩
                (plan.map Prod.fst) record b hfind hwrite
              obtain ⟨hrows, hresults, hiff⟩ := ih (t := { t with backups := b }) (hb.write hwrite) fun p hp hpos => by
                have h := hsaved p (List.mem_cons_of_mem _ hp) hpos
                cases hfound : t.backups.find p.1.key p.1.version with
                | none =>
                    rw [hfound] at h
                    cases h
                | some r =>
                    rw [hfound] at h
                    change (b.find p.1.key p.1.version).map restoredData = some p.2
                    rw [Backups.find_write_of_some hwrite hfound]
                    exact h
              have hcons : Readable t ((⟨id, version⟩, data) :: plan) ↔ Readable { t with backups := b } plan :=
                readable_cons_iff hpos hwrite (hroom.mp ⟨b, hwrite⟩)
              rw [hfinal, hresult, hcons, ← hiff]
              refine ⟨hrows, fun results h => ?_, ?_⟩
              · cases hlater : (restoreRecords tools now bulkId (plan.map Prod.fst) { t with backups := b }).result with
                | error e =>
                    rw [hlater] at h
                    cases h
                | ok later =>
                    rw [hlater] at h
                    cases h
                    rw [hresults later hlater, hdata]
                    rfl
              · cases (restoreRecords tools now bulkId (plan.map Prod.fst) { t with backups := b }).result with
                | error e => simp [Except.map]
                | ok later => simp [Except.map]

end Restore

/-! ## The plan against the inputs -/

/-- The row of an id just before its last update. -/
def rowBeforeLast : Table String Bytes → List (String × Bytes) → String → Option Bytes
  | rows, [], id => rows.get id
  | rows, (key, value) :: rest, id =>
      if id ∈ rest.map Prod.fst then rowBeforeLast (rows.insert key value) rest id else rows.get id

/-- What is left of a plan: the row of an id as it was before its last update. -/
theorem get_putBacks (rows rows' : Table String Bytes) (version : String → Nat) (inputs : List (String × Bytes))
    (id : String) :
    ((putBacks (undoPlan rows version inputs)).foldl putRow rows').get id =
      if id ∈ inputs.map Prod.fst then rowBeforeLast rows inputs id else rows'.get id := by
  induction inputs generalizing rows rows' version with
  | nil => rfl
  | cons input rest ih =>
      obtain ⟨key, value⟩ := input
      rw [undoPlan, putBacks, List.map_cons, List.foldl_cons]
      refine (ih _ _ _).trans ?_
      rw [get_putRow, rowBeforeLast, List.map_cons]
      by_cases hrest : id ∈ rest.map Prod.fst
      · simp [hrest]
      · by_cases hkey : id = key
        · simp [hrest, hkey]
        · simp [hrest, hkey]

theorem undoPlan_saved_iff (rows : Table String Bytes) (version : String → Nat) (inputs : List (String × Bytes)) :
    (∀ p ∈ undoPlan rows version inputs, 0 < p.1.version) ↔ ∀ e ∈ inputs, 0 < version e.1 := by
  induction inputs generalizing rows version with
  | nil => simp [undoPlan]
  | cons input rest ih =>
      obtain ⟨key, value⟩ := input
      rw [undoPlan, List.forall_mem_cons, List.forall_mem_cons, ih]
      refine and_congr_right fun hpos => ?_
      change 0 < version key at hpos
      refine forall₂_congr fun e _ => ?_
      split
      · rename_i hkey
        rw [hkey]
        omega
      · exact Iff.rfl

theorem timesIn_undoPlan (rows : Table String Bytes) (version : String → Nat) (inputs : List (String × Bytes))
    (id : String) : timesIn id (undoPlan rows version inputs) = times id inputs := by
  induction inputs generalizing rows version with
  | nil => rfl
  | cons input rest ih =>
      obtain ⟨key, value⟩ := input
      rw [undoPlan, timesIn_cons, ih]
      simp [times, List.countP_cons]

/-! ## When a bulk update can be undone -/

/-- What the inputs and the table before the update have to be like. -/
structure Undoable (t : BackedTable) (inputs : List (String × Bytes)) : Prop where
  /-- every id has a version -/
  saved : ∀ e ∈ inputs, 0 < t.backups.currentVersion e.1
  /-- before its last update, the row of an id was as at the start (always so when the id does not repeat) -/
  unchanged : ∀ e ∈ inputs, rowBeforeLast t.rows inputs e.1 = t.rows.get e.1
  /-- the noted versions are of the current schema -/
  restorable : ∀ p ∈ undoPlan t.rows t.backups.currentVersion inputs, t.chain.isRestorable p.1.version = true
  /-- there are version numbers left -/
  room : ∀ id, 0 < times id inputs → t.backups.currentVersion id + 2 * times id inputs < 2 ^ 64
  /-- every table on the way back is admitted -/
  admitted : StepsAdmitted tools (updated inputs t.rows) (putBacks (undoPlan t.rows t.backups.currentVersion inputs))

section Undo

variable {tools} {t : BackedTable} {now later : Clock} {bulkId : String} {inputs : List (String × Bytes)}

/-- What is put back is the table as it was, exactly when no id was changed before its last update. -/
theorem putBacks_eq_iff (version : String → Nat) (rows : Table String Bytes) :
    (putBacks (undoPlan rows version inputs)).foldl putRow (updated inputs rows) = rows ↔
      ∀ e ∈ inputs, rowBeforeLast rows inputs e.1 = rows.get e.1 := by
  constructor
  · intro heq e he
    have hget := get_putBacks rows (updated inputs rows) version inputs e.1
    rw [heq, if_pos (List.mem_map_of_mem he)] at hget
    exact hget.symm
  · intro hsame
    refine Table.ext_get fun id => ?_
    rw [get_putBacks]
    split
    · rename_i hmem
      obtain ⟨e, he, rfl⟩ := List.mem_map.mp hmem
      exact hsame e he
    · rename_i hmem
      exact Table.get_foldl_insert_of_not_mem _ hmem

theorem assertRestorable_ok_iff {chain : TableMigrationChain} {version : Nat} :
    chain.assertRestorable version = .ok () ↔ chain.isRestorable version = true := by
  unfold TableMigrationChain.assertRestorable
  split
  · rename_i h
    simp [h]
  · rename_i h
    simp [h]

/-- The checks of all entries pass exactly when every noted version is restorable. -/
theorem collect_restorable_iff {chain : TableMigrationChain} {plan : List (BulkEntry × Option Bytes)} :
    (∃ l, collect (fun e : BulkEntry => chain.assertRestorable e.version) (plan.map Prod.fst) = .ok l) ↔
      ∀ p ∈ plan, chain.isRestorable p.1.version = true := by
  constructor
  · rintro ⟨l, hl⟩ p hp
    obtain ⟨_, -, hok⟩ := exists_collect hl (List.mem_map_of_mem hp)
    exact assertRestorable_ok_iff.mp hok
  · intro hall
    refine ⟨_, collect_of_ok (g := fun _ => ()) fun e he => ?_⟩
    obtain ⟨p, hp, rfl⟩ := List.mem_map.mp he
    exact assertRestorable_ok_iff.mpr (hall p hp)

/-- The noted versions can be read, by the table before the update. -/
theorem Updated.readable_iff {t' : BackedTable} (hup : Updated t t' inputs) :
    Readable t' (undoPlan t.rows t.backups.currentVersion inputs) ↔
      (∀ e ∈ inputs, 0 < t.backups.currentVersion e.1) ∧
        ∀ id, 0 < times id inputs → t.backups.currentVersion id + 2 * times id inputs < 2 ^ 64 := by
  have hroom : (∀ id, 0 < timesIn id (undoPlan t.rows t.backups.currentVersion inputs) →
      t'.backups.currentVersion id + timesIn id (undoPlan t.rows t.backups.currentVersion inputs) < 2 ^ 64) ↔
      ∀ id, 0 < times id inputs → t.backups.currentVersion id + 2 * times id inputs < 2 ^ 64 := by
    refine forall_congr' fun id => ?_
    rw [timesIn_undoPlan, hup.current id]
    omega
  rw [← undoPlan_saved_iff t.rows t.backups.currentVersion inputs, ← hroom]
  exact ⟨fun h => ⟨h.saved, h.room⟩, fun h => ⟨h.1, h.2⟩⟩

/-- A restore of a bulk on a table that a bulk update left. -/
theorem restoreBulk_iff {t' : BackedTable} (hup : Updated t t' inputs)
    (hbulk : t'.backups.bulks.get bulkId = some ((undoPlan t.rows t.backups.currentVersion inputs).map Prod.fst)) :
    ((restoreBulk tools later bulkId t').result = .ok () ∧ (restoreBulk tools later bulkId t').final.rows = t.rows) ↔
      Undoable tools t inputs := by
  -- the program: check, read the versions, put the rows back
  rw [restoreBulk, Prog.read_bind, hbulk]
  dsimp only
  have hrestorable := @collect_restorable_iff t'.chain (undoPlan t.rows t.backups.currentVersion inputs)
  obtain ⟨hrows, hresults, hread⟩ := @restoreRecords_run tools t' later bulkId _ hup.consistent hup.saved
  rw [hup.readable_iff] at hread
  rw [hup.chain] at hrestorable ⊢
  cases hcheck : collect (fun e : BulkEntry => t.chain.assertRestorable e.version)
      ((undoPlan t.rows t.backups.currentVersion inputs).map Prod.fst) with
  | error e =>
      rw [hcheck] at hrestorable
      constructor
      · rintro ⟨h, -⟩
        cases h
      · intro h
        obtain ⟨_, hl⟩ := hrestorable.mpr h.restorable
        cases hl
  | ok l =>
      rw [hcheck] at hrestorable
      have hall := hrestorable.mp ⟨l, rfl⟩
      have hlift : (Prog.lift (σ := BackedTable) (.ok l : Result _) t').result = .ok l := rfl
      rw [Prog.bind_of_ok hlift]
      change ((restoreRecords tools later bulkId _ >>= _) t').result = .ok () ∧
        ((restoreRecords tools later bulkId _ >>= _) t').final.rows = t.rows ↔ _
      cases hloop : (restoreRecords tools later bulkId
          ((undoPlan t.rows t.backups.currentVersion inputs).map Prod.fst) t').result with
      | error e =>
          rw [Prog.bind_of_error hloop]
          constructor
          · rintro ⟨h, -⟩
            cases h
          · intro h
            obtain ⟨_, hok⟩ := hread.mpr ⟨h.saved, h.room⟩
            rw [hloop] at hok
            cases hok
      | ok results =>
          obtain ⟨hsaved, hroom⟩ := hread.mp ⟨results, hloop⟩
          obtain rfl := hresults results hloop
          rw [Prog.bind_of_ok hloop]
          dsimp only
          rw [putBacks_run, hrows, hup.rows]
          constructor
          · rintro ⟨hadmitted, hback⟩
            rw [putBacks_final (by rw [hrows, hup.rows]; exact hadmitted), hrows, hup.rows] at hback
            exact ⟨hsaved, (putBacks_eq_iff _ _).mp hback, hall, hroom, hadmitted⟩
          · intro h
            refine ⟨h.admitted, ?_⟩
            rw [putBacks_final (by rw [hrows, hup.rows]; exact h.admitted), hrows, hup.rows]
            exact (putBacks_eq_iff _ _).mpr h.unchanged

/-- **Undoing a bulk update.** On a table that `set` and `delete` made, after a bulk update that returned, `restore_bulk`
returns and leaves every row as it was before the update exactly when the inputs are undoable. -/
theorem bulk_undone_iff {chain : TableMigrationChain} (ht : Reached tools chain t)
    (h : (updateBulk tools now bulkId inputs t).result = .ok ()) :
    ((restoreBulk tools later bulkId (updateBulk tools now bulkId inputs t).final).result = .ok () ∧
        (restoreBulk tools later bulkId (updateBulk tools now bulkId inputs t).final).final.rows = t.rows) ↔
      Undoable tools t inputs := by
  obtain ⟨hb, hf, -⟩ := ht.sound
  obtain ⟨entries, hrows, hset, hfinal⟩ := Prog.bind_result_ok h
  obtain ⟨rfl, hup⟩ := updateRows_ok hb hf hrows
  have hfinal : (updateBulk tools now bulkId inputs t).final = _ := hfinal
  rw [hfinal]
  unfold setBulk at hset ⊢
  split at hset
  · cases hset
  · rename_i hne
    rw [if_neg hne]
    refine restoreBulk_iff ⟨hup.rows, hup.chain, ⟨hup.consistent.stored, hup.consistent.numbered⟩, hup.current,
      hup.stays, hup.saved⟩ ?_
    exact Table.get_insert_self _ _ _

end Undo

/-! ## Small bulks -/

def plainTools : TableTools := ⟨"t", fun _ => .ok ()⟩

/-- A table with the row `a`. -/
def rowA : BackedTable := (set plainTools ⟨1, "1"⟩ "a" [0] ⟨.empty, .empty, ⟨.fresh "t", []⟩⟩).final

/-- A new id cannot be undone: its version was noted as zero, the restore fails and the row stays. A repeated id goes
back to the value of its first update, and the restore returns without an error. -/
theorem bulk_not_undone :
    ((restoreBulk plainTools ⟨3, "3"⟩ "b" (updateBulk plainTools ⟨2, "2"⟩ "b" [("n", [1])] rowA).final).result =
          .error (.notFound "backup record n:0 not found") ∧
        (restoreBulk plainTools ⟨3, "3"⟩ "b"
          (updateBulk plainTools ⟨2, "2"⟩ "b" [("n", [1])] rowA).final).final.rows.get "n" = some [1]) ∧
      (restoreBulk plainTools ⟨3, "3"⟩ "b"
          (updateBulk plainTools ⟨2, "2"⟩ "b" [("a", [1]), ("a", [2])] rowA).final).result = .ok () ∧
        (restoreBulk plainTools ⟨3, "3"⟩ "b"
          (updateBulk plainTools ⟨2, "2"⟩ "b" [("a", [1]), ("a", [2])] rowA).final).final.rows.get "a" = some [1] ∧
        rowA.rows.get "a" = some [0] := by
  refine ⟨⟨?_, ?_⟩, ?_, ?_, ?_⟩ <;> decide

/-- The equivalence for one id that has a version. -/
theorem bulk_undone_row_a :
    ((restoreBulk plainTools ⟨3, "3"⟩ "b" (updateBulk plainTools ⟨2, "2"⟩ "b" [("a", [1])] rowA).final).result =
          .ok () ∧
        (restoreBulk plainTools ⟨3, "3"⟩ "b"
          (updateBulk plainTools ⟨2, "2"⟩ "b" [("a", [1])] rowA).final).final.rows = rowA.rows) ↔
      Undoable plainTools rowA [("a", [1])] :=
  bulk_undone_iff (.set ⟨1, "1"⟩ "a" [0] .start (by decide)) (by decide)

end CloveDb.Backup.BackedTable
