/-
# CloveDb.Backup.Store — the saved versions of a table

`BackupManager` keeps the records of all keys of a table in one redb table under the text `key:version`, and the last
version of each key in another. A record gets its number when it is written. `history` finds the records of a key by
the front of their text.
-/
import CloveDb.Lib.Bytes
import CloveDb.Lib.NumberedName
import CloveDb.Lib.Table
import CloveDb.Units
import Mathlib.Data.List.Sort
import Mathlib.Data.String.Basic

namespace CloveDb.Backup

open CloveDb.Lib

inductive BackupOperation where
  | set
  | delete
  | restore
  | restoreBulk
  deriving DecidableEq, Repr

structure BackupRecord where
  version : Nat
  timestamp : Int
  date : String
  operation : BackupOperation
  table : String
  key : String
  data : Option Bytes
  restoredVersion : Option Nat
  bulkId : Option String
  dateFromMigration : Bool
  deriving DecidableEq, Repr

/-- One line of a bulk: a key and the version to go back to. -/
structure BulkEntry where
  key : String
  version : Nat
  deriving DecidableEq, Repr

/-- The text a record is stored under. -/
def backupKey (key : String) (version : Nat) : String := key ++ ":" ++ toString version

/-- `str::starts_with`. -/
def startsWith (text front : String) : Bool := front.toList.isPrefixOf text.toList

theorem startsWith_iff {text front : String} : startsWith text front = true ↔ front.toList <+: text.toList :=
  List.isPrefixOf_iff_prefix

theorem toList_backupKey (key : String) (version : Nat) :
    (backupKey key version).toList = key.toList ++ ':' :: Nat.toDigits 10 version := by
  simp [backupKey]

/-- Two texts cut at their last colon. -/
theorem append_colon_inj {a b ds es : List Char} (hds : ':' ∉ ds) (hes : ':' ∉ es)
    (h : a ++ ':' :: ds = b ++ ':' :: es) : a = b ∧ ds = es := by
  rcases List.append_eq_append_iff.mp h with ⟨cs, rfl, hcs⟩ | ⟨cs, rfl, hcs⟩
  · cases cs with
    | nil =>
        simp only [List.nil_append, List.cons.injEq, true_and] at hcs
        exact ⟨(List.append_nil a).symm, hcs⟩
    | cons c cs =>
        simp only [List.cons_append, List.cons.injEq] at hcs
        exact absurd (hcs.2 ▸ by simp) hds
  · cases cs with
    | nil =>
        simp only [List.nil_append, List.cons.injEq, true_and] at hcs
        exact ⟨List.append_nil b, hcs.symm⟩
    | cons c cs =>
        simp only [List.cons_append, List.cons.injEq] at hcs
        exact absurd (hcs.2 ▸ by simp) hes

/-- The text of a record tells its key and its number. -/
theorem backupKey_inj {key key' : String} {version version' : Nat} (h : backupKey key version = backupKey key' version') :
    key = key' ∧ version = version' := by
  have hlist := congrArg String.toList h
  rw [toList_backupKey, toList_backupKey] at hlist
  -- the last colon of both texts is the one before the digits
  obtain ⟨hkey, hdigits⟩ := append_colon_inj (colon_not_mem_toDigits version) (colon_not_mem_toDigits version') hlist
  refine ⟨String.toList_inj.mp hkey, ?_⟩
  have hvalue := congrArg (fun ds => Nat.ofDigitChars 10 ds 0) hdigits
  simpa only [Nat.ofDigitChars_ten_toDigits] using hvalue

/-- A front with one colon at its end, before a text whose last colon is marked: it stops at that colon, or earlier. -/
theorem front_of_marked {a b ds : List Char} (hds : ':' ∉ ds) :
    a ++ [':'] <+: b ++ ':' :: ds ↔ b = a ∨ a ++ [':'] <+: b := by
  induction a generalizing b with
  | nil =>
      cases b with
      | nil => simp
      | cons c b => simp [List.cons_prefix_cons]
  | cons x a ih =>
      cases b with
      | nil =>
          have hno : ¬a ++ [':'] <+: ds := fun h => hds (h.subset (by simp))
          simp [List.cons_prefix_cons, hno]
      | cons c b =>
          simp only [List.cons_append, List.cons_prefix_cons, ih, List.cons.injEq]
          constructor
          · rintro ⟨rfl, rfl | h⟩
            · exact Or.inl ⟨rfl, rfl⟩
            · exact Or.inr ⟨rfl, h⟩
          · rintro (⟨rfl, rfl⟩ | ⟨rfl, h⟩)
            · exact ⟨rfl, Or.inl rfl⟩
            · exact ⟨rfl, Or.inr h⟩

/-- The texts a scan for `key` meets: those of `key`, and those of keys that go on after `key` and a colon. -/
theorem startsWith_backupKey {key key' : String} {version : Nat} :
    startsWith (backupKey key' version) (key ++ ":") = true ↔ key' = key ∨ startsWith key' (key ++ ":") = true := by
  rw [startsWith_iff, startsWith_iff, toList_backupKey, String.toList_append]
  change key.toList ++ [':'] <+: _ ↔ key' = key ∨ key.toList ++ [':'] <+: _
  rw [front_of_marked (colon_not_mem_toDigits version), String.toList_inj]

/-- The three redb tables of one table's history. -/
structure Backups where
  records : Table String BackupRecord
  versions : Table String Nat
  bulks : Table String (List BulkEntry)
  /-- everything that was written, in order; nothing is stored of it -/
  written : List BackupRecord
  deriving DecidableEq

namespace Backups

def empty : Backups := ⟨.empty, .empty, .empty, []⟩

variable (b : Backups)

/-- The number of the last version of a key. -/
def currentVersion (key : String) : Nat := (b.versions.get key).getD 0

def find (key : String) (version : Nat) : Option BackupRecord := b.records.get (backupKey key version)

/-- `write`: one transaction that takes the next number of the key and stores the record under it. -/
def write (record : BackupRecord) : Result Backups :=
  let version := b.currentVersion record.key + 1
  if 2 ^ 64 ≤ version then .error (.validation "backup version exhausted")
  else
    let record := { record with version := version }
    if (b.find record.key version).isSome then
      .error (.validation ("backup version collision: " ++ backupKey record.key version))
    else
      .ok {
        records := b.records.insert (backupKey record.key version) record
        versions := b.versions.insert record.key version
        bulks := b.bulks
        written := b.written ++ [record] }

/-- The records whose text starts with the key and a colon, by version. -/
def history (key : String) : List BackupRecord :=
  ((b.records.rows.filter fun row => startsWith row.1 (key ++ ":")).map Prod.snd).insertionSort
    fun r r' => r.version ≤ r'.version

/-- The last record of a key at a time (`get_version_by_at`, and the choice of `restore_at`). -/
def versionByAt (key : String) (timestamp : Int) : Option BackupRecord :=
  ((b.history key).filter fun r => r.timestamp ≤ timestamp).getLast?

/-- The records written for a key. -/
def own (key : String) : List BackupRecord := b.written.filter fun r => r.key = key

/-! ## What the tables hold -/

/-- The tables agree with what was written: each record is under its text, and the records of a key are numbered from
one to its current version. -/
structure Consistent (b : Backups) : Prop where
  stored : ∀ text r, b.records.get text = some r ↔ r ∈ b.written ∧ text = backupKey r.key r.version
  numbered : ∀ key, (b.own key).map (·.version) = List.range' 1 (b.currentVersion key)

theorem consistent_empty : Consistent empty where
  stored := by simp [empty]
  numbered := by simp [empty, own, currentVersion]

variable {b}

/-- A write that returned: the record with the next number is added. -/
theorem write_ok {record : BackupRecord} {b' : Backups} (h : b.write record = .ok b') :
    b.find record.key (b.currentVersion record.key + 1) = none ∧
      b' = {
        records := b.records.insert (backupKey record.key (b.currentVersion record.key + 1))
          { record with version := b.currentVersion record.key + 1 }
        versions := b.versions.insert record.key (b.currentVersion record.key + 1)
        bulks := b.bulks
        written := b.written ++ [{ record with version := b.currentVersion record.key + 1 }] } := by
  unfold write at h
  dsimp only at h
  split at h
  · cases h
  · split at h
    · cases h
    · rename_i hfree
      cases h
      exact ⟨by simpa using hfree, rfl⟩

theorem currentVersion_write {record : BackupRecord} {b' : Backups} (h : b.write record = .ok b') (key : String) :
    b'.currentVersion key = if key = record.key then b.currentVersion key + 1 else b.currentVersion key := by
  obtain ⟨-, rfl⟩ := write_ok h
  simp only [currentVersion, Table.get_insert]
  split
  · rename_i hkey
    rw [hkey]
    rfl
  · rfl

/-- The record that was written is found under the highest version. -/
theorem find_write {b' : Backups} {record : BackupRecord} (h : b.write record = .ok b') :
    b'.find record.key (b'.currentVersion record.key) =
      some { record with version := b.currentVersion record.key + 1 } := by
  have hcurrent := currentVersion_write h record.key
  rw [if_pos rfl] at hcurrent
  rw [hcurrent]
  obtain ⟨-, rfl⟩ := write_ok h
  exact Table.get_insert_self _ _ _

/-- The other records are found as before. -/
theorem find_write_ne {b' : Backups} {record : BackupRecord} (h : b.write record = .ok b') {key : String}
    {version : Nat} (hne : key = record.key → version ≠ b.currentVersion record.key + 1) :
    b'.find key version = b.find key version := by
  obtain ⟨-, rfl⟩ := write_ok h
  refine Table.get_insert_ne _ _ fun htext => ?_
  obtain ⟨hkey, hversion⟩ := backupKey_inj htext
  exact hne hkey hversion

/-- A record that is there stays. -/
theorem find_write_of_some {b' : Backups} {record r : BackupRecord} (h : b.write record = .ok b') {key : String}
    {version : Nat} (hr : b.find key version = some r) : b'.find key version = some r := by
  rw [find_write_ne h, hr]
  rintro rfl rfl
  rw [(write_ok h).1] at hr
  cases hr

theorem own_write {record : BackupRecord} {b' : Backups} (h : b.write record = .ok b') (key : String) :
    b'.own key = if key = record.key then
      b.own key ++ [{ record with version := b.currentVersion record.key + 1 }] else b.own key := by
  obtain ⟨-, rfl⟩ := write_ok h
  simp only [own, List.filter_append, List.filter_cons, List.filter_nil]
  by_cases hkey : record.key = key
  · simp [hkey]
  · simp [hkey, Ne.symm hkey]

/-- A write keeps the tables consistent. -/
theorem Consistent.write {record : BackupRecord} {b' : Backups} (hb : Consistent b) (h : b.write record = .ok b') :
    Consistent b' where
  stored := by
    obtain ⟨hfree, rfl⟩ := write_ok h
    intro text r
    rw [Table.get_insert]
    by_cases htext : text = backupKey record.key (b.currentVersion record.key + 1)
    · -- nothing else was written under this text
      rw [if_pos htext]
      have hnone : ∀ r ∈ b.written, text ≠ backupKey r.key r.version := by
        intro r hr hkey
        have hget := (hb.stored text r).mpr ⟨hr, hkey⟩
        rw [htext] at hget
        rw [find, hget] at hfree
        cases hfree
      constructor
      · intro hr
        cases hr
        exact ⟨List.mem_append_right _ List.mem_cons_self, htext⟩
      · rintro ⟨hr, hkey⟩
        rcases List.mem_append.mp hr with hr | hr
        · exact absurd hkey (hnone r hr)
        · rw [List.mem_singleton.mp hr]
    · rw [if_neg htext, hb.stored]
      constructor
      · rintro ⟨hr, hkey⟩
        exact ⟨List.mem_append_left _ hr, hkey⟩
      · rintro ⟨hr, hkey⟩
        rcases List.mem_append.mp hr with hr | hr
        · exact ⟨hr, hkey⟩
        · rw [List.mem_singleton.mp hr] at hkey
          exact absurd hkey htext
  numbered := by
    intro key
    rw [own_write h, currentVersion_write h]
    split
    · rename_i hkey
      rw [List.map_append, hb.numbered, List.range'_concat, hkey]
      simp [Nat.add_comm]
    · exact hb.numbered key

theorem Consistent.find_iff (hb : Consistent b) {key : String} {version : Nat} {r : BackupRecord} :
    b.find key version = some r ↔ r ∈ b.own key ∧ r.version = version := by
  rw [find, hb.stored, own, List.mem_filter, decide_eq_true_eq]
  constructor
  · rintro ⟨hr, htext⟩
    obtain ⟨hkey, hversion⟩ := backupKey_inj htext
    exact ⟨⟨hr, hkey.symm⟩, hversion.symm⟩
  · rintro ⟨⟨hr, rfl⟩, rfl⟩
    exact ⟨hr, rfl⟩

/-- The versions of a key that are there. -/
theorem Consistent.exists_find_iff (hb : Consistent b) {key : String} {version : Nat} :
    (∃ r, b.find key version = some r) ↔ 0 < version ∧ version ≤ b.currentVersion key := by
  have hmem : (∃ r, b.find key version = some r) ↔ version ∈ (b.own key).map (·.version) := by
    simp only [hb.find_iff, List.mem_map]
  rw [hmem, hb.numbered, List.mem_range'_1]
  omega

/-- A record can be written while there are numbers left. -/
theorem Consistent.exists_write_iff (hb : Consistent b) (record : BackupRecord) :
    (∃ b', b.write record = .ok b') ↔ b.currentVersion record.key + 1 < 2 ^ 64 := by
  have hfree : b.find record.key (b.currentVersion record.key + 1) = none := by
    refine Option.eq_none_iff_forall_ne_some.mpr fun r hr => ?_
    have := hb.exists_find_iff.mp ⟨r, hr⟩
    omega
  unfold Backups.write
  dsimp only
  split
  · rename_i hfull
    refine ⟨fun h => ?_, fun h => by omega⟩
    obtain ⟨_, h⟩ := h
    cases h
  · rename_i hroom
    rw [hfree]
    exact ⟨fun _ => by omega, fun _ => ⟨_, rfl⟩⟩

/-! ## The history of a key -/

theorem Consistent.mem_history (hb : Consistent b) {key : String} {r : BackupRecord} :
    r ∈ b.history key ↔ r ∈ b.written ∧ (r.key = key ∨ startsWith r.key (key ++ ":") = true) := by
  rw [history, (List.perm_insertionSort _ _).mem_iff, List.mem_map]
  constructor
  · rintro ⟨⟨text, r'⟩, hrow, rfl⟩
    obtain ⟨hmem, hfront⟩ := List.mem_filter.mp hrow
    obtain ⟨hwritten, rfl⟩ := (hb.stored text r').mp ((b.records.mem_rows_iff text r').mp hmem)
    exact ⟨hwritten, startsWith_backupKey.mp hfront⟩
  · rintro ⟨hwritten, hkey⟩
    refine ⟨(backupKey r.key r.version, r), List.mem_filter.mpr ⟨?_, startsWith_backupKey.mpr hkey⟩, rfl⟩
    exact (b.records.mem_rows_iff _ _).mpr ((hb.stored _ _).mpr ⟨hwritten, rfl⟩)

theorem Consistent.history_nodup (hb : Consistent b) (key : String) : (b.history key).Nodup := by
  rw [history, (List.perm_insertionSort _ _).nodup_iff]
  have hrows : b.records.rows.Nodup := List.Nodup.of_map _ b.records.rows_nodup_keys
  refine (hrows.filter _).map_on ?_
  rintro ⟨text, r⟩ hrow ⟨text', r'⟩ hrow' heq
  cases heq
  have htext := (hb.stored text r).mp ((b.records.mem_rows_iff text r).mp (List.mem_of_mem_filter hrow))
  have htext' := (hb.stored text' r).mp ((b.records.mem_rows_iff text' r).mp (List.mem_of_mem_filter hrow'))
  rw [htext.2, htext'.2]

theorem history_sorted (key : String) : (b.history key).Pairwise fun r r' => r.version ≤ r'.version := by
  have htotal : Std.Total (fun r r' : BackupRecord => r.version ≤ r'.version) := ⟨fun _ _ => Nat.le_total _ _⟩
  have htrans : IsTrans BackupRecord (fun r r' => r.version ≤ r'.version) := ⟨fun _ _ _ => Nat.le_trans⟩
  exact List.pairwise_insertionSort _ _

theorem Consistent.own_sorted (hb : Consistent b) (key : String) :
    (b.own key).Pairwise fun r r' => r.version < r'.version := by
  have h : ((b.own key).map (·.version)).Pairwise (· < ·) := by
    rw [hb.numbered]
    exact List.pairwise_lt_range'
  exact List.pairwise_map.mp h

/-- A key has records exactly when it has a version. -/
theorem Consistent.currentVersion_pos_iff (hb : Consistent b) {key : String} :
    0 < b.currentVersion key ↔ ∃ r ∈ b.written, r.key = key := by
  have hlength : (b.own key).length = b.currentVersion key := by
    rw [← List.length_map (·.version), hb.numbered, List.length_range']
  rw [← hlength, List.length_pos_iff_exists_mem]
  simp [own]

/-- The history of a key is its own records exactly when no other key with records goes on after `key` and a colon. -/
theorem Consistent.history_eq_own_iff (hb : Consistent b) (key : String) :
    b.history key = b.own key ↔
      ∀ key', key' ≠ key → 0 < b.currentVersion key' → startsWith key' (key ++ ":") = false := by
  constructor
  · intro heq key' hne hpos
    obtain ⟨r, hr, rfl⟩ := hb.currentVersion_pos_iff.mp hpos
    by_contra hfront
    have hmem := hb.mem_history.mpr ⟨hr, Or.inr (by simpa using hfront)⟩
    rw [heq] at hmem
    exact hne (by simpa [own] using (List.mem_filter.mp hmem).2)
  · intro hapart
    have hsame : ∀ r, r ∈ b.history key ↔ r ∈ b.own key := by
      intro r
      rw [hb.mem_history, own, List.mem_filter, decide_eq_true_eq]
      constructor
      · rintro ⟨hr, hkey | hfront⟩
        · exact ⟨hr, hkey⟩
        · refine ⟨hr, by_contra fun hne => ?_⟩
          rw [hapart r.key hne (hb.currentVersion_pos_iff.mpr ⟨r, hr, rfl⟩)] at hfront
          cases hfront
      · rintro ⟨hr, hkey⟩
        exact ⟨hr, Or.inl hkey⟩
    have hversions : ((b.own key).map (·.version)).Nodup := by
      rw [hb.numbered]
      exact List.nodup_range'
    have hperm := (List.perm_ext_iff_of_nodup (hb.history_nodup key) (List.Nodup.of_map _ hversions)).mpr hsame
    refine hperm.eq_of_pairwise (fun r r' hr hr' hle hge => ?_) (history_sorted key)
      ((hb.own_sorted key).imp Nat.le_of_lt)
    exact List.inj_on_of_nodup_map hversions ((hsame r).mp hr) hr' (Nat.le_antisymm hle hge)

end Backups

end CloveDb.Backup
