/-
# CloveDb.Backup.Race — concurrent writes of one row and its history

`set` and `delete` commit the row in the main file and then the record in the history file, with nothing held in
between; the number of the record is drawn in the second commit. The steps here are single commits, of any number of
calls on one key, in any order. The history agrees with the row as long as a record is written while the row is still
as its call left it.
-/
import CloveDb.Backup.Operations
import CloveDb.Lib.Runs

namespace CloveDb.Backup

open CloveDb.Lib CloveDb.Schema

/-- Where a call on the key is. -/
inductive Phase where
  /-- `set`, before its row commits -/
  | set (now : Clock) (value : Bytes)
  /-- `delete`, before its row commits -/
  | delete (now : Clock)
  /-- the row is committed, the record is not -/
  | recording (record : BackupRecord)
  | done
  deriving DecidableEq

/-- The record a call has still to write. -/
def Phase.record? : Phase → Option BackupRecord
  | .recording record => some record
  | _ => none

structure RaceSys where
  table : BackedTable
  calls : List Phase
  deriving DecidableEq

namespace RaceSys

variable (tools : TableTools) (key : String)

/-- Commit the row of a call, which then has a record to write. -/
def commitRow (s : RaceSys) (i : Nat) (rows : Table String Bytes) (record : BackupRecord) : Option RaceSys :=
  match tools.admits rows with
  | .error _ => none
  | .ok _ => some ⟨{ s.table with rows := rows }, s.calls.set i (.recording record)⟩

/-- The next commit of call `i`; none where the call fails or has returned. -/
def step (s : RaceSys) (i : Nat) : Option RaceSys :=
  match s.calls[i]? with
  | some (.set now value) =>
      s.commitRow tools i (s.table.rows.insert key value) (BackedTable.newRecord tools now .set key (some value) none none)
  | some (.delete now) =>
      if (s.table.rows.get key).isSome then
        s.commitRow tools i (s.table.rows.remove key) (BackedTable.newRecord tools now .delete key none none none)
      else some { s with calls := s.calls.set i .done }
  | some (.recording record) =>
      match s.table.backups.write record with
      | .error _ => none
      | .ok backups => some ⟨{ s.table with backups := backups }, s.calls.set i .done⟩
  | some .done => none
  | none => none

/-- All calls have returned. -/
def Quiet (s : RaceSys) : Prop := ∀ c ∈ s.calls, c = .done

/-- The record with the highest version describes the row: its data, or that there is none. -/
def Describes (s : RaceSys) : Prop :=
  ∀ r, s.table.backups.find key (s.table.backups.currentVersion key) = some r →
    BackedTable.restoredData r = s.table.rows.get key

/-- A record that is about to be written describes the row as it now is. -/
def Timely (s : RaceSys) (i : Nat) : Prop :=
  ∀ record ∈ s.calls[i]?.bind Phase.record?,
    record.key = key ∧ BackedTable.restoredData record = s.table.rows.get key

instance (s : RaceSys) (i : Nat) : Decidable (s.Timely key i) :=
  inferInstanceAs (Decidable (∀ record ∈ s.calls[i]?.bind Phase.record?,
    record.key = key ∧ BackedTable.restoredData record = s.table.rows.get key))

/-- While no call is between its two commits, the last record describes the row. -/
def Settled (s : RaceSys) : Prop := (∀ record, Phase.recording record ∉ s.calls) → s.Describes key

variable {tools key}

theorem commitRow_settled {s s' : RaceSys} {i : Nat} {rows : Table String Bytes} {record : BackupRecord} {c : Phase}
    (hi : s.calls[i]? = some c) (h : s.commitRow tools i rows record = some s') : s'.Settled key := by
  unfold commitRow at h
  split at h
  · cases h
  · cases h
    intro hnone
    -- the call itself is between its commits
    obtain ⟨hlt, -⟩ := List.getElem?_eq_some_iff.mp hi
    exact absurd (List.mem_iff_getElem?.mpr ⟨i, List.getElem?_set_self hlt⟩) (hnone record)

/-- One commit keeps the history settled, if a record is written in time. -/
theorem step_settled {s s' : RaceSys} {i : Nat} (htimely : s.Timely key i) (hstep : step tools key s i = some s')
    (hs : s.Settled key) : s'.Settled key := by
  unfold step at hstep
  split at hstep
  · rename_i hi
    exact commitRow_settled hi hstep
  · rename_i hi
    split at hstep
    · exact commitRow_settled hi hstep
    · -- there was no row: nothing is written
      cases hstep
      intro hnone r hr
      refine hs (fun record hmem => ?_) r hr
      obtain ⟨j, hj⟩ := List.mem_iff_getElem?.mp hmem
      have hne : i ≠ j := by
        rintro rfl
        rw [hi] at hj
        cases hj
      refine hnone record (List.mem_iff_getElem?.mpr ⟨j, ?_⟩)
      rw [List.getElem?_set_ne hne]
      exact hj
  · rename_i record hi
    obtain ⟨rfl, hdata⟩ := htimely record (by rw [hi]; rfl)
    split at hstep
    · cases hstep
    · rename_i backups hwrite
      cases hstep
      intro _ r hr
      change backups.find record.key (backups.currentVersion record.key) = some r at hr
      rw [Backups.find_write hwrite] at hr
      cases hr
      exact hdata
  · cases hstep
  · cases hstep

/-- An empty table and two calls of `set`. -/
def twoSets : RaceSys :=
  ⟨⟨.empty, .empty, ⟨.fresh "t", []⟩⟩, [.set ⟨1, "1"⟩ [1], .set ⟨2, "2"⟩ [2]]⟩

end RaceSys

end CloveDb.Backup
