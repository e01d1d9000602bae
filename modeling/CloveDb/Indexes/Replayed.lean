/-
# CloveDb.Indexes.Replayed — the numbers in a LastWrite index

The worker builds an index of a table from a snapshot, with the number of each row's last write as the
database keeps it, and then replays the log: an upsert writes its row with its own sequence number, a
delete removes the row, a reset builds the index again from the image, all rows with the number of the
reset. After every change the index is that of the rows there are then, with the numbers of their last
writes; so where the worker has caught up, it records the numbers the database keeps.
-/
import CloveDb.Indexes.OrderedSound
import CloveDb.Journal.LastWrite
import CloveDb.Query.PointLookup

namespace CloveDb.Indexes

open CloveDb.Lib CloveDb.Fields CloveDb.Query CloveDb.Journal
open Relation (ReflTransGen)

/-! ## Replaying changes -/

/-- What the worker does with a change for a definition on `table`, where it is no reset of it. -/
def rowChanges (table : String) (seq : Nat) : ChangeKind → List RowChange
  | .upsert t key value => if t = table then [.upsert key value seq] else []
  | .delete t key => if t = table then [.delete key] else []
  | _ => []

/-- The rows of an image, all with the number of the reset. -/
def stamped (seq : Nat) (image : Table String Bytes) : SourceRows :=
  ⟨image.rows.map fun r => (r.1, r.2, seq), List.pairwise_map.mpr (image.ascending.imp fun h => h)⟩

theorem get_stamped (seq : Nat) (image : Table String Bytes) (row : String) :
    (stamped seq image).get row = (image.get row).map fun bytes => (bytes, seq) := by
  refine Option.ext fun v => ?_
  rw [← Table.mem_rows_iff, Option.map_eq_some_iff]
  simp only [← Table.mem_rows_iff]
  constructor
  · intro hmem
    obtain ⟨r, hr, heq⟩ := List.mem_map.mp hmem
    cases heq
    exact ⟨r.2, hr, rfl⟩
  · rintro ⟨bytes, hr, rfl⟩
    exact List.mem_map.mpr ⟨(row, bytes), hr, rfl⟩

section

variable (tools : Tools) (older : Bytes → Result Reverse) (d : Definition) (mgr : Manager) (serde : Serde)
  (start : List Recorded × Store) (hist : List Recorded)

/-- The index of a definition after the first `n` changes of `hist`: built from a snapshot of the
database, or brought on by one change. -/
inductive Replayed : Nat → IndexTables → Reservoir → Prop
  | build {a : List Recorded × Store} {s : IndexTables} {r : Reservoir} {source : SourceRows}
      (run : ReflTransGen (NumberedStep mgr tools.toOutside serde) start a) (seen : a.1 <+: hist)
      (reads : Reads (viewOf serde a.2 d.table) source) (origin : Origin tools older d s r source) :
      Replayed a.1.length s r
  | change {n : Nat} {s s' : IndexTables} {r r' : Reservoir} {e : Recorded} (index : Replayed n s r)
      (next : hist[n]? = some e) (other : ∀ snapshot, e.kind ≠ .tableReset d.table snapshot)
      (fits : ∀ c ∈ rowChanges d.table (n + 1) e.kind, c.Fits tools d)
      (applied : runChanges tools older d (rowChanges d.table (n + 1) e.kind) s r = .ok (s', r')) :
      Replayed (n + 1) s' r'
  | reset {n : Nat} {s s' : IndexTables} {r r' : Reservoir} {e : Recorded} {snapshot : String}
      (index : Replayed n s r) (next : hist[n]? = some e) (own : e.kind = .tableReset d.table snapshot)
      (rebuilt : Origin tools older d s' r' (stamped (n + 1) e.image)) : Replayed (n + 1) s' r'

end

/-- The rows of `table` after the first `n` changes, with the numbers of their last writes. -/
def RowsAt (hist : List Recorded) (base : Journal.Rows) (table : String) (n : Nat) (source : SourceRows) : Prop :=
  ∀ row, source.get row = ((replay (hist.take n) base table).get row).map fun bytes =>
    (bytes, (lastWritten ((hist.take n).map Recorded.kind) table row).getD 0)

section

variable {hist : List Recorded} {base : Journal.Rows} {table : String} {n : Nat} {source source' : SourceRows}
  {e : Recorded}

/-- One more change, by what it makes of each row. -/
theorem RowsAt.step (h : RowsAt hist base table n source) (hnext : hist[n]? = some e)
    (hsource : ∀ row, source'.get row = match e.outcome table row with
      | none => source.get row
      | some o => o.map fun bytes => (bytes, n + 1)) : RowsAt hist base table (n + 1) source' := by
  have hlength : (hist.take n).length = n := by
    rw [List.length_take]
    exact Nat.min_eq_left (List.getElem?_eq_some_iff.mp hnext).1.le
  have htake : hist.take (n + 1) = hist.take n ++ [e] := by
    rw [List.take_add_one, hnext]
    rfl
  intro row
  rw [hsource row, htake]
  have hreplay : (replay (hist.take n ++ [e]) base table).get row
      = (e.outcome table row).getD ((replay (hist.take n) base table).get row) := by
    rw [replay_append]
    exact apply_get e _
  rw [hreplay, List.map_append]
  cases ho : e.outcome table row with
  | none =>
      rw [lastWritten_untouched _ (by simpa using ho)]
      exact h row
  | some o =>
      cases o with
      | none => rfl
      | some bytes =>
          have hlast : lastWritten ((hist.take n).map Recorded.kind ++ [e].map Recorded.kind) table row
              = some (((hist.take n).map Recorded.kind).length + ([] : List Recorded).length + 1) :=
            @lastWritten_last table row _ [] [] e bytes ho (by simp)
          rw [hlast]
          simp only [List.length_map, hlength, List.length_nil, Nat.add_zero]
          rfl

/-- The changes to rows make of each row what the change does. -/
theorem afterChanges_get (hother : ∀ snapshot, e.kind ≠ .tableReset table snapshot) (seq : Nat) (row : String) :
    (afterChanges (rowChanges table seq e.kind) source).get row = match e.outcome table row with
      | none => source.get row
      | some o => o.map fun bytes => (bytes, seq) := by
  unfold Recorded.outcome rowChanges
  cases hk : e.kind with
  | upsert t key value =>
      by_cases ht : t = table
      · by_cases hrow : key = row
        · simp [ht, hrow, afterChanges, RowChange.onRows]
        · simp [ht, hrow, afterChanges, RowChange.onRows, Table.get_insert_ne _ _ (Ne.symm hrow)]
      · simp [ht, afterChanges]
  | delete t key =>
      by_cases ht : t = table
      · by_cases hrow : key = row
        · simp [ht, hrow, afterChanges, RowChange.onRows]
        · simp [ht, hrow, afterChanges, RowChange.onRows, Table.get_remove_ne _ (Ne.symm hrow)]
      · simp [ht, afterChanges]
  | tableReset t snapshot =>
      have ht : t ≠ table := by
        rintro rfl
        exact hother snapshot hk
      simp [ht, afterChanges]
  | blobPut t key blob size => rfl
  | blobDelete t key blob size => rfl

end

/-! ## The index and the database -/

section

variable {tools : Tools} {older : Bytes → Result Reverse} {d : Definition} {mgr : Manager} {serde : Serde}
  {uuid : Bytes} {base : Store}

/-- A snapshot of the database is the rows at its head. -/
theorem reads_iff_rowsAt (hbase : ∀ name, reserved name = true → base.rows name = .empty)
    (hempty : base.lastWrite = .empty) (htable : reserved d.table = false) {a : List Recorded × Store}
    (run : ReflTransGen (NumberedStep mgr tools.toOutside serde) ([], initializeLog uuid base) a)
    {hist : List Recorded} (hseen : a.1 <+: hist) {source : SourceRows} :
    Reads (viewOf serde a.2 d.table) source ↔ RowsAt hist base.rows d.table a.1.length source := by
  obtain ⟨-, hnumbers, hrows⟩ := numberedRun_lastWrites hbase hempty run
  have htake : hist.take a.1.length = a.1 := (List.prefix_iff_eq_take.mp hseen).symm
  have hsame : ∀ row, ((viewOf serde a.2 d.table).rows.get row).map
        (fun bytes => (bytes, (viewOf serde a.2 d.table).lastWrite row))
      = ((replay (hist.take a.1.length) base.rows d.table).get row).map fun bytes =>
        (bytes, (lastWritten ((hist.take a.1.length).map Recorded.kind) d.table row).getD 0) := by
    intro row
    rw [htake, hrows d.table htable]
    show ((a.2.rows d.table).get row).map (fun bytes =>
      (bytes, (a.2.lastWrite.get (serde.pair d.table row)).getD 0)) = _
    rw [hnumbers d.table row htable]
    cases (a.2.rows d.table).get row <;> rfl
  constructor
  · intro h row
    rw [h row, hsame row]
  · intro h row
    rw [h row, hsame row]

/-- The index is that of the rows at every change. -/
theorem Replayed.rowsAt (hbase : ∀ name, reserved name = true → base.rows name = .empty)
    (hempty : base.lastWrite = .empty) (htable : reserved d.table = false) {hist : List Recorded} {n : Nat}
    {s : IndexTables} {r : Reservoir}
    (h : Replayed tools older d mgr serde ([], initializeLog uuid base) hist n s r) :
    ∃ source, RowsAt hist base.rows d.table n source ∧ Maintained tools d s r source := by
  induction h with
  | build run seen reads origin =>
      exact ⟨_, (reads_iff_rowsAt hbase hempty htable run seen).mp reads, origin.maintained⟩
  | @change n s s' r r' e index next other fits applied ih =>
      obtain ⟨source, hrows, hmaintained⟩ := ih
      exact ⟨_, hrows.step next (afterChanges_get other (n + 1)), (hmaintained.changes older fits).1 s' r' applied⟩
  | @reset n s s' r r' e snapshot index next own rebuilt ih =>
      obtain ⟨source, hrows, -⟩ := ih
      refine ⟨_, hrows.step next fun row => ?_, rebuilt.maintained⟩
      rw [get_stamped, Recorded.outcome, own]
      simp

/-- The entries of a LastWrite index are the numbers of its rows. -/
theorem lastWrite_entries (hkind : d.kind = .lastWrite) {s : IndexTables} {r : Reservoir} {source : SourceRows}
    (h : Maintained tools d s r source) (older : Bytes → Result Reverse) (k : Bytes) (row : String) :
    s.entries.get k = some row ↔ ∃ bytes seq, source.get row = some (bytes, seq) ∧
      definitionKey tools d (.number (toString seq)) row = .ok k := by
  obtain ⟨I, hheld, rfl, hindex⟩ := h
  rw [(hheld.exact older hindex).entries k row]
  have hvalues : ∀ bytes seq, rowValues tools d bytes seq = .ok [.number (toString seq)] := by
    intro bytes seq
    simp only [rowValues, sampledValues, indexedValues, if_pos hkind, ok_bind]
  constructor
  · rintro ⟨bytes, seq, values, v, hget, hv, hmem, hkey⟩
    rw [hvalues] at hv
    cases hv
    rw [List.mem_singleton.mp hmem] at hkey
    exact ⟨bytes, seq, hget, hkey⟩
  · rintro ⟨bytes, seq, hget, hkey⟩
    exact ⟨bytes, seq, _, _, hget, hvalues bytes seq, List.mem_singleton_self _, hkey⟩

end

/-! ## One row -/

def stampedTools : Tools := Tools.listed []

def stampedIndex : Definition := ⟨"notes", [], .lastWrite, [.asc]⟩

def stampedStore : Store :=
  committedTo sampleStore (applyChanges sampleManager .simple stampedTools.toOutside .unlimited
    [("notes", "a", [1])] [] sampleStore)

end CloveDb.Indexes
