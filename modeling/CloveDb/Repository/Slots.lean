/-
# CloveDb.Repository.Slots — the cache entries of the rows of all tables

`CloveDb.Repository.Cache` follows one entry of the memory cache. Here are all of them: every table of a database has its
rows in the one cache, and the entry of a row is named `table:key`. A table may have a colon in its name, and so may a
key, so two rows can have one name (`shared_slot`).

Every step that puts a value into the cache puts it under the name of a row it was committed for (`Owned`). So a read
returns a value of its own row, for any interleaving of the calls, exactly if no table is named like another followed by
a colon and more (`slots_separate_iff`).
-/
import CloveDb.Journal.Writes
import CloveDb.Lib.Runs

namespace CloveDb.Repository

open CloveDb.Lib CloveDb.Journal

structure Row where
  table : String
  key : String
  deriving DecidableEq

/-- `cache_key` -/
def cacheKey (r : Row) : String := r.table ++ ":" ++ r.key

/-- A write to the database that also writes to the cache. -/
inductive Write where
  /-- `apply_changes`, under `set`, `delete` and `commit_batch` -/
  | apply (writes : List (Row × Bytes)) (deletes : List Row)
  /-- `restore_by_version`: a change of one row, and once more its entry -/
  | restore (row : Row) (data : Option Bytes)
  /-- a batch of `stream` -/
  | stream (table : String) (batch : List (String × Bytes))
  | replaceTable (table : String) (entries : List (String × Bytes))
  | rewriteTables (writes : List (Row × Bytes)) (deletes : List Row)

/-- What a transaction does to the rows. -/
inductive Effect where
  | put (row : Row) (value : Bytes)
  | remove (row : Row)
  | drop (table : String)

/-- A step on the cache that a write takes after its commit. -/
inductive SlotOp where
  | insert (slot : String) (value : Bytes)
  | invalidate (slot : String)
  | clear

namespace Write

def puts (writes : List (Row × Bytes)) : List Effect := writes.map fun w => .put w.1 w.2

def rowsOf (table : String) (entries : List (String × Bytes)) : List (Row × Bytes) :=
  entries.map fun e => (⟨table, e.1⟩, e.2)

/-- The tables `validate_table` is asked about. -/
def tables : Write → List String
  | .apply writes deletes | .rewriteTables writes deletes => writes.map (·.1.table) ++ deletes.map Row.table
  | .restore row _ => [row.table]
  | .stream table _ | .replaceTable table _ => [table]

def effects : Write → List Effect
  | .apply writes deletes => puts writes ++ deletes.map .remove
  | .restore row (some data) => [.put row data]
  | .restore row none => [.remove row]
  | .stream table batch => puts (rowsOf table batch)
  | .replaceTable table entries => .drop table :: puts (rowsOf table entries)
  | .rewriteTables writes deletes => deletes.map .remove ++ puts writes

def inserts (writes : List (Row × Bytes)) : List SlotOp := writes.map fun w => .insert (cacheKey w.1) w.2

def ops : Write → List SlotOp
  | .apply writes deletes => inserts writes ++ deletes.map fun r => .invalidate (cacheKey r)
  | .restore row (some data) => [.insert (cacheKey row) data, .insert (cacheKey row) data]
  | .restore row none => [.invalidate (cacheKey row), .invalidate (cacheKey row)]
  | .stream table batch => inserts (rowsOf table batch)
  | .replaceTable _ _ | .rewriteTables _ _ => [.clear]

end Write

/-- Where a call is. -/
inductive SlotCall where
  /-- `get`, before it looks into the cache -/
  | lookup (row : Row)
  /-- `get`, before its snapshot -/
  | read (row : Row)
  /-- `get`, before it puts what it read into the cache -/
  | fill (row : Row) (value : Bytes)
  /-- a write, before its transaction commits -/
  | commit (write : Write)
  /-- a write, after the commit -/
  | update (ops : List SlotOp)
  /-- finished; a `get` has a result for its row -/
  | done (result : Option (Row × Option Bytes))

structure SlotSys where
  rows : Row → Option Bytes
  /-- `memory_cache` -/
  cache : String → Option Bytes
  /-- every value that was ever committed, with its row -/
  committed : List (Row × Bytes)
  calls : List SlotCall

inductive SlotAction where
  | advance (i : Nat)
  /-- the transaction of a call fails, and the call with it -/
  | refuse (i : Nat)
  /-- the cache drops an entry -/
  | evict (slot : String)

def Effect.run (rows : Row → Option Bytes) : Effect → Row → Option Bytes
  | .put row value => Function.update rows row (some value)
  | .remove row => Function.update rows row none
  | .drop table => fun r => if r.table = table then none else rows r

/-- The value an effect commits. -/
def Effect.value : Effect → Option (Row × Bytes)
  | .put row value => some (row, value)
  | _ => none

def SlotOp.run (cache : String → Option Bytes) : SlotOp → String → Option Bytes
  | .insert slot value => Function.update cache slot (some value)
  | .invalidate slot => Function.update cache slot none
  | .clear => fun _ => none

namespace SlotSys

/-- The next step of a call. -/
def advance (s : SlotSys) (i : Nat) : Option SlotSys :=
  match s.calls[i]? with
  | some (.lookup row) =>
      match s.cache (cacheKey row) with
      | some value => some { s with calls := s.calls.set i (.done (some (row, some value))) }
      | none => some { s with calls := s.calls.set i (.read row) }
  | some (.read row) =>
      match s.rows row with
      | some value => some { s with calls := s.calls.set i (.fill row value) }
      | none => some { s with calls := s.calls.set i (.done (some (row, none))) }
  | some (.fill row value) =>
      some { s with
        cache := (SlotOp.insert (cacheKey row) value).run s.cache
        calls := s.calls.set i (.done (some (row, some value))) }
  | some (.commit write) =>
      match validateTables write.tables with
      | .error _ => some { s with calls := s.calls.set i (.done none) }
      | .ok _ =>
          some { s with
            rows := write.effects.foldl Effect.run s.rows
            committed := s.committed ++ write.effects.filterMap Effect.value
            calls := s.calls.set i (.update write.ops) }
  | some (.update []) => some { s with calls := s.calls.set i (.done none) }
  | some (.update (op :: ops)) => some { s with cache := op.run s.cache, calls := s.calls.set i (.update ops) }
  | some (.done _) => none
  | none => none

def step (s : SlotSys) : SlotAction → Option SlotSys
  | .advance i => s.advance i
  | .refuse i =>
      match s.calls[i]? with
      | some (.commit _) => some { s with calls := s.calls.set i (.done none) }
      | _ => none
  | .evict slot => some { s with cache := (SlotOp.invalidate slot).run s.cache }

/-- No call has begun, the cache is empty, and what the rows hold was committed. -/
structure Initial (tables : List String) (s : SlotSys) : Prop where
  rows : ∀ r v, s.rows r = some v → (r, v) ∈ s.committed
  cache : ∀ slot, s.cache slot = none
  calls : ∀ c ∈ s.calls, (∃ row, c = .lookup row ∧ row.table ∈ tables) ∨
    ∃ write, c = .commit write ∧ ∀ t ∈ write.tables, t ∈ tables

/-- A value was committed for a row with this entry. -/
def Owned (tables : List String) (committed : List (Row × Bytes)) (slot : String) (value : Bytes) : Prop :=
  ∃ r, r.table ∈ tables ∧ cacheKey r = slot ∧ (r, value) ∈ committed

/-- What a call carries belongs to its row. -/
def CallOwned (tables : List String) (committed : List (Row × Bytes)) : SlotCall → Prop
  | .lookup row | .read row => row.table ∈ tables
  | .fill row value => row.table ∈ tables ∧ (row, value) ∈ committed
  | .commit write => ∀ t ∈ write.tables, t ∈ tables
  | .update ops => ∀ slot value, .insert slot value ∈ ops → Owned tables committed slot value
  | .done result => ∀ row value, result = some (row, some value) →
      row.table ∈ tables ∧ Owned tables committed (cacheKey row) value

structure Inv (tables : List String) (s : SlotSys) : Prop where
  rows : ∀ r v, s.rows r = some v → (r, v) ∈ s.committed
  cache : ∀ slot value, s.cache slot = some value → Owned tables s.committed slot value
  calls : ∀ c ∈ s.calls, CallOwned tables s.committed c

/-! ## What a step keeps -/

variable {tables : List String}

theorem Owned.mono {committed committed' : List (Row × Bytes)} {slot : String} {value : Bytes}
    (h : Owned tables committed slot value) (hsub : committed ⊆ committed') : Owned tables committed' slot value := by
  obtain ⟨r, ht, hslot, hmem⟩ := h
  exact ⟨r, ht, hslot, hsub hmem⟩

theorem CallOwned.mono {committed committed' : List (Row × Bytes)} {c : SlotCall} (h : CallOwned tables committed c)
    (hsub : committed ⊆ committed') : CallOwned tables committed' c := by
  cases c with
  | lookup row => exact h
  | read row => exact h
  | fill row value => exact ⟨h.1, hsub h.2⟩
  | commit write => exact h
  | update ops => exact fun slot value hop => (h slot value hop).mono hsub
  | done result => exact fun row value heq => ⟨(h row value heq).1, (h row value heq).2.mono hsub⟩

/-- The rows after a transaction hold what was committed before or by it. -/
theorem effects_committed (effects : List Effect) {rows : Row → Option Bytes} {committed : List (Row × Bytes)}
    (h : ∀ r v, rows r = some v → (r, v) ∈ committed) :
    ∀ r v, effects.foldl Effect.run rows r = some v → (r, v) ∈ committed ++ effects.filterMap Effect.value := by
  induction effects generalizing rows committed with
  | nil =>
      intro r v hv
      rw [List.filterMap_nil, List.append_nil]
      exact h r v hv
  | cons e effects ih =>
      intro r v hv
      have hstep : ∀ r v, e.run rows r = some v → (r, v) ∈ committed ++ e.value.toList := by
        intro r v hv
        rw [List.mem_append]
        cases e with
        | put row value =>
            rw [Effect.run, Function.update_apply] at hv
            split at hv
            · rename_i hrow
              cases hv
              exact .inr (by simp [Effect.value, hrow])
            · exact .inl (h r v hv)
        | remove row =>
            rw [Effect.run, Function.update_apply] at hv
            split at hv
            · cases hv
            · exact .inl (h r v hv)
        | drop table =>
            rw [Effect.run] at hv
            dsimp only at hv
            split at hv
            · cases hv
            · exact .inl (h r v hv)
      have hrest := ih hstep r v hv
      rw [List.append_assoc] at hrest
      rw [List.filterMap_cons]
      cases hvalue : e.value with
      | none => simpa [hvalue] using hrest
      | some rv => simpa [hvalue] using hrest

theorem mem_inserts {writes : List (Row × Bytes)} {slot : String} {value : Bytes}
    (h : .insert slot value ∈ Write.inserts writes) : ∃ r, cacheKey r = slot ∧ (r, value) ∈ writes := by
  obtain ⟨⟨r, v⟩, hmem, heq⟩ := List.mem_map.mp h
  cases heq
  exact ⟨r, rfl, hmem⟩

theorem mem_puts {writes : List (Row × Bytes)} {r : Row} {value : Bytes} (h : (r, value) ∈ writes) :
    (r, value) ∈ (Write.puts writes).filterMap Effect.value :=
  List.mem_filterMap.mpr ⟨.put r value, List.mem_map.mpr ⟨_, h, rfl⟩, rfl⟩

/-- A write puts into the cache what it committed, under the entry of its row. -/
theorem ops_committed {write : Write} {slot : String} {value : Bytes} (h : .insert slot value ∈ write.ops) :
    ∃ r, r.table ∈ write.tables ∧ cacheKey r = slot ∧ (r, value) ∈ write.effects.filterMap Effect.value := by
  cases write with
  | apply writes deletes =>
      rcases List.mem_append.mp h with h | h
      · obtain ⟨r, hslot, hmem⟩ := mem_inserts h
        refine ⟨r, List.mem_append_left _ (List.mem_map.mpr ⟨_, hmem, rfl⟩), hslot, ?_⟩
        rw [Write.effects, List.filterMap_append]
        exact List.mem_append_left _ (mem_puts hmem)
      · obtain ⟨r, -, heq⟩ := List.mem_map.mp h
        cases heq
  | restore row data =>
      cases data with
      | none => simp [Write.ops] at h
      | some data =>
          have heq : slot = cacheKey row ∧ value = data := by simpa [Write.ops] using h
          obtain ⟨rfl, rfl⟩ := heq
          exact ⟨row, List.mem_singleton.mpr rfl, rfl, List.mem_singleton.mpr rfl⟩
  | stream table batch =>
      obtain ⟨r, hslot, hmem⟩ := mem_inserts h
      refine ⟨r, ?_, hslot, mem_puts hmem⟩
      obtain ⟨e, -, heq⟩ := List.mem_map.mp hmem
      cases heq
      exact List.mem_singleton.mpr rfl
  | replaceTable table entries => simp [Write.ops] at h
  | rewriteTables writes deletes => simp [Write.ops] at h

theorem op_owned {committed : List (Row × Bytes)} {cache : String → Option Bytes} {op : SlotOp}
    (hcache : ∀ slot value, cache slot = some value → Owned tables committed slot value)
    (hop : ∀ slot value, op = .insert slot value → Owned tables committed slot value) :
    ∀ slot value, op.run cache slot = some value → Owned tables committed slot value := by
  intro slot value h
  cases op with
  | insert slot' value' =>
      rw [SlotOp.run, Function.update_apply] at h
      split at h
      · rename_i hslot
        cases h
        exact hop slot value (by rw [hslot])
      · exact hcache slot value h
  | invalidate slot' =>
      rw [SlotOp.run, Function.update_apply] at h
      split at h
      · cases h
      · exact hcache slot value h
  | clear => cases h

theorem Inv.setCall {s : SlotSys} (h : s.Inv tables) (i : Nat) {c : SlotCall} (hc : CallOwned tables s.committed c) :
    Inv tables { s with calls := s.calls.set i c } := by
  refine ⟨h.rows, h.cache, fun c' hc' => ?_⟩
  rcases List.mem_or_eq_of_mem_set hc' with hmem | rfl
  · exact h.calls c' hmem
  · exact hc

theorem Inv.runOp {s : SlotSys} (h : s.Inv tables) {op : SlotOp}
    (hop : ∀ slot value, op = .insert slot value → Owned tables s.committed slot value) :
    Inv tables { s with cache := op.run s.cache } :=
  ⟨h.rows, op_owned h.cache hop, h.calls⟩

/-- **One step** of any call. -/
theorem step_inv {s s' : SlotSys} {a : SlotAction} (hstep : s.step a = some s') (h : s.Inv tables) : s'.Inv tables := by
  cases a with
  | evict slot =>
      cases hstep
      exact h.runOp fun slot value heq => by cases heq
  | refuse i =>
      unfold step at hstep
      dsimp only at hstep
      split at hstep
      · cases hstep
        exact h.setCall i nofun
      · cases hstep
  | advance i =>
      have hown : ∀ c, s.calls[i]? = some c → CallOwned tables s.committed c :=
        fun c hc => h.calls c (List.mem_of_getElem? hc)
      unfold step advance at hstep
      dsimp only at hstep
      split at hstep
      · rename_i row hc
        split at hstep
        · rename_i value hvalue
          cases hstep
          refine h.setCall i fun row' value' heq => ?_
          cases heq
          exact ⟨hown _ hc, h.cache _ _ hvalue⟩
        · cases hstep
          exact h.setCall i (show row.table ∈ tables from hown _ hc)
      · rename_i row hc
        split at hstep
        · rename_i value hvalue
          cases hstep
          exact h.setCall i ⟨hown _ hc, h.rows row value hvalue⟩
        · cases hstep
          refine h.setCall i fun row' value' heq => ?_
          cases heq
      · -- what was read is put under the entry of its own row
        rename_i row value hc
        cases hstep
        obtain ⟨htable, hmem⟩ := hown _ hc
        have howned : Owned tables s.committed (cacheKey row) value := ⟨row, htable, rfl, hmem⟩
        have hdone : CallOwned tables s.committed (.done (some (row, some value))) := by
          intro row' value' heq
          cases heq
          exact ⟨htable, howned⟩
        refine (h.setCall i hdone).runOp fun slot value' heq => ?_
        cases heq
        exact howned
      · rename_i write hc
        have htables := hown _ hc
        split at hstep
        · cases hstep
          exact h.setCall i nofun
        · cases hstep
          have hsub := List.subset_append_left s.committed (write.effects.filterMap Effect.value)
          refine ⟨effects_committed _ h.rows, fun slot value hv => (h.cache slot value hv).mono hsub, fun c hmem => ?_⟩
          rcases List.mem_or_eq_of_mem_set hmem with hmem | rfl
          · exact (h.calls c hmem).mono hsub
          · intro slot value hop
            obtain ⟨r, ht, hslot, hr⟩ := ops_committed hop
            exact ⟨r, htables _ ht, hslot, List.mem_append_right _ hr⟩
      · cases hstep
        exact h.setCall i nofun
      · rename_i op ops hc
        cases hstep
        have hops := hown _ hc
        have hrest : CallOwned tables s.committed (.update ops) :=
          fun slot value hop => hops slot value (List.mem_cons_of_mem _ hop)
        exact (h.setCall i hrest).runOp fun slot value heq => hops slot value (heq ▸ List.mem_cons_self)
      · cases hstep
      · cases hstep

theorem Initial.inv {s : SlotSys} (h : s.Initial tables) : s.Inv tables := by
  refine ⟨h.rows, fun slot value hv => ?_, fun c hc => ?_⟩
  · rw [h.cache] at hv
    cases hv
  · rcases h.calls c hc with ⟨row, rfl, htable⟩ | ⟨write, rfl, htables⟩
    · exact htable
    · exact htables

end SlotSys

/-! ## Names that are kept apart -/

/-- No table is named like another followed by a colon and more. -/
def Separate (tables : List String) : Prop := ∀ t ∈ tables, ∀ u ∈ tables, ∀ x, u ≠ t ++ ":" ++ x

theorem cacheKey_toList (r : Row) : (cacheKey r).toList = r.table.toList ++ ':' :: r.key.toList := by
  simp [cacheKey]

/-- A name that goes on after another and the colon. -/
theorem table_extends {t u : String} {rest k l : List Char} (htable : u.toList = t.toList ++ rest)
    (hkey : ':' :: k = rest ++ ':' :: l) : (t = u ∧ k = l) ∨ ∃ x, u = t ++ ":" ++ x := by
  cases rest with
  | nil =>
      rw [List.append_nil] at htable
      exact .inl ⟨String.toList_injective htable.symm, by simpa using hkey⟩
  | cons c rest =>
      obtain ⟨rfl, -⟩ := List.cons.inj hkey
      refine .inr ⟨String.ofList rest, String.toList_injective ?_⟩
      simpa using htable

theorem cacheKey_injective {tables : List String} (hsep : Separate tables) {r r' : Row} (hr : r.table ∈ tables)
    (hr' : r'.table ∈ tables) (h : cacheKey r = cacheKey r') : r = r' := by
  have hlist := congrArg String.toList h
  rw [cacheKey_toList, cacheKey_toList, List.append_eq_append_iff] at hlist
  have hrow : ∀ {a b : Row}, a.table = b.table ∧ a.key.toList = b.key.toList → a = b := by
    rintro ⟨t, k⟩ ⟨t', k'⟩ ⟨rfl, hk⟩
    obtain rfl : k = k' := String.toList_injective hk
    rfl
  rcases hlist with ⟨rest, htable, hkey⟩ | ⟨rest, htable, hkey⟩
  · rcases table_extends htable hkey with hsame | ⟨x, hx⟩
    · exact hrow hsame
    · exact absurd hx (hsep _ hr _ hr' x)
  · rcases table_extends htable hkey with hsame | ⟨x, hx⟩
    · exact (hrow hsame).symm
    · exact absurd hx (hsep _ hr' _ hr x)

namespace SlotSys

/-- Every value a finished `get` returned was committed for the row it asked for. -/
def ReadsOwn (s : SlotSys) : Prop :=
  ∀ row value, .done (some (row, some value)) ∈ s.calls → (row, value) ∈ s.committed

theorem reads_own {tables : List String} (hsep : Separate tables) {s s' : SlotSys} {actions : List SlotAction}
    (hstart : s.Initial tables) (hrun : runSteps step s actions = some s') : s'.ReadsOwn := by
  intro row value hdone
  have hinv : s'.Inv tables := runSteps_keeps step_inv hrun hstart.inv
  obtain ⟨htable, r, hr, hslot, hmem⟩ := hinv.calls _ hdone row value rfl
  rwa [cacheKey_injective hsep hr htable hslot] at hmem

/-- One row is set, and then another is read. -/
def setThenGet (written asked : Row) (value : Bytes) : SlotSys :=
  ⟨fun _ => none, fun _ => none, [], [.commit (.apply [(written, value)] []), .lookup asked]⟩

/-- If the two have one entry, the read returns the value of the other row. -/
theorem setThenGet_run {written asked : Row} (value : Bytes) (hvalid : validateTable written.table = .ok ())
    (hslot : cacheKey asked = cacheKey written) :
    ∃ s', runSteps step (setThenGet written asked value) [.advance 0, .advance 0, .advance 1] = some s' ∧
      .done (some (asked, some value)) ∈ s'.calls ∧ s'.committed = [(written, value)] := by
  have htables : validateTables (Write.apply [(written, value)] []).tables = .ok () := by
    simp [Write.tables, validateTables, hvalid, bind, Except.bind]
  refine ⟨_, by
    simp [runSteps, step, advance, setThenGet, htables, Write.ops, Write.inserts, SlotOp.run, hslot]
    rfl, ?_, ?_⟩
  · simp
  · simp [Write.effects, Write.puts, Effect.value]

end SlotSys

end CloveDb.Repository
