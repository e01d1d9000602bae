/-
# CloveDb.Journal.Unique — the synchronous checks of a transaction

`unique.rs` and `id_contract.rs`. A unique constraint has a key for each row that has a value on all
its paths; `__unique_keys` maps each key to its row and `__unique_rows` lists the keys of each row. A
transaction first takes out the keys of every row it changed, then puts in those of the rows it
left. An id contract says which path of a row holds the row's own key.
-/
import CloveDb.Journal.Store
import Mathlib.Data.Prod.Lex

namespace CloveDb.Journal

open CloveDb.Lib CloveDb.Fields

variable (out : Outside) (serde : Serde)

namespace Unique

/-! ## Keys -/

/-- The values on the paths of a constraint; `none` when one of them is missing or null. -/
def keyValues (bytes : Bytes) : List Path → Result (Option (List Value))
  | [] => .ok (some [])
  | p :: ps =>
      if p.steps.any Step.quantifies then
        .error (.validation "unique requires scalar paths")
      else do
        let v ← pathValue out bytes p
        if v.isEmpty then return none
        else
          let vs ← keyValues bytes ps
          return vs.map (v :: ·)

/-- The keys of the constraints from number `i` on. -/
def keysFrom (table : String) (bytes : Bytes) : Nat → List Unique → Result (List Bytes)
  | _, [] => .ok []
  | i, d :: ds => do
      match ← keyValues out bytes d with
      | none => keysFrom table bytes (i + 1) ds
      | some [] => keysFrom table bytes (i + 1) ds
      | some (v :: vs) =>
          let tuple ← Codec.encodeTuple out (v :: vs)
          let rest ← keysFrom table bytes (i + 1) ds
          return (serde.index table i ++ tuple) :: rest

/-- `keys`: the keys of a row under the constraints of its table. -/
def keys (table : String) (bytes : Bytes) (defs : List Unique) : Result (List Bytes) :=
  keysFrom out serde table bytes 0 defs

/-! ## Rows in and out -/

/-- `remove`: take out the keys of a row. -/
def remove (s : Store) (table row : String) : Store :=
  let k := serde.pair table row
  match s.uniqueRows.get k with
  | none => s
  | some old => { s with
      uniqueRows := s.uniqueRows.remove k
      uniqueKeys := old.foldl (fun t key => t.remove key) s.uniqueKeys }

/-- The loop of `insert`: a key that another row holds is a violation. -/
def insertKeys (row : String) : List Bytes → Table Bytes String → Result (Table Bytes String)
  | [], t => .ok t
  | key :: ks, t =>
      match t.get key with
      | some other =>
          if other ≠ row then .error .uniqueViolation else insertKeys row ks (t.insert key row)
      | none => insertKeys row ks (t.insert key row)

/-- `insert`: put in the keys of a row. -/
def insert (s : Store) (table row : String) (bytes : Bytes) (defs : List Unique) : Result Store := do
  let ks ← keys out serde table bytes defs
  let t ← insertKeys row ks s.uniqueKeys
  let s := { s with uniqueKeys := t }
  if ks.isEmpty then return s
  else return { s with uniqueRows := s.uniqueRows.insert (serde.pair table row) ks }

/-- `clear`: take out the keys of all rows of a table. -/
def clear (s : Store) (table : String) : Result Store := do
  let rows ← serde.unpairAll s.uniqueRows.keys
  return rows.foldl (fun s r => if r.1 = table then remove serde s table r.2 else s) s

/-- Rows put in one after the other. -/
def insertAll (table : String) (defs : List Unique) : List (String × Bytes) → Store → Result Store
  | [], s => .ok s
  | (k, v) :: rows, s => do
      let s ← insert out serde s table k v defs
      insertAll table defs rows s

/-! ## Configuring -/

/-- How many keys more than one row of a table has. -/
def duplicateGroups (ks : List Bytes) : Nat :=
  (ks.dedup.filter fun k => 1 < ks.count k).length

/-- The turn of one table in `configure`. -/
def configureTable (old : Table String (List Unique)) (s : Store) (table : String)
    (defs : List Unique) : Result Store :=
  if defs.any fun d => d.any fun p => p.steps.any Step.quantifies then
    .error (.validation "unique requires scalar paths")
  else if old.get table = some defs then .ok s
  else do
    let rows := (s.rows table).rows
    let ks ← collect (fun r => keys out serde table r.2 defs) rows
    let groups := duplicateGroups ks.flatten
    if 0 < groups then .error (.duplicateGroups groups)
    else
      let s ← clear serde s table
      let s ← insertAll out serde table defs rows s
      return { s with uniqueDefs := s.uniqueDefs.insert table defs }

/-- Tables that are no longer configured lose their constraints. -/
def dropTables (configured : List (String × List Unique)) : List String → Store → Result Store
  | [], s => .ok s
  | table :: rest, s =>
      if configured.any fun c => c.1 == table then dropTables configured rest s
      else do
        let s ← clear serde s table
        dropTables configured rest { s with uniqueDefs := s.uniqueDefs.remove table }

def configureTables (old : Table String (List Unique)) :
    List (String × List Unique) → Store → Result Store
  | [], s => .ok s
  | (table, defs) :: rest, s => do
      let s ← configureTable out serde old s table defs
      configureTables old rest s

/-- `configure` -/
def configure (configured : List (String × List Unique)) (s : Store) : Result Store := do
  let old := s.uniqueDefs
  let s ← dropTables serde configured old.keys s
  configureTables out serde old configured s

/-! ## Validating -/

/-- An ordered set of rows. -/
abbrev Rows := Table (Lex (String × String)) Unit

/-- The changed rows and the reset tables that an effect adds, among the constrained ones. -/
def note (defs : Table String (List Unique)) (acc : Rows × Table String Unit) :
    ChangeKind → Rows × Table String Unit
  | .upsert table key _ =>
      if (defs.get table).isSome then (acc.1.insert (toLex (table, key)) (), acc.2) else acc
  | .delete table key =>
      if (defs.get table).isSome then (acc.1.insert (toLex (table, key)) (), acc.2) else acc
  | .tableReset table _ =>
      if (defs.get table).isSome then (acc.1, acc.2.insert table ()) else acc
  | _ => acc

/-- The reset tables: their keys go, and all their rows count as changed. -/
def resetTables : List String → Store × Rows → Result (Store × Rows)
  | [], acc => .ok acc
  | table :: rest, (s, changed) => do
      let s ← clear serde s table
      let changed := (s.rows table).keys.foldl (fun c k => c.insert (toLex (table, k)) ()) changed
      resetTables rest (s, changed)

/-- The keys of the changed rows that are still there. -/
def insertChanged : List (Lex (String × String)) → Store → Result Store
  | [], s => .ok s
  | r :: rest, s =>
      match s.uniqueDefs.get (ofLex r).1, (s.rows (ofLex r).1).get (ofLex r).2 with
      | some defs, some bytes => do
          let s ← insert out serde s (ofLex r).1 (ofLex r).2 bytes defs
          insertChanged rest s
      | _, _ => insertChanged rest s

/-- `validate`: take out the keys of every changed row, then put in those of the rows left. -/
def validate (effects : List ChangeKind) (s : Store) : Result Store :=
  if s.uniqueDefs.rows.isEmpty then .ok s
  else do
    let (changed, resets) := effects.foldl (note s.uniqueDefs) (.empty, .empty)
    let (s, changed) ← resetTables serde resets.keys (s, changed)
    let s := changed.keys.foldl (fun s r => remove serde s (ofLex r).1 (ofLex r).2) s
    insertChanged out serde changed.keys s

/-! ## What the checks touch -/

/-- `t` differs from `s` in the two tables of keys only. -/
def KeysOnly (s t : Store) : Prop :=
  ∃ keys rows, t = { s with uniqueKeys := keys, uniqueRows := rows }

theorem KeysOnly.refl (s : Store) : KeysOnly s s := ⟨s.uniqueKeys, s.uniqueRows, rfl⟩

theorem KeysOnly.trans {a b c : Store} (h : KeysOnly a b) (h' : KeysOnly b c) : KeysOnly a c := by
  obtain ⟨keys, rows, rfl⟩ := h
  obtain ⟨keys', rows', rfl⟩ := h'
  exact ⟨keys', rows', rfl⟩

theorem KeysOnly.foldl {α : Type} {f : Store → α → Store} (hf : ∀ s a, KeysOnly s (f s a))
    (as : List α) (s : Store) : KeysOnly s (as.foldl f s) := by
  induction as generalizing s with
  | nil => exact .refl s
  | cons a as ih => exact (hf s a).trans (ih (f s a))

theorem remove_keysOnly (s : Store) (table row : String) : KeysOnly s (remove serde s table row) := by
  unfold remove
  dsimp only
  split
  · exact .refl s
  · exact ⟨_, _, rfl⟩

theorem insert_keysOnly {s t : Store} {table row : String} {bytes : Bytes} {defs : List Unique}
    (h : insert out serde s table row bytes defs = .ok t) : KeysOnly s t := by
  unfold insert at h
  obtain ⟨ks, _, h⟩ := bind_eq_ok.mp h
  obtain ⟨keys, _, h⟩ := bind_eq_ok.mp h
  dsimp only at h
  split at h
  · cases h
    exact ⟨keys, _, rfl⟩
  · cases h
    exact ⟨keys, _, rfl⟩

theorem clear_keysOnly {s t : Store} {table : String} (h : clear serde s table = .ok t) :
    KeysOnly s t := by
  unfold clear at h
  obtain ⟨rows, _, h⟩ := bind_eq_ok.mp h
  cases h
  refine KeysOnly.foldl (fun s r => ?_) rows s
  split
  · exact remove_keysOnly serde s table r.2
  · exact .refl s

theorem resetTables_keysOnly {tables : List String} {s t : Store} {changed changed' : Rows}
    (h : resetTables serde tables (s, changed) = .ok (t, changed')) : KeysOnly s t := by
  induction tables generalizing s changed with
  | nil =>
      cases h
      exact .refl _
  | cons table rest ih =>
      obtain ⟨u, hu, h⟩ := bind_eq_ok.mp h
      exact (clear_keysOnly serde hu).trans (ih h)

theorem insertChanged_keysOnly {rows : List (Lex (String × String))} {s t : Store}
    (h : insertChanged out serde rows s = .ok t) : KeysOnly s t := by
  induction rows generalizing s with
  | nil =>
      cases h
      exact .refl _
  | cons r rest ih =>
      unfold insertChanged at h
      split at h
      · obtain ⟨u, hu, h⟩ := bind_eq_ok.mp h
        exact (insert_keysOnly out serde hu).trans (ih h)
      · exact ih h

/-- A validated transaction has its own data, and new keys at most. -/
theorem validate_keysOnly {effects : List ChangeKind} {s t : Store}
    (h : validate out serde effects s = .ok t) : KeysOnly s t := by
  unfold validate at h
  split at h
  · cases h
    exact .refl _
  · obtain ⟨⟨u, changed⟩, hu, h⟩ := bind_eq_ok.mp h
    exact (resetTables_keysOnly serde hu).trans
      ((KeysOnly.foldl (fun s r => remove_keysOnly serde s _ _) changed.keys u).trans
        (insertChanged_keysOnly out serde h))

end Unique

/-! ## Id contracts -/

namespace IdContract

/-- `check`: the path holds the row's own key. -/
def check (path : Path) (key : String) (bytes : Bytes) : Result Unit := do
  match ← pathValue out bytes path with
  | .string id => if id = key then return () else .error .idFieldMismatch
  | _ => .error .idFieldMismatch

/-- An untransformed path of keys and indexes. -/
def plain (path : Path) : Bool :=
  path.kind = .auto && path.transforms.isEmpty && path.steps.all fun s =>
    match s with
    | .key _ => true
    | .index _ => true
    | _ => false

def checkRows (path : Path) (rows : Table String Bytes) : Result Unit := do
  let _ ← collect (fun r => check out path r.1 r.2) rows.rows
  return ()

def configureTables : List (String × Path) → Store → Result Store
  | [], s => .ok s
  | (table, path) :: rest, s =>
      if !plain path then .error (.validation "id_field requires an untransformed scalar path")
      else if s.idContracts.get table = some path then configureTables rest s
      else do
        checkRows out path (s.rows table)
        configureTables rest { s with idContracts := s.idContracts.insert table path }

/-- `configure` -/
def configure (configured : List (String × Path)) (s : Store) : Result Store := do
  let s ← configureTables out configured s
  return { s with idContracts := s.idContracts.retain fun t _ => configured.any fun c => c.1 == t }

def validateEffect (s : Store) (effect : ChangeKind) : Result Unit :=
  match effect with
  | .upsert table key value =>
      match s.idContracts.get table with
      | none => .ok ()
      | some path => check out path key value
  | .tableReset table snapshot =>
      match s.idContracts.get table with
      | none => .ok ()
      | some path => checkRows out path (s.rows snapshot)
  | _ => .ok ()

/-- `validate` -/
def validate (effects : List ChangeKind) (s : Store) : Result Unit := do
  let _ ← collect (validateEffect out s) effects
  return ()

end IdContract

end CloveDb.Journal
