/-
# CloveDb.Journal.Identity — rows that carry their own key

A table may have an id contract: a plain path at which each row holds its own key as a string. The
contract is checked against the rows that are there when it is recorded, and against every effect of
every later transaction: an upsert by its bytes, a reset by the rows of its image. Effects rebuild the
tables, so a run that starts without contracts never has a row that breaks one.
-/
import CloveDb.Journal.Checked

namespace CloveDb.Journal

open CloveDb.Lib CloveDb.Fields

variable {out : Outside} {serde : Serde}

/-! ## Rows that pass -/

/-- Every row of a table passes the check of a contract. -/
def Passes (out : Outside) (path : Path) (rows : Table String Bytes) : Prop :=
  ∀ key bytes, rows.get key = some bytes → IdContract.check out path key bytes = .ok ()

theorem passes_of_checkRows {path : Path} {rows : Table String Bytes}
    (h : IdContract.checkRows out path rows = .ok ()) : Passes out path rows := by
  intro key bytes hget
  obtain ⟨units, hunits, -⟩ := bind_eq_ok.mp h
  obtain ⟨⟨⟩, -, hcheck⟩ := exists_collect hunits ((rows.mem_rows_iff key bytes).mpr hget)
  exact hcheck

/-- What `validate` says of one effect, for a table whose contract is `path`. -/
theorem validateEffect_passes {s : Store} {e : ChangeKind} {table : String} {path : Path}
    (hpath : s.idContracts.get table = some path) (he : IdContract.validateEffect out s e = .ok ())
    {m : Rows} (hm : Passes out path (m table)) :
    Passes out path (Recorded.apply m ⟨e, (e.snapshot.map s.rows).getD .empty⟩ table) := by
  cases e with
  | upsert t key value =>
      by_cases htable : table = t
      · subst htable
        simp only [IdContract.validateEffect, hpath] at he
        intro k bytes hget
        simp only [Recorded.apply, if_true, Table.get_insert] at hget
        split at hget
        · rename_i hk
          cases hget
          rw [hk]
          exact he
        · exact hm k bytes hget
      · simpa only [Recorded.apply, if_neg htable] using hm
  | delete t key =>
      by_cases htable : table = t
      · subst htable
        intro k bytes hget
        simp only [Recorded.apply, if_true, Table.get_remove] at hget
        split at hget
        · cases hget
        · exact hm k bytes hget
      · simpa only [Recorded.apply, if_neg htable] using hm
  | tableReset t snapshot =>
      by_cases htable : table = t
      · subst htable
        simp only [IdContract.validateEffect, hpath] at he
        simp only [Recorded.apply, if_true]
        exact passes_of_checkRows he
      · simpa only [Recorded.apply, if_neg htable] using hm
  | blobPut t key blob size => exact hm
  | blobDelete t key blob size => exact hm

/-- The effects of a transaction that was validated keep the rows of a table passing. -/
theorem replay_passes {s : Store} {effects : List ChangeKind} {table : String} {path : Path}
    (hpath : s.idContracts.get table = some path) (hv : IdContract.validate out effects s = .ok ())
    {m : Rows} (hm : Passes out path (m table)) :
    Passes out path (replay (recorded s effects) m table) := by
  obtain ⟨units, hunits, -⟩ := bind_eq_ok.mp hv
  induction effects generalizing m units with
  | nil => exact hm
  | cons e es ih =>
      obtain ⟨⟨⟩, rest, he, hrest, rfl⟩ := collect_cons_ok.mp hunits
      exact ih (bind_eq_ok.mpr ⟨rest, hrest, rfl⟩) (validateEffect_passes hpath he hm) rest hrest

/-! ## Stores -/

/-- Contracts are on user tables, by plain paths, and the rows of their tables pass. -/
structure Identified (out : Outside) (s : Store) : Prop where
  user : ∀ table path, s.idContracts.get table = some path → reserved table = false
  plain : ∀ table path, s.idContracts.get table = some path → IdContract.plain path = true
  rows : ∀ table path, s.idContracts.get table = some path → Passes out path (s.rows table)

/-- Only the contracts and the user tables count. -/
theorem Identified.congr {s t : Store} (h : Identified out s) (hids : t.idContracts = s.idContracts)
    (hrows : ∀ table, reserved table = false → t.rows table = s.rows table) : Identified out t where
  user table path hget := h.user table path (hids ▸ hget)
  plain table path hget := h.plain table path (hids ▸ hget)
  rows table path hget := by
    rw [hids] at hget
    rw [hrows table (h.user table path hget)]
    exact h.rows table path hget

/-- A write that reports what it does, after it was validated. -/
theorem Identified.write {s u : Store} {effects : List ChangeKind} (h : Identified out s)
    (he : Emits s u effects) (hids : u.idContracts = s.idContracts)
    (hv : IdContract.validate out effects u = .ok ()) : Identified out u where
  user table path hget := h.user table path (hids ▸ hget)
  plain table path hget := h.plain table path (hids ▸ hget)
  rows table path hget := by
    have hold : s.idContracts.get table = some path := hids ▸ hget
    rw [← he.user s.rows table (h.user table path hold) (.inl rfl)]
    exact replay_passes hget hv (h.rows table path hold)

/-! ## Configuring -/

theorem configureTables_identified {ids : List (String × Path)} (huser : ∀ c ∈ ids, reserved c.1 = false)
    {s t : Store} (hs : Identified out s) (h : IdContract.configureTables out ids s = .ok t) :
    Identified out t := by
  induction ids generalizing s with
  | nil =>
      cases h
      exact hs
  | cons c rest ih =>
      obtain ⟨table, path⟩ := c
      have hrest : ∀ c ∈ rest, reserved c.1 = false := fun c hc => huser c (List.mem_cons_of_mem _ hc)
      unfold IdContract.configureTables at h
      split at h
      · cases h
      rename_i hplain
      split at h
      · exact ih hrest hs h
      obtain ⟨⟨⟩, hrows, h⟩ := bind_eq_ok.mp h
      -- the new contract was checked against the rows; the others are as before
      refine ih hrest ⟨?_, ?_, ?_⟩ h
      all_goals
        intro other p hget
        rw [Table.get_insert] at hget
        split at hget
      · rename_i heq
        rw [heq]
        exact huser _ List.mem_cons_self
      · exact hs.user other p hget
      · cases hget
        simpa using hplain
      · exact hs.plain other p hget
      · rename_i heq
        cases hget
        rw [heq]
        exact passes_of_checkRows hrows
      · exact hs.rows other p hget

theorem configure_identified {ids : List (String × Path)} (huser : ∀ c ∈ ids, reserved c.1 = false)
    {s t : Store} (hs : Identified out s) (h : IdContract.configure out ids s = .ok t) :
    Identified out t := by
  obtain ⟨u, hu, h⟩ := bind_eq_ok.mp h
  cases h
  have hids := configureTables_identified huser hs hu
  have hsub : ∀ table path, (u.idContracts.retain fun t _ => ids.any fun c => c.1 == t).get table = some path →
      u.idContracts.get table = some path := by
    intro table path hget
    rw [Table.get_retain, Option.filter_eq_some_iff] at hget
    exact hget.1
  exact ⟨fun table path hget => hids.user table path (hsub table path hget),
    fun table path hget => hids.plain table path (hsub table path hget),
    fun table path hget => hids.rows table path (hsub table path hget)⟩

theorem dropTables_reconfigured {configured : List (String × List Unique)} {tables : List String}
    {s t : Store} (h : Unique.dropTables serde configured tables s = .ok t) : Unique.Reconfigured s t := by
  induction tables generalizing s with
  | nil =>
      cases h
      exact .refl _
  | cons table rest ih =>
      unfold Unique.dropTables at h
      split at h
      · exact ih h
      · obtain ⟨u, hu, h⟩ := bind_eq_ok.mp h
        refine (Unique.KeysOnly.reconfigured (Unique.clear_keysOnly serde hu)).trans (.trans ?_ (ih h))
        exact ⟨_, _, _, rfl⟩

theorem configureTable_reconfigured {old : Table String (List Unique)} {s t : Store} {table : String}
    {defs : List Unique} (h : Unique.configureTable out serde old s table defs = .ok t) :
    Unique.Reconfigured s t := by
  unfold Unique.configureTable at h
  split at h
  · cases h
  split at h
  · cases h
    exact .refl _
  obtain ⟨ks, _, h⟩ := bind_eq_ok.mp h
  dsimp only at h
  split at h
  · cases h
  obtain ⟨u, hu, h⟩ := bind_eq_ok.mp h
  obtain ⟨v, hv, h⟩ := bind_eq_ok.mp h
  cases h
  rw [Unique.insertAll_eq] at hv
  have hkeys := (Unique.clear_keysOnly serde hu).trans (Unique.insertEntries_keysOnly hv)
  exact hkeys.reconfigured.trans ⟨_, _, _, rfl⟩

theorem configureTables_reconfigured {old : Table String (List Unique)}
    {configured : List (String × List Unique)} {s t : Store}
    (h : Unique.configureTables out serde old configured s = .ok t) : Unique.Reconfigured s t := by
  induction configured generalizing s with
  | nil =>
      cases h
      exact .refl _
  | cons c rest ih =>
      obtain ⟨u, hu, h⟩ := bind_eq_ok.mp h
      exact (configureTable_reconfigured hu).trans (ih h)

/-- The constraints of the same transaction leave rows and contracts alone. -/
theorem unique_configure_reconfigured {configured : List (String × List Unique)} {s t : Store}
    (h : Unique.configure out serde configured s = .ok t) : Unique.Reconfigured s t := by
  obtain ⟨u, hdrop, h⟩ := bind_eq_ok.mp h
  exact (dropTables_reconfigured hdrop).trans (configureTables_reconfigured h)

theorem Unique.Reconfigured.identified {s t : Store} (h : Unique.Reconfigured s t) (hs : Identified out s) :
    Identified out t := by
  obtain ⟨_, _, _, rfl⟩ := h
  exact hs.congr rfl fun _ _ => rfl

/-! ## Recording -/

theorem apart_idContracts : Apart Store.idContracts := fun _ _ _ _ => rfl

theorem HoldsWith.record_contracts {hist : List Recorded} {base : Store} {p : Nat} {effects : List ChangeKind}
    {s t : Store} (h : HoldsWith Store.idContracts hist base p s) (hr : record out serde effects s = .ok t) :
    HoldsWith Store.idContracts hist base p t := by
  refine ⟨h.1.record hr, ?_⟩
  obtain ⟨_, u, hu, lastWrite, l, _, rfl⟩ := record_ok hr
  obtain ⟨_, _, rfl⟩ := Unique.validate_keysOnly out serde hu
  exact h.2

theorem HoldsWith.identified {hist : List Recorded} {base : Store} {p : Nat} {s : Store}
    (h : HoldsWith Store.idContracts hist base p s) (hbase : Identified out base) : Identified out s :=
  hbase.congr h.2 h.1.2

/-! ## Runs -/

section

variable (mgr : Manager) (out : Outside) (serde : Serde)

/-- A committed transaction of a database with contracts. The tables of a configuration are the
registered ones, whose names were checked when the database was opened; no other transaction writes
the contracts. -/
inductive ContractStep : List Recorded × Store → List Recorded × Store → Prop
  | transaction {x y : List Recorded × Store} (step : Step mgr out serde x y)
      (contracts : y.2.idContracts = x.2.idContracts) : ContractStep x y
  | configure {hist : List Recorded} {s t : Store} (retention : Retention) (ids : List (String × Path))
      (constraints : List (String × List Unique)) (registered : validateTables (ids.map Prod.fst) = .ok ())
      (committed : writeWithSink out serde retention (Unique.configureWrite out serde ids constraints) s
        = .ok ((), t)) : ContractStep (hist, s) (hist, t)

end

variable {mgr : Manager}

/-- A transaction that writes data. -/
theorem step_identified {x y : List Recorded × Store} (h : Step mgr out serde x y)
    (hids : y.2.idContracts = x.2.idContracts) (hx : Sound x) (hi : Identified out x.2) :
    Identified out y.2 := by
  obtain ⟨hist, s⟩ := x
  obtain ⟨hist', t⟩ := y
  obtain ⟨p, hf, himages⟩ := hx
  rcases h.emits himages.fresh with ⟨retention, α, f, output, u, effects, rfl, made, he, committed⟩ |
    ⟨retention, call, output, rfl, committed⟩
  · have hkeeps := kept_with apart_idContracts (hist ++ recorded u effects) u
    rw [List.map_append, map_kind_recorded] at hkeeps
    have hp : p ≤ hist.length := by simpa using hf.pruned
    obtain ⟨⟨_, _, hall⟩, -⟩ := writeWithSink_follows hkeeps made (he.log ▸ hf)
      (fun v hv => HoldsWith.record_contracts ⟨⟨himages.append hp he, fun _ _ => rfl⟩, rfl⟩ hv) committed
    -- the transaction was validated under the contracts it leaves
    obtain ⟨u', effects', v, _, made', hrecord, _⟩ := writeWithSink_ok committed
    rw [made] at made'
    cases made'
    exact hall.identified (hi.write he (hall.2.symm.trans hids) (record_ok hrecord).1)
  · obtain ⟨_, _, hall⟩ := consumerCall_follows (kept_with apart_idContracts hist' s) hf
      ⟨⟨himages, fun _ _ => rfl⟩, rfl⟩ (fun _ hu _ hv => hu.record_contracts hv) committed
    exact hall.identified hi

/-- Configuring is a transaction without effects. -/
theorem configure_step {hist : List Recorded} {s t : Store} {retention : Retention}
    {ids : List (String × Path)} {constraints : List (String × List Unique)}
    (registered : validateTables (ids.map Prod.fst) = .ok ())
    (committed : writeWithSink out serde retention (Unique.configureWrite out serde ids constraints) s
      = .ok ((), t)) (hx : Sound (hist, s)) (hi : Identified out s) :
    Sound (hist, t) ∧ Identified out t := by
  obtain ⟨p, hf, himages⟩ := hx
  obtain ⟨u, effects, _, _, made, _⟩ := writeWithSink_ok committed
  have made' := made
  obtain ⟨v, hids, made⟩ := bind_eq_ok.mp made
  obtain ⟨w, hconfigure, made⟩ := bind_eq_ok.mp made
  cases made
  have huser : ∀ c ∈ ids, reserved c.1 = false :=
    fun c hc => validateTables_ok registered c.1 (List.mem_map_of_mem hc)
  have hre := unique_configure_reconfigured hconfigure
  have hu := hre.identified (configure_identified huser hi hids)
  obtain ⟨contracts, rfl⟩ := Unique.idContract_configure_only hids
  have himages' : Images hist p u := by
    obtain ⟨_, _, _, rfl⟩ := hre
    exact Images.data (s := s) rfl rfl himages
  have hlog : u.log = s.log := by
    obtain ⟨_, _, _, rfl⟩ := hre
    rfl
  have hkeeps := kept_with apart_idContracts hist u
  rw [← List.append_nil (hist.map Recorded.kind)] at hkeeps
  obtain ⟨⟨p', hf', hall⟩, -⟩ := writeWithSink_follows hkeeps made' (hlog ▸ hf)
    (fun v hv => HoldsWith.record_contracts ⟨⟨himages', fun _ _ => rfl⟩, rfl⟩ hv) committed
  rw [List.append_nil] at hf'
  exact ⟨⟨p', hf', hall.1.1⟩, hall.identified hu⟩

theorem contractStep_identified {x y : List Recorded × Store} (h : ContractStep mgr out serde x y)
    (hx : Sound x) (hi : Identified out x.2) : Sound y ∧ Identified out y.2 := by
  cases h with
  | transaction step contracts => exact ⟨(step_replays step hx).1, step_identified step contracts hx hi⟩
  | configure retention ids constraints registered committed => exact configure_step registered committed hx hi

open Relation in
/-- Every state of a run from a new database without contracts keeps the contracts it has then. -/
theorem contractRun_identified {uuid : Bytes} {s : Store}
    (hs : ∀ name, reserved name = true → s.rows name = .empty) (hids : s.idContracts = .empty)
    {y : List Recorded × Store}
    (h : ReflTransGen (ContractStep mgr out serde) ([], initializeLog uuid s) y) :
    Sound y ∧ Identified out y.2 := by
  induction h with
  | refl =>
      have hnone : ∀ table path, (initializeLog uuid s).idContracts.get table ≠ some path := by
        intro table path hget
        change s.idContracts.get table = some path at hget
        rw [hids] at hget
        cases hget
      exact ⟨sound_start uuid hs, fun table path hget => absurd hget (hnone table path),
        fun table path hget => absurd hget (hnone table path), fun table path hget => absurd hget (hnone table path)⟩
  | tail _ hstep ih => exact contractStep_identified hstep ih.1 ih.2

end CloveDb.Journal
