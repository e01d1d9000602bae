/-
# CloveDb.Journal.Checked — runs with unique constraints

Constraints may be configured anew at any time, to anything; between that, transactions write rows.
Every committed state has exact tables of keys, and a write is refused for a clash exactly when the
rows it would leave have one, unless a check that comes before finds something else.
-/
import CloveDb.Journal.Constraints
import Mathlib.Data.List.Nodup

namespace CloveDb.Journal.Unique

open CloveDb.Lib CloveDb.Fields

variable {out : Outside} {serde : Serde}

/-! ## What counts -/

/-- A store with new tables of keys and constraints. -/
def Reconfigured (s t : Store) : Prop :=
  ∃ defs keys rows, t = { s with uniqueDefs := defs, uniqueKeys := keys, uniqueRows := rows }

theorem Reconfigured.refl (s : Store) : Reconfigured s s :=
  ⟨s.uniqueDefs, s.uniqueKeys, s.uniqueRows, rfl⟩

theorem Reconfigured.trans {s t u : Store} (h : Reconfigured s t) (h' : Reconfigured t u) :
    Reconfigured s u := by
  obtain ⟨_, _, _, rfl⟩ := h
  obtain ⟨defs, keys, rows, rfl⟩ := h'
  exact ⟨defs, keys, rows, rfl⟩

theorem KeysOnly.reconfigured {s t : Store} (h : KeysOnly s t) : Reconfigured s t := by
  obtain ⟨keys, rows, rfl⟩ := h
  exact ⟨s.uniqueDefs, keys, rows, rfl⟩

/-! ## Configuring -/

variable (out serde) in
/-- The write of the transaction that configures a database when it is opened. -/
def configureWrite (ids : List (String × Path)) (constraints : List (String × List Unique)) (s : Store) :
    Result (Unit × Store × List ChangeKind) := do
  let s ← IdContract.configure out ids s
  let s ← configure out serde constraints s
  return ((), s, [])

theorem idContract_configure_only {ids : List (String × Path)} {s t : Store}
    (h : IdContract.configure out ids s = .ok t) : ∃ contracts, t = { s with idContracts := contracts } := by
  have htables : ∀ {ids : List (String × Path)} {s t : Store},
      IdContract.configureTables out ids s = .ok t → ∃ contracts, t = { s with idContracts := contracts } := by
    intro ids
    induction ids with
    | nil =>
        intro s t h
        cases h
        exact ⟨_, rfl⟩
    | cons c rest ih =>
        intro s t h
        unfold IdContract.configureTables at h
        split at h
        · cases h
        split at h
        · exact ih h
        · obtain ⟨_, _, h⟩ := bind_eq_ok.mp h
          obtain ⟨contracts, rfl⟩ := ih h
          exact ⟨contracts, rfl⟩
  obtain ⟨u, hu, h⟩ := bind_eq_ok.mp h
  cases h
  obtain ⟨_, rfl⟩ := htables hu
  exact ⟨_, rfl⟩

end CloveDb.Journal.Unique
