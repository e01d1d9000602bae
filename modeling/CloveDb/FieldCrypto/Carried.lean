/-
# CloveDb.FieldCrypto.Carried — keys that outlive their roots

`field_crypto/carried.rs` and the planning half of `migration/encrypted/rekey.rs`. A verification hash and a search
fingerprint cannot be made again, so when the roots of a database change the key each was made with is sealed under the
new roots and kept in a table of the file. A key change opens what the old file carries, plans what the new roots need,
seals it, and writes the checks of the settings that the new keys make.

The invariant of a chain of changes ties the sealed table to the keys the values were first made with: every entry is
such a key, sealed under the roots of today, and a field without an entry has a key that is still derived as at first.
-/
import CloveDb.FieldCrypto.Keys
import CloveDb.Lib.Table
import Mathlib.Data.List.Sort
import Mathlib.Data.String.Basic

namespace CloveDb.FieldCrypto

open CloveDb.Lib CloveDb.Encrypted

/-- `bad` of the source. -/
def badMigration (why : String) : ClError := .migrationError why

def CarriedKind.code : CarriedKind → UInt8
  | .hash => 1
  | .print => 2

def CarriedKind.fromCode (code : UInt8) : Option CarriedKind :=
  if code = 1 then some .hash else if code = 2 then some .print else none

/-- The name of the entry of a field. -/
def entryName (tableId : String) (fieldId : Nat) : String := numberedName tableId fieldId

def parseName (name : String) : Result (String × Nat) :=
  match rsplitColon name with
  | none => .error (badMigration "an entry of the carried keys has a name that is not one")
  | some (tableId, field) =>
      match parseBelow (2 ^ 32) field with
      | none => .error (badMigration "an entry of the carried keys has a name that is not one")
      | some fieldId => .ok (tableId, fieldId)

/-- `aad` of an entry. -/
def carriedAad (kind : CarriedKind) (tableId : String) (fieldId : Nat) : Bytes :=
  utf8 "carried/v1" ++ kind.code :: (leBytes 8 (utf8 tableId).length ++ utf8 tableId ++ leBytes 4 fieldId)

section Entries

variable {Root N : Type} (crypto : Primitives Root N) (keys : FieldKeys Root)

/-- `carried_seal_key`: from the read root for a hash, from the search root for a fingerprint. -/
def carriedSealKey (kind : CarriedKind) (tableId : String) (fieldId : Nat) : Result (Option Key32) :=
  let scope : Scope := ⟨"carried-keys", entryName tableId fieldId⟩
  match kind with
  | .hash =>
      match keys.read with
      | none => .ok none
      | some root => do
          let key ← derived (crypto.encryptionKey root keys.suite.hkdf scope)
          .ok (some key)
  | .print =>
      match keys.search with
      | none => .ok none
      | some root => do
          let key ← derived (crypto.fullFingerprintKey root keys.suite.hkdf scope)
          .ok (some key)

def sealEntry (nonce : N) (kind : CarriedKind) (tableId : String) (fieldId : Nat) (key : Key32) : Result Bytes := do
  match ← carriedSealKey crypto keys kind tableId fieldId with
  | none =>
      match kind with
      | .hash => .error (badMigration "this program holds no read key; a carried key cannot be sealed")
      | .print => .error (badMigration "this program holds no search key; a carried key cannot be sealed")
  | some sealKey =>
      .ok (1 :: kind.code ::
        (crypto.aead keys.suite.cipher sealKey).sealInto nonce (carriedAad kind tableId fieldId) key.bytes)

def openEntry (tableId : String) (fieldId : Nat) (stored : Bytes) : Result (Option (CarriedKind × Key32)) :=
  let unknown := badMigration "an entry of the carried keys is of a form this version does not know"
  match stored with
  | version :: code :: sealed =>
      if version ≠ 1 then .error unknown
      else
        match CarriedKind.fromCode code with
        | none => .error unknown
        | some kind => do
            match ← carriedSealKey crypto keys kind tableId fieldId with
            | none => .ok none
            | some sealKey =>
                match (crypto.aead keys.suite.cipher sealKey).openInPlace (carriedAad kind tableId fieldId) sealed with
                | none => .error .dataTampered
                | some opened =>
                    match Key32.fromSlice opened with
                    | none => .error .dataTampered
                    | some key => .ok (some (kind, key))
  | _ => .error unknown

/-- Open one entry and put its key in place. -/
def loadRow (row : String × Bytes) : Result (FieldKeys Root) := do
  let (tableId, fieldId) ← parseName row.1
  match ← openEntry crypto keys tableId fieldId row.2 with
  | none => .ok keys
  | some (kind, key) => .ok (keys.installCarried kind tableId fieldId key)

def loadRows : List (String × Bytes) → FieldKeys Root → Result (FieldKeys Root)
  | [], keys => .ok keys
  | row :: rows, keys => do
      let keys ← loadRow crypto keys row
      loadRows rows keys

/-- `load`: the keys after reading the table of carried keys; a file without the table changes nothing. -/
def load (table : Option (Table String Bytes)) : Result (FieldKeys Root) :=
  match table with
  | none => .ok keys
  | some table => loadRows crypto table.rows keys

end Entries

/-! ## A change of keys -/

structure CarryItem where
  tableId : String
  fieldId : Nat
  kind : CarriedKind
  key : Key32

/-- `PROBE`. -/
def probe : String := "roots-probe"

section Plan

variable {Root N : Type} (crypto : Primitives Root N) (old new : FieldKeys Root)

def hashRootChanged : Result Bool := do
  let a ← old.hashKey crypto probe 0
  let b ← new.hashKey crypto probe 0
  .ok (decide (a ≠ b))

def printRootChanged : Result Bool := do
  let a ← old.printKey crypto probe 0
  let b ← new.printKey crypto probe 0
  .ok (decide (a ≠ b))

/-- What one field of a table needs carried. -/
def carryField (tableId : String) (spec : SealedSpec) : Result (List CarryItem) :=
  match spec.method with
  | .hash => do
      if ← hashRootChanged crypto old new then
        let key ← old.hashKey crypto tableId spec.id
        .ok [⟨tableId, spec.id, .hash, key⟩]
      else .ok []
  | .searchPrint => do
      if ← printRootChanged crypto old new then
        let key ← old.printKey crypto tableId spec.id
        .ok [⟨tableId, spec.id, .print, key⟩]
      else .ok []
  | _ => .ok []

def carryPlan (tableId : String) (specs : List SealedSpec) : Result (List CarryItem) := do
  let items ← collect (carryField crypto old new tableId) specs
  .ok items.flatten

def installItems (keys : FieldKeys Root) (items : List CarryItem) : FieldKeys Root :=
  items.foldl (fun keys item => keys.installCarried item.kind item.tableId item.fieldId item.key) keys

/-- An old entry in the new table: nothing when an item replaces it, else opened and sealed again. `nonce` is what the
cipher draws for the entry of a name. -/
def resealRow (nonce : String → N) (items : List CarryItem) (row : String × Bytes) : Result (List (String × Bytes)) := do
  let (tableId, fieldId) ← parseName row.1
  if items.any fun item => item.tableId == tableId && item.fieldId == fieldId then .ok []
  else
    match ← openEntry crypto old tableId fieldId row.2 with
    | none =>
        .error (badMigration
          "an entry of the carried keys cannot be opened with these keys, so it cannot be carried on; nothing was changed")
    | some (kind, key) => do
        let stored ← sealEntry crypto new (nonce row.1) kind tableId fieldId key
        .ok [(row.1, stored)]

def sealItem (nonce : String → N) (item : CarryItem) : Result (String × Bytes) := do
  let stored ← sealEntry crypto new (nonce (entryName item.tableId item.fieldId)) item.kind item.tableId item.fieldId item.key
  .ok (entryName item.tableId item.fieldId, stored)

/-- `next_table`; the rows are put into a table by name, so they are not sorted here. -/
def nextTable (nonce : String → N) (oldEntries : List (String × Bytes)) (items : List CarryItem) :
    Result (List (String × Bytes)) := do
  let kept ← collect (resealRow crypto old new nonce items) oldEntries
  let made ← collect (sealItem crypto new nonce) items
  .ok (kept.flatten ++ made)

end Plan

/-- A protected field in the description of a table. -/
structure SealedField where
  id : Nat
  check : Option String
  deriving DecidableEq

structure TableMeta where
  name : String
  tableId : Option String
  fields : List SealedField
  deriving DecidableEq

/-- The parts of a database file that a change of keys reads and writes here. -/
structure KeyedFile where
  tables : List TableMeta
  carried : Option (Table String Bytes)

/-- The rows of the table of carried keys. -/
def KeyedFile.rows (file : KeyedFile) : List (String × Bytes) := (file.carried.map Table.rows).getD []

/-- A table with protected fields as the program declares it. -/
structure Declared where
  table : String
  specs : List SealedSpec

structure Resolved where
  table : String
  tableId : String
  specs : List SealedSpec

/-- One table in `resolve`: none when it has no protected fields. -/
def resolveTable (declared : List Declared) (table : TableMeta) : Result (Option Resolved) :=
  match declared.find? fun d => d.table == table.name with
  | none =>
      if table.fields = [] then .ok none
      else .error (badMigration "a table has protected fields that the program did not declare; nothing was changed")
  | some found =>
      match table.tableId with
      | none => .error (badMigration "a table with protected fields has no identity; nothing was changed")
      | some tableId =>
          if (table.fields.map SealedField.id).insertionSort (· ≤ ·) ≠ (found.specs.map SealedSpec.id).insertionSort (· ≤ ·) then
            .error (badMigration
              "the protected fields declared for a table are not the ones the file holds; nothing was changed")
          else .ok (some ⟨table.name, tableId, found.specs⟩)

def resolve (tables : List TableMeta) (declared : List Declared) : Result (List Resolved) := do
  let resolved ← collect (resolveTable declared) tables
  if declared.any fun d => !tables.any fun t => t.name == d.table then
    .error (badMigration "a table declared with protected fields is not in the file; nothing was changed")
  else .ok (resolved.filterMap id)

/-- `apply_checks`. -/
def applyChecks (checks : List (Nat × Option String)) (fields : List SealedField) : List SealedField :=
  fields.map fun field =>
    match checks.find? fun c => c.1 == field.id with
    | some (_, check) => { field with check }
    | none => field

def TableMeta.withChecks (checks : List (Nat × Option String)) (m : TableMeta) : TableMeta :=
  { m with fields := applyChecks checks m.fields }

/-- Change the first table of a name. -/
def changeTable (name : String) (change : TableMeta → TableMeta) : List TableMeta → List TableMeta
  | [] => []
  | m :: tables => if m.name == name then change m :: tables else m :: changeTable name change tables

section Rekey

variable {Root N : Type} (crypto : Primitives Root N)

structure Rekey (Root : Type) where
  old : FieldKeys Root
  new : FieldKeys Root
  tables : List Resolved
  hadCarried : Bool
  written : List (String × Bytes)

/-- `Rekey::plan`. -/
def plan (file : KeyedFile) (declared : List Declared) (old new : FieldKeys Root) (nonce : String → N) :
    Result (Rekey Root) := do
  let tables ← resolve file.tables declared
  let old ← load crypto old file.carried
  let items ← collect (fun t : Resolved => carryPlan crypto old new t.tableId t.specs) tables
  let new := installItems new items.flatten
  let written ← nextTable crypto old new nonce file.rows items.flatten
  .ok ⟨old, new, tables, file.carried.isSome, written⟩

/-- The description of one table with the checks the new keys make. -/
def remakeTable (new : FieldKeys Root) (t : Resolved) (tables : List TableMeta) : Result (List TableMeta) := do
  let checks ← settingsChecks crypto new t.tableId t.specs
  if tables.any fun m => m.name == t.table then
    .ok (changeTable t.table (TableMeta.withChecks checks) tables)
  else .error (badMigration "a declared table is not in the description")

/-- `remake_meta`. -/
def remakeMeta (new : FieldKeys Root) : List Resolved → List TableMeta → Result (List TableMeta)
  | [], tables => .ok tables
  | t :: ts, tables => do
      let tables ← remakeTable crypto new t tables
      remakeMeta new ts tables

/-- The new file of a change of keys. -/
def changeKeys (file : KeyedFile) (declared : List Declared) (old new : FieldKeys Root) (nonce : String → N) :
    Result KeyedFile := do
  let rekey ← plan crypto file declared old new nonce
  let tables ← remakeMeta crypto rekey.new rekey.tables file.tables
  .ok ⟨tables, if rekey.hadCarried || !rekey.written.isEmpty then some (Table.ofList rekey.written) else none⟩

end Rekey

/-! ## Entries -/

theorem parseName_entryName (tableId : String) {fieldId : Nat} (h : fieldId < 2 ^ 32) :
    parseName (entryName tableId fieldId) = .ok (tableId, fieldId) := by
  rw [parseName, entryName, rsplitColon_numberedName]
  simp only [parseBelow_toDigits h]

theorem entryName_inj {tableId tableId' : String} {fieldId fieldId' : Nat} (h : fieldId < 2 ^ 32) (h' : fieldId' < 2 ^ 32)
    (heq : entryName tableId fieldId = entryName tableId' fieldId') : tableId = tableId' ∧ fieldId = fieldId' := by
  have hparse := parseName_entryName tableId h
  rw [heq, parseName_entryName tableId' h'] at hparse
  have hpair := Except.ok.inj hparse
  exact ⟨(congrArg Prod.fst hpair).symm, (congrArg Prod.snd hpair).symm⟩

theorem CarriedKind.fromCode_code (kind : CarriedKind) : CarriedKind.fromCode kind.code = some kind := by
  cases kind <;> rfl

section Entries

variable {Root N : Type} {crypto : Primitives Root N} {keys keys' : FieldKeys Root}

/-- Carried keys do not matter to the key that seals an entry. -/
theorem carriedSealKey_congr (hsuite : keys'.suite = keys.suite) (hread : keys'.read = keys.read)
    (hsearch : keys'.search = keys.search) (kind : CarriedKind) (tableId : String) (fieldId : Nat) :
    carriedSealKey crypto keys' kind tableId fieldId = carriedSealKey crypto keys kind tableId fieldId := by
  simp only [carriedSealKey, hsuite, hread, hsearch]

theorem sealEntry_eq_ok {nonce : N} {kind : CarriedKind} {tableId : String} {fieldId : Nat} {key : Key32} {stored : Bytes}
    (h : sealEntry crypto keys nonce kind tableId fieldId key = .ok stored) :
    ∃ sealKey, carriedSealKey crypto keys kind tableId fieldId = .ok (some sealKey) ∧
      stored = 1 :: kind.code ::
        (crypto.aead keys.suite.cipher sealKey).sealInto nonce (carriedAad kind tableId fieldId) key.bytes := by
  obtain ⟨found, hfound, hrest⟩ := bind_eq_ok.mp h
  cases found with
  | none => cases kind <;> cases hrest
  | some sealKey => exact ⟨sealKey, hfound, (Except.ok.inj hrest).symm⟩

/-- An entry opens with the seal key it was made with. -/
theorem openEntry_of_seal {nonce : N} {kind : CarriedKind} {tableId : String} {fieldId : Nat} {key : Key32} {stored : Bytes}
    (h : sealEntry crypto keys nonce kind tableId fieldId key = .ok stored) (hsuite : keys'.suite = keys.suite)
    (hkey : carriedSealKey crypto keys' kind tableId fieldId = carriedSealKey crypto keys kind tableId fieldId) :
    openEntry crypto keys' tableId fieldId stored = .ok (some (kind, key)) := by
  obtain ⟨sealKey, hsealKey, rfl⟩ := sealEntry_eq_ok h
  simp only [openEntry, ne_eq, not_true_eq_false, if_false, CarriedKind.fromCode_code, hkey, hsealKey, ok_bind, hsuite,
    (crypto.aead keys.suite.cipher sealKey).open_seal, Key32.fromSlice_bytes]

/-- A program without the root of an entry leaves it closed. -/
theorem openEntry_without_root {nonce : N} {kind : CarriedKind} {tableId : String} {fieldId : Nat} {key : Key32}
    {stored : Bytes} (h : sealEntry crypto keys nonce kind tableId fieldId key = .ok stored)
    (hkey : carriedSealKey crypto keys' kind tableId fieldId = .ok none) :
    openEntry crypto keys' tableId fieldId stored = .ok none := by
  obtain ⟨sealKey, -, rfl⟩ := sealEntry_eq_ok h
  simp only [openEntry, ne_eq, not_true_eq_false, if_false, CarriedKind.fromCode_code, hkey, ok_bind]

end Entries

/-! ## Loading a table of original keys -/

section Loading

variable {Root N : Type} {crypto : Primitives Root N}

/-- The key of a field by what it is a key of. -/
def FieldKeys.keyOf (crypto : Primitives Root N) (keys : FieldKeys Root) : CarriedKind → String → Nat → Result Key32
  | .hash => keys.hashKey crypto
  | .print => keys.printKey crypto

/-- A row is the sealed original key of a field. -/
structure Original (crypto : Primitives Root N) (original : String × Nat × CarriedKind → Result Key32)
    (keys : FieldKeys Root) (row : String × Bytes) (place : String × Nat × CarriedKind) : Prop where
  name : row.1 = entryName place.1 place.2.1
  number : place.2.1 < 2 ^ 32
  sealed : ∃ nonce key, original place = .ok key ∧
    sealEntry crypto keys nonce place.2.2 place.1 place.2.1 key = .ok row.2

/-- A program opens the entry at a place: it holds the root that the kind is sealed under. -/
def Holds (keys : FieldKeys Root) : CarriedKind → Prop
  | .hash => keys.read.isSome = true
  | .print => keys.search.isSome = true

variable {original : String × Nat × CarriedKind → Result Key32} {full keys : FieldKeys Root}

/-- The same roots, or fewer of them. -/
structure PartOf (keys full : FieldKeys Root) : Prop where
  suite : keys.suite = full.suite
  read : keys.read = none ∨ keys.read = full.read
  search : keys.search = none ∨ keys.search = full.search

theorem PartOf.sealKey (h : PartOf keys full) {kind : CarriedKind} (hholds : Holds keys kind) (tableId : String)
    (fieldId : Nat) :
    carriedSealKey crypto keys kind tableId fieldId = carriedSealKey crypto full kind tableId fieldId := by
  cases kind with
  | hash =>
      have hread := h.read.resolve_left fun hnone => by simp [Holds, hnone] at hholds
      simp only [carriedSealKey, hread, h.suite]
  | print =>
      have hsearch := h.search.resolve_left fun hnone => by simp [Holds, hnone] at hholds
      simp only [carriedSealKey, hsearch, h.suite]

theorem sealKey_of_not_holds {kind : CarriedKind} (h : ¬Holds keys kind) (tableId : String) (fieldId : Nat) :
    carriedSealKey crypto keys kind tableId fieldId = .ok none := by
  cases kind with
  | hash =>
      have hread : keys.read = none := by simpa [Holds] using h
      simp only [carriedSealKey, hread]
  | print =>
      have hsearch : keys.search = none := by simpa [Holds] using h
      simp only [carriedSealKey, hsearch]

/-- One row of original keys: its key is put in place if the program holds the root, and nothing else changes. -/
theorem loadRow_original (hpart : PartOf keys full) {row : String × Bytes} {place : String × Nat × CarriedKind}
    (h : Original crypto original full row place) :
    ∃ keys', loadRow crypto keys row = .ok keys' ∧ keys'.suite = keys.suite ∧ keys'.read = keys.read ∧
      keys'.search = keys.search ∧
      (Holds keys place.2.2 → ∃ key, original place = .ok key ∧ keys'.carried place = some key) ∧
      (∀ other, other ≠ place ∨ ¬Holds keys place.2.2 → keys'.carried other = keys.carried other) := by
  obtain ⟨tableId, fieldId, kind⟩ := place
  obtain ⟨hname, hnumber, nonce, key, horiginal, hseal⟩ := h
  have hparse : parseName row.1 = .ok (tableId, fieldId) := by rw [hname, parseName_entryName tableId hnumber]
  by_cases hholds : Holds keys kind
  · have hopen := openEntry_of_seal hseal hpart.suite (hpart.sealKey hholds tableId fieldId)
    refine ⟨keys.installCarried kind tableId fieldId key, ?_, rfl, rfl, rfl, ?_, ?_⟩
    · simp only [loadRow, hparse, ok_bind, hopen]
    · exact fun _ => ⟨key, horiginal, by simp [FieldKeys.installCarried]⟩
    · intro other hother
      have hne := hother.resolve_right (not_not_intro hholds)
      simp [FieldKeys.installCarried, hne]
  · have hopen := openEntry_without_root hseal (sealKey_of_not_holds hholds tableId fieldId)
    refine ⟨keys, ?_, rfl, rfl, rfl, fun h => absurd h hholds, fun _ _ => rfl⟩
    simp only [loadRow, hparse, ok_bind, hopen]

/-- A row is the entry of one place only. -/
theorem Original.unique {row : String × Bytes} {place place' : String × Nat × CarriedKind}
    (h : Original crypto original full row place) (h' : Original crypto original full row place') : place = place' := by
  obtain ⟨tableId, fieldId, kind⟩ := place
  obtain ⟨tableId', fieldId', kind'⟩ := place'
  obtain ⟨htable, hfield⟩ := entryName_inj h.number h'.number (h.name.symm.trans h'.name)
  obtain ⟨nonce, key, -, hseal⟩ := h.sealed
  obtain ⟨nonce', key', -, hseal'⟩ := h'.sealed
  obtain ⟨sealKey, -, hstored⟩ := sealEntry_eq_ok hseal
  obtain ⟨sealKey', -, hstored'⟩ := sealEntry_eq_ok hseal'
  -- the second byte of an entry is its kind
  have hcode : kind.code = kind'.code := (List.cons.inj (List.cons.inj (hstored.symm.trans hstored')).2).1
  have hkind := congrArg CarriedKind.fromCode hcode
  rw [CarriedKind.fromCode_code, CarriedKind.fromCode_code] at hkind
  simp only at htable hfield
  rw [htable, hfield, Option.some.inj hkind]

/-- What loading a table of original keys puts in place: the original key wherever there is an entry the program can
open, and nothing elsewhere. -/
structure Loads (crypto : Primitives Root N) (original : String × Nat × CarriedKind → Result Key32)
    (full : FieldKeys Root) (rows : List (String × Bytes)) (keys keys' : FieldKeys Root) : Prop where
  suite : keys'.suite = keys.suite
  read : keys'.read = keys.read
  search : keys'.search = keys.search
  found : ∀ row ∈ rows, ∀ place, Original crypto original full row place → Holds keys place.2.2 →
    ∃ key, original place = .ok key ∧ keys'.carried place = some key
  rest : ∀ place, (∀ row ∈ rows, ¬Original crypto original full row place) ∨ ¬Holds keys place.2.2 →
    keys'.carried place = keys.carried place

theorem Holds.congr {keys keys' : FieldKeys Root} (hread : keys'.read = keys.read) (hsearch : keys'.search = keys.search)
    (kind : CarriedKind) : Holds keys' kind ↔ Holds keys kind := by
  cases kind <;> simp [Holds, hread, hsearch]

theorem loadRows_original : ∀ (rows : List (String × Bytes)) {keys : FieldKeys Root}, PartOf keys full →
    (∀ row ∈ rows, ∃ place, Original crypto original full row place) →
    ∃ keys', loadRows crypto rows keys = .ok keys' ∧ Loads crypto original full rows keys keys'
  | [], keys, _, _ => ⟨keys, rfl, rfl, rfl, rfl, nofun, fun _ _ => rfl⟩
  | row :: rows, keys, hpart, hrows => by
      obtain ⟨place, hplace⟩ := hrows row List.mem_cons_self
      obtain ⟨keys₁, hload, hsuite, hread, hsearch, hfound, hrest⟩ := loadRow_original hpart hplace
      have hpart₁ : PartOf keys₁ full :=
        ⟨hsuite.trans hpart.suite, by rw [hread]; exact hpart.read, by rw [hsearch]; exact hpart.search⟩
      obtain ⟨keys', hload', ih⟩ := loadRows_original rows hpart₁ fun r hr => hrows r (List.mem_cons_of_mem _ hr)
      have hholds := Holds.congr hread hsearch
      refine ⟨keys', by rw [loadRows, hload]; exact hload', ih.suite.trans hsuite, ih.read.trans hread,
        ih.search.trans hsearch, ?_, ?_⟩
      · intro r hr p hp hkind
        by_cases hlater : ∃ r' ∈ rows, Original crypto original full r' p
        · obtain ⟨r', hr', hp'⟩ := hlater
          exact ih.found r' hr' p hp' ((hholds _).mpr hkind)
        · rcases List.mem_cons.mp hr with rfl | hr
          · obtain rfl := hplace.unique hp
            obtain ⟨key, hkey, hcarried⟩ := hfound hkind
            refine ⟨key, hkey, ?_⟩
            rw [ih.rest _ (.inl fun r' hr' hp' => hlater ⟨r', hr', hp'⟩), hcarried]
          · exact absurd ⟨r, hr, hp⟩ hlater
      · intro p hp
        have htail : (∀ r ∈ rows, ¬Original crypto original full r p) ∨ ¬Holds keys₁ p.2.2 :=
          hp.imp (fun h r hr => h r (List.mem_cons_of_mem _ hr)) fun h => mt (hholds _).mp h
        rw [ih.rest p htail]
        refine hrest p ?_
        rcases hp with hp | hp
        · exact .inl fun heq => hp row List.mem_cons_self (heq ▸ hplace)
        · by_cases heq : p = place
          · exact .inr (heq ▸ hp)
          · exact .inl heq

end Loading

/-! ## The invariant of a chain of changes -/

/-- What is carried of a field, by its method. -/
def Method.carriedKind : Method → Option CarriedKind
  | .hash => some .hash
  | .searchPrint => some .print
  | _ => none

/-- A place is a hash or search-fingerprint field of one of the tables. -/
def IsField (tables : List Resolved) (place : String × Nat × CarriedKind) : Prop :=
  ∃ t ∈ tables, ∃ spec ∈ t.specs, t.tableId = place.1 ∧ spec.id = place.2.1 ∧ spec.method.carriedKind = some place.2.2

/-- Names, identities and field numbers are each used once, field numbers are 32-bit numbers, and no identity (32 hex
digits) is the place the roots are probed at. -/
structure WellFormed (tables : List Resolved) : Prop where
  names : (tables.map Resolved.table).Nodup
  ids : (tables.map Resolved.tableId).Nodup
  specs : ∀ t ∈ tables, (t.specs.map SealedSpec.id).Nodup
  numbers : ∀ t ∈ tables, ∀ spec ∈ t.specs, spec.id < 2 ^ 32
  not_probe : ∀ t ∈ tables, t.tableId ≠ probe

/-- A field of a table is found by its numbers. -/
theorem WellFormed.spec_unique {tables : List Resolved} (h : WellFormed tables) {t t' : Resolved} (ht : t ∈ tables)
    (ht' : t' ∈ tables) {spec spec' : SealedSpec} (hspec : spec ∈ t.specs) (hspec' : spec' ∈ t'.specs)
    (hid : t.tableId = t'.tableId) (hnumber : spec.id = spec'.id) : t = t' ∧ spec = spec' := by
  obtain rfl := List.inj_on_of_nodup_map h.ids ht ht' hid
  exact ⟨rfl, List.inj_on_of_nodup_map (h.specs t ht) hspec hspec' hnumber⟩

theorem WellFormed.kind_unique {tables : List Resolved} (h : WellFormed tables) {tableId : String} {fieldId : Nat}
    {kind kind' : CarriedKind} (hfield : IsField tables (tableId, fieldId, kind))
    (hfield' : IsField tables (tableId, fieldId, kind')) : kind = kind' := by
  obtain ⟨t, ht, spec, hspec, hid, hnumber, hkind⟩ := hfield
  obtain ⟨t', ht', spec', hspec', hid', hnumber', hkind'⟩ := hfield'
  obtain ⟨-, rfl⟩ := h.spec_unique ht ht' hspec hspec' (hid.trans hid'.symm) (hnumber.trans hnumber'.symm)
  rw [hkind] at hkind'
  exact Option.some.inj hkind'

section Chain

variable {Root N : Type} {crypto : Primitives Root N} {original : String × Nat × CarriedKind → Result Key32}
  {tables : List Resolved} {full keys keys' : FieldKeys Root} {rows : List (String × Bytes)}

/-- Every entry is the sealed original key of a field, and a field without an entry still derives its own. -/
structure Carries (crypto : Primitives Root N) (original : String × Nat × CarriedKind → Result Key32)
    (tables : List Resolved) (full : FieldKeys Root) (rows : List (String × Bytes)) : Prop where
  entries : ∀ row ∈ rows, ∃ place, IsField tables place ∧ Original crypto original full row place
  fields : ∀ place, IsField tables place → (∃ row ∈ rows, Original crypto original full row place) ∨
    full.keyOf crypto place.2.2 place.1 place.2.1 = original place

/-- The keys as they are unlocked, with nothing carried. -/
def Bare (keys : FieldKeys Root) : Prop := ∀ place, keys.carried place = none

/-- A key that is carried is used; one that is not is derived. -/
theorem keyOf_of_carried {place : String × Nat × CarriedKind} {key : Key32} (h : keys.carried place = some key) :
    keys.keyOf crypto place.2.2 place.1 place.2.1 = .ok key := by
  obtain ⟨tableId, fieldId, kind⟩ := place
  cases kind with
  | hash => simp only [FieldKeys.keyOf, FieldKeys.hashKey, h]
  | print => simp only [FieldKeys.keyOf, FieldKeys.printKey, h]

theorem keyOf_of_not_carried {tableId : String} {fieldId : Nat} {kind : CarriedKind} (hsuite : keys'.suite = keys.suite)
    (hread : kind = .hash → keys'.read = keys.read) (hsearch : kind = .print → keys'.search = keys.search)
    (h : keys.carried (tableId, fieldId, kind) = none) (h' : keys'.carried (tableId, fieldId, kind) = none) :
    keys'.keyOf crypto kind tableId fieldId = keys.keyOf crypto kind tableId fieldId := by
  cases kind with
  | hash => simp only [FieldKeys.keyOf, FieldKeys.hashKey, h, h', hsuite, hread rfl]
  | print => simp only [FieldKeys.keyOf, FieldKeys.printKey, h, h', hsuite, hsearch rfl]

/-- After loading, every field whose root the program holds has its original key. -/
theorem Carries.keyOf (h : Carries crypto original tables full rows) (hbare : Bare full) (hpart : PartOf keys full)
    (hkeys : Bare keys) (hload : Loads crypto original full rows keys keys') {place : String × Nat × CarriedKind}
    (hfield : IsField tables place) (hholds : Holds keys place.2.2) :
    keys'.keyOf crypto place.2.2 place.1 place.2.1 = original place := by
  by_cases hrow : ∃ row ∈ rows, Original crypto original full row place
  · obtain ⟨row, hmem, horiginal⟩ := hrow
    obtain ⟨key, hkey, hcarried⟩ := hload.found row hmem place horiginal hholds
    rw [keyOf_of_carried hcarried, hkey]
  · have hnone : keys'.carried place = none := by
      rw [hload.rest place (.inl fun row hmem hrow' => hrow ⟨row, hmem, hrow'⟩)]
      exact hkeys place
    obtain ⟨tableId, fieldId, kind⟩ := place
    rw [← (h.fields _ hfield).resolve_left hrow]
    refine keyOf_of_not_carried (hload.suite.trans hpart.suite) ?_ ?_ (hbare _) hnone
    · rintro rfl
      rw [hload.read]
      exact hpart.read.resolve_left fun hno => by simp [Holds, hno] at hholds
    · rintro rfl
      rw [hload.search]
      exact hpart.search.resolve_left fun hno => by simp [Holds, hno] at hholds

/-- No key is put in place anywhere but at a field. -/
theorem Carries.not_field (h : Carries crypto original tables full rows) (hkeys : Bare keys)
    (hload : Loads crypto original full rows keys keys') {place : String × Nat × CarriedKind}
    (hfield : ¬IsField tables place) : keys'.carried place = none := by
  rw [hload.rest place (.inl ?_)]
  · exact hkeys place
  · intro row hmem hrow
    obtain ⟨place', hfield', hrow'⟩ := h.entries row hmem
    exact hfield (hrow.unique hrow' ▸ hfield')

/-! ### What is planned -/

def CarryItem.place (item : CarryItem) : String × Nat × CarriedKind := (item.tableId, item.fieldId, item.kind)

variable {old new : FieldKeys Root}

/-- With both roots new, exactly the hash and search-fingerprint fields are carried, with the keys they have. -/
theorem carryField_spec (hhash : ∀ b, hashRootChanged crypto old new = .ok b → b = true)
    (hprint : ∀ b, printRootChanged crypto old new = .ok b → b = true) {tableId : String} {spec : SealedSpec}
    {items : List CarryItem} (h : carryField crypto old new tableId spec = .ok items) :
    (spec.method.carriedKind = none ∧ items = []) ∨ ∃ kind key, spec.method.carriedKind = some kind ∧
      old.keyOf crypto kind tableId spec.id = .ok key ∧ items = [⟨tableId, spec.id, kind, key⟩] := by
  rw [carryField] at h
  cases hmethod : spec.method with
  | hash =>
      rw [hmethod] at h
      obtain ⟨b, hb, hrest⟩ := bind_eq_ok.mp h
      rw [hhash b hb] at hrest
      obtain ⟨key, hkey, hitems⟩ := bind_eq_ok.mp hrest
      exact .inr ⟨.hash, key, rfl, hkey, (Except.ok.inj hitems).symm⟩
  | searchPrint =>
      rw [hmethod] at h
      obtain ⟨b, hb, hrest⟩ := bind_eq_ok.mp h
      rw [hprint b hb] at hrest
      obtain ⟨key, hkey, hitems⟩ := bind_eq_ok.mp hrest
      exact .inr ⟨.print, key, rfl, hkey, (Except.ok.inj hitems).symm⟩
  | encrypt | encryptFullPrint | encryptPartPrints =>
      rw [hmethod] at h
      cases h
      exact .inl ⟨rfl, rfl⟩

/-- The items are those of the fields, each with the key the field has under the old keys. -/
structure Items (crypto : Primitives Root N) (old : FieldKeys Root) (tables : List Resolved) (items : List CarryItem) :
    Prop where
  field : ∀ item ∈ items, IsField tables item.place
  key : ∀ item ∈ items, old.keyOf crypto item.kind item.tableId item.fieldId = .ok item.key
  all : ∀ place, IsField tables place → ∃ item ∈ items, item.place = place

theorem items_of_plan (hhash : ∀ b, hashRootChanged crypto old new = .ok b → b = true)
    (hprint : ∀ b, printRootChanged crypto old new = .ok b → b = true) {planned : List (List CarryItem)}
    (h : collect (fun t : Resolved => carryPlan crypto old new t.tableId t.specs) tables = .ok planned) :
    Items crypto old tables planned.flatten := by
  -- an item comes from one field of one table
  have hfrom : ∀ item ∈ planned.flatten, ∃ t ∈ tables, ∃ spec ∈ t.specs, ∃ kind key,
      spec.method.carriedKind = some kind ∧ old.keyOf crypto kind t.tableId spec.id = .ok key ∧
        item = ⟨t.tableId, spec.id, kind, key⟩ := by
    intro item hitem
    obtain ⟨items, hitems, hmem⟩ := List.mem_flatten.mp hitem
    obtain ⟨t, ht, hplan⟩ := (mem_collect h).mp hitems
    obtain ⟨lists, hlists, hflat⟩ := bind_eq_ok.mp hplan
    obtain rfl := Except.ok.inj hflat
    obtain ⟨its, hits, hmem'⟩ := List.mem_flatten.mp hmem
    obtain ⟨spec, hspec, hcarry⟩ := (mem_collect hlists).mp hits
    rcases carryField_spec hhash hprint hcarry with ⟨-, rfl⟩ | ⟨kind, key, hkind, hkey, rfl⟩
    · cases hmem'
    · exact ⟨t, ht, spec, hspec, kind, key, hkind, hkey, List.mem_singleton.mp hmem'⟩
  refine ⟨?_, ?_, ?_⟩
  · intro item hitem
    obtain ⟨t, ht, spec, hspec, kind, key, hkind, -, rfl⟩ := hfrom item hitem
    exact ⟨t, ht, spec, hspec, rfl, rfl, hkind⟩
  · intro item hitem
    obtain ⟨t, ht, spec, hspec, kind, key, -, hkey, rfl⟩ := hfrom item hitem
    exact hkey
  · rintro ⟨tableId, fieldId, kind⟩ ⟨t, ht, spec, hspec, rfl, rfl, hkind⟩
    obtain ⟨items, hitems, hplan⟩ := exists_collect h ht
    obtain ⟨lists, hlists, hflat⟩ := bind_eq_ok.mp hplan
    obtain rfl := Except.ok.inj hflat
    obtain ⟨its, hits, hcarry⟩ := exists_collect hlists hspec
    rcases carryField_spec hhash hprint hcarry with ⟨hnone, -⟩ | ⟨kind', key, hkind', -, rfl⟩
    · rw [hkind] at hnone
      cases hnone
    · rw [hkind] at hkind'
      cases hkind'
      exact ⟨_, List.mem_flatten.mpr ⟨_, hitems, List.mem_flatten.mpr ⟨_, hits, List.mem_singleton.mpr rfl⟩⟩, rfl⟩

theorem installItems_roots (items : List CarryItem) (keys : FieldKeys Root) :
    (installItems keys items).suite = keys.suite ∧ (installItems keys items).read = keys.read ∧
      (installItems keys items).search = keys.search := by
  induction items generalizing keys with
  | nil => exact ⟨rfl, rfl, rfl⟩
  | cons item items ih => exact ih _

/-- Items with original keys put those in place, and nothing else. -/
theorem installItems_carried {items : List CarryItem} (h : ∀ item ∈ items, original item.place = .ok item.key)
    (keys : FieldKeys Root) (place : String × Nat × CarriedKind) :
    ((∃ item ∈ items, item.place = place) →
      ∃ key, original place = .ok key ∧ (installItems keys items).carried place = some key) ∧
    ((∀ item ∈ items, item.place ≠ place) → (installItems keys items).carried place = keys.carried place) := by
  induction items generalizing keys with
  | nil => exact ⟨nofun, fun _ => rfl⟩
  | cons item items ih =>
      obtain ⟨ihfound, ihrest⟩ := ih (fun i hi => h i (List.mem_cons_of_mem _ hi))
        (keys.installCarried item.kind item.tableId item.fieldId item.key)
      constructor
      · rintro ⟨i, hi, rfl⟩
        by_cases hlater : ∃ j ∈ items, j.place = i.place
        · exact ihfound hlater
        · rcases List.mem_cons.mp hi with rfl | hi
          · refine ⟨i.key, h i List.mem_cons_self, ?_⟩
            refine (ihrest fun j hj heq => hlater ⟨j, hj, heq⟩).trans ?_
            simp [FieldKeys.installCarried, CarryItem.place]
          · exact absurd ⟨i, hi, rfl⟩ hlater
      · intro hne
        refine (ihrest fun j hj => hne j (List.mem_cons_of_mem _ hj)).trans ?_
        have hitem : place ≠ (item.tableId, item.fieldId, item.kind) := (hne item List.mem_cons_self).symm
        simp [FieldKeys.installCarried, hitem]

/-- The new table has the items, sealed, and nothing of the old entries: each is replaced by an item. -/
theorem nextTable_items {nonce : String → N} {items : List CarryItem} {oldEntries written : List (String × Bytes)}
    (hold : ∀ row ∈ oldEntries, ∃ item ∈ items, parseName row.1 = .ok (item.tableId, item.fieldId))
    (h : nextTable crypto old new nonce oldEntries items = .ok written) :
    collect (sealItem crypto new nonce) items = .ok written := by
  obtain ⟨kept, hkept, h⟩ := bind_eq_ok.mp h
  obtain ⟨made, hmade, h⟩ := bind_eq_ok.mp h
  have hnone : kept.flatten = [] := by
    rw [List.flatten_eq_nil_iff]
    intro rows hrows
    obtain ⟨row, hrow, hreseal⟩ := (mem_collect hkept).mp hrows
    obtain ⟨item, hitem, hname⟩ := hold row hrow
    have hany : (items.any fun i => i.tableId == item.tableId && i.fieldId == item.fieldId) = true :=
      List.any_eq_true.mpr ⟨item, hitem, by simp⟩
    simp only [resealRow, hname, ok_bind, hany, if_true] at hreseal
    exact (Except.ok.inj hreseal).symm
  rw [hmade, ← Except.ok.inj h, hnone, List.nil_append]

theorem sealEntry_congr (hsuite : keys'.suite = keys.suite) (hread : keys'.read = keys.read)
    (hsearch : keys'.search = keys.search) (nonce : N) (kind : CarriedKind) (tableId : String) (fieldId : Nat) (key : Key32) :
    sealEntry crypto keys' nonce kind tableId fieldId key = sealEntry crypto keys nonce kind tableId fieldId key := by
  simp only [sealEntry, carriedSealKey_congr hsuite hread hsearch, hsuite]

/-- The table made of the items has the sealed original key of each field. -/
theorem sealed_items (hwf : WellFormed tables) {items : List CarryItem} (hitems : Items crypto old tables items)
    (horiginal : ∀ item ∈ items, original item.place = .ok item.key) {nonce : String → N}
    {written : List (String × Bytes)} (h : collect (sealItem crypto (installItems new items) nonce) items = .ok written) :
    (∀ row ∈ (Table.ofList written).rows, ∃ place, IsField tables place ∧ Original crypto original new row place) ∧
    ∀ place, IsField tables place → ∃ row ∈ (Table.ofList written).rows, Original crypto original new row place := by
  obtain ⟨hsuite, hread, hsearch⟩ := installItems_roots items new
  have hnumber : ∀ place, IsField tables place → place.2.1 < 2 ^ 32 := by
    rintro place ⟨t, ht, spec, hspec, -, hnum, -⟩
    exact hnum ▸ hwf.numbers t ht spec hspec
  have hentry : ∀ row ∈ written, ∃ item ∈ items, row.1 = entryName item.tableId item.fieldId ∧
      Original crypto original new row item.place := by
    intro row hrow
    obtain ⟨item, hitem, hseal⟩ := (mem_collect h).mp hrow
    obtain ⟨stored, hstored, hrow'⟩ := bind_eq_ok.mp hseal
    rw [sealEntry_congr hsuite hread hsearch] at hstored
    obtain rfl := Except.ok.inj hrow'
    exact ⟨item, hitem, rfl, rfl, hnumber _ (hitems.field item hitem), _, item.key, horiginal item hitem, hstored⟩
  have hrows : ∀ row ∈ (Table.ofList written).rows, ∃ place, IsField tables place ∧ Original crypto original new row place := by
    intro row hrow
    obtain ⟨item, hitem, -, hrow'⟩ := hentry row (Table.mem_of_mem_ofList hrow)
    exact ⟨item.place, hitems.field item hitem, hrow'⟩
  refine ⟨hrows, ?_⟩
  rintro ⟨tableId, fieldId, kind⟩ hfield
  obtain ⟨item, hitem, hplace⟩ := hitems.all _ hfield
  obtain ⟨row, hrow, hseal⟩ := exists_collect h hitem
  obtain ⟨stored, -, hrow'⟩ := bind_eq_ok.mp hseal
  obtain rfl := Except.ok.inj hrow'
  have hkey : entryName item.tableId item.fieldId ∈ (Table.ofList written).keys :=
    (Table.mem_keys_ofList _ _).mpr (List.mem_map.mpr ⟨_, hrow, rfl⟩)
  obtain ⟨found, hfound, hname⟩ := List.mem_map.mp hkey
  obtain ⟨⟨tableId', fieldId', kind'⟩, hfield', hfound'⟩ := hrows found hfound
  -- the entry of that name is of the same field, and a field is of one kind only
  obtain ⟨rfl, rfl⟩ := entryName_inj (hnumber _ hfield') (hnumber _ (hitems.field item hitem)) (hfound'.name.symm.trans hname)
  cases hplace
  cases hwf.kind_unique hfield hfield'
  exact ⟨found, hfound, hfound'⟩

/-- New roots, as the probes of the two roots see them. -/
structure NewRoots (crypto : Primitives Root N) (full new : FieldKeys Root) : Prop where
  hash : full.hashKey crypto probe 0 ≠ new.hashKey crypto probe 0
  print : full.printKey crypto probe 0 ≠ new.printKey crypto probe 0

theorem hashRootChanged_true (h : old.hashKey crypto probe 0 ≠ new.hashKey crypto probe 0) (b : Bool)
    (hb : hashRootChanged crypto old new = .ok b) : b = true := by
  obtain ⟨x, hx, hb⟩ := bind_eq_ok.mp hb
  obtain ⟨y, hy, hb⟩ := bind_eq_ok.mp hb
  rw [hx, hy] at h
  rw [← Except.ok.inj hb, decide_eq_true_eq]
  exact fun heq => h (congrArg _ heq)

theorem printRootChanged_true (h : old.printKey crypto probe 0 ≠ new.printKey crypto probe 0) (b : Bool)
    (hb : printRootChanged crypto old new = .ok b) : b = true := by
  obtain ⟨x, hx, hb⟩ := bind_eq_ok.mp hb
  obtain ⟨y, hy, hb⟩ := bind_eq_ok.mp hb
  rw [hx, hy] at h
  rw [← Except.ok.inj hb, decide_eq_true_eq]
  exact fun heq => h (congrArg _ heq)

theorem load_eq_loadRows (keys : FieldKeys Root) (file : KeyedFile) :
    load crypto keys file.carried = loadRows crypto file.rows keys := by
  obtain ⟨tables, table⟩ := file
  cases table <;> rfl

/-- Both roots are there. -/
structure Full (keys : FieldKeys Root) : Prop where
  bare : Bare keys
  read : keys.read.isSome = true
  search : keys.search.isSome = true

theorem Full.holds (h : Full keys) (kind : CarriedKind) : Holds keys kind := by
  cases kind
  · exact h.read
  · exact h.search

theorem PartOf.refl (keys : FieldKeys Root) : PartOf keys keys := ⟨rfl, .inr rfl, .inr rfl⟩

variable {file : KeyedFile} {declared : List Declared} {nonce : String → N} {rekey : Rekey Root}

/-- A planned change carries the original key of every field. -/
theorem plan_spec (hwf : WellFormed tables) (hfull : Full full) (hroots : NewRoots crypto full new)
    (hcarries : Carries crypto original tables full file.rows) (hresolve : resolve file.tables declared = .ok tables)
    (h : plan crypto file declared full new nonce = .ok rekey) :
    rekey.tables = tables ∧ ∃ items, Items crypto rekey.old tables items ∧
      (∀ item ∈ items, original item.place = .ok item.key) ∧ rekey.new = installItems new items ∧
      collect (sealItem crypto (installItems new items) nonce) items = .ok rekey.written := by
  obtain ⟨found, hfound, h⟩ := bind_eq_ok.mp h
  rw [hresolve] at hfound
  obtain rfl := Except.ok.inj hfound
  obtain ⟨old, hold, h⟩ := bind_eq_ok.mp h
  obtain ⟨planned, hplanned, h⟩ := bind_eq_ok.mp h
  obtain ⟨written, hwritten, h⟩ := bind_eq_ok.mp h
  obtain rfl := Except.ok.inj h
  obtain ⟨old', hold', hloads⟩ := loadRows_original file.rows (PartOf.refl full) fun row hrow =>
    (hcarries.entries row hrow).imp fun _ hplace => hplace.2
  rw [load_eq_loadRows] at hold
  obtain rfl := Except.ok.inj (hold.symm.trans hold')
  -- nothing is carried at the probe, so the probes compare the roots
  have hprobe : ∀ kind, old.carried (probe, 0, kind) = none := by
    intro kind
    refine hcarries.not_field hfull.bare hloads ?_
    rintro ⟨t, ht, -, -, hid, -⟩
    exact hwf.not_probe t ht hid
  have hsame : ∀ kind, old.keyOf crypto kind probe 0 = full.keyOf crypto kind probe 0 := fun kind =>
    keyOf_of_not_carried hloads.suite (fun _ => hloads.read) (fun _ => hloads.search) (hfull.bare _) (hprobe kind)
  have hhash : old.hashKey crypto probe 0 ≠ new.hashKey crypto probe 0 := fun heq =>
    hroots.hash ((hsame .hash).symm.trans heq)
  have hprint : old.printKey crypto probe 0 ≠ new.printKey crypto probe 0 := fun heq =>
    hroots.print ((hsame .print).symm.trans heq)
  have hitems := items_of_plan (hashRootChanged_true hhash) (printRootChanged_true hprint) hplanned
  have horiginal : ∀ item ∈ planned.flatten, original item.place = .ok item.key := by
    intro item hitem
    rw [← hitems.key item hitem]
    exact (hcarries.keyOf hfull.bare (PartOf.refl full) hfull.bare hloads (hitems.field item hitem) (hfull.holds _)).symm
  refine ⟨rfl, planned.flatten, hitems, horiginal, rfl, nextTable_items ?_ hwritten⟩
  intro row hrow
  obtain ⟨place, hfield, hrow'⟩ := hcarries.entries row hrow
  obtain ⟨item, hitem, rfl⟩ := hitems.all place hfield
  exact ⟨item, hitem, by rw [hrow'.name, parseName_entryName _ hrow'.number]; rfl⟩

/-- After a change the new file carries the original key of every field, and reading it gives the keys the change was
made with. -/
theorem changeKeys_spec (hwf : WellFormed tables) (hfull : Full full) (hnew : Full new) (hroots : NewRoots crypto full new)
    (hcarries : Carries crypto original tables full file.rows) (hresolve : resolve file.tables declared = .ok tables)
    {file' : KeyedFile} (h : changeKeys crypto file declared full new nonce = .ok file') :
    Carries crypto original tables new file'.rows ∧ ∃ keys, load crypto new file'.carried = .ok keys ∧
      remakeMeta crypto keys tables file.tables = .ok file'.tables := by
  obtain ⟨rekey, hplan, h⟩ := bind_eq_ok.mp h
  obtain ⟨remade, hremade, h⟩ := bind_eq_ok.mp h
  obtain rfl := Except.ok.inj h
  obtain ⟨htables, items, hitems, horiginal, hkeys, hwritten⟩ := plan_spec hwf hfull hroots hcarries hresolve hplan
  obtain ⟨hrows, hall⟩ := sealed_items hwf hitems horiginal hwritten
  have hfile : KeyedFile.rows ⟨remade, if rekey.hadCarried || !rekey.written.isEmpty then some (Table.ofList rekey.written)
      else none⟩ = (Table.ofList rekey.written).rows := by
    by_cases hcond : (rekey.hadCarried || !rekey.written.isEmpty) = true
    · simp [KeyedFile.rows, hcond]
    · have hempty : rekey.written = [] := by
        simp only [Bool.or_eq_true, Bool.not_eq_true', not_or, Bool.not_eq_false, List.isEmpty_iff] at hcond
        exact hcond.2
      rw [if_neg hcond, hempty]
      rfl
  refine ⟨hfile ▸ ⟨hrows, fun place hfield => .inl (hall place hfield)⟩, installItems new items, ?_, ?_⟩
  · obtain ⟨keys, hload, hloads⟩ := loadRows_original _ (PartOf.refl new) fun row hrow =>
      (hrows row hrow).imp fun _ hplace => hplace.2
    rw [load_eq_loadRows, hfile, hload]
    congr 1
    obtain ⟨hsuite, hread, hsearch⟩ := installItems_roots items new
    refine FieldKeys.ext (hloads.suite.trans hsuite.symm) (hloads.read.trans hread.symm)
      (hloads.search.trans hsearch.symm) (funext fun place => ?_)
    obtain ⟨hinstalled, hothers⟩ := installItems_carried horiginal new place
    by_cases hfield : IsField tables place
    · obtain ⟨row, hrow, hrow'⟩ := hall place hfield
      obtain ⟨key, hkey, hcarried⟩ := hloads.found row hrow place hrow' (hnew.holds _)
      obtain ⟨key', hkey', hcarried'⟩ := hinstalled (hitems.all place hfield)
      rw [hkey] at hkey'
      rw [hcarried, hcarried', Except.ok.inj hkey']
    · rw [hothers fun item hitem heq => hfield (heq ▸ hitems.field item hitem),
        hloads.rest place (.inl fun row hrow hrow' => ?_)]
      obtain ⟨place', hfield', hrow''⟩ := hrows row hrow
      exact hfield (hrow'.unique hrow'' ▸ hfield')
  · rw [← hkeys, ← htables]
    exact hremade

/-! ### The description -/

theorem applyChecks_ids (checks : List (Nat × Option String)) (fields : List SealedField) :
    (applyChecks checks fields).map SealedField.id = fields.map SealedField.id := by
  rw [applyChecks, List.map_map]
  refine List.map_congr_left fun field _ => ?_
  simp only [Function.comp_apply]
  split <;> rfl

/-- Two descriptions differ only in the checks. -/
def SameTables (a b : List TableMeta) : Prop :=
  a.map (fun m => (m.name, m.tableId, m.fields.map SealedField.id)) =
    b.map fun m => (m.name, m.tableId, m.fields.map SealedField.id)

theorem changeTable_same {n : String} {g : TableMeta → TableMeta}
    (hg : ∀ m, (g m).name = m.name ∧ (g m).tableId = m.tableId ∧
      (g m).fields.map SealedField.id = m.fields.map SealedField.id) (tables : List TableMeta) :
    SameTables (changeTable n g tables) tables := by
  induction tables with
  | nil => rfl
  | cons m tables ih =>
      by_cases hm : m.name == n
      · rw [changeTable, if_pos hm]
        obtain ⟨hname, hid, hfields⟩ := hg m
        simp [SameTables, hname, hid, hfields]
      · rw [changeTable, if_neg hm, SameTables, List.map_cons, List.map_cons]
        exact congrArg _ ih

theorem find_changeTable_self {n : String} {g : TableMeta → TableMeta} (hg : ∀ m, (g m).name = m.name)
    (tables : List TableMeta) :
    (changeTable n g tables).find? (·.name == n) =
      (tables.find? (·.name == n)).map g := by
  induction tables with
  | nil => rfl
  | cons m tables ih =>
      by_cases hm : m.name == n
      · simp [changeTable, hm, hg]
      · simp [changeTable, hm, ih]

theorem find_changeTable_other {n other : String} (hne : other ≠ n) {g : TableMeta → TableMeta}
    (hg : ∀ m, (g m).name = m.name) (tables : List TableMeta) :
    (changeTable n g tables).find? (·.name == other) =
      tables.find? (·.name == other) := by
  induction tables with
  | nil => rfl
  | cons m tables ih =>
      by_cases hm : m.name == n
      · have hno : ¬(m.name == other) = true := by
          rw [beq_iff_eq] at hm ⊢
          exact fun heq => hne (heq.symm.trans hm)
        simp [changeTable, hm, hg, hno]
      · rw [changeTable, if_neg hm]
        simp only [List.find?_cons, ih]

/-- The stored checks of a table's fields are those the keys make. -/
def Checked (crypto : Primitives Root N) (keys : FieldKeys Root) (t : Resolved) (tables : List TableMeta) : Prop :=
  ∀ m, tables.find? (·.name == t.table) = some m → ∀ spec ∈ t.specs, ∀ field ∈ m.fields, field.id = spec.id →
    settingsCheck crypto keys t.tableId spec = .ok field.check

theorem applyChecks_checked {t : Resolved} (hspecs : (t.specs.map SealedSpec.id).Nodup)
    {checks : List (Nat × Option String)} (h : settingsChecks crypto keys t.tableId t.specs = .ok checks)
    {fields : List SealedField} {spec : SealedSpec} (hspec : spec ∈ t.specs) {field : SealedField}
    (hfield : field ∈ applyChecks checks fields) (hid : field.id = spec.id) :
    settingsCheck crypto keys t.tableId spec = .ok field.check := by
  obtain ⟨field', -, rfl⟩ := List.mem_map.mp hfield
  have hid' : field'.id = spec.id := by
    rw [← hid]
    split <;> rfl
  obtain ⟨c, hc, hmade⟩ := exists_collect h hspec
  cases hfind : checks.find? fun c => c.1 == field'.id with
  | none =>
      obtain ⟨check, -, hpair⟩ := bind_eq_ok.mp hmade
      have hno := List.find?_eq_none.mp hfind c hc
      rw [← Except.ok.inj hpair, hid'] at hno
      simp at hno
  | some found =>
      obtain ⟨spec', hspec', hmade'⟩ := (mem_collect h).mp (List.mem_of_find?_eq_some hfind)
      obtain ⟨check, hcheck, hpair⟩ := bind_eq_ok.mp hmade'
      have hnumber := List.find?_some hfind
      obtain rfl := Except.ok.inj hpair
      rw [beq_iff_eq, hid'] at hnumber
      rw [← List.inj_on_of_nodup_map hspecs hspec' hspec hnumber, hcheck]

theorem remakeTable_spec {t : Resolved} {metas metas' : List TableMeta} (h : remakeTable crypto keys t metas = .ok metas') :
    SameTables metas' metas ∧ ((t.specs.map SealedSpec.id).Nodup → Checked crypto keys t metas') ∧
      ∀ other : Resolved, other.table ≠ t.table → (Checked crypto keys other metas' ↔ Checked crypto keys other metas) := by
  obtain ⟨checks, hchecks, h⟩ := bind_eq_ok.mp h
  split at h
  · obtain rfl := Except.ok.inj h
    refine ⟨changeTable_same (g := TableMeta.withChecks checks)
      (fun m => ⟨rfl, rfl, applyChecks_ids checks m.fields⟩) metas, ?_, ?_⟩
    · intro hspecs m hm spec hspec field hfield hid
      rw [find_changeTable_self (g := TableMeta.withChecks checks) fun _ => rfl] at hm
      obtain ⟨m', -, rfl⟩ := Option.map_eq_some_iff.mp hm
      exact applyChecks_checked hspecs hchecks hspec hfield hid
    · intro other hne
      rw [Checked, Checked, find_changeTable_other hne (g := TableMeta.withChecks checks) fun _ => rfl]
  · cases h

theorem remakeMeta_spec : ∀ (ts : List Resolved) {metas metas' : List TableMeta}, remakeMeta crypto keys ts metas = .ok metas' →
    (ts.map Resolved.table).Nodup → (∀ t ∈ ts, (t.specs.map SealedSpec.id).Nodup) →
    SameTables metas' metas ∧ (∀ t ∈ ts, Checked crypto keys t metas') ∧
      ∀ other : Resolved, other.table ∉ ts.map Resolved.table → Checked crypto keys other metas → Checked crypto keys other metas'
  | [], metas, metas', h, _, _ => by
      obtain rfl := Except.ok.inj h
      exact ⟨rfl, nofun, fun _ _ h => h⟩
  | t :: ts, metas, metas', h, hnames, hspecs => by
      obtain ⟨mid, hmid, h⟩ := bind_eq_ok.mp h
      rw [List.map_cons, List.nodup_cons] at hnames
      obtain ⟨hsame, hchecked, hother⟩ := remakeTable_spec hmid
      obtain ⟨hsame', hall, hrest⟩ := remakeMeta_spec ts h hnames.2 fun t' ht' => hspecs t' (List.mem_cons_of_mem _ ht')
      refine ⟨hsame'.trans hsame, ?_, ?_⟩
      · intro t' ht'
        rcases List.mem_cons.mp ht' with rfl | ht'
        · exact hrest t' hnames.1 (hchecked (hspecs t' List.mem_cons_self))
        · exact hall t' ht'
      · intro other hno hmetas
        rw [List.map_cons, List.mem_cons, not_or] at hno
        exact hrest other hno.2 ((hother other hno.1).mpr hmetas)

theorem resolveTable_congr {declared : List Declared} {m m' : TableMeta} (hname : m.name = m'.name)
    (hid : m.tableId = m'.tableId) (hfields : m.fields.map SealedField.id = m'.fields.map SealedField.id) :
    resolveTable declared m = resolveTable declared m' := by
  have hempty : m.fields = [] ↔ m'.fields = [] := by
    rw [← List.map_eq_nil_iff (f := SealedField.id), hfields, List.map_eq_nil_iff]
  simp only [resolveTable, hname, hid, hfields, hempty]

/-- The checks do not matter to what is resolved. -/
theorem resolve_congr {a b : List TableMeta} (h : SameTables a b) (declared : List Declared) :
    resolve a declared = resolve b declared := by
  have hboth : ∀ a b : List TableMeta, SameTables a b →
      collect (resolveTable declared) a = collect (resolveTable declared) b ∧
        a.map TableMeta.name = b.map TableMeta.name := by
    intro a
    induction a with
    | nil =>
        intro b hb
        rw [List.map_eq_nil_iff.mp hb.symm]
        exact ⟨rfl, rfl⟩
    | cons m a ih =>
        intro b hb
        cases b with
        | nil => cases hb
        | cons m' b =>
            rw [SameTables, List.map_cons, List.map_cons, List.cons.injEq, Prod.mk.injEq, Prod.mk.injEq] at hb
            obtain ⟨⟨hname, hid, hfields⟩, hrest⟩ := hb
            obtain ⟨hcollect, hnames⟩ := ih b hrest
            rw [collect, collect, resolveTable_congr hname hid hfields, hcollect, List.map_cons, List.map_cons, hname, hnames]
            exact ⟨rfl, rfl⟩
  obtain ⟨hcollect, hnames⟩ := hboth a b h
  have hany : ∀ name, (a.any fun t => t.name == name) = b.any fun t => t.name == name := by
    intro name
    have hmap := congrArg (fun names => names.any (· == name)) hnames
    simpa only [List.any_map, Function.comp_def] using hmap
  simp only [resolve, hcollect, hany]

end Chain

end CloveDb.FieldCrypto
