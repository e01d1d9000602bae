/-
# CloveDb.FieldCrypto.Domains — what each derived key, seal and fingerprint is bound to

`subkey_info` of `crypto/keys.rs` and the scopes it is called with (`field_crypto/keys.rs`, `encrypted_store/store.rs`,
`encrypted_store/sealed.rs`), the logical names of sealed files (`encrypted_store/blobs.rs`, `sidecar.rs`, `blob/mod.rs`),
the associated data of envelopes and carried keys, and the bytes that a fingerprint authenticates (`prints.rs`).

A use of a derived key is a value of `KeyUse`; its scope is the one that the function of the source asks with
(`FieldKeys.byInfo`, `EncryptionContext.byInfo`). Two uses have one HKDF info only if they are the same.

A fingerprint of a value and the fingerprint of the settings are made with one key, and their labels do not keep them apart:
one label is the begin of the other.
-/
import CloveDb.FieldCrypto.Carried
import CloveDb.FieldCrypto.Slots
import CloveDb.Lib.SizedText

namespace CloveDb.FieldCrypto

open CloveDb.Lib CloveDb.Encrypted

/-! ## Infos -/

inductive Role where
  | read
  | search
  deriving DecidableEq, Repr

def Role.code : Role → UInt8
  | .read => 1
  | .search => 2

inductive Purpose where
  | encryption
  | fullFingerprint
  | partFingerprint
  | hash
  deriving DecidableEq, Repr

def Purpose.code : Purpose → UInt8
  | .encryption => 1
  | .fullFingerprint => 2
  | .partFingerprint => 3
  | .hash => 4

/-- A part of the scope with its length as a `u32`; longer ones are refused. -/
def infoPart (part : String) : Option Bytes :=
  if (utf8 part).length < 2 ^ 32 then some (beBytes 4 (utf8 part).length ++ utf8 part) else none

/-- `subkey_info` -/
def subkeyInfo (role : Role) (purpose : Purpose) (scope : Scope) : Option Bytes := do
  let table ← infoPart scope.table
  let field ← infoPart scope.field
  return utf8 "clove1db/subkey/v1" ++ role.code :: purpose.code :: (table ++ field)

theorem Role.code_inj {a b : Role} (h : a.code = b.code) : a = b := by
  revert h
  cases a <;> cases b <;> decide

theorem Purpose.code_inj {a b : Purpose} (h : a.code = b.code) : a = b := by
  revert h
  cases a <;> cases b <;> decide

/-- What follows a part does not belong to it. -/
theorem infoPart_inj {a b : String} {p q x y : Bytes} (hp : infoPart a = some p) (hq : infoPart b = some q)
    (h : p ++ x = q ++ y) : a = b ∧ x = y := by
  unfold infoPart at hp hq
  split at hp
  · rename_i ha
    split at hq
    · rename_i hb
      cases hp
      cases hq
      rw [List.append_assoc, List.append_assoc] at h
      obtain ⟨hlen, htext⟩ := List.append_inj h (by simp)
      have hlen := congrArg beNat hlen
      rw [beNat_beBytes_of_lt (by simpa using ha), beNat_beBytes_of_lt (by simpa using hb)] at hlen
      obtain ⟨htext, hrest⟩ := List.append_inj htext hlen
      exact ⟨utf8_injective htext, hrest⟩
    · cases hq
  · cases hp

/-- **An info names its role, its purpose and its scope.** -/
theorem subkeyInfo_inj {role role' : Role} {purpose purpose' : Purpose} {scope scope' : Scope} {info : Bytes}
    (h : subkeyInfo role purpose scope = some info) (h' : subkeyInfo role' purpose' scope' = some info) :
    role = role' ∧ purpose = purpose' ∧ scope = scope' := by
  obtain ⟨table, htable, h⟩ := Option.bind_eq_some_iff.mp h
  obtain ⟨field, hfield, h⟩ := Option.bind_eq_some_iff.mp h
  obtain ⟨table', htable', h'⟩ := Option.bind_eq_some_iff.mp h'
  obtain ⟨field', hfield', h'⟩ := Option.bind_eq_some_iff.mp h'
  have heq := List.append_cancel_left ((Option.some.inj h).trans (Option.some.inj h').symm)
  obtain ⟨hrole, heq⟩ := List.cons.inj heq
  obtain ⟨hpurpose, heq⟩ := List.cons.inj heq
  obtain ⟨hnames, heq⟩ := infoPart_inj htable htable' heq
  obtain ⟨hfields, -⟩ := infoPart_inj (x := []) (y := []) hfield hfield' (by simpa using heq)
  refine ⟨Role.code_inj hrole, Purpose.code_inj hpurpose, ?_⟩
  cases scope
  cases scope'
  exact congrArg₂ Scope.mk hnames hfields

/-! ## Uses -/

/-- Whose keys: those of a database encrypted as a whole, or those of protected fields. -/
inductive KeySource where
  | database
  | fields
  deriving DecidableEq, Repr

/-- The kinds of sealed files (`LABEL` of `blobs.rs` and of `sidecar.rs`). -/
inductive SealedLabel where
  | blob
  | side
  deriving DecidableEq, Repr

def SealedLabel.text : SealedLabel → String
  | .blob => "blob"
  | .side => "side"

/-- `hex` -/
def hexText (bytes : Bytes) : String := String.ofList (bytes.flatMap hexByte)

/-- The field of the scope of a sealed file: `{label}:{len}:{salt}:{binding}`. -/
def sealedField (label : SealedLabel) (binding : String) (salt : Bytes) : String :=
  label.text ++ ":" ++ toString (utf8 binding).length ++ ":" ++ hexText salt ++ ":" ++ binding

/-- What a derived key is used for. -/
inductive KeyUse where
  | fieldCipher (tableId : String) (fieldId : Nat)
  | hash (tableId : String) (fieldId : Nat)
  | print (tableId : String) (fieldId : Nat)
  | part (tableId : String) (fieldId : Nat)
  | carriedSeal (kind : CarriedKind) (tableId : String) (fieldId : Nat)
  | keysFile
  | databaseFile (label : String)
  | sealedFile (source : KeySource) (label : SealedLabel) (binding : String) (salt : Bytes)
  | maskedName (source : KeySource) (domain : String)
  deriving DecidableEq

namespace KeyUse

def role : KeyUse → Role
  | .print .. | .part .. | .carriedSeal .print .. => .search
  | _ => .read

def purpose : KeyUse → Purpose
  | .hash .. | .maskedName .. => .hash
  | .print .. | .carriedSeal .print .. => .fullFingerprint
  | .part .. => .partFingerprint
  | _ => .encryption

def scope : KeyUse → Scope
  | .fieldCipher tableId fieldId | .hash tableId fieldId | .print tableId fieldId | .part tableId fieldId =>
      fieldScope tableId fieldId
  | .carriedSeal _ tableId fieldId => ⟨"carried-keys", entryName tableId fieldId⟩
  | .keysFile => ⟨"keys-file", "tables"⟩
  | .databaseFile label => ⟨"file", label⟩
  | .sealedFile .database label binding salt => ⟨"sealed", sealedField label binding salt⟩
  | .sealedFile .fields label binding salt => ⟨"attachment", sealedField label binding salt⟩
  | .maskedName .database domain => ⟨"names", domain⟩
  | .maskedName .fields domain => ⟨"attachment-names", domain⟩

/-- The HKDF info of a use. -/
def info (use : KeyUse) : Option Bytes := subkeyInfo use.role use.purpose use.scope

/-- What the table of a scope says of the use. -/
inductive Family where
  | field
  | carried
  | keysFile
  | file
  | sealedFile (source : KeySource)
  | names (source : KeySource)
  deriving DecidableEq

def family : KeyUse → Family
  | .fieldCipher .. | .hash .. | .print .. | .part .. => .field
  | .carriedSeal .. => .carried
  | .keysFile => .keysFile
  | .databaseFile _ => .file
  | .sealedFile source .. => .sealedFile source
  | .maskedName source _ => .names source

/-- The tables of fields start with `t:`, and no other one does. -/
def familyOf (table : String) : Option Family :=
  if "t:".toList.isPrefixOf table.toList then some .field
  else if table = "carried-keys" then some .carried
  else if table = "keys-file" then some .keysFile
  else if table = "file" then some .file
  else if table = "sealed" then some (.sealedFile .database)
  else if table = "attachment" then some (.sealedFile .fields)
  else if table = "names" then some (.names .database)
  else if table = "attachment-names" then some (.names .fields)
  else none

theorem familyOf_field (tableId : String) (fieldId : Nat) :
    familyOf (fieldScope tableId fieldId).table = some .field := by
  have hprefix : "t:".toList.isPrefixOf ("t:" ++ tableId).toList = true := by
    rw [String.toList_append, List.isPrefixOf_iff_prefix]
    exact List.prefix_append _ _
  exact if_pos hprefix

theorem familyOf_scope (use : KeyUse) : familyOf use.scope.table = some use.family := by
  cases use with
  | fieldCipher tableId fieldId => exact familyOf_field tableId fieldId
  | hash tableId fieldId => exact familyOf_field tableId fieldId
  | print tableId fieldId => exact familyOf_field tableId fieldId
  | part tableId fieldId => exact familyOf_field tableId fieldId
  | carriedSeal kind tableId fieldId =>
      show familyOf "carried-keys" = some .carried
      decide
  | keysFile => decide
  | databaseFile label =>
      show familyOf "file" = some .file
      decide
  | sealedFile source label binding salt =>
      cases source with
      | database =>
          show familyOf "sealed" = some (.sealedFile .database)
          decide
      | fields =>
          show familyOf "attachment" = some (.sealedFile .fields)
          decide
  | maskedName source domain =>
      cases source with
      | database =>
          show familyOf "names" = some (.names .database)
          decide
      | fields =>
          show familyOf "attachment-names" = some (.names .fields)
          decide

end KeyUse

theorem fieldScope_inj {t t' : String} {f f' : Nat} (h : fieldScope t f = fieldScope t' f') : t = t' ∧ f = f' := by
  obtain ⟨htable, hfield⟩ := Scope.mk.inj h
  have htable := congrArg String.toList htable
  rw [String.toList_append, String.toList_append] at htable
  have hnumber : toString f ++ ":" ++ "" = toString f' ++ ":" ++ "" := by
    have hdigits := congrArg String.toList hfield
    rw [String.toList_append, String.toList_append] at hdigits
    rw [String.toList_inj.mp (List.append_cancel_left hdigits)]
  exact ⟨String.toList_inj.mp (List.append_cancel_left htable), (number_cut hnumber).1⟩

/-! ## Names of sealed files -/

theorem hexDigit_inj : ∀ a < 16, ∀ b < 16, hexDigit a = hexDigit b → a = b := by decide

theorem hexByte_inj {a b : UInt8} (h : hexByte a = hexByte b) : a = b := by
  have ha := a.toNat_lt
  have hb := b.toNat_lt
  obtain ⟨hhigh, hlow⟩ := List.cons.inj h
  have hhigh := hexDigit_inj _ (by omega) _ (by omega) hhigh
  have hlow := hexDigit_inj _ (by omega) _ (by omega) (List.cons.inj hlow).1
  exact UInt8.toNat_inj.mp (by omega)

theorem hexText_inj {a b : Bytes} (h : hexText a = hexText b) : a = b := by
  have hlist : a.flatMap hexByte = b.flatMap hexByte := String.ofList_injective h
  clear h
  induction a generalizing b with
  | nil =>
      cases b with
      | nil => rfl
      | cons y b => cases hlist
  | cons x a ih =>
      cases b with
      | nil => cases hlist
      | cons y b =>
          rw [List.flatMap_cons, List.flatMap_cons] at hlist
          obtain ⟨hbyte, hrest⟩ := List.append_inj hlist rfl
          rw [hexByte_inj hbyte, ih hrest]

theorem not_mem_hexText {c : Char} (hc : ∀ n < 16, hexDigit n ≠ c) (bytes : Bytes) : c ∉ (hexText bytes).toList := by
  rw [hexText, String.toList_ofList]
  intro hmem
  obtain ⟨b, -, hb⟩ := List.mem_flatMap.mp hmem
  have hrange := b.toNat_lt
  rcases List.mem_cons.mp hb with hhigh | hlow
  · exact hc _ (by omega) hhigh.symm
  · exact hc _ (by omega) (List.mem_singleton.mp hlow).symm

theorem colon_not_mem_hexText (bytes : Bytes) : ':' ∉ (hexText bytes).toList := not_mem_hexText (by decide) bytes

theorem sealedField_inj {label label' : SealedLabel} {binding binding' : String} {salt salt' : Bytes}
    (h : sealedField label binding salt = sealedField label' binding' salt') :
    label = label' ∧ binding = binding' ∧ salt = salt' := by
  have hlabel : ∀ l : SealedLabel, ':' ∉ l.text.toList := by
    intro l
    cases l <;> decide
  unfold sealedField at h
  have hlist := congrArg String.toList h
  simp only [String.toList_append, List.append_assoc] at hlist
  obtain ⟨htext, hlist⟩ := colon_cut (hlabel label) (hlabel label') hlist
  obtain ⟨-, hlist⟩ := colon_cut (colon_not_mem_toString _) (colon_not_mem_toString _) hlist
  obtain ⟨hsalt, hlist⟩ := colon_cut (colon_not_mem_hexText salt) (colon_not_mem_hexText salt') hlist
  refine ⟨?_, String.toList_inj.mp hlist, hexText_inj (String.toList_inj.mp hsalt)⟩
  revert htext
  cases label <;> cases label' <;> decide

/-- `SealedBlobStore::binding` -/
def blobBinding (table id : String) : String := sizedText table ++ id

/-- `protected_names` -/
def protectedNames (tableId row blobId : String) : String × String := (tableId ++ "/" ++ toString 0, sizedText row ++ blobId)

/-- `SidecarFiles::binding` -/
def sidecarBinding (parts : List String) : String := joinSlash (parts.map sizedText)

theorem blobBinding_inj {table table' id id' : String} (h : blobBinding table id = blobBinding table' id') :
    table = table' ∧ id = id' := sizedText_append_inj h

theorem protectedNames_inj {tableId tableId' row row' blobId blobId' : String}
    (h : protectedNames tableId row blobId = protectedNames tableId' row' blobId') :
    tableId = tableId' ∧ row = row' ∧ blobId = blobId' := by
  obtain ⟨htable, hname⟩ := Prod.mk.inj h
  have htable := congrArg String.toList htable
  simp only [String.toList_append] at htable
  obtain ⟨hrow, hblob⟩ := sizedText_append_inj hname
  exact ⟨String.toList_inj.mp (List.append_cancel_right (List.append_cancel_right htable)), hrow, hblob⟩

/-! ## No two uses have one info -/

/-- Two uses with the same role, purpose and scope are the same: the table of the scope says which kind of use it is, and the
field what it is used for. -/
theorem KeyUse.eq_of_scope {u v : KeyUse} (hpurpose : u.purpose = v.purpose) (hrole : u.role = v.role)
    (hscope : u.scope = v.scope) : u = v := by
  have hfamily : u.family = v.family := by
    have htables := familyOf_scope u
    rw [hscope, familyOf_scope v] at htables
    exact (Option.some.inj htables).symm
  have hkind : (u.family, u.purpose) = (v.family, v.purpose) := by rw [hfamily, hpurpose]
  cases u with
  | fieldCipher t f =>
      cases v with
      | fieldCipher t' f' =>
          obtain ⟨rfl, rfl⟩ := fieldScope_inj hscope
          rfl
      | _ => exact nomatch hkind
  | hash t f =>
      cases v with
      | hash t' f' =>
          obtain ⟨rfl, rfl⟩ := fieldScope_inj hscope
          rfl
      | _ => exact nomatch hkind
  | print t f =>
      cases v with
      | print t' f' =>
          obtain ⟨rfl, rfl⟩ := fieldScope_inj hscope
          rfl
      | _ => exact nomatch hkind
  | part t f =>
      cases v with
      | part t' f' =>
          obtain ⟨rfl, rfl⟩ := fieldScope_inj hscope
          rfl
      | _ => exact nomatch hkind
  | carriedSeal kind t f =>
      cases v with
      | carriedSeal kind' t' f' =>
          obtain ⟨rfl, rfl⟩ := numberedName_inj (Scope.mk.inj hscope).2
          -- the scope does not name the kind; the role does
          cases kind <;> cases kind' <;> first | rfl | exact nomatch hrole
      | _ => exact nomatch hfamily
  | keysFile =>
      cases v with
      | keysFile => rfl
      | _ => exact nomatch hfamily
  | databaseFile label =>
      cases v with
      | databaseFile label' => rw [(Scope.mk.inj hscope).2]
      | _ => exact nomatch hfamily
  | sealedFile source label binding salt =>
      cases v with
      | sealedFile source' label' binding' salt' =>
          cases hfamily
          have hfield : sealedField label binding salt = sealedField label' binding' salt' := by
            cases source <;> exact (Scope.mk.inj hscope).2
          obtain ⟨rfl, rfl, rfl⟩ := sealedField_inj hfield
          rfl
      | _ => exact nomatch hfamily
  | maskedName source domain =>
      cases v with
      | maskedName source' domain' =>
          cases hfamily
          have hfield : domain = domain' := by
            cases source <;> exact (Scope.mk.inj hscope).2
          rw [hfield]
      | _ => exact nomatch hfamily

theorem KeyUse.info_inj {u v : KeyUse} {info : Bytes} (hu : u.info = some info) (hv : v.info = some info) : u = v := by
  obtain ⟨hrole, hpurpose, hscope⟩ := subkeyInfo_inj hu hv
  exact KeyUse.eq_of_scope hpurpose hrole hscope

theorem CarriedKind.code_inj {a b : CarriedKind} (h : a.code = b.code) : a = b := by
  revert h
  cases a <;> cases b <;> decide

/-- The associated data of a carried key names its kind, its table and its field. -/
theorem carriedAad_inj {kind kind' : CarriedKind} {tableId tableId' : String} {fieldId fieldId' : Nat}
    (htable : (utf8 tableId).length < 2 ^ 64) (htable' : (utf8 tableId').length < 2 ^ 64) (hfield : fieldId < 2 ^ 32)
    (hfield' : fieldId' < 2 ^ 32) (h : carriedAad kind tableId fieldId = carriedAad kind' tableId' fieldId') :
    kind = kind' ∧ tableId = tableId' ∧ fieldId = fieldId' := by
  obtain ⟨hkind, h⟩ := List.cons.inj (List.append_cancel_left h)
  obtain ⟨hname, h⟩ := pushPart_inj htable htable' h
  exact ⟨CarriedKind.code_inj hkind, utf8_injective hname,
    leBytes_injective (by simpa using hfield) (by simpa using hfield') h⟩

/-! ## The functions that ask for keys -/

section

variable {Root N : Type} (crypto : Primitives Root N)

/-- `key_file_cipher` -/
def FieldKeys.keyFileCipher (keys : FieldKeys Root) : Result (Aead N) :=
  match keys.read with
  | none =>
      .error (.validation
        "this program holds no read key; the table list of the keys file can be neither written nor opened")
  | some root => do
      let key ← derived (crypto.encryptionKey root keys.suite.hkdf ⟨"keys-file", "tables"⟩)
      .ok (crypto.aead keys.suite.cipher key)

/-- The key of `sealed_aead` of field keys. -/
def FieldKeys.sealedKey (keys : FieldKeys Root) (label : SealedLabel) (binding : String) (salt : Bytes) : Option Key32 := do
  let root ← keys.read
  crypto.encryptionKey root keys.suite.hkdf ⟨"attachment", sealedField label binding salt⟩

/-- The key of `name_fingerprint` of field keys. -/
def FieldKeys.nameKey (keys : FieldKeys Root) (domain : String) : Option Key32 := do
  let root ← keys.read
  crypto.hashKey root keys.suite.hkdf ⟨"attachment-names", domain⟩

/-- `EncryptionContext`: the keys of a database encrypted as a whole. -/
structure EncryptionContext (Root : Type) where
  suite : KeySuite
  read : Option Root

/-- The key of `file_aead`. -/
def EncryptionContext.fileKey (context : EncryptionContext Root) (label : String) : Option Key32 := do
  let root ← context.read
  crypto.encryptionKey root context.suite.hkdf ⟨"file", label⟩

/-- The key of `sealed_aead` of a database. -/
def EncryptionContext.sealedKey (context : EncryptionContext Root) (label : SealedLabel) (binding : String) (salt : Bytes) :
    Option Key32 := do
  let root ← context.read
  crypto.encryptionKey root context.suite.hkdf ⟨"sealed", sealedField label binding salt⟩

/-- The key of `name_fingerprint` of a database. -/
def EncryptionContext.nameKey (context : EncryptionContext Root) (domain : String) : Option Key32 := do
  let root ← context.read
  crypto.hashKey root context.suite.hkdf ⟨"names", domain⟩

/-- `derive_subkey`: every derivation is HKDF with the info of its role, purpose and scope. -/
structure Primitives.Derives (hkdf : Root → HkdfHash → Bytes → Key32) : Prop where
  encryption : ∀ root hash scope, crypto.encryptionKey root hash scope
    = (subkeyInfo .read .encryption scope).map (hkdf root hash)
  hashes : ∀ root hash scope, crypto.hashKey root hash scope = (subkeyInfo .read .hash scope).map (hkdf root hash)
  full : ∀ root hash scope, crypto.fullFingerprintKey root hash scope
    = (subkeyInfo .search .fullFingerprint scope).map (hkdf root hash)
  part : ∀ root hash scope, crypto.partFingerprintKey root hash scope
    = (subkeyInfo .search .partFingerprint scope).map (hkdf root hash)

/-- The keys of fields come from the infos of their uses. -/
structure FieldKeys.ByInfo (hkdf : Root → HkdfHash → Bytes → Key32) (keys : FieldKeys Root) (read search : Root) : Prop where
  cipher : ∀ t f, keys.cipher crypto t f = (do
    let key ← derived ((KeyUse.fieldCipher t f).info.map (hkdf read keys.suite.hkdf))
    .ok (crypto.aead keys.suite.cipher key))
  hash : ∀ t f, keys.carried (t, f, .hash) = none →
    keys.hashKey crypto t f = derived ((KeyUse.hash t f).info.map (hkdf read keys.suite.hkdf))
  print : ∀ t f, keys.carried (t, f, .print) = none →
    keys.printKey crypto t f = derived ((KeyUse.print t f).info.map (hkdf search keys.suite.hkdf))
  part : ∀ t f, keys.partKey crypto t f = derived ((KeyUse.part t f).info.map (hkdf search keys.suite.hkdf))
  carriedHash : ∀ t f, carriedSealKey crypto keys .hash t f = (do
    let key ← derived ((KeyUse.carriedSeal .hash t f).info.map (hkdf read keys.suite.hkdf))
    .ok (some key))
  carriedPrint : ∀ t f, carriedSealKey crypto keys .print t f = (do
    let key ← derived ((KeyUse.carriedSeal .print t f).info.map (hkdf search keys.suite.hkdf))
    .ok (some key))
  keysFile : keys.keyFileCipher crypto = (do
    let key ← derived (KeyUse.keysFile.info.map (hkdf read keys.suite.hkdf))
    .ok (crypto.aead keys.suite.cipher key))
  sealedFile : ∀ label binding salt, keys.sealedKey crypto label binding salt
    = (KeyUse.sealedFile .fields label binding salt).info.map (hkdf read keys.suite.hkdf)
  maskedName : ∀ domain, keys.nameKey crypto domain
    = (KeyUse.maskedName .fields domain).info.map (hkdf read keys.suite.hkdf)

/-- The keys of a database encrypted as a whole come from the infos of their uses. -/
structure EncryptionContext.ByInfo (hkdf : Root → HkdfHash → Bytes → Key32) (context : EncryptionContext Root) (read : Root) :
    Prop where
  file : ∀ label, context.fileKey crypto label = (KeyUse.databaseFile label).info.map (hkdf read context.suite.hkdf)
  sealedFile : ∀ label binding salt, context.sealedKey crypto label binding salt
    = (KeyUse.sealedFile .database label binding salt).info.map (hkdf read context.suite.hkdf)
  maskedName : ∀ domain, context.nameKey crypto domain
    = (KeyUse.maskedName .database domain).info.map (hkdf read context.suite.hkdf)

variable {crypto} {hkdf : Root → HkdfHash → Bytes → Key32}

theorem FieldKeys.byInfo (h : crypto.Derives hkdf) {keys : FieldKeys Root} {read search : Root}
    (hread : keys.read = some read) (hsearch : keys.search = some search) : keys.ByInfo crypto hkdf read search where
  cipher t f := by
    rw [FieldKeys.cipher, hread]
    dsimp only
    rw [h.encryption]
    rfl
  hash t f hnone := by
    rw [FieldKeys.hashKey, hnone, hread]
    dsimp only
    rw [h.hashes]
    rfl
  print t f hnone := by
    rw [FieldKeys.printKey, hnone, hsearch]
    dsimp only
    rw [h.full]
    rfl
  part t f := by
    rw [FieldKeys.partKey, hsearch]
    dsimp only
    rw [h.part]
    rfl
  carriedHash t f := by
    unfold carriedSealKey
    dsimp only
    rw [hread]
    dsimp only
    rw [h.encryption]
    rfl
  carriedPrint t f := by
    unfold carriedSealKey
    dsimp only
    rw [hsearch]
    dsimp only
    rw [h.full]
    rfl
  keysFile := by
    rw [FieldKeys.keyFileCipher, hread]
    dsimp only
    rw [h.encryption]
    rfl
  sealedFile label binding salt := by
    rw [FieldKeys.sealedKey, hread]
    exact h.encryption _ _ _
  maskedName domain := by
    rw [FieldKeys.nameKey, hread]
    exact h.hashes _ _ _

theorem EncryptionContext.byInfo (h : crypto.Derives hkdf) {context : EncryptionContext Root} {read : Root}
    (hread : context.read = some read) : context.ByInfo crypto hkdf read where
  file label := by
    rw [EncryptionContext.fileKey, hread]
    exact h.encryption _ _ _
  sealedFile label binding salt := by
    rw [EncryptionContext.sealedKey, hread]
    exact h.encryption _ _ _
  maskedName domain := by
    rw [EncryptionContext.nameKey, hread]
    exact h.hashes _ _ _

end

/-- **Different uses never share an info, a logical name or associated data.** The keys of fields and of a database are derived
with the infos of their uses; an info has one use, with its arguments; the bindings and names of sealed files, and the
associated data of envelopes and carried keys, determine what they are made of. -/
theorem derived_keys_separate {Root N : Type} {crypto : Primitives Root N} {hkdf : Root → HkdfHash → Bytes → Key32}
    (hderives : crypto.Derives hkdf) (keys : FieldKeys Root) (context : EncryptionContext Root) (read search database : Root)
    (hread : keys.read = some read) (hsearch : keys.search = some search) (hdatabase : context.read = some database) :
    (keys.ByInfo crypto hkdf read search ∧ context.ByInfo crypto hkdf database) ∧
    (∀ (u v : KeyUse) (info : Bytes), u.info = some info → v.info = some info → u = v) ∧
    (∀ table id table' id', blobBinding table id = blobBinding table' id' → table = table' ∧ id = id') ∧
    (∀ tableId row blobId tableId' row' blobId', protectedNames tableId row blobId = protectedNames tableId' row' blobId' →
      tableId = tableId' ∧ row = row' ∧ blobId = blobId') ∧
    (∀ parts parts', sidecarBinding parts = sidecarBinding parts' → parts = parts') ∧
    (∀ place place' : Place, place.Sized → place'.Sized → authenticatedData place = authenticatedData place' →
      place = place') ∧
    ∀ (kind kind' : CarriedKind) (tableId tableId' : String) (fieldId fieldId' : Nat), (utf8 tableId).length < 2 ^ 64 →
      (utf8 tableId').length < 2 ^ 64 → fieldId < 2 ^ 32 → fieldId' < 2 ^ 32 →
      carriedAad kind tableId fieldId = carriedAad kind' tableId' fieldId' →
      kind = kind' ∧ tableId = tableId' ∧ fieldId = fieldId' := by
  refine ⟨⟨FieldKeys.byInfo hderives hread hsearch, EncryptionContext.byInfo hderives hdatabase⟩, ?_, ?_, ?_, ?_, ?_, ?_⟩
  · intro u v info hu hv
    exact KeyUse.info_inj hu hv
  · intro table id table' id' h
    exact blobBinding_inj h
  · intro tableId row blobId tableId' row' blobId' h
    exact protectedNames_inj h
  · intro parts parts' h
    exact joinSlash_sized_inj h
  · intro place place' hplace hplace' h
    exact authenticatedData_inj hplace hplace' h
  · intro kind kind' tableId tableId' fieldId fieldId' htable htable' hfield hfield' h
    exact carriedAad_inj htable htable' hfield hfield' h

namespace InfoSample

/-- A derivation that keeps nothing of its info: infos are told apart without it. -/
def hkdf (root : Nat) (_ : HkdfHash) (_ : Bytes) : Key32 := ⟨List.replicate 32 (UInt8.ofNat root), length_rootBytes root⟩

def crypto : Primitives Nat Unit :=
  { Primitives.plain with
    encryptionKey := fun root hash scope => (subkeyInfo .read .encryption scope).map (hkdf root hash)
    hashKey := fun root hash scope => (subkeyInfo .read .hash scope).map (hkdf root hash)
    fullFingerprintKey := fun root hash scope => (subkeyInfo .search .fullFingerprint scope).map (hkdf root hash)
    partFingerprintKey := fun root hash scope => (subkeyInfo .search .partFingerprint scope).map (hkdf root hash)
    mac := fun _ data => data
    b64Encode := B64.encode
    b64Decode := B64.decode }

theorem derives : crypto.Derives hkdf := ⟨fun _ _ _ => rfl, fun _ _ _ => rfl, fun _ _ _ => rfl, fun _ _ _ => rfl⟩

def context : EncryptionContext Nat := ⟨⟨.aes256GcmSiv, .sha256⟩, some 3⟩

end InfoSample

/-- The cipher and the hash key of one field have the same root and the same scope, and still another info. -/
theorem derived_keys_separate_sample :
    InfoSample.crypto.Derives InfoSample.hkdf ∧ (KeyUse.fieldCipher "t" 1).scope = (KeyUse.hash "t" 1).scope ∧
      (KeyUse.fieldCipher "t" 1).info ≠ (KeyUse.hash "t" 1).info := by
  refine ⟨InfoSample.derives, rfl, ?_⟩
  intro hsame
  have hinj := (derived_keys_separate InfoSample.derives .plain InfoSample.context 1 2 3 rfl rfl rfl).2.1
  obtain ⟨info, hinfo⟩ : ∃ info, (KeyUse.fieldCipher "t" 1).info = some info :=
    Option.isSome_iff_exists.mp (by decide)
  have heq : KeyUse.fieldCipher "t" 1 = KeyUse.hash "t" 1 := hinj _ _ info hinfo (hsame ▸ hinfo)
  cases heq

/-! ## Fingerprints of values and of settings -/

section

variable (out : Fields.Outside)

/-- What `print_value` authenticates. -/
def printData (kinds : List Fields.TransformKind) (text : String) : Bytes :=
  utf8 "cf-print" ++ utf8 (normalizeText out text kinds)

/-- What `settings_fingerprint` authenticates. -/
def settingsData (kinds : List Fields.TransformKind) : Bytes := utf8 "cf-print-settings" ++ 1 :: kinds.map transformCode

/-- The text that the label of values completes to the settings of `kinds`. -/
def SettingsText (kinds : List Fields.TransformKind) (text : String) : Prop :=
  utf8 text = utf8 "-settings" ++ 1 :: kinds.map transformCode

instance (kinds : List Fields.TransformKind) (text : String) : Decidable (SettingsText kinds text) :=
  inferInstanceAs (Decidable (_ = _))

variable {out}

theorem printData_eq_settingsData {kinds kinds' : List Fields.TransformKind} {text : String} :
    printData out kinds text = settingsData kinds' ↔ SettingsText kinds' (normalizeText out text kinds) := by
  have hlabel : utf8 "cf-print-settings" = utf8 "cf-print" ++ utf8 "-settings" := by decide
  rw [printData, settingsData, hlabel, List.append_assoc, List.append_cancel_left_eq, SettingsText]

theorem printData_inj {kinds kinds' : List Fields.TransformKind} {text text' : String}
    (h : printData out kinds text = printData out kinds' text') : normalizeText out text kinds = normalizeText out text' kinds' :=
  utf8_injective (List.append_cancel_left h)

end

/-- **When the fingerprint of a value is not one of settings.** The bytes of a value and of settings differ exactly when the
normalised value is not the text that completes one label to the other; different normalised values have different bytes;
and under a MAC without collisions the stored texts differ in the same case. -/
theorem print_apart_iff {Root N : Type} {crypto : Primitives Root N} (hcoded : crypto.Coded)
    (hmac : ∀ key, Function.Injective (crypto.mac key)) (keys : FieldKeys Root) (out : Fields.Outside) (tableId : String)
    (fieldId : Nat) (kinds kinds' : List Fields.TransformKind) (text : String) :
    (printData out kinds text ≠ settingsData kinds' ↔ ¬SettingsText kinds' (normalizeText out text kinds)) ∧
    (∀ text', normalizeText out text kinds ≠ normalizeText out text' kinds' →
      printData out kinds text ≠ printData out kinds' text') ∧
    ∀ (value : Bytes) (tag check : String), fromUtf8 value = some text →
      printValue crypto keys out tableId fieldId kinds value = .ok tag →
      printSettingsFingerprint crypto keys tableId fieldId kinds' = .ok check →
      (tag ≠ check ↔ ¬SettingsText kinds' (normalizeText out text kinds)) := by
  refine ⟨not_congr printData_eq_settingsData, fun text' hne h => hne (printData_inj h), ?_⟩
  intro value tag check hvalue htag hcheck
  rw [printValue, hvalue] at htag
  obtain ⟨key, hkey, htag⟩ := bind_eq_ok.mp htag
  obtain ⟨key', hkey', hcheck⟩ := bind_eq_ok.mp hcheck
  rw [hkey] at hkey'
  cases hkey'
  cases htag
  cases hcheck
  rw [hcoded.encode, Ne, B64.encode_injective.eq_iff, (hmac key).eq_iff]
  exact not_congr printData_eq_settingsData

/-- Under ideal primitives, the value `-settings` with the character 1 has the fingerprint that the table description keeps as
the check of a field without normalisation. -/
theorem print_of_settings_text :
    ∃ tag, printValue InfoSample.crypto .plain (.listed []) "t" 1 [] (utf8 "-settings\x01") = .ok tag ∧
      printSettingsFingerprint InfoSample.crypto .plain "t" 1 [] = .ok tag :=
  ⟨B64.encode (settingsData []), by decide, by decide⟩

theorem print_apart_iff_name :
    InfoSample.crypto.Coded ∧ (∀ key, Function.Injective (InfoSample.crypto.mac key)) ∧
      printData (.listed []) [] "name" ≠ settingsData [.trim] := by
  have hcoded : InfoSample.crypto.Coded := ⟨rfl, rfl⟩
  have hmac : ∀ key, Function.Injective (InfoSample.crypto.mac key) := fun _ _ _ h => h
  exact ⟨hcoded, hmac, (print_apart_iff hcoded hmac .plain (.listed []) "t" 1 [] [.trim] "name").1.mpr (by decide)⟩

end CloveDb.FieldCrypto
