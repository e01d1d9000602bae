/-
# CloveDb.FieldCrypto.Keys — the keys of protected fields, and what is made with them

`field_crypto/keys.rs`, with the verification hashes of `hashing.rs` and the search fingerprints of `prints.rs`. Every
field of every table has keys of its own, derived from one of two roots: hashes from the read root, fingerprints from
the search root. A key carried over from earlier roots is used in place of the derived one.

The primitives (key derivation, ciphers, MAC, slow hash, base64) are parameters. A program may hold both roots, or only
one.
-/
import CloveDb.Encrypted.Layout
import CloveDb.Fields.Extract
import CloveDb.Lib.NumberedName
import CloveDb.Units

namespace CloveDb.FieldCrypto

open CloveDb.Lib CloveDb.Encrypted

/-- `Key32`. -/
structure Key32 where
  bytes : Bytes
  length_eq : bytes.length = 32
  deriving DecidableEq

/-- `Key32::from_slice`. -/
def Key32.fromSlice (bytes : Bytes) : Option Key32 := if h : bytes.length = 32 then some ⟨bytes, h⟩ else none

theorem Key32.fromSlice_bytes (key : Key32) : Key32.fromSlice key.bytes = some key := dif_pos key.length_eq

inductive CipherKind where
  | aes256Gcm
  | aes256GcmSiv
  | chaCha20Poly1305
  | xChaCha20Poly1305
  deriving DecidableEq, Repr

inductive HkdfHash where
  | sha256
  | sha512
  deriving DecidableEq, Repr

structure KeySuite where
  cipher : CipherKind
  hkdf : HkdfHash
  deriving DecidableEq, Repr

structure Scope where
  table : String
  field : String
  deriving DecidableEq, Repr

inductive HashAlgo where
  | argon2id
  | scrypt
  deriving DecidableEq, Repr

inductive Method where
  | encrypt
  | encryptFullPrint
  | encryptPartPrints
  | hash
  | searchPrint
  deriving DecidableEq, Repr

/-- `SealedSpec`: a protected field as the entity declares it. -/
structure SealedSpec where
  id : Nat
  key : String
  method : Method
  hash : Option HashAlgo
  normalize : List Fields.TransformKind
  window : Nat
  bits : Nat
  deriving DecidableEq

/-- What a carried key is a key of. -/
inductive CarriedKind where
  | hash
  | print
  deriving DecidableEq, Repr

/-- The primitives of `crypto`. A derivation fails only on a scope too long to be one. -/
structure Primitives (Root N : Type) where
  encryptionKey : Root → HkdfHash → Scope → Option Key32
  hashKey : Root → HkdfHash → Scope → Option Key32
  fullFingerprintKey : Root → HkdfHash → Scope → Option Key32
  partFingerprintKey : Root → HkdfHash → Scope → Option Key32
  aead : CipherKind → Key32 → Aead N
  mac : Key32 → Bytes → Bytes
  /-- `PasswordKdf::derive` under the settings of an algorithm -/
  slowHash : HashAlgo → Bytes → Bytes → Bytes
  /-- the settings of an algorithm, as they are fingerprinted -/
  hashSettings : HashAlgo → Bytes
  b64Encode : Bytes → String
  b64Decode : String → Option Bytes

/-- The unlocked keys of a database; `carried` is the map of keys carried over. -/
@[ext]
structure FieldKeys (Root : Type) where
  suite : KeySuite
  read : Option Root
  search : Option Root
  carried : String × Nat × CarriedKind → Option Key32

/-- The scope of a field of a table. -/
def fieldScope (tableId : String) (fieldId : Nat) : Scope := ⟨"t:" ++ tableId, "f:" ++ toString fieldId⟩

/-- A derivation that failed. -/
def derived (key : Option Key32) : Result Key32 :=
  match key with
  | some key => .ok key
  | none => .error (.validation "a field key could not be derived")

namespace FieldKeys

variable {Root N : Type}

/-- `with_access`: nothing is carried yet. -/
def fresh (suite : KeySuite) (read search : Option Root) : FieldKeys Root := ⟨suite, read, search, fun _ => none⟩

def installCarried (keys : FieldKeys Root) (kind : CarriedKind) (tableId : String) (fieldId : Nat) (key : Key32) :
    FieldKeys Root :=
  { keys with carried := fun place => if place = (tableId, fieldId, kind) then some key else keys.carried place }

variable (crypto : Primitives Root N) (keys : FieldKeys Root)

def printKey (tableId : String) (fieldId : Nat) : Result Key32 :=
  match keys.carried (tableId, fieldId, .print) with
  | some key => .ok key
  | none =>
      match keys.search with
      | none =>
          .error (.validation "this program holds no search key; fingerprints can be neither written nor matched")
      | some root => derived (crypto.fullFingerprintKey root keys.suite.hkdf (fieldScope tableId fieldId))

def hashKey (tableId : String) (fieldId : Nat) : Result Key32 :=
  match keys.carried (tableId, fieldId, .hash) with
  | some key => .ok key
  | none =>
      match keys.read with
      | none =>
          .error (.validation "this program holds no read key; protected fields can be neither written nor opened")
      | some root => derived (crypto.hashKey root keys.suite.hkdf (fieldScope tableId fieldId))

@[simp] theorem installCarried_suite (kind : CarriedKind) (tableId : String) (fieldId : Nat) (key : Key32) :
    (keys.installCarried kind tableId fieldId key).suite = keys.suite := rfl

@[simp] theorem installCarried_read (kind : CarriedKind) (tableId : String) (fieldId : Nat) (key : Key32) :
    (keys.installCarried kind tableId fieldId key).read = keys.read := rfl

@[simp] theorem installCarried_search (kind : CarriedKind) (tableId : String) (fieldId : Nat) (key : Key32) :
    (keys.installCarried kind tableId fieldId key).search = keys.search := rfl

end FieldKeys

/-! ## Hashes and fingerprints -/

section Values

variable {Root N : Type} (crypto : Primitives Root N) (keys : FieldKeys Root)

/-- `Place`: where a value is. -/
structure Place where
  tableId : String
  fieldId : Nat
  rowKey : String

/-- `compute`: the slow hash of a secret at a place. -/
def computeHash (algo : HashAlgo) (place : Place) (secret salt : Bytes) : Result Bytes := do
  let key ← keys.hashKey crypto place.tableId place.fieldId
  .ok (crypto.slowHash algo
    (crypto.mac key (utf8 "cf-hash" ++ leBytes 8 (utf8 place.rowKey).length ++ utf8 place.rowKey ++ secret)) salt)

/-- `hash_value`, with the salt it draws. -/
def hashValue (algo : HashAlgo) (place : Place) (secret salt : Bytes) : Result String := do
  let hash ← computeHash crypto keys algo place secret salt
  .ok (crypto.b64Encode (1 :: (salt ++ hash)))

def verifyValue (algo : HashAlgo) (place : Place) (secret : Bytes) (stored : String) : Result Bool :=
  match crypto.b64Decode stored with
  | none => .ok false
  | some raw =>
      if raw.length ≠ 1 + 16 + 32 ∨ raw.head? ≠ some 1 then .ok false
      else do
        let hash ← computeHash crypto keys algo place secret (raw.tail.take 16)
        .ok (hash == raw.tail.drop 16)

variable (out : Fields.Outside)

/-- `normalize`: the declared transformations, in order. -/
def normalizeText (text : String) (kinds : List Fields.TransformKind) : String := kinds.foldl (Fields.transform out) text

/-- `print_value`. -/
def printValue (tableId : String) (fieldId : Nat) (kinds : List Fields.TransformKind) (value : Bytes) : Result String :=
  match fromUtf8 value with
  | none => .error (.validation "a fingerprint value must be text")
  | some text => do
      let key ← keys.printKey crypto tableId fieldId
      .ok (crypto.b64Encode (crypto.mac key (utf8 "cf-print" ++ utf8 (normalizeText out text kinds))))

/-- `hashing::settings_fingerprint`. -/
def hashSettingsFingerprint (tableId : String) (fieldId : Nat) (algo : HashAlgo) : Result String := do
  let key ← keys.hashKey crypto tableId fieldId
  .ok (crypto.b64Encode (crypto.mac key (utf8 "cf-hash-settings" ++ crypto.hashSettings algo)))

def transformCode : Fields.TransformKind → UInt8
  | .trim => 1
  | .lowercase => 2
  | .normalizeArabic => 3

/-- `prints::settings_fingerprint`. -/
def printSettingsFingerprint (tableId : String) (fieldId : Nat) (kinds : List Fields.TransformKind) : Result String := do
  let key ← keys.printKey crypto tableId fieldId
  .ok (crypto.b64Encode (crypto.mac key (utf8 "cf-print-settings" ++ 1 :: kinds.map transformCode)))

/-- The check of one field in `settings_checks`. -/
def settingsCheck (tableId : String) (spec : SealedSpec) : Result (Option String) :=
  match spec.method with
  | .encrypt => .ok none
  | .hash =>
      match spec.hash with
      | none => .error (.migrationError "a hashed field has no hash setting")
      | some algo => do
          let check ← hashSettingsFingerprint crypto keys tableId spec.id algo
          .ok (some check)
  | .encryptFullPrint | .encryptPartPrints | .searchPrint => do
      let check ← printSettingsFingerprint crypto keys tableId spec.id spec.normalize
      .ok (some check)

def settingsChecks (tableId : String) (specs : List SealedSpec) : Result (List (Nat × Option String)) :=
  collect (fun spec => do
    let check ← settingsCheck crypto keys tableId spec
    .ok (spec.id, check)) specs

end Values

end CloveDb.FieldCrypto
