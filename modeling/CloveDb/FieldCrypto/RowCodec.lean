/-
# CloveDb.FieldCrypto.RowCodec — rows with protected fields, as they are stored

`field_crypto/envelope.rs`, `parts.rs` and the writing half of `rowcodec.rs`. A protected field is replaced, before the
row is printed, by its stored form: sealed text bound to its place, a slow hash, or a fingerprint; a field that is
searched by pieces stores beside its sealed text one fingerprint for each window of its normalised characters, cut to
a few bits, in hex, joined by blanks.

What `serde_json` does with a row is a parameter (`RowTools`). That its parser reads back a row it printed is asked
only of the rows at hand (`RowTools.Reads`).
-/
import CloveDb.FieldCrypto.Keys
import CloveDb.Query.Eval

namespace CloveDb.FieldCrypto

open CloveDb.Lib CloveDb.Encrypted CloveDb.Fields

deriving instance DecidableEq for Place

/-- What the row codec takes from `serde_json`. -/
structure RowTools extends Query.Tools where
  /-- `from_slice::<String>` -/
  readText : Bytes → Option String
  /-- `to_vec` of an object -/
  printRow : Table String Json → Bytes

/-- A `serde_json::Map` as a value. -/
def objectJson (fields : Table String Json) : Json := .object (fields.rows.map fun f => (some f.1, f.2))

/-- The printed row parses as the object it was printed from. -/
def RowTools.Reads (tools : RowTools) (fields : Table String Json) : Prop :=
  tools.parseJson (tools.printRow fields) = some (objectJson fields)

namespace Method

def hasStoredPrint : Method → Bool
  | .encryptFullPrint => true
  | .encryptPartPrints => true
  | _ => false

def hasParts : Method → Bool
  | .encryptPartPrints => true
  | _ => false

def isSealing : Method → Bool
  | .encrypt => true
  | .encryptFullPrint => true
  | .encryptPartPrints => true
  | _ => false

end Method

variable {Root N : Type} (crypto : Primitives Root N) (keys : FieldKeys Root)

/-! ## Keys -/

def FieldKeys.partKey (tableId : String) (fieldId : Nat) : Result Key32 :=
  match keys.search with
  | none => .error (.validation "this program holds no search key; fingerprints can be neither written nor matched")
  | some root => derived (crypto.partFingerprintKey root keys.suite.hkdf (fieldScope tableId fieldId))

/-- `cipher`, without its cache. -/
def FieldKeys.cipher (tableId : String) (fieldId : Nat) : Result (Aead N) :=
  match keys.read with
  | none => .error (.validation "this program holds no read key; protected fields can be neither written nor opened")
  | some root => do
      let key ← derived (crypto.encryptionKey root keys.suite.hkdf (fieldScope tableId fieldId))
      .ok (crypto.aead keys.suite.cipher key)

/-! ## Envelopes -/

def pushPart (part : Bytes) : Bytes := leBytes 8 part.length ++ part

def authenticatedData (place : Place) : Bytes :=
  utf8 "cf" ++ 1 :: (pushPart (utf8 place.tableId) ++ leBytes 4 place.fieldId ++ pushPart (utf8 place.rowKey))

/-- `seal_envelope`, with the nonce it draws. -/
def sealEnvelope (aead : Aead N) (place : Place) (nonce : N) (plain : Bytes) : String :=
  crypto.b64Encode (1 :: (leBytes 4 place.fieldId ++ aead.sealInto nonce (authenticatedData place) plain))

def openEnvelope (aead : Aead N) (place : Place) (envelope : String) : Option Bytes :=
  match crypto.b64Decode envelope with
  | none => none
  | some raw =>
      if raw.length < 5 ∨ raw.head? ≠ some 1 then none
      else if raw.tail.take 4 ≠ leBytes 4 place.fieldId then none
      else aead.openInPlace (authenticatedData place) (raw.drop 5)

theorem openEnvelope_sealEnvelope (hb64 : ∀ raw, crypto.b64Decode (crypto.b64Encode raw) = some raw) (aead : Aead N)
    (place : Place) (nonce : N) (plain : Bytes) :
    openEnvelope crypto aead place (sealEnvelope crypto aead place nonce plain) = some plain := by
  have hlen := length_leBytes 4 place.fieldId
  rw [openEnvelope, sealEnvelope, hb64]
  dsimp only
  rw [if_neg (by simp), if_neg, List.drop_succ_cons, List.drop_left' hlen, aead.open_seal]
  rw [List.tail_cons, List.take_left' hlen]
  exact fun h => h rfl

/-! ## Fingerprints of parts -/

def hexDigit (n : Nat) : Char := "0123456789abcdef".toList.getD n '0'

/-- `format!("{b:02x}")` -/
def hexByte (b : UInt8) : List Char := [hexDigit (b.toNat / 16), hexDigit (b.toNat % 16)]

/-- The first bytes of a MAC, with the spare bits of the first one cleared. -/
def keptBytes (bits : Nat) (mac : Bytes) : Bytes :=
  let bytes := (bits + 7) / 8
  let spare := bytes * 8 - bits
  match mac.take bytes with
  | [] => []
  | first :: rest => (if 0 < spare then first &&& (0xFF >>> UInt8.ofNat spare) else first) :: rest

/-- `tag`: the fingerprint of one window. -/
def partTag (key : Key32) (window bits : Nat) (text : String) : String :=
  let mac := crypto.mac key (utf8 "cf-part" ++ UInt8.ofNat window :: utf8 text)
  let hex := (keptBytes bits mac).flatMap hexByte
  String.ofList (hex.drop (hex.length - (bits + 3) / 4))

/-- `chars.windows(window)` -/
def pieces (window : Nat) : List Char → List (List Char)
  | [] => []
  | c :: cs => if (c :: cs).length < window then [] else (c :: cs).take window :: pieces window cs

variable (tools : RowTools)

def partTags (tableId : String) (fieldId : Nat) (kinds : List TransformKind) (window bits : Nat) (text : String) :
    Result (List String) :=
  if window = 0 ∨ ¬(1 ≤ bits ∧ bits ≤ 64) then
    .error (.validation "the fingerprints of the parts of this field are not set up")
  else do
    let key ← keys.partKey crypto tableId fieldId
    let chars := (normalizeText tools.toOutside text kinds).toList
    .ok (Query.sortedSet ((pieces window chars).map fun piece =>
      partTag crypto key window bits (String.ofList piece)))

def normalizedLen (kinds : List TransformKind) (text : String) : Nat :=
  (normalizeText tools.toOutside text kinds).toList.length

/-- `join` -/
def joinTags (tags : List String) : String := String.ofList ([' '].intercalate (tags.map String.toList))

/-! ## Rows -/

/-- What a protected field of an entity holds when it is written. A new value comes with what writing it draws. -/
inductive Part (N : Type) where
  | new (plain : Bytes) (nonce : N) (salt : Bytes)
  | closed (text : String) (full parts : Option String) (bound : Option Place)
  | stored (text : String)

/-- An entity with protected fields: `sealed_parts`, and `to_value` of it, `none` if it is not an object. -/
structure Entity (N : Type) where
  parts : Result (List (Part N))
  value : Result (Option (Table String Json))

def moved : ClError :=
  .validation "a protected value can only be written back to the table, field and row it was read from"

def notText : ClError := .validation "a field with a fingerprint must hold text"

def fullPrintOfJson (tableId : String) (spec : SealedSpec) (plain : Bytes) : Result String :=
  match tools.readText plain with
  | none => .error notText
  | some text => printValue crypto keys tools.toOutside tableId spec.id spec.normalize (utf8 text)

def partsOfJson (tableId : String) (spec : SealedSpec) (plain : Bytes) : Result String :=
  match tools.readText plain with
  | none => .error notText
  | some text => do
      let tags ← partTags crypto keys tools tableId spec.id spec.normalize spec.window spec.bits text
      .ok (joinTags tags)

def text (s : String) : Json := .string (some s)

/-- The object of a stored form: `s`, and `f` and `p` where there are any. -/
def storedObject (sealedText : String) (full parts : Option String) : Table String Json :=
  let object := Table.empty.insert "s" (text sealedText)
  let object := match full with
    | none => object
    | some full => object.insert "f" (text full)
  match parts with
  | none => object
  | some parts => object.insert "p" (text parts)

def storedForm (sealedText : String) (full parts : Option String) : Json :=
  match full, parts with
  | none, none => text sealedText
  | full, parts => objectJson (storedObject sealedText full parts)

/-- `Some` of what a step computes, if the field has it at all. -/
def whenHeld (held : Bool) (make : Result String) : Result (Option String) :=
  if held then do
    let made ← make
    .ok (some made)
  else .ok none

/-- The stored value of one protected field. -/
def sealPart (tableId key : String) (spec : SealedSpec) : Part N → Result Json
  | .new plain nonce salt =>
      if spec.method.isSealing then do
        let full ← whenHeld spec.method.hasStoredPrint (fullPrintOfJson crypto keys tools tableId spec plain)
        let parts ← whenHeld spec.method.hasParts (partsOfJson crypto keys tools tableId spec plain)
        let aead ← keys.cipher crypto tableId spec.id
        .ok (storedForm (sealEnvelope crypto aead ⟨tableId, spec.id, key⟩ nonce plain) full parts)
      else
        match spec.method with
        | .hash =>
            match spec.hash with
            | none => .error (.validation "a hashed field has no hash setting")
            | some algo => do
                let hash ← hashValue crypto keys algo ⟨tableId, spec.id, key⟩ plain salt
                .ok (text hash)
        | .searchPrint => do
            let tag ← printValue crypto keys tools.toOutside tableId spec.id spec.normalize plain
            .ok (text tag)
        | _ => .error (.validation "fingerprint fields cannot be written with this version")
  | .closed sealedText full parts bound =>
      if bound ≠ some ⟨tableId, spec.id, key⟩ then .error moved
      else
        -- fingerprints are written back as they were read: they cannot be made without opening the value
        match spec.method.hasStoredPrint, spec.method.hasParts, full, parts with
        | true, false, some full, none => .ok (storedForm sealedText (some full) none)
        | true, true, some full, some parts => .ok (storedForm sealedText (some full) (some parts))
        | true, _, _, _ =>
            .error (.validation
              "a field declared with a fingerprint holds sealed text without one; nothing was saved")
        | false, _, none, none => .ok (text sealedText)
        | false, _, _, _ => .error moved
  | .stored tag => if spec.method ≠ .searchPrint then .error moved else .ok (text tag)

/-- The loop over the protected fields. -/
def sealParts (tableId key : String) : List (SealedSpec × Part N) → Table String Json → Result (Table String Json)
  | [], object => .ok object
  | (spec, part) :: rest, object => do
      let stored ← sealPart crypto keys tools tableId key spec part
      sealParts tableId key rest (object.insert spec.key stored)

/-- The entry of a key, if the value is an object that has it. -/
def entry (k : String) : Json → Option Json
  | .object fields =>
      match findKey k fields none with
      | .ok found => found
      | .error _ => none
  | _ => none

/-- A text with at least one character. -/
def isText : Option Json → Bool
  | some (.string (some s)) => !s.isEmpty
  | _ => false

/-- A text that may be empty: a value shorter than a part has no fingerprints of parts. -/
def isAnyText : Option Json → Bool
  | some (.string (some _)) => true
  | _ => false

/-- The check of one field in `check_sealed`. -/
def sealedWell (object : Table String Json) (spec : SealedSpec) : Bool :=
  if spec.method.hasStoredPrint then
    match object.get spec.key with
    | some (.object fields) =>
        isText (entry "s" (.object fields)) && isText (entry "f" (.object fields)) &&
          (!spec.method.hasParts || isAnyText (entry "p" (.object fields)))
    | _ => false
  else isText (object.get spec.key)

def checkSealed (object : Table String Json) (specs : List SealedSpec) : Result Unit :=
  if specs.all (sealedWell object) then .ok ()
  else .error (.validation "a protected field was not sealed; nothing was saved")

/-- The object `seal_row` prints. -/
def sealObject (tableId : String) (specs : List SealedSpec) (key : String) (entity : Entity N) :
    Result (Table String Json) := do
  let parts ← entity.parts
  if parts.length ≠ specs.length then
    .error (.validation "the protected fields of the entity do not match its table")
  else
    match ← entity.value with
    | none => .error (.validation "a row with protected fields must be a JSON object")
    | some object => do
        let object ← sealParts crypto keys tools tableId key (specs.zip parts) object
        checkSealed object specs
        .ok object

def sealRow (tableId : String) (specs : List SealedSpec) (key : String) (entity : Entity N) : Result Bytes := do
  let object ← sealObject crypto keys tools tableId specs key entity
  .ok (tools.printRow object)

/-! ## What is stored -/

theorem findKey_rows (k : String) {rows : List (String × Json)} (hrows : Ascending rows) (found : Option Json) :
    findKey k (rows.map fun f => (some f.1, f.2)) found = .ok ((lookup k rows).or found) := by
  induction rows generalizing found with
  | nil => rfl
  | cons row rows ih =>
      obtain ⟨k', j⟩ := row
      have htail := List.pairwise_cons.mp hrows
      rw [List.map_cons, findKey, ih htail.2]
      by_cases hkey : k' = k
      · subst hkey
        have hnone : lookup k' rows = none := lookup_eq_none_of_lt htail.1
        rw [if_pos rfl, hnone, lookup, if_pos rfl]
        rfl
      · rw [if_neg hkey, lookup, if_neg (Ne.symm hkey)]

theorem findKey_objectJson (fields : Table String Json) (k : String) :
    findKey k (fields.rows.map fun f => (some f.1, f.2)) none = .ok (fields.get k) := by
  rw [findKey_rows k fields.ascending, Option.or_none]
  rfl

theorem entry_objectJson (fields : Table String Json) (k : String) : entry k (objectJson fields) = fields.get k := by
  show (match findKey k (fields.rows.map fun f => (some f.1, f.2)) none with
    | .ok found => found
    | .error _ => none) = _
  rw [findKey_objectJson]

/-- Selecting from a stored row starts at the field the path names. -/
theorem select_objectJson (fields : Table String Json) (k : String) (rest : List Step) :
    select (.key k :: rest) (objectJson fields) =
      match fields.get k with
      | none => .ok .missing
      | some j => select rest j := by
  rw [objectJson, select, findKey_objectJson]
  cases fields.get k with
  | none => rfl
  | some j => rfl

theorem select_entry {json : Json} {k : String} {j : Json} (h : entry k json = some j) (rest : List Step) :
    select (.key k :: rest) json = select rest j := by
  cases json with
  | object fields =>
      rw [entry] at h
      rw [select]
      cases hfound : findKey k fields none with
      | error e =>
          rw [hfound] at h
          cases h
      | ok found =>
          rw [hfound] at h
          subst h
          rfl
  | _ => cases h

theorem isText_eq_some {json : Option Json} (h : isText json = true) : ∃ s, json = some (text s) := by
  unfold isText at h
  split at h
  · exact ⟨_, rfl⟩
  · cases h

theorem isAnyText_eq_some {json : Option Json} (h : isAnyText json = true) : ∃ s, json = some (text s) := by
  unfold isAnyText at h
  split at h
  · exact ⟨_, rfl⟩
  · cases h

section Sealed

variable {crypto : Primitives Root N} {keys : FieldKeys Root} {tools : RowTools} {tableId key : String}
  {specs : List SealedSpec} {entity : Entity N} {object : Table String Json}

/-- What a row that was sealed is. -/
theorem sealObject_ok (h : sealObject crypto keys tools tableId specs key entity = .ok object) :
    ∃ parts start, entity.parts = .ok parts ∧ parts.length = specs.length ∧ entity.value = .ok (some start) ∧
      sealParts crypto keys tools tableId key (specs.zip parts) start = .ok object ∧
      ∀ spec ∈ specs, sealedWell object spec = true := by
  rw [sealObject, bind_eq_ok] at h
  obtain ⟨parts, hparts, h⟩ := h
  split_ifs at h with hlen
  rw [bind_eq_ok] at h
  obtain ⟨value, hvalue, h⟩ := h
  cases value with
  | none => cases h
  | some start =>
      dsimp only at h
      rw [bind_eq_ok] at h
      obtain ⟨done, hdone, h⟩ := h
      rw [bind_eq_ok] at h
      obtain ⟨_, hcheck, h⟩ := h
      cases h
      unfold checkSealed at hcheck
      split_ifs at hcheck with hall
      exact ⟨parts, start, hparts, not_not.mp hlen, hvalue, hdone, List.all_eq_true.mp hall⟩

theorem sealObject_of {parts : List (Part N)} {start : Table String Json} (hparts : entity.parts = .ok parts)
    (hlen : parts.length = specs.length) (hvalue : entity.value = .ok (some start))
    (hdone : sealParts crypto keys tools tableId key (specs.zip parts) start = .ok object)
    (hwell : ∀ spec ∈ specs, sealedWell object spec = true) :
    sealObject crypto keys tools tableId specs key entity = .ok object := by
  have hcheck : checkSealed object specs = .ok () := by
    unfold checkSealed
    rw [if_pos (List.all_eq_true.mpr hwell)]
  unfold sealObject
  refine bind_eq_ok.mpr ⟨parts, hparts, ?_⟩
  rw [if_neg (not_not.mpr hlen)]
  exact bind_eq_ok.mpr ⟨some start, hvalue, bind_eq_ok.mpr ⟨object, hdone, bind_eq_ok.mpr ⟨(), hcheck, rfl⟩⟩⟩

/-- The fields no protected field is stored in stay as they were. -/
theorem sealParts_get_of_not_mem {pairs : List (SealedSpec × Part N)} {start : Table String Json}
    (h : sealParts crypto keys tools tableId key pairs start = .ok object) {k : String}
    (hk : k ∉ pairs.map fun pair => pair.1.key) : object.get k = start.get k := by
  induction pairs generalizing start with
  | nil =>
      cases h
      rfl
  | cons pair pairs ih =>
      obtain ⟨spec, part⟩ := pair
      rw [sealParts, bind_eq_ok] at h
      obtain ⟨stored, -, h⟩ := h
      rw [List.map_cons, List.mem_cons, not_or] at hk
      rw [ih h hk.2, Table.get_insert_ne _ _ hk.1]

/-- Each protected field is stored as its own part was sealed. -/
theorem sealParts_get {pairs : List (SealedSpec × Part N)} {start : Table String Json}
    (h : sealParts crypto keys tools tableId key pairs start = .ok object)
    (hkeys : (pairs.map fun pair => pair.1.key).Nodup) {spec : SealedSpec} {part : Part N}
    (hmem : (spec, part) ∈ pairs) :
    ∃ stored, sealPart crypto keys tools tableId key spec part = .ok stored ∧ object.get spec.key = some stored := by
  induction pairs generalizing start with
  | nil => cases hmem
  | cons pair pairs ih =>
      obtain ⟨spec', part'⟩ := pair
      rw [sealParts, bind_eq_ok] at h
      obtain ⟨stored, hstored, h⟩ := h
      rw [List.map_cons, List.nodup_cons] at hkeys
      rcases List.mem_cons.mp hmem with heq | hmem
      · cases heq
        exact ⟨stored, hstored, by rw [sealParts_get_of_not_mem h hkeys.1, Table.get_insert_self]⟩
      · exact ih h hkeys.2 hmem

/-- A part for each field: the keys are those of the fields. -/
theorem zip_keys {parts : List (Part N)} (hlen : parts.length = specs.length) :
    ((specs.zip parts).map fun pair => pair.1.key) = specs.map SealedSpec.key := by
  have hmap : (specs.zip parts).map (fun pair => pair.1.key) = ((specs.zip parts).map Prod.fst).map SealedSpec.key := by
    rw [List.map_map]
    rfl
  rw [hmap, List.map_fst_zip hlen.ge]

end Sealed

/-! ## Primitives for concrete runs -/

theorem length_rootBytes (root : Nat) : (List.replicate 32 (UInt8.ofNat root)).length = 32 := List.length_replicate

/-- Each key repeats the number of its root, the cipher marks, and base64 writes a byte as its character. -/
def Primitives.plain : Primitives Nat Unit where
  encryptionKey root _ _ := some ⟨List.replicate 32 (UInt8.ofNat root), length_rootBytes root⟩
  hashKey root _ _ := some ⟨List.replicate 32 (UInt8.ofNat root), length_rootBytes root⟩
  fullFingerprintKey root _ _ := some ⟨List.replicate 32 (UInt8.ofNat root), length_rootBytes root⟩
  partFingerprintKey root _ _ := some ⟨List.replicate 32 (UInt8.ofNat root), length_rootBytes root⟩
  aead _ _ := Aead.marking
  mac _ data := leBytes 32 (beNat data)
  slowHash _ input salt := input ++ salt
  hashSettings _ := []
  b64Encode raw := String.ofList (raw.map fun b => Char.ofNat b.toNat)
  b64Decode text := some (text.toList.map fun c => UInt8.ofNat c.toNat)

/-- Both roots at hand, nothing carried over. -/
def FieldKeys.plain : FieldKeys Nat := .fresh ⟨.aes256GcmSiv, .sha256⟩ (some 1) (some 2)

end CloveDb.FieldCrypto
