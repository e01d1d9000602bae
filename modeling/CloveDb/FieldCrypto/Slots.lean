/-
# CloveDb.FieldCrypto.Slots — entities with protected fields

`field_crypto/slots.rs` and what `#[derive(CloveFields)]` makes of an entity: a protected field is a slot
(`Sealed`, `Hashed`, `SearchPrint`) that holds a new value, or the stored text of a row it was read from,
tied to its place. A new value is serialized as a placeholder, which `seal_row` replaces by the stored form;
a row that is read back and bound to its own place is written again byte for byte, and bound to another place
it is refused.

What serde does with the other fields is a parameter (`Shape`). The values of all protected fields are one
type `V`. Ideal encryption is asked only of the values that are sealed: no key opens one of them with other
associated data.
-/
import CloveDb.FieldCrypto.B64
import CloveDb.FieldCrypto.Parts

namespace CloveDb.FieldCrypto

open CloveDb.Lib CloveDb.Encrypted CloveDb.Fields

/-! ## Slots -/

/-- `Sealed` -/
inductive SealedState (V : Type) where
  | new (value : V)
  | closed (text : String) (full parts : Option String) (bound : Option Place)

/-- `Hashed` -/
inductive SecretState where
  | new (secret : Bytes)
  | closed (text : String) (bound : Option Place)

/-- `SearchPrint` -/
inductive PrintState where
  | new (value : Bytes)
  | stored (text : String) (bound : Option Place)

/-- The trait a slot has: `EncryptSlot`, `HashSlot`, `PrintSlot`. -/
inductive SlotKind where
  | encrypt
  | hash
  | print
  deriving DecidableEq

/-- The slot that the derive asks for a method. -/
def Method.slot : Method → SlotKind
  | .encrypt => .encrypt
  | .encryptFullPrint => .encrypt
  | .encryptPartPrints => .encrypt
  | .hash => .hash
  | .searchPrint => .print

inductive Slot (V : Type) : SlotKind → Type where
  | encrypt (state : SealedState V) : Slot V .encrypt
  | hash (state : SecretState) : Slot V .hash
  | print (state : PrintState) : Slot V .print

/-- What writing a value draws: a nonce and a salt. -/
abbrev Draw (N : Type) := N × Bytes

namespace Slot

variable {V N : Type}

/-- `part`; `encode` is `serde_json::to_vec` of a value. -/
def part (encode : V → Result Bytes) (draw : Draw N) : {kind : SlotKind} → Slot V kind → Result (Part N)
  | _, .encrypt (.new value) => do
      let plain ← encode value
      return .new plain draw.1 draw.2
  | _, .encrypt (.closed text full parts bound) => .ok (.closed text full parts bound)
  | _, .hash (.new secret) => .ok (.new secret draw.1 draw.2)
  | _, .hash (.closed text bound) => .ok (.closed text none none bound)
  | _, .print (.new value) => .ok (.new value draw.1 draw.2)
  | _, .print (.stored text _) => .ok (.stored text)

def bind (place : Place) : {kind : SlotKind} → Slot V kind → Slot V kind
  | _, .encrypt (.closed text full parts _) => .encrypt (.closed text full parts (some place))
  | _, .hash (.closed text _) => .hash (.closed text (some place))
  | _, .print (.stored text _) => .print (.stored text (some place))
  | _, slot => slot

/-- `serialize` while the storage layer encodes a row: a new value is a placeholder. -/
def toJson : {kind : SlotKind} → Slot V kind → Json
  | _, .encrypt (.closed sealedText full parts _) => storedForm sealedText full parts
  | _, .hash (.closed digest _) => text digest
  | _, .print (.stored tag _) => text tag
  | _, _ => .null

/-- `deserialize` -/
def fromJson : (kind : SlotKind) → Json → Option (Slot V kind)
  | .encrypt, json => (readSealed json).map fun s => .encrypt (.closed s.1 s.2.1 s.2.2 none)
  | .hash, .string (some s) => some (.hash (.closed s none))
  | .print, .string (some s) => some (.print (.stored s none))
  | _, _ => none

/-- The new value of a sealed field. -/
def newValue : {kind : SlotKind} → Slot V kind → Option V
  | _, .encrypt (.new value) => some value
  | _, _ => none

/-- A slot of a field that the entity does not declare. -/
def blank : (kind : SlotKind) → Slot V kind
  | .encrypt => .encrypt (.closed "" none none none)
  | .hash => .hash (.closed "" none)
  | .print => .print (.stored "" none)

/-- Only a field that seals takes a value to seal. -/
theorem isSealing_of_newValue {method : Method} {slot : Slot V method.slot} {value : V}
    (h : slot.newValue = some value) : method.isSealing = true := by
  cases method with
  | encrypt => rfl
  | encryptFullPrint => rfl
  | encryptPartPrints => rfl
  | hash =>
      cases slot
      cases h
  | searchPrint =>
      cases slot
      cases h

theorem part_newValue {encode : V → Result Bytes} {draw : Draw N} {kind : SlotKind} {slot : Slot V kind} {value : V}
    {part : Part N} (h : slot.newValue = some value) (hpart : slot.part encode draw = .ok part) :
    ∃ plain, encode value = .ok plain ∧ part = .new plain draw.1 draw.2 := by
  cases slot with
  | encrypt state =>
      cases state with
      | new value' =>
          cases h
          obtain ⟨plain, hplain, hpart⟩ := bind_eq_ok.mp hpart
          cases hpart
          exact ⟨plain, hplain, rfl⟩
      | closed => cases h
  | hash => cases h
  | print => cases h

end Slot

/-! ## Entities -/

/-- An entity type: its protected fields, and serde's part in the others. -/
structure Shape (R V : Type) where
  /-- `SEALED` -/
  specs : List SealedSpec
  distinct : (specs.map SealedSpec.key).Nodup
  /-- `to_value` of the other fields, `none` if it is not an object. -/
  fields : R → Result (Option (Table String Json))
  readFields : Json → Option R
  /-- `to_vec` of a protected value. -/
  encode : V → Result Bytes

/-- An entity: its other fields, and a slot for each protected one. -/
structure Record {R V : Type} (shape : Shape R V) where
  rest : R
  slots : (spec : SealedSpec) → Slot V spec.method.slot

namespace Record

variable {R V N : Type} {shape : Shape R V}

/-- `sealed_parts` -/
def parts (record : Record shape) (draws : Nat → Draw N) : Result (List (Part N)) :=
  collect (fun spec => (record.slots spec).part shape.encode (draws spec.id)) shape.specs

/-- `to_value` with placeholders. -/
def toValue (record : Record shape) : Result (Option (Table String Json)) := do
  match ← shape.fields record.rest with
  | none => return none
  | some object =>
      return some (shape.specs.foldl (fun o spec => o.insert spec.key (record.slots spec).toJson) object)

def entity (record : Record shape) (draws : Nat → Draw N) : Entity N := ⟨record.parts draws, record.toValue⟩

/-- `bind_sealed` -/
def bind (tableId key : String) (record : Record shape) : Record shape :=
  { record with slots := fun spec => (record.slots spec).bind ⟨tableId, spec.id, key⟩ }

def readSlot (spec : SealedSpec) (json : Json) : Option (Slot V spec.method.slot) :=
  (entry spec.key json).bind (Slot.fromJson spec.method.slot)

/-- `from_slice` -/
def fromSlice (tools : RowTools) (shape : Shape R V) (bytes : Bytes) : Option (Record shape) := do
  let json ← tools.parseJson bytes
  let rest ← shape.readFields json
  if shape.specs.all fun spec => (readSlot (V := V) spec json).isSome then
    return ⟨rest, fun spec => (readSlot spec json).getD (.blank _)⟩
  else none

end Record

/-- The other fields of an entity come back from any row that holds them. -/
def Shape.RoundTrips {R V : Type} (shape : Shape R V) (rest : R) : Prop :=
  ∀ start, shape.fields rest = .ok (some start) → ∀ object : Table String Json,
    (∀ k ∉ shape.specs.map SealedSpec.key, object.get k = start.get k) →
    ∃ rest', shape.readFields (objectJson object) = some rest' ∧ shape.fields rest' = .ok (some start)

/-! ## Places -/

/-- The texts and the number fit the machine's. -/
structure Place.Sized (place : Place) : Prop where
  table : (utf8 place.tableId).length < 2 ^ 64
  field : place.fieldId < 2 ^ 32
  row : (utf8 place.rowKey).length < 2 ^ 64

/-- A part says its own length, so nothing that follows belongs to it. -/
theorem pushPart_inj {a b x y : Bytes} (ha : a.length < 2 ^ 64) (hb : b.length < 2 ^ 64)
    (h : pushPart a ++ x = pushPart b ++ y) : a = b ∧ x = y := by
  unfold pushPart at h
  rw [List.append_assoc, List.append_assoc] at h
  exact sizedPart_append_inj (by simpa using ha) (by simpa using hb) h

theorem authenticatedData_inj {p q : Place} (hp : p.Sized) (hq : q.Sized)
    (h : authenticatedData p = authenticatedData q) : p = q := by
  unfold authenticatedData at h
  obtain ⟨-, h⟩ := List.append_inj h rfl
  rw [List.append_assoc, List.append_assoc] at h
  obtain ⟨htable, h⟩ := pushPart_inj hp.table hq.table (List.cons.inj h).2
  obtain ⟨hfield, h⟩ := List.append_inj h (by simp)
  obtain ⟨hrow, -⟩ := pushPart_inj (x := []) (y := []) hp.row hq.row (by simpa using h)
  have hfield := leBytes_injective (by simpa using hp.field) (by simpa using hq.field) hfield
  have htable := utf8_injective htable
  have hrow := utf8_injective hrow
  cases p
  cases q
  simp_all

section

variable {Root N V : Type} {crypto : Primitives Root N} {keys : FieldKeys Root} {tools : RowTools}
  {tableId key : String} {spec : SealedSpec} {stored : Json}

/-! ## What is sealed opens in its place only -/

/-- No key of a suite opens `sealedBytes` with associated data other than `aad`. -/
def Primitives.Ideal (crypto : Primitives Root N) (suite : KeySuite) (aad sealedBytes : Bytes) : Prop :=
  ∀ key aad', aad' ≠ aad → (crypto.aead suite.cipher key).openInPlace aad' sealedBytes = none

/-- The text form is the one of the code. -/
structure Primitives.Coded (crypto : Primitives Root N) : Prop where
  encode : crypto.b64Encode = B64.encode
  decode : crypto.b64Decode = B64.decode

theorem Primitives.Coded.roundTrip (h : crypto.Coded) (raw : Bytes) :
    crypto.b64Decode (crypto.b64Encode raw) = some raw := by
  rw [h.encode, h.decode, B64.decode_encode]

theorem cipher_ok {aead : Aead N} {fieldId : Nat} (h : keys.cipher crypto tableId fieldId = .ok aead) :
    ∃ k, aead = crypto.aead keys.suite.cipher k := by
  unfold FieldKeys.cipher at h
  split at h
  · cases h
  · obtain ⟨k, _, h⟩ := bind_eq_ok.mp h
    cases h
    exact ⟨k, rfl⟩

theorem openEnvelope_elsewhere (hcoded : crypto.Coded) {aead : Aead N} {place other : Place} {nonce : N}
    {plain : Bytes} {k : Key32} (hp : place.Sized) (ho : other.Sized) (hne : other ≠ place)
    (hideal : crypto.Ideal keys.suite (authenticatedData place)
      (aead.sealInto nonce (authenticatedData place) plain)) :
    openEnvelope crypto (crypto.aead keys.suite.cipher k) other (sealEnvelope crypto aead place nonce plain)
      = none := by
  have hlen := length_leBytes 4 place.fieldId
  rw [openEnvelope, sealEnvelope, hcoded.roundTrip]
  dsimp only
  split_ifs
  · rfl
  · rfl
  · rw [List.drop_succ_cons, List.drop_left' hlen]
    exact hideal k _ fun haad => hne (authenticatedData_inj ho hp haad)

/-! ## Stored forms -/

/-- What a protected field holds in a stored row. -/
inductive Stored : Method → Json → Prop
  | text {method : Method} (single : method.hasStoredPrint = false) (t : String) :
      Stored method (FieldCrypto.text t)
  | full (sealedText full : String) : Stored .encryptFullPrint (storedForm sealedText (some full) none)
  | parts (sealedText full parts : String) :
      Stored .encryptPartPrints (storedForm sealedText (some full) (some parts))

/-- A text with the fingerprints that a method stores. -/
theorem Stored.form {method : Method} {full parts : Option String} (hfull : full.isSome = method.hasStoredPrint)
    (hparts : parts.isSome = method.hasParts) (sealedText : String) :
    Stored method (storedForm sealedText full parts) := by
  cases method <;> cases full <;> cases hfull <;> cases parts <;> cases hparts
  · exact .text rfl sealedText
  · exact .full sealedText _
  · exact .parts sealedText _ _
  · exact .text rfl sealedText
  · exact .text rfl sealedText

theorem whenHeld_ok {held : Bool} {make : Result String} {made : Option String}
    (h : whenHeld held make = .ok made) : made.isSome = held := by
  unfold whenHeld at h
  cases held with
  | false =>
      cases h
      rfl
  | true =>
      obtain ⟨s, _, h⟩ := bind_eq_ok.mp h
      cases h
      rfl

/-- A new value in a field that seals. -/
theorem sealPart_sealing (hsealing : spec.method.isSealing = true) {plain : Bytes} {nonce : N} {salt : Bytes}
    (h : sealPart crypto keys tools tableId key spec (.new plain nonce salt) = .ok stored) :
    ∃ aead full parts, keys.cipher crypto tableId spec.id = .ok aead ∧ full.isSome = spec.method.hasStoredPrint ∧
      parts.isSome = spec.method.hasParts ∧
      stored = storedForm (sealEnvelope crypto aead ⟨tableId, spec.id, key⟩ nonce plain) full parts := by
  rw [sealPart, if_pos hsealing] at h
  obtain ⟨full, hfull, h⟩ := bind_eq_ok.mp h
  obtain ⟨parts, hparts, h⟩ := bind_eq_ok.mp h
  obtain ⟨aead, haead, h⟩ := bind_eq_ok.mp h
  cases h
  exact ⟨aead, full, parts, haead, whenHeld_ok hfull, whenHeld_ok hparts, rfl⟩

/-- A closed value is written back in its own place, with the fingerprints its method stores. -/
theorem sealPart_closed {sealedText : String} {full parts : Option String} {bound : Option Place} :
    sealPart (N := N) crypto keys tools tableId key spec (.closed sealedText full parts bound) = .ok stored ↔
      bound = some ⟨tableId, spec.id, key⟩ ∧ full.isSome = spec.method.hasStoredPrint ∧
        parts.isSome = spec.method.hasParts ∧ stored = storedForm sealedText full parts := by
  unfold sealPart
  dsimp only
  split
  · rename_i hbound
    simp [hbound]
  · rename_i hbound
    rw [not_not] at hbound
    cases hm : spec.method <;> cases full <;> cases parts <;>
      simp [hbound, Method.hasStoredPrint, Method.hasParts, storedForm, eq_comm]

/-- `seal_row` puts nothing else into a protected field. -/
theorem sealPart_stored {part : Part N} (h : sealPart crypto keys tools tableId key spec part = .ok stored) :
    Stored spec.method stored := by
  cases part with
  | new plain nonce salt =>
      by_cases hsealing : spec.method.isSealing = true
      · obtain ⟨aead, full, parts, -, hfull, hparts, rfl⟩ := sealPart_sealing hsealing h
        exact .form hfull hparts _
      · rw [sealPart, if_neg hsealing] at h
        split at h
        · rename_i hmethod
          split at h
          · cases h
          · obtain ⟨made, _, h⟩ := bind_eq_ok.mp h
            cases h
            exact .text (by rw [hmethod]; rfl) made
        · rename_i hmethod
          obtain ⟨tag, _, h⟩ := bind_eq_ok.mp h
          cases h
          exact .text (by rw [hmethod]; rfl) tag
        · cases h
  | closed sealedText full parts bound =>
      obtain ⟨-, hfull, hparts, rfl⟩ := sealPart_closed.mp h
      exact .form hfull hparts sealedText
  | stored tag =>
      rw [sealPart] at h
      split at h
      · cases h
      · rename_i hmethod
        cases h
        exact .text (by rw [not_not.mp hmethod]; rfl) tag

/-! ## Reading a row back -/

/-- A field read from a row and bound to a place is written back there as it was; written elsewhere it is
refused, unless it is a fingerprint. -/
theorem fromJson_stored (crypto : Primitives Root N) (keys : FieldKeys Root) (tools : RowTools)
    (h : Stored spec.method stored) :
    ∃ slot : Slot V spec.method.slot, Slot.fromJson spec.method.slot stored = some slot ∧
      ∀ (t k : String) (encode : V → Result Bytes) (draw : Draw N), ∃ part,
        (slot.bind ⟨t, spec.id, k⟩).part encode draw = .ok part ∧
        sealPart crypto keys tools t k spec part = .ok stored ∧
        (spec.method.slot ≠ .print → ∀ t' k', (t', k') ≠ (t, k) →
          ∀ json, sealPart crypto keys tools t' k' spec part ≠ .ok json) := by
  have hclosed : ∀ (sealedText : String) (full parts : Option String) (t k t' k' : String), (t', k') ≠ (t, k) →
      ∀ json, sealPart (N := N) crypto keys tools t' k' spec (.closed sealedText full parts (some ⟨t, spec.id, k⟩))
        ≠ .ok json := by
    intro sealedText full parts t k t' k' hne json hok
    obtain ⟨hbound, -⟩ := sealPart_closed.mp hok
    cases hbound
    exact hne rfl
  obtain ⟨id, name, method, hash, normalize, window, bits⟩ := spec
  cases h with
  | text single s =>
      cases method with
      | encrypt =>
          refine ⟨.encrypt (.closed s none none none), rfl, fun t k encode draw => ⟨_, rfl, ?_, fun _ => hclosed _ _ _ t k⟩⟩
          exact sealPart_closed.mpr ⟨rfl, rfl, rfl, rfl⟩
      | hash =>
          refine ⟨.hash (.closed s none), rfl, fun t k encode draw => ⟨_, rfl, ?_, fun _ => hclosed _ _ _ t k⟩⟩
          exact sealPart_closed.mpr ⟨rfl, rfl, rfl, rfl⟩
      | searchPrint =>
          exact ⟨.print (.stored s none), rfl, fun t k encode draw => ⟨_, rfl, rfl, fun hprint => absurd rfl hprint⟩⟩
      | encryptFullPrint | encryptPartPrints => cases single
  | full s f =>
      have hread : Slot.fromJson .encrypt (storedForm s (some f) none)
          = some (.encrypt (V := V) (.closed s (some f) none none)) := by
        rw [Slot.fromJson, readSealed_storedForm]
        rfl
      refine ⟨_, hread, fun t k encode draw => ⟨_, rfl, ?_, fun _ => hclosed _ _ _ t k⟩⟩
      exact sealPart_closed.mpr ⟨rfl, rfl, rfl, rfl⟩
  | parts s f p =>
      have hread : Slot.fromJson .encrypt (storedForm s (some f) (some p))
          = some (.encrypt (V := V) (.closed s (some f) (some p) none)) := by
        rw [Slot.fromJson, readSealed_storedForm]
        rfl
      refine ⟨_, hread, fun t k encode draw => ⟨_, rfl, ?_, fun _ => hclosed _ _ _ t k⟩⟩
      exact sealPart_closed.mpr ⟨rfl, rfl, rfl, rfl⟩

/-! ## Rows -/

theorem sealParts_total {pairs : List (SealedSpec × Part N)} (start : Table String Json)
    (h : ∀ p ∈ pairs, ∃ json, sealPart crypto keys tools tableId key p.1 p.2 = .ok json) :
    ∃ object, sealParts crypto keys tools tableId key pairs start = .ok object := by
  induction pairs generalizing start with
  | nil => exact ⟨start, rfl⟩
  | cons p pairs ih =>
      obtain ⟨json, hjson⟩ := h p List.mem_cons_self
      obtain ⟨object, hobject⟩ := ih (start.insert p.1.key json) fun q hq => h q (List.mem_cons_of_mem _ hq)
      exact ⟨object, bind_eq_ok.mpr ⟨json, hjson, hobject⟩⟩

theorem sealParts_refused {pairs : List (SealedSpec × Part N)} {start object : Table String Json}
    {p : SealedSpec × Part N} (hp : p ∈ pairs)
    (hno : ∀ json, sealPart crypto keys tools tableId key p.1 p.2 ≠ .ok json) :
    sealParts crypto keys tools tableId key pairs start ≠ .ok object := by
  induction pairs generalizing start with
  | nil => cases hp
  | cons q pairs ih =>
      intro h
      obtain ⟨json, hjson, h⟩ := bind_eq_ok.mp h
      rcases List.mem_cons.mp hp with rfl | hp
      · exact hno json hjson
      · exact ih hp h

end

/-- The unprotected fields of two objects are the same. -/
def SameRest (specs : List SealedSpec) (object start : Table String Json) : Prop :=
  ∀ k ∉ specs.map SealedSpec.key, object.get k = start.get k

namespace Record

variable {R V N Root : Type} {shape : Shape R V} {crypto : Primitives Root N} {keys : FieldKeys Root} {tools : RowTools}
  {tableId key : String} {record back : Record shape} {start object : Table String Json} {draws : Nat → Draw N}

theorem foldl_insert_sameRest (specs : List SealedSpec) (json : SealedSpec → Json) (start : Table String Json) :
    SameRest specs (specs.foldl (fun o spec => o.insert spec.key (json spec)) start) start := by
  induction specs generalizing start with
  | nil => exact fun _ _ => rfl
  | cons spec specs ih =>
      intro k hk
      rw [List.map_cons, List.mem_cons, not_or] at hk
      rw [List.foldl_cons, ih _ k hk.2, Table.get_insert_ne _ _ hk.1]

/-- The placeholders are in the protected fields only. -/
theorem toValue_some (h : shape.fields record.rest = .ok (some start)) :
    ∃ value, record.toValue = .ok (some value) ∧ SameRest shape.specs value start := by
  refine ⟨shape.specs.foldl (fun o spec => o.insert spec.key (record.slots spec).toJson) start, ?_,
    foldl_insert_sameRest _ _ start⟩
  rw [toValue, h]
  rfl

theorem toValue_ok {value : Table String Json} (h : record.toValue = .ok (some value)) :
    ∃ start, shape.fields record.rest = .ok (some start) ∧ SameRest shape.specs value start := by
  obtain ⟨found, hfound, hrest⟩ := bind_eq_ok.mp h
  cases found with
  | none => cases hrest
  | some start =>
      cases hrest
      exact ⟨start, hfound, foldl_insert_sameRest _ _ start⟩

/-- What a sealed row holds: the other fields as they were, and in each protected field what its slot was
sealed as. -/
theorem sealObject_entity (h : sealObject crypto keys tools tableId shape.specs key (record.entity draws) = .ok object) :
    (∃ start value, shape.fields record.rest = .ok (some start) ∧ record.toValue = .ok (some value) ∧
      SameRest shape.specs object value ∧ SameRest shape.specs object start) ∧
    (∀ spec ∈ shape.specs, ∃ part stored, (record.slots spec).part shape.encode (draws spec.id) = .ok part ∧
      sealPart crypto keys tools tableId key spec part = .ok stored ∧ object.get spec.key = some stored) ∧
    ∀ spec ∈ shape.specs, sealedWell object spec = true := by
  obtain ⟨parts, value, hparts, hlen, hvalue, hdone, hwell⟩ := sealObject_ok h
  obtain ⟨start, hstart, hsame⟩ := toValue_ok hvalue
  have hkeys := zip_keys hlen
  have hrest : SameRest shape.specs object value := fun k hk => sealParts_get_of_not_mem hdone (hkeys ▸ hk)
  refine ⟨⟨start, value, hstart, hvalue, hrest, fun k hk => (hrest k hk).trans (hsame k hk)⟩, fun spec hspec => ?_, hwell⟩
  obtain ⟨part, -, hpart⟩ := exists_collect hparts hspec
  obtain ⟨stored, hstored, hget⟩ := sealParts_get hdone (hkeys ▸ shape.distinct)
    ((mem_zip_collect hparts).mpr ⟨hspec, hpart⟩)
  exact ⟨part, stored, hpart, hstored, hget⟩

/-- An entity whose slots hold what is stored in a row. -/
structure ReadFrom (back : Record shape) (object : Table String Json) : Prop where
  rest : ∃ start, shape.fields back.rest = .ok (some start) ∧ SameRest shape.specs object start
  slots : ∀ spec ∈ shape.specs, ∃ stored, object.get spec.key = some stored ∧ Stored spec.method stored ∧
    Slot.fromJson spec.method.slot stored = some (back.slots spec)
  well : ∀ spec ∈ shape.specs, sealedWell object spec = true

/-- A sealed row is read back. -/
theorem fromSlice_sealed
    (h : sealObject crypto keys tools tableId shape.specs key (record.entity draws) = .ok object)
    (hreads : tools.Reads object) (hround : shape.RoundTrips record.rest) :
    ∃ back : Record shape, fromSlice tools shape (tools.printRow object) = some back ∧ back.ReadFrom object := by
  obtain ⟨⟨start, value, hstart, -, -, hsame⟩, hslots, hwell⟩ := sealObject_entity h
  obtain ⟨rest, hrest, hfields⟩ := hround start hstart object hsame
  have hread : ∀ spec ∈ shape.specs, ∃ stored slot, object.get spec.key = some stored ∧ Stored spec.method stored ∧
      Slot.fromJson (V := V) spec.method.slot stored = some slot ∧
      readSlot spec (objectJson object) = some slot := by
    intro spec hspec
    obtain ⟨part, stored, -, hstored, hget⟩ := hslots spec hspec
    have hform := sealPart_stored hstored
    obtain ⟨slot, hslot, -⟩ := fromJson_stored (V := V) crypto keys tools hform
    refine ⟨stored, slot, hget, hform, hslot, ?_⟩
    rw [readSlot, entry_objectJson, hget]
    exact hslot
  refine ⟨⟨rest, fun spec => (readSlot spec (objectJson object)).getD (.blank _)⟩, ?_, ⟨start, hfields, hsame⟩, ?_, hwell⟩
  · have hall : (shape.specs.all fun spec => (readSlot (V := V) spec (objectJson object)).isSome) = true := by
      rw [List.all_eq_true]
      intro spec hspec
      obtain ⟨_, slot, -, -, -, hslot⟩ := hread spec hspec
      rw [hslot]
      rfl
    unfold fromSlice
    rw [hreads]
    simp only [Option.bind_eq_bind, Option.bind_some, hrest, hall, if_true]
    rfl
  · intro spec hspec
    obtain ⟨stored, slot, hget, hform, hslot, hfound⟩ := hread spec hspec
    refine ⟨stored, hget, hform, ?_⟩
    show _ = some ((readSlot spec (objectJson object)).getD _)
    rw [hslot, hfound]
    rfl

/-- What the slots of a row that was read give, bound to a place: the stored form there, nothing elsewhere. -/
theorem ReadFrom.part (h : back.ReadFrom object) (crypto : Primitives Root N) (keys : FieldKeys Root)
    (tools : RowTools) (t k : String) (draw : Draw N) {spec : SealedSpec} (hspec : spec ∈ shape.specs) :
    ∃ stored part, object.get spec.key = some stored ∧
      ((back.bind t k).slots spec).part shape.encode draw = .ok part ∧
      sealPart crypto keys tools t k spec part = .ok stored ∧
      (spec.method.slot ≠ .print → ∀ t' k', (t', k') ≠ (t, k) →
        ∀ json, sealPart crypto keys tools t' k' spec part ≠ .ok json) := by
  obtain ⟨stored, hget, hform, hslot⟩ := h.slots spec hspec
  obtain ⟨slot, hslot', hpart⟩ := fromJson_stored (V := V) crypto keys tools hform
  cases hslot.symm.trans hslot'
  obtain ⟨part, hmade, hseal, hmoved⟩ := hpart t k shape.encode draw
  exact ⟨stored, part, hget, hmade, hseal, hmoved⟩

theorem ReadFrom.parts_ok (h : back.ReadFrom object) (t k : String) (draws : Nat → Draw N) (crypto : Primitives Root N)
    (keys : FieldKeys Root) (tools : RowTools) : ∃ parts, (back.bind t k).parts draws = .ok parts := by
  apply collect_total
  intro spec hspec
  obtain ⟨_, part, -, hpart, -, -⟩ := h.part crypto keys tools t k (draws spec.id) hspec
  exact ⟨part, hpart⟩

/-- A row that was read and bound is written as it was. -/
theorem ReadFrom.reseal (h : back.ReadFrom object) (crypto : Primitives Root N) (keys : FieldKeys Root)
    (tools : RowTools) (t k : String) (draws : Nat → Draw N) :
    sealObject crypto keys tools t shape.specs k ((back.bind t k).entity draws) = .ok object := by
  obtain ⟨start, hstart, hsame⟩ := h.rest
  have hbound : shape.fields (back.bind t k).rest = .ok (some start) := hstart
  obtain ⟨value, hvalue, hrest⟩ := toValue_some hbound
  obtain ⟨parts, hparts⟩ := h.parts_ok t k draws crypto keys tools
  have hlen := collect_length hparts
  have hkeys := zip_keys hlen
  have hseal : ∀ p ∈ shape.specs.zip parts, ∃ json, sealPart crypto keys tools t k p.1 p.2 = .ok json := by
    rintro ⟨spec, part⟩ hp
    obtain ⟨hspec, hpart⟩ := (mem_zip_collect hparts).mp hp
    obtain ⟨stored, part', -, hpart', hstored, -⟩ := h.part crypto keys tools t k (draws spec.id) hspec
    cases hpart.symm.trans hpart'
    exact ⟨stored, hstored⟩
  obtain ⟨again, hagain⟩ := sealParts_total value hseal
  have heq : again = object := by
    apply Table.ext_get
    intro key
    by_cases hkey : key ∈ shape.specs.map SealedSpec.key
    · obtain ⟨spec, hspec, rfl⟩ := List.mem_map.mp hkey
      obtain ⟨stored, part, hget, hpart, hstored, -⟩ := h.part crypto keys tools t k (draws spec.id) hspec
      obtain ⟨stored', hstored', hget'⟩ := sealParts_get hagain (hkeys ▸ shape.distinct)
        ((mem_zip_collect hparts).mpr ⟨hspec, hpart⟩)
      cases hstored.symm.trans hstored'
      rw [hget, hget']
    · rw [sealParts_get_of_not_mem hagain (hkeys ▸ hkey), hrest key hkey, hsame key hkey]
  exact sealObject_of hparts hlen hvalue (heq ▸ hagain) h.well

/-- A row bound to another place is refused, if a field of it seals or hashes. -/
theorem ReadFrom.refused (h : back.ReadFrom object) {spec : SealedSpec} (hspec : spec ∈ shape.specs)
    (hslot : spec.method.slot ≠ .print) {t k t' k' : String} (hne : (t', k') ≠ (t, k)) {done : Table String Json} :
    sealObject crypto keys tools t' shape.specs k' ((back.bind t k).entity draws) ≠ .ok done := by
  intro hok
  obtain ⟨parts, value, hparts, -, -, hdone, -⟩ := sealObject_ok hok
  obtain ⟨_, part, -, hpart, -, hmoved⟩ := h.part crypto keys tools t k (draws spec.id) hspec
  exact sealParts_refused ((mem_zip_collect hparts).mpr ⟨hspec, hpart⟩) (hmoved hslot t' k' hne) hdone

/-- Ideal encryption, asked of the values that an entity seals. -/
def SealsIdeally (record : Record shape) (crypto : Primitives Root N) (keys : FieldKeys Root) (tableId key : String)
    (draws : Nat → Draw N) : Prop :=
  ∀ spec ∈ shape.specs, ∀ value plain aead, (record.slots spec).newValue = some value →
    shape.encode value = .ok plain → keys.cipher crypto tableId spec.id = .ok aead →
    crypto.Ideal keys.suite (authenticatedData ⟨tableId, spec.id, key⟩)
      (aead.sealInto (draws spec.id).1 (authenticatedData ⟨tableId, spec.id, key⟩) plain)

/-- A value that was sealed opens in its own place, and in no other. -/
theorem opens_in_place (h : sealObject crypto keys tools tableId shape.specs key (record.entity draws) = .ok object)
    (hcoded : crypto.Coded) (hsized : ∀ spec ∈ shape.specs, Place.Sized ⟨tableId, spec.id, key⟩)
    (hideal : record.SealsIdeally crypto keys tableId key draws) {spec : SealedSpec} (hspec : spec ∈ shape.specs)
    {value : V} (hvalue : (record.slots spec).newValue = some value) :
    ∃ plain sealedText full parts aead, shape.encode value = .ok plain ∧
      object.get spec.key = some (storedForm sealedText full parts) ∧ keys.cipher crypto tableId spec.id = .ok aead ∧
      openEnvelope crypto aead ⟨tableId, spec.id, key⟩ sealedText = some plain ∧
      ∀ (place : Place) (other : Aead N), place.Sized → place ≠ ⟨tableId, spec.id, key⟩ →
        keys.cipher crypto place.tableId place.fieldId = .ok other → openEnvelope crypto other place sealedText = none := by
  obtain ⟨-, hslots, -⟩ := sealObject_entity h
  obtain ⟨part, stored, hpart, hstored, hget⟩ := hslots spec hspec
  obtain ⟨plain, hplain, rfl⟩ := Slot.part_newValue hvalue hpart
  obtain ⟨aead, full, parts, haead, -, -, rfl⟩ := sealPart_sealing (Slot.isSealing_of_newValue hvalue) hstored
  refine ⟨plain, _, full, parts, aead, hplain, hget, haead,
    openEnvelope_sealEnvelope crypto hcoded.roundTrip aead _ _ plain, ?_⟩
  intro place other hplace hne hother
  obtain ⟨k, rfl⟩ := cipher_ok hother
  exact openEnvelope_elsewhere hcoded (hsized spec hspec) hplace hne
    (hideal spec hspec value plain aead hvalue hplain haead)

end Record

namespace Pinned

/-- The mark of a cipher that tells one piece of associated data from all others. -/
def mark (pinned aad : Bytes) : UInt8 := if aad = pinned then 1 else 2

theorem mark_ne_zero (pinned aad : Bytes) : mark pinned aad ≠ 0 := by
  unfold mark
  split <;> decide

def aead (pinned : Bytes) : Aead Unit where
  overhead := 1
  overhead_le := by decide
  sealInto _ aad plain := mark pinned aad :: plain
  openInPlace aad raw :=
    match raw with
    | [] => none
    | b :: rest => if b = mark pinned aad then some rest else none
  length_seal _ _ plain := rfl
  length_open aad raw plain h := by
    match raw with
    | [] => cases h
    | b :: rest =>
        simp only at h
        split at h
        · cases h
          rfl
        · cases h
  open_seal _ _ plain := if_pos rfl
  seal_ne_zeros _ aad plain := by simp [mark_ne_zero]

/-- The place of the field `pin` in the row `r`. -/
def place : Place := ⟨"t", 1, "r"⟩

def crypto : Primitives Nat Unit :=
  { Primitives.plain with
    aead := fun _ _ => aead (authenticatedData place)
    b64Encode := B64.encode
    b64Decode := B64.decode }

/-- An entity with the one field `pin`, whose values are their own JSON. -/
def shape : Shape Unit Bytes where
  specs := [⟨1, "pin", .encrypt, none, [], 0, 0⟩]
  distinct := by decide
  fields _ := .ok (some .empty)
  readFields _ := some ()
  encode := .ok

def slot : (kind : SlotKind) → Slot Bytes kind
  | .encrypt => .encrypt (.new [55])
  | .hash => .blank .hash
  | .print => .blank .print

def record : Record shape := ⟨(), fun spec => slot spec.method.slot⟩

def draws : Nat → Draw Unit := fun _ => ((), [])

def row : Table String Json :=
  Table.empty.insert "pin" (text (sealEnvelope crypto (aead (authenticatedData place)) place () [55]))

def tools : RowTools :=
  { Query.Tools.listed [([49], objectJson row)] with
    readText := fun _ => none
    printRow := fun _ => [49] }

theorem sealed : sealObject crypto .plain tools "t" shape.specs "r" (record.entity draws) = .ok row := by
  rfl

theorem ideal : record.SealsIdeally crypto .plain "t" "r" draws := by
  intro spec hspec value plain cipher _ _ hcipher key aad' hne
  obtain rfl := List.mem_singleton.mp hspec
  obtain ⟨_, rfl⟩ := cipher_ok hcipher
  have hother : aad' ≠ authenticatedData place := hne
  have hmark : mark (authenticatedData place) (authenticatedData place) ≠ mark (authenticatedData place) aad' := by
    rw [mark, mark, if_pos rfl, if_neg hother]
    decide
  exact if_neg hmark

end Pinned

end CloveDb.FieldCrypto
