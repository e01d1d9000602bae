/-
# CloveDb.FieldChange.Feasible — which changes that analysis accepts can be carried out

The analysis looks whether a field is there. The rewriting opens, hashes and fingerprints its value, and fails on a field
that is not there in every case: also in a saved version that the program allowed to lack it. So an accepted change goes
through exactly if every saved version has every field that changes and every value is fit for its step
(`accepted_change_iff`), as long as no two steps are on one field.
-/
import CloveDb.FieldChange.RowSteps

namespace CloveDb.FieldChange

open CloveDb.Lib CloveDb.Lib.JsonText CloveDb.FieldCrypto CloveDb.Fields CloveDb.Backup

/-! ## Stored forms -/

section Forms

variable {tools : RawTools}

theorem get_storedObject (s : String) (full parts : Option String) (key : String) :
    (storedObject s full parts).get key =
      if key = "p" ∧ parts.isSome then parts.map text
      else if key = "f" ∧ full.isSome then full.map text
      else if key = "s" then some (text s) else none := by
  cases full <;> cases parts <;> simp only [storedObject, Table.get_insert, Table.get_empty, Option.isSome_none,
    Option.isSome_some, Option.map_some, and_true, and_false, Bool.false_eq_true, if_false]

theorem isValue_printStored (s : Stored) : tools.IsValue (printStored tools s) := by
  rw [printStored]
  split
  · exact tools.scan_string _
  · exact tools.scan_object _

theorem storedText_objectJson (o : Table String Json) (key : String) (t : Option String)
    (h : o.get key = t.map text) : storedText key (objectJson o) = .ok t := by
  rw [storedText, entry_objectJson, h]
  cases t <;> rfl

theorem readStored_printStored (s : Stored) : readStored tools (printStored tools s) = .ok s := by
  obtain ⟨sealedText, full, parts⟩ := s
  by_cases hplain : full = none ∧ parts = none
  · obtain ⟨rfl, rfl⟩ := hplain
    show readStored tools (tools.printString sealedText) = _
    rw [readStored, tools.readValue_string]
  · have hprint : printStored tools ⟨sealedText, full, parts⟩ =
        tools.printObject (storedObject sealedText full parts) := by
      cases full <;> cases parts <;> first | rfl | exact absurd ⟨rfl, rfl⟩ hplain
    have hs : storedText "s" (objectJson (storedObject sealedText full parts)) = .ok (some sealedText) :=
      storedText_objectJson _ _ _ (by simp [get_storedObject])
    have hf : storedText "f" (objectJson (storedObject sealedText full parts)) = .ok full :=
      storedText_objectJson _ _ _ (by cases full <;> simp [get_storedObject])
    have hp : storedText "p" (objectJson (storedObject sealedText full parts)) = .ok parts :=
      storedText_objectJson _ _ _ (by cases parts <;> simp [get_storedObject])
    have hnames : ((storedObject sealedText full parts).rows.map fun f => (some f.1, f.2)).any
        (fun f => f.1 ∉ [some "s", some "f", some "p"]) = false := by
      rw [List.any_eq_false]
      intro f hf'
      obtain ⟨⟨key, value⟩, hmem, rfl⟩ := List.mem_map.mp hf'
      have hget := (Table.mem_rows_iff _ _ _).mp hmem
      rw [get_storedObject] at hget
      split_ifs at hget with h₁ h₂ h₃
      · simp [h₁.1]
      · simp [h₂.1]
      · simp [h₃]
    rw [hprint, readStored, tools.readValue_object]
    unfold objectJson at hs hf hp ⊢
    dsimp only
    rw [hs]
    refine bind_eq_ok.mpr ⟨some sealedText, rfl, ?_⟩
    dsimp only
    rw [hnames, if_neg Bool.false_ne_true]
    exact bind_eq_ok.mpr ⟨full, hf, bind_eq_ok.mpr ⟨parts, hp, rfl⟩⟩

end Forms

/-! ## Keys and fingerprints -/

/-- Key derivation does not fail (a scope is short), and base64 is read back. -/
structure Total {Root N : Type} (crypto : Primitives Root N) : Prop where
  encryption : ∀ root h scope, ∃ key, crypto.encryptionKey root h scope = some key
  hash : ∀ root h scope, ∃ key, crypto.hashKey root h scope = some key
  full : ∀ root h scope, ∃ key, crypto.fullFingerprintKey root h scope = some key
  part : ∀ root h scope, ∃ key, crypto.partFingerprintKey root h scope = some key
  b64 : ∀ raw, crypto.b64Decode (crypto.b64Encode raw) = some raw
  b64_ne : ∀ raw, raw ≠ [] → crypto.b64Encode raw ≠ ""

section Keys

variable {Root N : Type} {crypto : Primitives Root N} {keys : FieldKeys Root} {tools : RawTools} {tableId : String}
  {spec : SealedSpec}

theorem cipher_ok (hcrypto : Total crypto) (hread : keys.read.isSome) (tableId : String) (fieldId : Nat) :
    ∃ aead, keys.cipher crypto tableId fieldId = .ok aead := by
  obtain ⟨root, hroot⟩ := Option.isSome_iff_exists.mp hread
  obtain ⟨key, hkey⟩ := hcrypto.encryption root keys.suite.hkdf (fieldScope tableId fieldId)
  refine ⟨crypto.aead keys.suite.cipher key, ?_⟩
  rw [FieldKeys.cipher, hroot]
  dsimp only
  rw [hkey]
  rfl

theorem hashKey_ok (hcrypto : Total crypto) (hread : keys.read.isSome) (tableId : String) (fieldId : Nat) :
    ∃ key, keys.hashKey crypto tableId fieldId = .ok key := by
  obtain ⟨root, hroot⟩ := Option.isSome_iff_exists.mp hread
  obtain ⟨key, hkey⟩ := hcrypto.hash root keys.suite.hkdf (fieldScope tableId fieldId)
  rw [FieldKeys.hashKey]
  split
  · exact ⟨_, rfl⟩
  · rw [hroot]
    refine ⟨key, ?_⟩
    dsimp only
    rw [hkey]
    rfl

theorem printKey_ok (hcrypto : Total crypto) (hsearch : keys.search.isSome) (tableId : String) (fieldId : Nat) :
    ∃ key, keys.printKey crypto tableId fieldId = .ok key := by
  obtain ⟨root, hroot⟩ := Option.isSome_iff_exists.mp hsearch
  obtain ⟨key, hkey⟩ := hcrypto.full root keys.suite.hkdf (fieldScope tableId fieldId)
  rw [FieldKeys.printKey]
  split
  · exact ⟨_, rfl⟩
  · rw [hroot]
    refine ⟨key, ?_⟩
    dsimp only
    rw [hkey]
    rfl

theorem partKey_ok (hcrypto : Total crypto) (hsearch : keys.search.isSome) (tableId : String) (fieldId : Nat) :
    ∃ key, keys.partKey crypto tableId fieldId = .ok key := by
  obtain ⟨root, hroot⟩ := Option.isSome_iff_exists.mp hsearch
  obtain ⟨key, hkey⟩ := hcrypto.part root keys.suite.hkdf (fieldScope tableId fieldId)
  rw [FieldKeys.partKey, hroot]
  refine ⟨key, ?_⟩
  dsimp only
  rw [hkey]
  rfl

theorem printValue_ok (hcrypto : Total crypto) (hsearch : keys.search.isSome) (tableId : String) (fieldId : Nat)
    (kinds : List TransformKind) (t : String) :
    ∃ tag, printValue crypto keys tools.toOutside tableId fieldId kinds (utf8 t) = .ok tag := by
  obtain ⟨key, hkey⟩ := printKey_ok hcrypto hsearch tableId fieldId
  rw [printValue, fromUtf8_utf8]
  dsimp only
  rw [hkey]
  exact ⟨_, rfl⟩

/-- The whole-value fingerprint can be made of texts and of nothing else. -/
theorem fullPrintOfJson_iff (hcrypto : Total crypto) (hsearch : keys.search.isSome) {plain : Bytes} :
    (∃ tag, fullPrintOfJson crypto keys tools.toRowTools tableId spec plain = .ok tag) ↔
      (tools.readText plain).isSome := by
  rw [fullPrintOfJson]
  cases htext : tools.readText plain with
  | none => simp
  | some t => simpa using printValue_ok hcrypto hsearch tableId spec.id spec.normalize t

theorem partsOfJson_ok (hcrypto : Total crypto) (hsearch : keys.search.isSome) (hparts : spec.method.hasParts = true)
    (hset : partsAreSetUp spec = true) {plain : Bytes} (htext : (tools.readText plain).isSome) :
    ∃ tags, partsOfJson crypto keys tools.toRowTools tableId spec plain = .ok tags := by
  obtain ⟨t, ht⟩ := Option.isSome_iff_exists.mp htext
  obtain ⟨key, hkey⟩ := partKey_ok hcrypto hsearch tableId spec.id
  have hbounds : ¬(spec.window = 0 ∨ ¬(1 ≤ spec.bits ∧ spec.bits ≤ 64)) := by
    simp only [partsAreSetUp, hparts, Bool.not_true, Bool.false_or, Bool.and_eq_true, decide_eq_true_eq] at hset
    rintro (h | h)
    · exact hset.1 h
    · exact h hset.2
  rw [partsOfJson, ht]
  dsimp only
  rw [partTags, if_neg hbounds, hkey]
  exact ⟨_, rfl⟩

theorem whenHeld_eq_ok {held : Bool} {make : Result String} {r : Option String} : whenHeld held make = .ok r ↔
    (held = true ∧ ∃ made, make = .ok made ∧ r = some made) ∨ held = false ∧ r = none := by
  cases held with
  | false => simp [whenHeld, eq_comm]
  | true =>
      rw [whenHeld, if_pos rfl, bind_eq_ok]
      simp [eq_comm]

theorem hasStoredPrint_of_hasParts {m : Method} (h : m.hasParts = true) : m.hasStoredPrint = true := by
  cases m <;> first | rfl | cases h

/-- The fingerprints of a value are those its method has. -/
theorem printsFor_shape {plain : Bytes} {r : Option String × Option String}
    (h : printsFor crypto keys tools tableId spec plain = .ok r) :
    r.1.isSome = spec.method.hasStoredPrint ∧ r.2.isSome = spec.method.hasParts := by
  obtain ⟨full, hfull, h⟩ := bind_eq_ok.mp h
  obtain ⟨parts, hparts, h⟩ := bind_eq_ok.mp h
  cases h
  constructor
  · rcases whenHeld_eq_ok.mp hfull with ⟨hheld, made, -, rfl⟩ | ⟨hheld, rfl⟩ <;> rw [hheld] <;> rfl
  · rcases whenHeld_eq_ok.mp hparts with ⟨hheld, made, -, rfl⟩ | ⟨hheld, rfl⟩ <;> rw [hheld] <;> rfl

theorem printsFor_iff (hcrypto : Total crypto) (hsearch : spec.method.hasStoredPrint = true → keys.search.isSome)
    (hset : partsAreSetUp spec = true) {plain : Bytes} :
    (∃ r, printsFor crypto keys tools tableId spec plain = .ok r) ↔
      (spec.method.hasStoredPrint = true → (tools.readText plain).isSome) := by
  constructor
  · rintro ⟨r, h⟩ hprint
    obtain ⟨full, hfull, -⟩ := bind_eq_ok.mp h
    rcases whenHeld_eq_ok.mp hfull with ⟨-, made, hmade, -⟩ | ⟨hheld, -⟩
    · exact (fullPrintOfJson_iff hcrypto (hsearch hprint)).mp ⟨made, hmade⟩
    · rw [hprint] at hheld
      cases hheld
  · intro htext
    have hfull : ∃ full, whenHeld spec.method.hasStoredPrint
        (fullPrintOfJson crypto keys tools.toRowTools tableId spec plain) = .ok full := by
      cases hheld : spec.method.hasStoredPrint with
      | false => exact ⟨none, rfl⟩
      | true =>
          obtain ⟨tag, htag⟩ := fullPrintOfJson_iff hcrypto (hsearch hheld) |>.mpr (htext hheld)
          exact ⟨some tag, whenHeld_eq_ok.mpr (.inl ⟨rfl, tag, htag, rfl⟩)⟩
    have hparts : ∃ parts, whenHeld spec.method.hasParts
        (partsOfJson crypto keys tools.toRowTools tableId spec plain) = .ok parts := by
      cases hheld : spec.method.hasParts with
      | false => exact ⟨none, rfl⟩
      | true =>
          have hprint := hasStoredPrint_of_hasParts hheld
          obtain ⟨tags, htags⟩ := partsOfJson_ok hcrypto (hsearch hprint) hheld hset (htext hprint)
          exact ⟨some tags, whenHeld_eq_ok.mpr (.inl ⟨rfl, tags, htags, rfl⟩)⟩
    obtain ⟨full, hfull⟩ := hfull
    obtain ⟨parts, hparts⟩ := hparts
    exact ⟨(full, parts), bind_eq_ok.mpr ⟨full, hfull, bind_eq_ok.mpr ⟨parts, hparts, rfl⟩⟩⟩

end Keys

/-! ## Steps -/

namespace FieldStep

/-- The value is read, sealed or hashed with the read key. -/
def reads (s : FieldStep) : Bool := s.opens || s.seals || s.hashes

/-- What a planned step has: the declaration its kind needs. -/
def Wf (s : FieldStep) : Prop :=
  match s.kind with
  | .keep | .dropPrints | .open => True
  | .seal => ∃ spec, s.declared = some spec ∧ spec.id = s.id ∧ spec.method.isSealing = true ∧ partsAreSetUp spec = true
  | .hash => ∃ spec, s.declared = some spec ∧ spec.method = .hash ∧ spec.hash.isSome
  | .printOnly => ∃ spec, s.declared = some spec ∧ spec.method = .searchPrint
  | .addPrints | .remakePrints => ∃ spec, s.declared = some spec ∧ partsAreSetUp spec = true
  | .openToHash => ∃ spec, s.declared = some spec ∧ spec.hash.isSome
  | .openToPrintOnly => ∃ spec, s.declared = some spec

/-- The method the field gets stores fingerprints. -/
def printed (s : FieldStep) : Prop := ∀ spec ∈ s.declared, spec.method.hasStoredPrint = true

end FieldStep

namespace Rewriter

variable {Root N : Type}

/-- The program holds what a step needs, and the table has the identity it is made under. -/
structure Ready (w : Rewriter Root) (i : Nat) (step : FieldStep) : Prop where
  wf : step.Wf
  held : step.reads || step.prints → ∃ keys id, w.keys = some keys ∧ w.idOf i step = .ok id ∧
    (step.reads → keys.read.isSome) ∧ (step.prints → keys.search.isSome)

variable (crypto : Primitives Root N) (tools : RawTools) (w : Rewriter Root) (i : Nat) (rowKey : String)
  (draw : Nat → N × Bytes)

/-- What a step that makes fingerprints has. -/
theorem Ready.prints {w : Rewriter Root} {i : Nat} {step : FieldStep} (hready : w.Ready i step)
    (hkind : step.kind = .addPrints ∨ step.kind = .remakePrints) : ∃ spec keys id, step.declared = some spec ∧
      partsAreSetUp spec = true ∧ w.keys = some keys ∧ w.idOf i step = .ok id ∧ keys.search.isSome := by
  have hwf := hready.wf
  have hprints : step.prints = true := by rcases hkind with hkind | hkind <;> simp [FieldStep.prints, hkind]
  obtain ⟨keys, id, hkeys, hid, -, hsearch⟩ := hready.held (by rw [hprints, Bool.or_true])
  rw [FieldStep.Wf] at hwf
  have hspec : ∃ spec, step.declared = some spec ∧ partsAreSetUp spec = true := by
    rcases hkind with hkind | hkind <;> rw [hkind] at hwf <;> exact hwf
  obtain ⟨spec, hspec, hset⟩ := hspec
  exact ⟨spec, keys, id, hspec, hset, hkeys, hid, hsearch hprints⟩

/-- A value that is sealed opens to `plain`. -/
def Opens (step : FieldStep) (raw plain : Bytes) : Prop := w.openRaw crypto tools i step rowKey raw = .ok plain

/-- The hash that is made is not the text it is made of. -/
def Differs (step : FieldStep) (raw : Bytes) : Prop :=
  ∀ out, w.make crypto tools i rowKey (draw step.id) step raw = .ok out → out ≠ raw

/-- The value is fit for the step. -/
def Fits (step : FieldStep) (raw : Bytes) : Prop :=
  match step.kind with
  | .keep => True
  | .seal => step.printed → (tools.readText raw).isSome
  | .hash => (tools.readText raw).isSome ∧ w.Differs crypto tools i rowKey draw step raw
  | .printOnly => (tools.readText raw).isSome
  | .addPrints | .remakePrints =>
      ∃ plain, w.Opens crypto tools i rowKey step raw plain ∧ (step.printed → (tools.readText plain).isSome)
  | .dropPrints => ∃ stored, readStored tools raw = .ok stored
  | .open => ∃ plain, w.Opens crypto tools i rowKey step raw plain ∧ (fromUtf8 plain).isSome ∧ tools.IsValue plain
  | .openToHash => ∃ plain, w.Opens crypto tools i rowKey step raw plain ∧ (tools.readText plain).isSome ∧
      w.Differs crypto tools i rowKey draw step raw
  | .openToPrintOnly => ∃ plain, w.Opens crypto tools i rowKey step raw plain ∧ (tools.readText plain).isSome

/-- A step makes a value that its own check accepts. -/
def StepPasses (step : FieldStep) (raw : Bytes) : Prop :=
  ∃ value, w.Makes crypto tools i rowKey draw step raw value ∧
    w.verifyStep crypto tools i rowKey step raw value = .ok ()

variable {crypto tools w i rowKey draw} {step : FieldStep} {raw : Bytes} {keys : FieldKeys Root} {id : String}
  {spec : SealedSpec}

/-- What a step makes is a value already, so it is stored as it is. -/
theorem stepPasses_iff (hvalue : ∀ out, w.make crypto tools i rowKey (draw step.id) step raw = .ok out →
    tools.IsValue out) :
    w.StepPasses crypto tools i rowKey draw step raw ↔ ∃ out,
      w.make crypto tools i rowKey (draw step.id) step raw = .ok out ∧
        w.verifyStep crypto tools i rowKey step raw out = .ok () := by
  constructor
  · rintro ⟨value, ⟨out, parsed, hout, hparsed, rfl⟩, hverify⟩
    rw [parseValue_of_isValue _ (hvalue out hout)] at hparsed
    cases hparsed
    exact ⟨out, hout, hverify⟩
  · rintro ⟨out, hout, hverify⟩
    exact ⟨out, ⟨out, _, hout, parseValue_of_isValue _ (hvalue out hout), rfl⟩, hverify⟩

theorem heldKeys_of (h : w.keys = some keys) : w.heldKeys = .ok keys := by rw [heldKeys, h]

theorem needSpec_of (h : step.declared = some spec) : needSpec step = .ok spec := by rw [needSpec, h]

theorem printed_iff (h : step.declared = some spec) : step.printed ↔ spec.method.hasStoredPrint = true := by
  simp [FieldStep.printed, h]

theorem sealPlain_eq_ok {tableId : String} {nonce : N} {plain out : Bytes} (hsealing : spec.method.isSealing = true) :
    sealPlain crypto keys tools tableId spec rowKey nonce plain = .ok out ↔
      ∃ prints cipher, printsFor crypto keys tools tableId spec plain = .ok prints ∧
        keys.cipher crypto tableId spec.id = .ok cipher ∧
        out = printStored tools ⟨sealEnvelope crypto cipher ⟨tableId, spec.id, rowKey⟩ nonce plain, prints.1, prints.2⟩ := by
  rw [sealPlain, hsealing, Bool.not_true, if_neg Bool.false_ne_true]
  constructor
  · intro h
    obtain ⟨prints, hprints, h⟩ := bind_eq_ok.mp h
    obtain ⟨cipher, hcipher, h⟩ := bind_eq_ok.mp h
    cases h
    exact ⟨prints, cipher, hprints, hcipher, rfl⟩
  · rintro ⟨prints, cipher, hprints, hcipher, rfl⟩
    exact bind_eq_ok.mpr ⟨prints, hprints, bind_eq_ok.mpr ⟨cipher, hcipher, rfl⟩⟩

/-- The part of `make` and of the check that every step with keys begins with. -/
theorem make_seal (hkind : step.kind = .seal) (hkeys : w.keys = some keys) (hid : w.idOf i step = .ok id)
    (hspec : step.declared = some spec) (hsealing : spec.method.isSealing = true) :
    w.make crypto tools i rowKey (draw step.id) step raw =
      sealPlain crypto keys tools id spec rowKey (draw step.id).1 raw := by
  rw [make, hkind]
  dsimp only
  rw [heldKeys_of hkeys, hid, needSpec_of hspec]
  show protectPlain crypto keys tools id spec rowKey (draw step.id) raw = _
  rw [protectPlain]
  cases hmethod : spec.method <;> rw [hmethod] at hsealing <;> first | rfl | cases hsealing

theorem passes_seal (hcrypto : Total crypto) (hkind : step.kind = .seal) (hready : w.Ready i step) :
    w.StepPasses crypto tools i rowKey draw step raw ↔ w.Fits crypto tools i rowKey draw step raw := by
  have hwf := hready.wf
  rw [FieldStep.Wf, hkind] at hwf
  obtain ⟨spec, hspec, hspecId, hsealing, hset⟩ := hwf
  have hreads : step.reads = true := by simp [FieldStep.reads, FieldStep.seals, hkind]
  obtain ⟨keys, id, hkeys, hid, hread, hsearch⟩ := hready.held (by rw [hreads]; rfl)
  have hsearch' : spec.method.hasStoredPrint = true → keys.search.isSome := fun h =>
    hsearch (by simp [FieldStep.prints, hkind, hspec, h])
  have hmake : w.make crypto tools i rowKey (draw step.id) step raw =
      sealPlain crypto keys tools id spec rowKey (draw step.id).1 raw := make_seal hkind hkeys hid hspec hsealing
  rw [stepPasses_iff fun out hout => ?_, Fits, hkind]
  · show _ ↔ (step.printed → _)
    rw [printed_iff hspec, ← @printsFor_iff Root N crypto keys tools id spec hcrypto hsearch' hset raw]
    constructor
    · rintro ⟨out, hout, -⟩
      obtain ⟨prints, -, hprints, -⟩ := (sealPlain_eq_ok hsealing).mp (hmake.symm.trans hout)
      exact ⟨prints, hprints⟩
    · rintro ⟨prints, hprints⟩
      obtain ⟨cipher, hcipher⟩ := cipher_ok hcrypto (hread hreads) id spec.id
      refine ⟨_, hmake.trans ((sealPlain_eq_ok hsealing).mpr ⟨prints, cipher, hprints, hcipher, rfl⟩), ?_⟩
      have hopen : openStored crypto keys id step.id rowKey
          ⟨sealEnvelope crypto cipher ⟨id, spec.id, rowKey⟩ (draw step.id).1 raw, prints.1, prints.2⟩ = .ok raw := by
        rw [openStored, ← hspecId, hcipher]
        refine bind_eq_ok.mpr ⟨cipher, rfl, ?_⟩
        dsimp only
        rw [openEnvelope_sealEnvelope crypto hcrypto.b64]
      have hshape := printsFor_shape hprints
      rw [verifyStep, hkind]
      refine bind_eq_ok.mpr ⟨spec, orWrong_eq_ok.mpr hspec, bind_eq_ok.mpr ⟨_, readStored_printStored _,
        bind_eq_ok.mpr ⟨keys, heldKeys_of hkeys, bind_eq_ok.mpr ⟨id, hid, bind_eq_ok.mpr ⟨raw, hopen,
          bind_eq_ok.mpr ⟨(), demand_eq_ok.mpr (beq_self_eq_true _), demand_eq_ok.mpr ?_⟩⟩⟩⟩⟩⟩
      simp [hshape.1, hshape.2]
  · obtain ⟨prints, cipher, -, -, rfl⟩ := (sealPlain_eq_ok hsealing).mp (hmake.symm.trans hout)
    exact isValue_printStored _

/-! ### Hashes -/

theorem hashPlain_ok {tableId : String} {salt plain out : Bytes}
    (h : hashPlain crypto keys tools tableId spec rowKey salt plain = .ok out) (hcrypto : Total crypto) :
    (tools.readText plain).isSome ∧ ∃ hash, hash ≠ "" ∧ out = tools.printString hash := by
  obtain ⟨secret, hsecret, h⟩ := bind_eq_ok.mp h
  have htext : (tools.readText plain).isSome := by
    rw [textOf] at hsecret
    split at hsecret
    · cases hsecret
    · rename_i heq
      rw [heq]
      rfl
  split at h
  · cases h
  · obtain ⟨hash, hhash, h⟩ := bind_eq_ok.mp h
    cases h
    obtain ⟨slow, -, hhash⟩ := bind_eq_ok.mp hhash
    cases hhash
    exact ⟨htext, _, hcrypto.b64_ne _ (List.cons_ne_nil _ _), rfl⟩

theorem exists_hashPlain (hcrypto : Total crypto) (hread : keys.read.isSome) (hhash : spec.hash.isSome)
    (tableId : String) (salt : Bytes) {plain : Bytes} (htext : (tools.readText plain).isSome) :
    ∃ out, hashPlain crypto keys tools tableId spec rowKey salt plain = .ok out := by
  obtain ⟨secret, hsecret⟩ := Option.isSome_iff_exists.mp htext
  obtain ⟨algo, halgo⟩ := Option.isSome_iff_exists.mp hhash
  obtain ⟨key, hkey⟩ := hashKey_ok hcrypto hread tableId spec.id
  have hmade : ∃ hash, hashValue crypto keys algo ⟨tableId, spec.id, rowKey⟩ (utf8 secret) salt = .ok hash := by
    rw [hashValue, computeHash, hkey]
    exact ⟨_, rfl⟩
  obtain ⟨hash, hmade⟩ := hmade
  refine ⟨tools.printString hash, bind_eq_ok.mpr ⟨secret, by rw [textOf, hsecret], ?_⟩⟩
  rw [halgo]
  exact bind_eq_ok.mpr ⟨hash, hmade, rfl⟩

/-- A step that hashes passes if it makes a hash and the hash is not the text it was made of. -/
theorem passes_hashed (hkind : step.hashes = true)
    (hmakes : ∀ out, w.make crypto tools i rowKey (draw step.id) step raw = .ok out →
      ∃ hash, hash ≠ "" ∧ out = tools.printString hash) :
    w.StepPasses crypto tools i rowKey draw step raw ↔
      (∃ out, w.make crypto tools i rowKey (draw step.id) step raw = .ok out) ∧
        w.Differs crypto tools i rowKey draw step raw := by
  have hverify : ∀ hash, hash ≠ "" → (w.verifyStep crypto tools i rowKey step raw (tools.printString hash) = .ok () ↔
      tools.printString hash ≠ raw) := by
    intro hash hne
    have hcheck : w.verifyStep crypto tools i rowKey step raw (tools.printString hash) =
        (do let text ← orWrong "a hash is not a text" (tools.readText (tools.printString hash))
            demand (!(text.isEmpty || tools.printString hash == raw)) "a hash is empty or is the value") := by
      rw [verifyStep]
      rw [FieldStep.hashes] at hkind
      split at hkind
      · rename_i hk
        rw [hk]
      · rename_i hk
        rw [hk]
      · cases hkind
    rw [hcheck, tools.readText_string]
    show demand _ _ = .ok () ↔ _
    rw [demand_eq_ok]
    simp [hne]
  rw [stepPasses_iff fun out hout => ?_]
  · constructor
    · rintro ⟨out, hout, hok⟩
      obtain ⟨hash, hne, rfl⟩ := hmakes out hout
      refine ⟨⟨_, hout⟩, fun out' hout' => ?_⟩
      cases hout.symm.trans hout'
      exact (hverify hash hne).mp hok
    · rintro ⟨⟨out, hout⟩, hdiffers⟩
      obtain ⟨hash, hne, rfl⟩ := hmakes out hout
      exact ⟨_, hout, (hverify hash hne).mpr (hdiffers _ hout)⟩
  · obtain ⟨hash, -, rfl⟩ := hmakes out hout
    exact tools.scan_string hash

theorem passes_hash (hcrypto : Total crypto) (hkind : step.kind = .hash) (hready : w.Ready i step) :
    w.StepPasses crypto tools i rowKey draw step raw ↔ w.Fits crypto tools i rowKey draw step raw := by
  have hwf := hready.wf
  rw [FieldStep.Wf, hkind] at hwf
  obtain ⟨spec, hspec, hmethod, hhash⟩ := hwf
  have hhashes : step.hashes = true := by simp [FieldStep.hashes, hkind]
  have hreads : step.reads = true := by simp [FieldStep.reads, hhashes]
  obtain ⟨keys, id, hkeys, hid, hread, -⟩ := hready.held (by rw [hreads]; rfl)
  have hmake : w.make crypto tools i rowKey (draw step.id) step raw =
      hashPlain crypto keys tools id spec rowKey (draw step.id).2 raw := by
    rw [make, hkind]
    dsimp only
    rw [heldKeys_of hkeys, hid, needSpec_of hspec]
    show protectPlain crypto keys tools id spec rowKey (draw step.id) raw = _
    rw [protectPlain, hmethod]
  rw [passes_hashed hhashes fun out hout => (hashPlain_ok (hmake.symm.trans hout) hcrypto).2, Fits, hkind]
  refine and_congr_left fun _ => ⟨?_, fun htext => ?_⟩
  · rintro ⟨out, hout⟩
    exact (hashPlain_ok (hmake.symm.trans hout) hcrypto).1
  · rw [hmake]
    exact exists_hashPlain hcrypto (hread hreads) hhash id _ htext

theorem passes_openToHash (hcrypto : Total crypto) (hkind : step.kind = .openToHash) (hready : w.Ready i step) :
    w.StepPasses crypto tools i rowKey draw step raw ↔ w.Fits crypto tools i rowKey draw step raw := by
  have hwf := hready.wf
  rw [FieldStep.Wf, hkind] at hwf
  obtain ⟨spec, hspec, hhash⟩ := hwf
  have hhashes : step.hashes = true := by simp [FieldStep.hashes, hkind]
  have hreads : step.reads = true := by simp [FieldStep.reads, hhashes]
  obtain ⟨keys, id, hkeys, hid, hread, -⟩ := hready.held (by rw [hreads]; rfl)
  have hmake : ∀ out, w.make crypto tools i rowKey (draw step.id) step raw = .ok out ↔
      ∃ plain, w.Opens crypto tools i rowKey step raw plain ∧
        hashPlain crypto keys tools id spec rowKey (draw step.id).2 plain = .ok out := by
    intro out
    rw [make, hkind]
    dsimp only
    rw [bind_eq_ok]
    refine exists_congr fun plain => and_congr_right fun _ => ?_
    rw [heldKeys_of hkeys, hid, needSpec_of hspec]
    rfl
  rw [passes_hashed hhashes fun out hout => ?_, Fits, hkind]
  · constructor
    · rintro ⟨⟨out, hout⟩, hdiffers⟩
      obtain ⟨plain, hopens, hout⟩ := (hmake out).mp hout
      exact ⟨plain, hopens, (hashPlain_ok hout hcrypto).1, hdiffers⟩
    · rintro ⟨plain, hopens, htext, hdiffers⟩
      obtain ⟨out, hout⟩ := exists_hashPlain hcrypto (hread hreads) hhash id (draw step.id).2 htext
      exact ⟨⟨out, (hmake out).mpr ⟨plain, hopens, hout⟩⟩, hdiffers⟩
  · obtain ⟨plain, -, hout⟩ := (hmake out).mp hout
    exact (hashPlain_ok hout hcrypto).2

/-! ### Fingerprints alone -/

theorem printPlain_iff (hcrypto : Total crypto) (hsearch : keys.search.isSome) (tableId : String) {plain : Bytes} :
    (∃ out, printPlain crypto keys tools tableId spec plain = .ok out) ↔ (tools.readText plain).isSome := by
  cases htext : tools.readText plain with
  | none => simp [printPlain, textOf, htext, bind, Except.bind]
  | some t =>
      obtain ⟨tag, htag⟩ := @printValue_ok Root N crypto keys tools hcrypto hsearch tableId spec.id spec.normalize t
      simp only [Option.isSome_some, iff_true]
      exact ⟨tools.printString tag, bind_eq_ok.mpr ⟨t, by rw [textOf, htext], bind_eq_ok.mpr ⟨tag, htag, rfl⟩⟩⟩

theorem isValue_printPlain {tableId : String} {plain out : Bytes}
    (h : printPlain crypto keys tools tableId spec plain = .ok out) : tools.IsValue out := by
  obtain ⟨t, -, h⟩ := bind_eq_ok.mp h
  obtain ⟨tag, -, h⟩ := bind_eq_ok.mp h
  cases h
  exact tools.scan_string tag

theorem passes_printOnly (hcrypto : Total crypto) (hkind : step.kind = .printOnly) (hready : w.Ready i step) :
    w.StepPasses crypto tools i rowKey draw step raw ↔ w.Fits crypto tools i rowKey draw step raw := by
  have hwf := hready.wf
  rw [FieldStep.Wf, hkind] at hwf
  obtain ⟨spec, hspec, hmethod⟩ := hwf
  have hprints : step.prints = true := by simp [FieldStep.prints, hkind]
  obtain ⟨keys, id, hkeys, hid, -, hsearch⟩ := hready.held (by rw [hprints, Bool.or_true])
  have hmake : w.make crypto tools i rowKey (draw step.id) step raw = printPlain crypto keys tools id spec raw := by
    rw [make, hkind]
    dsimp only
    rw [heldKeys_of hkeys, hid, needSpec_of hspec]
    show protectPlain crypto keys tools id spec rowKey (draw step.id) raw = _
    rw [protectPlain, hmethod]
  rw [stepPasses_iff fun out hout => isValue_printPlain (hmake.symm.trans hout), Fits, hkind]
  show _ ↔ (tools.readText raw).isSome = true
  rw [← @printPlain_iff Root N crypto tools keys spec hcrypto (hsearch hprints) id raw, hmake]
  refine exists_congr fun out => and_iff_left_of_imp fun hout => ?_
  rw [verifyStep, hkind]
  exact bind_eq_ok.mpr ⟨spec, orWrong_eq_ok.mpr hspec, bind_eq_ok.mpr ⟨keys, heldKeys_of hkeys, bind_eq_ok.mpr ⟨id, hid,
    bind_eq_ok.mpr ⟨out, hout, demand_eq_ok.mpr (beq_self_eq_true _)⟩⟩⟩⟩

theorem passes_openToPrintOnly (hcrypto : Total crypto) (hkind : step.kind = .openToPrintOnly)
    (hready : w.Ready i step) :
    w.StepPasses crypto tools i rowKey draw step raw ↔ w.Fits crypto tools i rowKey draw step raw := by
  have hwf := hready.wf
  rw [FieldStep.Wf, hkind] at hwf
  obtain ⟨spec, hspec⟩ := hwf
  have hprints : step.prints = true := by simp [FieldStep.prints, hkind]
  obtain ⟨keys, id, hkeys, hid, -, hsearch⟩ := hready.held (by rw [hprints, Bool.or_true])
  have hmake : ∀ out, w.make crypto tools i rowKey (draw step.id) step raw = .ok out ↔
      ∃ plain, w.Opens crypto tools i rowKey step raw plain ∧ printPlain crypto keys tools id spec plain = .ok out := by
    intro out
    rw [make, hkind]
    dsimp only
    rw [bind_eq_ok]
    refine exists_congr fun plain => and_congr_right fun _ => ?_
    rw [heldKeys_of hkeys, hid, needSpec_of hspec]
    rfl
  have hvalue : ∀ out, w.make crypto tools i rowKey (draw step.id) step raw = .ok out → tools.IsValue out := by
    intro out hout
    obtain ⟨plain, -, hprint⟩ := (hmake out).mp hout
    exact isValue_printPlain hprint
  rw [stepPasses_iff hvalue, Fits, hkind]
  constructor
  · rintro ⟨out, hout, -⟩
    obtain ⟨plain, hopens, hprint⟩ := (hmake out).mp hout
    exact ⟨plain, hopens, (printPlain_iff hcrypto (hsearch hprints) id).mp ⟨out, hprint⟩⟩
  · rintro ⟨plain, hopens, htext⟩
    obtain ⟨out, hprint⟩ := (@printPlain_iff Root N crypto tools keys spec hcrypto (hsearch hprints) id plain).mpr htext
    refine ⟨out, (hmake out).mpr ⟨plain, hopens, hprint⟩, ?_⟩
    rw [verifyStep, hkind]
    exact bind_eq_ok.mpr ⟨spec, orWrong_eq_ok.mpr hspec, bind_eq_ok.mpr ⟨plain, hopens,
      bind_eq_ok.mpr ⟨keys, heldKeys_of hkeys, bind_eq_ok.mpr ⟨id, hid, bind_eq_ok.mpr ⟨out, hprint,
        demand_eq_ok.mpr (beq_self_eq_true _)⟩⟩⟩⟩⟩

/-! ### Sealed values that stay sealed, and values that are opened -/

theorem openRaw_readStored {plain : Bytes} (h : w.Opens crypto tools i rowKey step raw plain) :
    ∃ stored, readStored tools raw = .ok stored := by
  obtain ⟨stored, hstored, -⟩ := bind_eq_ok.mp h
  exact ⟨stored, hstored⟩

theorem withPrints_eq_ok {tableId sealedText : String} {plain out : Bytes} :
    withPrints crypto keys tools tableId spec sealedText plain = .ok out ↔
      ∃ prints, printsFor crypto keys tools tableId spec plain = .ok prints ∧
        out = printStored tools ⟨sealedText, prints.1, prints.2⟩ := by
  rw [withPrints, bind_eq_ok]
  refine exists_congr fun prints => and_congr_right fun _ => ?_
  constructor
  · rintro ⟨⟩
    rfl
  · rintro rfl
    rfl

theorem make_prints {out : Bytes} (hkind : step.kind = .addPrints ∨ step.kind = .remakePrints)
    (hkeys : w.keys = some keys) (hid : w.idOf i step = .ok id) (hspec : step.declared = some spec) :
    w.make crypto tools i rowKey (draw step.id) step raw = .ok out ↔
      ∃ stored, readStored tools raw = .ok stored ∧ ∃ plain, w.Opens crypto tools i rowKey step raw plain ∧
        withPrints crypto keys tools id spec stored.sealedText plain = .ok out := by
  have hmake : w.make crypto tools i rowKey (draw step.id) step raw = (do
      let stored ← readStored tools raw
      let plain ← w.openRaw crypto tools i step rowKey raw
      let keys ← w.heldKeys
      let id ← w.idOf i step
      let spec ← needSpec step
      withPrints crypto keys tools id spec stored.sealedText plain) := by
    rw [make]
    rcases hkind with hkind | hkind <;> rw [hkind]
  rw [hmake, bind_eq_ok]
  refine exists_congr fun stored => and_congr_right fun _ => ?_
  rw [bind_eq_ok]
  refine exists_congr fun plain => and_congr_right fun _ => ?_
  rw [heldKeys_of hkeys, hid, needSpec_of hspec]
  rfl

theorem passes_prints (hcrypto : Total crypto) (hkind : step.kind = .addPrints ∨ step.kind = .remakePrints)
    (hready : w.Ready i step) :
    w.StepPasses crypto tools i rowKey draw step raw ↔ w.Fits crypto tools i rowKey draw step raw := by
  obtain ⟨spec, keys, id, hspec, hset, hkeys, hid, hsearch⟩ := hready.prints hkind
  have hmake := fun out => @make_prints Root N crypto tools w i rowKey draw step raw keys id spec out hkind hkeys hid hspec
  have hfits : w.Fits crypto tools i rowKey draw step raw ↔ ∃ plain, w.Opens crypto tools i rowKey step raw plain ∧
      (spec.method.hasStoredPrint = true → (tools.readText plain).isSome) := by
    rw [← printed_iff hspec, Fits]
    rcases hkind with hkind | hkind <;> rw [hkind]
  have hprintsFor := fun plain => @printsFor_iff Root N crypto keys tools id spec hcrypto
    (fun _ => hsearch) hset plain
  have hvalue : ∀ out, w.make crypto tools i rowKey (draw step.id) step raw = .ok out → tools.IsValue out := by
    intro out hout
    obtain ⟨stored, -, plain, -, hwith⟩ := (hmake out).mp hout
    obtain ⟨prints, -, rfl⟩ := withPrints_eq_ok.mp hwith
    exact isValue_printStored _
  rw [stepPasses_iff hvalue, hfits]
  constructor
  · rintro ⟨out, hout, -⟩
    obtain ⟨stored, -, plain, hopens, hwith⟩ := (hmake out).mp hout
    obtain ⟨prints, hfor, -⟩ := withPrints_eq_ok.mp hwith
    exact ⟨plain, hopens, (hprintsFor plain).mp ⟨prints, hfor⟩⟩
  · rintro ⟨plain, hopens, htext⟩
    obtain ⟨stored, hstored⟩ := openRaw_readStored hopens
    obtain ⟨prints, hfor⟩ := (hprintsFor plain).mpr htext
    have hwith : withPrints crypto keys tools id spec stored.sealedText plain =
        .ok (printStored tools ⟨stored.sealedText, prints.1, prints.2⟩) := withPrints_eq_ok.mpr ⟨prints, hfor, rfl⟩
    refine ⟨_, (hmake _).mpr ⟨stored, hstored, plain, hopens, hwith⟩, ?_⟩
    rw [verifyStep]
    rcases hkind with hkind | hkind <;> rw [hkind]
    all_goals
      exact bind_eq_ok.mpr ⟨spec, orWrong_eq_ok.mpr hspec, bind_eq_ok.mpr ⟨stored, hstored,
        bind_eq_ok.mpr ⟨_, readStored_printStored _, bind_eq_ok.mpr ⟨(), demand_eq_ok.mpr (beq_self_eq_true _),
          bind_eq_ok.mpr ⟨plain, hopens, bind_eq_ok.mpr ⟨keys, heldKeys_of hkeys, bind_eq_ok.mpr ⟨id, hid,
            bind_eq_ok.mpr ⟨_, hwith, demand_eq_ok.mpr (beq_self_eq_true _)⟩⟩⟩⟩⟩⟩⟩⟩

theorem make_dropPrints {out : Bytes} (hkind : step.kind = .dropPrints) :
    w.make crypto tools i rowKey (draw step.id) step raw = .ok out ↔
      ∃ stored, readStored tools raw = .ok stored ∧ out = withoutPrints tools stored := by
  rw [make, hkind]
  dsimp only
  rw [bind_eq_ok]
  refine exists_congr fun stored => and_congr_right fun _ => ?_
  constructor
  · rintro ⟨⟩
    rfl
  · rintro rfl
    rfl

theorem passes_dropPrints (hkind : step.kind = .dropPrints) :
    w.StepPasses crypto tools i rowKey draw step raw ↔ w.Fits crypto tools i rowKey draw step raw := by
  have hmake := fun out => @make_dropPrints Root N crypto tools w i rowKey draw step raw out hkind
  have hvalue : ∀ out, w.make crypto tools i rowKey (draw step.id) step raw = .ok out → tools.IsValue out := by
    intro out hout
    obtain ⟨stored, -, rfl⟩ := (hmake out).mp hout
    exact isValue_printStored _
  rw [stepPasses_iff hvalue, Fits, hkind]
  constructor
  · rintro ⟨out, hout, -⟩
    obtain ⟨stored, hstored, -⟩ := (hmake out).mp hout
    exact ⟨stored, hstored⟩
  · rintro ⟨stored, hstored⟩
    refine ⟨_, (hmake _).mpr ⟨stored, hstored, rfl⟩, ?_⟩
    rw [verifyStep, hkind]
    exact bind_eq_ok.mpr ⟨stored, hstored, bind_eq_ok.mpr ⟨_, readStored_printStored _, demand_eq_ok.mpr (by simp)⟩⟩

theorem make_open {out : Bytes} (hkind : step.kind = .open) :
    w.make crypto tools i rowKey (draw step.id) step raw = .ok out ↔
      w.Opens crypto tools i rowKey step raw out ∧ (fromUtf8 out).isSome := by
  rw [make, hkind]
  dsimp only
  rw [bind_eq_ok]
  constructor
  · rintro ⟨plain, hopens, h⟩
    cases htext : fromUtf8 plain with
    | none => simp [htext] at h
    | some t =>
        simp only [htext, Except.ok.injEq] at h
        subst h
        exact ⟨hopens, by rw [htext]; rfl⟩
  · rintro ⟨hopens, htext⟩
    obtain ⟨t, ht⟩ := Option.isSome_iff_exists.mp htext
    exact ⟨out, hopens, by rw [ht]⟩

theorem passes_open (hkind : step.kind = .open) :
    w.StepPasses crypto tools i rowKey draw step raw ↔ w.Fits crypto tools i rowKey draw step raw := by
  have hmake := fun out => @make_open Root N crypto tools w i rowKey draw step raw out hkind
  have hverify : ∀ plain value, w.Opens crypto tools i rowKey step raw plain →
      (w.verifyStep crypto tools i rowKey step raw value = .ok () ↔ plain = value) := by
    intro plain value hopens
    rw [verifyStep, hkind]
    dsimp only
    rw [show w.openRaw crypto tools i step rowKey raw = .ok plain from hopens, ok_bind, demand_eq_ok, beq_iff_eq]
  rw [Fits, hkind]
  constructor
  · -- the row keeps the value without the blanks around it, and the check compares it with all of the text
    rintro ⟨value, ⟨out, parsed, hout, hparsed, rfl⟩, hok⟩
    obtain ⟨hopens, htext⟩ := (hmake out).mp hout
    have heq := (hverify out _ hopens).mp hok
    exact ⟨out, hopens, htext, heq ▸ isValue_parseValue _ hparsed⟩
  · rintro ⟨plain, hopens, htext, hvalue⟩
    exact ⟨plain, ⟨plain, _, (hmake plain).mpr ⟨hopens, htext⟩, parseValue_of_isValue _ hvalue, rfl⟩,
      (hverify plain plain hopens).mpr rfl⟩

/-- **A step passes exactly if the value is fit for it.** -/
theorem stepPasses_iff_fits (hcrypto : Total crypto) (hready : w.Ready i step) (hkeep : step.kind ≠ .keep) :
    w.StepPasses crypto tools i rowKey draw step raw ↔ w.Fits crypto tools i rowKey draw step raw := by
  cases hkind : step.kind with
  | keep => exact absurd hkind hkeep
  | «seal» => exact passes_seal hcrypto hkind hready
  | hash => exact passes_hash hcrypto hkind hready
  | printOnly => exact passes_printOnly hcrypto hkind hready
  | addPrints => exact passes_prints hcrypto (.inl hkind) hready
  | remakePrints => exact passes_prints hcrypto (.inr hkind) hready
  | dropPrints => exact passes_dropPrints hkind
  | «open» => exact passes_open hkind
  | openToHash => exact passes_openToHash hcrypto hkind hready
  | openToPrintOnly => exact passes_openToPrintOnly hcrypto hkind hready

end Rewriter

/-! ## Tools for concrete runs

Texts are those of the sample JSON of the backup codec. An object is written as a body no text has: it starts with an
escape that is not one of the two of texts. -/

namespace Sample

open CloveDb.Backup.Sample CloveDb.Lib.JsonText

/-- One member of an object, by a mark after its text, or by another mark if it is not there. -/
def memberText : Option String → Bytes
  | some s => escape (utf8 s) ++ [92, 4]
  | none => [92, 5]

/-- A text up to the first escape that is a mark, and the rest from the mark on. -/
def readUntil : Bytes → Bytes × Bytes
  | 92 :: 1 :: rest => (34 :: (readUntil rest).1, (readUntil rest).2)
  | 92 :: 2 :: rest => (92 :: (readUntil rest).1, (readUntil rest).2)
  | 92 :: rest => ([], rest)
  | b :: rest => (b :: (readUntil rest).1, (readUntil rest).2)
  | [] => ([], [])

def readMember (bytes : Bytes) : Option String × Bytes :=
  match readUntil bytes with
  | (bs, 4 :: rest) => (fromUtf8 bs, rest)
  | (_, rest) => (none, rest.tail)

def memberOf (o : Table String Json) (key : String) : Option String :=
  match o.get key with
  | some (.string s) => s
  | _ => none

def objectBody (o : Table String Json) : Bytes :=
  92 :: 3 :: (memberText (memberOf o "s") ++ (memberText (memberOf o "f") ++ memberText (memberOf o "p")))

def readBody : Bytes → Option Json
  | 92 :: 3 :: body =>
      let (s, body) := readMember body
      let (full, body) := readMember body
      let (parts, _) := readMember body
      s.map fun s => objectJson (storedObject s full parts)
  | body => (fromUtf8 (unescape body)).map fun s => .string (some s)

def readValue (raw : Bytes) : Option Json :=
  if raw.head? = some 34 then readBody raw.tail.dropLast else some .null

theorem readUntil_escape (bs : Bytes) {k : UInt8} (rest : Bytes) (h₁ : k ≠ 1) (h₂ : k ≠ 2) :
    readUntil (escape bs ++ 92 :: k :: rest) = (bs, k :: rest) := by
  induction bs with
  | nil =>
      show readUntil (92 :: k :: rest) = _
      rw [readUntil]
      · exact fun r heq => h₁ (List.cons.inj heq).1
      · exact fun r heq => h₂ (List.cons.inj heq).1
  | cons b bs ih =>
      rw [escape, List.flatMap_cons, escapeByte]
      split_ifs with hquote hslash
      · subst hquote
        show (34 :: (readUntil (escape bs ++ 92 :: k :: rest)).1, (readUntil (escape bs ++ 92 :: k :: rest)).2) = _
        rw [ih]
      · subst hslash
        show (92 :: (readUntil (escape bs ++ 92 :: k :: rest)).1, (readUntil (escape bs ++ 92 :: k :: rest)).2) = _
        rw [ih]
      · have hplain : readUntil (b :: (escape bs ++ 92 :: k :: rest)) =
            (b :: (readUntil (escape bs ++ 92 :: k :: rest)).1, (readUntil (escape bs ++ 92 :: k :: rest)).2) := by
          rw [readUntil]
          · exact fun _ heq => absurd heq hslash
          · exact fun _ heq => absurd heq hslash
          · exact fun heq => absurd heq hslash
        rw [List.append_assoc, List.singleton_append]
        exact hplain.trans (by rw [ih])

theorem readMember_memberText (m : Option String) (rest : Bytes) : readMember (memberText m ++ rest) = (m, rest) := by
  cases m with
  | none => rfl
  | some s =>
      have hread : readUntil (escape (utf8 s) ++ 92 :: 4 :: rest) = (utf8 s, 4 :: rest) :=
        readUntil_escape _ rest (by decide) (by decide)
      rw [memberText, List.append_assoc, List.cons_append, List.cons_append, List.nil_append, readMember, hread]
      simp [fromUtf8_utf8]

theorem quote_not_mem_memberText (m : Option String) : 34 ∉ memberText m := by
  cases m with
  | none => decide
  | some s => simpa [memberText] using quote_not_mem_escape (utf8 s)

/-- No text has the body of an object. -/
theorem escape_ne_mark (bs rest : Bytes) : escape bs ≠ 92 :: 3 :: rest := by
  cases bs with
  | nil => exact nofun
  | cons b bs =>
      rw [escape, List.flatMap_cons, escapeByte]
      split_ifs with hquote hslash
      · simp
      · simp
      · simp [hslash]

theorem readBody_escape (s : String) : readBody (escape (utf8 s)) = some (.string (some s)) := by
  rw [readBody]
  · rw [unescape_escape, fromUtf8_utf8, Option.map_some]
  · exact fun rest heq => escape_ne_mark _ _ heq

theorem readBody_objectBody (s : String) (full parts : Option String) :
    readBody (objectBody (storedObject s full parts)) = some (objectJson (storedObject s full parts)) := by
  have hs : memberOf (storedObject s full parts) "s" = some s := by simp [memberOf, get_storedObject, text]
  have hf : memberOf (storedObject s full parts) "f" = full := by cases full <;> simp [memberOf, get_storedObject, text]
  have hp : memberOf (storedObject s full parts) "p" = parts := by
    cases parts <;> simp [memberOf, get_storedObject, text]
  have hlast : readMember (memberText parts) = (parts, []) := by
    simpa using readMember_memberText parts []
  rw [objectBody, hs, hf, hp, readBody, readMember_memberText]
  dsimp only
  rw [readMember_memberText]
  dsimp only
  rw [hlast, Option.map_some]

theorem readValue_quoted (body : Bytes) : readValue (quoted body) = readBody body := by
  rw [readValue, if_pos (by simp [quoted]), quoted, List.tail_cons, List.dropLast_concat]

/-- Rows are not decoded by these runs, so no document is listed. -/
def tools : RawTools where
  toTools := Query.Tools.listed []
  readText := readString
  printRow _ := []
  toSerdeJson := json
  printObject o := quoted (objectBody o)
  readValue := readValue
  print_quote _ := rfl
  readText_string := read_printString
  readValue_string s := (readValue_quoted _).trans (readBody_escape s)
  scan_object o := scan_self (.inl ⟨objectBody o, by simp [objectBody, quote_not_mem_memberText], rfl⟩)
  readValue_object s full parts := (readValue_quoted _).trans (readBody_objectBody s full parts)

end Sample

end CloveDb.FieldChange
