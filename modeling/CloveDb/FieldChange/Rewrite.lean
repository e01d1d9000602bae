/-
# CloveDb.FieldChange.Rewrite — rows and saved versions, rewritten and checked

`field_crypto/migrate.rs` and `Rewriter` of `migration/encrypted/fields/hooks.rs`. A row is read as raw values, and the
steps of its table replace the fields that change, one after the other. The check then compares the new row with the old
one: it looks at each step on its own, and takes the value before all steps as the value before that one.

What a rewriting draws (a nonce, a salt) is an argument, `draw`.
-/
import CloveDb.Backup.Codec
import CloveDb.FieldChange.Plan
import CloveDb.FieldCrypto.Carried

namespace CloveDb.FieldChange

open CloveDb.Lib CloveDb.Lib.JsonText CloveDb.FieldCrypto CloveDb.Encrypted CloveDb.Fields CloveDb.Backup

/-- What the rewriting of rows takes from `serde_json`: the row codec, raw values, and the printed forms of a sealed
value, which are read back as what they were printed from. -/
structure RawTools extends RowTools, SerdeJson where
  /-- `to_string` of an object -/
  printObject : Table String Json → Bytes
  /-- `from_str::<Value>` -/
  readValue : Bytes → Option Json
  print_quote : ∀ s, (printString s).head? = some 34
  readText_string : ∀ s, readText (printString s) = some s
  readValue_string : ∀ s, readValue (printString s) = some (.string (some s))
  scan_object : ∀ o, scan (printObject o) = some (printObject o).length
  readValue_object : ∀ s full parts,
    readValue (printObject (storedObject s full parts)) = some (objectJson (storedObject s full parts))

/-- `Row`: each field with the text of its value. -/
abbrev RawRow := List (String × Bytes)

namespace RawRow

def get (row : RawRow) (key : String) : Option Bytes := List.lookup key row

/-- The first entry of a key with another value. -/
def replace (key : String) (value : Bytes) : RawRow → RawRow
  | [] => []
  | entry :: row => if entry.1 = key then (key, value) :: row else entry :: replace key value row

variable (tools : RawTools)

def parse (bytes : Bytes) : Result RawRow :=
  match tools.parseObject bytes with
  | none => .error (badMigration "a stored row is not a JSON object")
  | some entries =>
      if (entries.map Prod.fst).Nodup then .ok (entries.map fun e => (e.1, e.2.value))
      else .error (badMigration "a stored row has a field twice")

def set (row : RawRow) (key : String) (json : Bytes) : Result RawRow :=
  match tools.parseValue json with
  | none => .error (badMigration "a new field value is not JSON")
  | some raw =>
      match row.get key with
      | some _ => .ok (row.replace key raw.value)
      | none => .error (badMigration "a stored row has no such field")

def encode (row : RawRow) : Bytes := tools.objectText (row.map fun e => ⟨e.1, [], e.2, []⟩)

def sameBut (row other : RawRow) (changed : List String) : Bool :=
  row.filter (fun e => e.1 ∉ changed) == other.filter (fun e => e.1 ∉ changed) && row.map Prod.fst == other.map Prod.fst

end RawRow

/-- `Stored`: a protected field as it is stored. -/
structure Stored where
  sealedText : String
  full : Option String
  parts : Option String
  deriving DecidableEq

def wrongStored : ClError := badMigration "a protected field does not have the stored form of a sealed value"

/-- A text of a stored object, if it is there. -/
def storedText (key : String) (value : Json) : Result (Option String) :=
  match entry key value with
  | none => .ok none
  | some (.string (some t)) => .ok (some t)
  | some _ => .error wrongStored

section Forms

variable (tools : RawTools)

def readStored (raw : Bytes) : Result Stored :=
  match tools.readValue raw with
  | some (.string (some s)) => .ok ⟨s, none, none⟩
  | some (.object fields) => do
      match ← storedText "s" (.object fields) with
      | none => .error wrongStored
      | some s =>
          if fields.any fun f => f.1 ∉ [some "s", some "f", some "p"] then .error wrongStored
          else do
            let full ← storedText "f" (.object fields)
            let parts ← storedText "p" (.object fields)
            .ok ⟨s, full, parts⟩
  | _ => .error wrongStored

/-- `stored_form`, as text. -/
def printStored (s : Stored) : Bytes :=
  match s.full, s.parts with
  | none, none => tools.printString s.sealedText
  | full, parts => tools.printObject (storedObject s.sealedText full parts)

def withoutPrints (s : Stored) : Bytes := printStored tools ⟨s.sealedText, none, none⟩

def textOf (plain : Bytes) (what : String) : Result String :=
  match tools.readText plain with
  | none => .error (badMigration what)
  | some text => .ok text

end Forms

section Making

variable {Root N : Type} (crypto : Primitives Root N) (keys : FieldKeys Root) (tools : RawTools) (tableId : String)
  (spec : SealedSpec)

def printsFor (plain : Bytes) : Result (Option String × Option String) := do
  let full ← whenHeld spec.method.hasStoredPrint (fullPrintOfJson crypto keys tools.toRowTools tableId spec plain)
  let parts ← whenHeld spec.method.hasParts (partsOfJson crypto keys tools.toRowTools tableId spec plain)
  .ok (full, parts)

def sealPlain (rowKey : String) (nonce : N) (plain : Bytes) : Result Bytes :=
  if !spec.method.isSealing then .error (badMigration "this field is not one that seals its value")
  else do
    let (full, parts) ← printsFor crypto keys tools tableId spec plain
    let cipher ← keys.cipher crypto tableId spec.id
    .ok (printStored tools ⟨sealEnvelope crypto cipher ⟨tableId, spec.id, rowKey⟩ nonce plain, full, parts⟩)

def openStored (fieldId : Nat) (rowKey : String) (s : Stored) : Result Bytes := do
  let cipher ← keys.cipher crypto tableId fieldId
  match openEnvelope crypto cipher ⟨tableId, fieldId, rowKey⟩ s.sealedText with
  | none => .error (badMigration
      "a protected value did not open with these keys and this place; nothing was changed")
  | some plain => .ok plain

def withPrints (sealedText : String) (plain : Bytes) : Result Bytes := do
  let (full, parts) ← printsFor crypto keys tools tableId spec plain
  .ok (printStored tools ⟨sealedText, full, parts⟩)

def hashPlain (rowKey : String) (salt plain : Bytes) : Result Bytes := do
  let secret ← textOf tools plain "only a text can become a verification hash"
  match spec.hash with
  | none => .error (badMigration "a hashed field has no hash setting")
  | some algo => do
      let hash ← hashValue crypto keys algo ⟨tableId, spec.id, rowKey⟩ (utf8 secret) salt
      .ok (tools.printString hash)

def printPlain (plain : Bytes) : Result Bytes := do
  let value ← textOf tools plain "only a text can become a search fingerprint"
  let tag ← printValue crypto keys tools.toOutside tableId spec.id spec.normalize (utf8 value)
  .ok (tools.printString tag)

def protectPlain (rowKey : String) (draw : N × Bytes) (plain : Bytes) : Result Bytes :=
  match spec.method with
  | .encrypt | .encryptFullPrint | .encryptPartPrints => sealPlain crypto keys tools tableId spec rowKey draw.1 plain
  | .hash => hashPlain crypto keys tools tableId spec rowKey draw.2 plain
  | .searchPrint => printPlain crypto keys tools tableId spec plain

end Making

/-- `Rewriter`. -/
structure Rewriter (Root : Type) where
  plans : List TablePlan
  oldIds : List (Option String)
  newIds : List (Option String)
  keys : Option (FieldKeys Root)

namespace Rewriter

variable {Root N : Type} (crypto : Primitives Root N) (tools : RawTools) (w : Rewriter Root)

/-- `find`: the plan of a table whose rows change, with its place. -/
def find (table : String) : Option (Nat × TablePlan) :=
  (w.plans.zipIdx.find? fun p => p.1.table == table && p.1.changesRows).map fun p => (p.2, p.1)

def heldKeys : Result (FieldKeys Root) :=
  match w.keys with
  | none => .error (badMigration "this change needs the keys of the fields; nothing was changed")
  | some keys => .ok keys

def idOf (i : Nat) (step : FieldStep) : Result String :=
  match if step.was.isSome then (w.oldIds[i]?).join else (w.newIds[i]?).join with
  | none => .error (badMigration "a table has no identity for its protected fields; nothing was changed")
  | some id => .ok id

def openRaw (i : Nat) (step : FieldStep) (rowKey : String) (raw : Bytes) : Result Bytes := do
  let stored ← readStored tools raw
  let keys ← w.heldKeys
  let id ← w.idOf i step
  openStored crypto keys id step.id rowKey stored

/-- The declaration of a field that is made. -/
def needSpec (step : FieldStep) : Result SealedSpec :=
  match step.declared with
  | none => .error (badMigration "a field that is made has no declaration")
  | some spec => .ok spec

/-- The new text of one field. -/
def make (i : Nat) (rowKey : String) (draw : N × Bytes) (step : FieldStep) (raw : Bytes) : Result Bytes :=
  match step.kind with
  | .seal | .hash | .printOnly => do
      let keys ← w.heldKeys
      let id ← w.idOf i step
      let spec ← needSpec step
      protectPlain crypto keys tools id spec rowKey draw raw
  | .open => do
      let plain ← w.openRaw crypto tools i step rowKey raw
      match fromUtf8 plain with
      | none => .error (badMigration "an opened value is not text")
      | some _ => .ok plain
  | .addPrints | .remakePrints => do
      let stored ← readStored tools raw
      let plain ← w.openRaw crypto tools i step rowKey raw
      let keys ← w.heldKeys
      let id ← w.idOf i step
      let spec ← needSpec step
      withPrints crypto keys tools id spec stored.sealedText plain
  | .dropPrints => do
      let stored ← readStored tools raw
      .ok (withoutPrints tools stored)
  | .openToHash => do
      let plain ← w.openRaw crypto tools i step rowKey raw
      let keys ← w.heldKeys
      let id ← w.idOf i step
      let spec ← needSpec step
      hashPlain crypto keys tools id spec rowKey draw.2 plain
  | .openToPrintOnly => do
      let plain ← w.openRaw crypto tools i step rowKey raw
      let keys ← w.heldKeys
      let id ← w.idOf i step
      let spec ← needSpec step
      printPlain crypto keys tools id spec plain
  | .keep => .ok raw

/-- The loop of `rewrite` over the steps that change a field. -/
def rewriteSteps (i : Nat) (rowKey : String) (draw : Nat → N × Bytes) : List FieldStep → RawRow → Result RawRow
  | [], row => .ok row
  | step :: steps, row =>
      match row.get step.key with
      | none => .error (badMigration "a stored row has no value for a field that changes; nothing was changed")
      | some raw => do
          let out ← w.make crypto tools i rowKey (draw step.id) step raw
          let row ← row.set tools step.key out
          rewriteSteps i rowKey draw steps row

def rewrite (table rowKey : String) (draw : Nat → N × Bytes) (old : Bytes) : Result Bytes :=
  match w.find table with
  | none => .ok old
  | some (i, plan) => do
      let row ← RawRow.parse tools old
      let row ← w.rewriteSteps crypto tools i rowKey draw plan.rewrites row
      .ok (row.encode tools)

/-! ## The check -/

def wrongRow (what : String) : ClError := badMigration ("a rewritten row does not match: " ++ what)

/-- `ok_or_else` and a condition that has to hold. -/
def orWrong {α : Type} (what : String) : Option α → Result α
  | none => .error (wrongRow what)
  | some a => .ok a

def demand (p : Bool) (what : String) : Result Unit := if p then .ok () else .error (wrongRow what)

/-- The check of one step, between the value before all steps and the value after them. -/
def verifyStep (i : Nat) (rowKey : String) (step : FieldStep) (oldRaw newRaw : Bytes) : Result Unit :=
  match step.kind with
  | .seal => do
      let spec ← orWrong "no declaration" step.declared
      let stored ← readStored tools newRaw
      let keys ← w.heldKeys
      let id ← w.idOf i step
      let opened ← openStored crypto keys id step.id rowKey stored
      demand (opened == oldRaw) "a sealed value does not open to the value it had"
      demand (stored.full.isSome == spec.method.hasStoredPrint && stored.parts.isSome == spec.method.hasParts)
        "the fingerprints of a sealed value are not those its method has"
  | .hash | .openToHash => do
      let text ← orWrong "a hash is not a text" (tools.readText newRaw)
      demand (!(text.isEmpty || newRaw == oldRaw)) "a hash is empty or is the value"
  | .printOnly => do
      let spec ← orWrong "no declaration" step.declared
      let keys ← w.heldKeys
      let id ← w.idOf i step
      let again ← printPlain crypto keys tools id spec oldRaw
      demand (again == newRaw) "a fingerprint is not the fingerprint of the value"
  | .openToPrintOnly => do
      let spec ← orWrong "no declaration" step.declared
      let plain ← w.openRaw crypto tools i step rowKey oldRaw
      let keys ← w.heldKeys
      let id ← w.idOf i step
      let again ← printPlain crypto keys tools id spec plain
      demand (again == newRaw) "a fingerprint is not the fingerprint of the value"
  | .addPrints | .remakePrints => do
      let spec ← orWrong "no declaration" step.declared
      let storedOld ← readStored tools oldRaw
      let storedNew ← readStored tools newRaw
      demand (storedOld.sealedText == storedNew.sealedText) "the sealed text changed with its fingerprints"
      let plain ← w.openRaw crypto tools i step rowKey oldRaw
      let keys ← w.heldKeys
      let id ← w.idOf i step
      let again ← withPrints crypto keys tools id spec storedOld.sealedText plain
      demand (again == newRaw) "the fingerprints are not those of the value"
  | .dropPrints => do
      let storedOld ← readStored tools oldRaw
      let storedNew ← readStored tools newRaw
      demand (storedOld.sealedText == storedNew.sealedText && storedNew.full.isNone && storedNew.parts.isNone)
        "fingerprints were not taken off, or the sealed text changed"
  | .open => do
      let plain ← w.openRaw crypto tools i step rowKey oldRaw
      demand (plain == newRaw) "an opened value is not the value that was sealed"
  | .keep => .ok ()

/-- The loop of `verify`. -/
def verifySteps (i : Nat) (rowKey : String) (old new : RawRow) : List FieldStep → Result Unit
  | [] => .ok ()
  | step :: steps => do
      let oldRaw ← orWrong "a field is missing in the old row" (old.get step.key)
      let newRaw ← orWrong "a field is missing in the new row" (new.get step.key)
      w.verifyStep crypto tools i rowKey step oldRaw newRaw
      verifySteps i rowKey old new steps

def verify (table rowKey : String) (old new : Bytes) : Result Unit :=
  match w.find table with
  | none => .ok ()
  | some (i, plan) => do
      let a ← RawRow.parse tools old
      let b ← RawRow.parse tools new
      demand (a.sameBut b (plan.rewrites.map FieldStep.key)) "a field that did not change is not the same bytes"
      w.verifySteps crypto tools i rowKey a b plan.rewrites

end Rewriter

end CloveDb.FieldChange
