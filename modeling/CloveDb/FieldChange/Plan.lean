/-
# CloveDb.FieldChange.Plan — what becomes of each protected field

`migration/encrypted/fields/plan.rs`. The protection of the fields of a table is changed from what its stored
description says to what the code declares now. Each field gets one step, decided from the two and nothing else: no row
is read here. A step that loses the value for good has to be confirmed, and a hash or a fingerprint alone never changes.
-/
import CloveDb.FieldCrypto.RowCodec
import Mathlib.Data.List.Sort

namespace CloveDb.FieldChange

open CloveDb.Lib CloveDb.FieldCrypto

/-- `SealedField`: a protected field in the stored description of a table. -/
structure SealedField where
  id : Nat
  name : String
  method : Nat
  check : Option String
  window : Option Nat
  bits : Option Nat
  deriving DecidableEq

/-- `Method::code`. -/
def methodCode : Method → Nat
  | .encrypt => 1
  | .encryptFullPrint => 2
  | .encryptPartPrints => 3
  | .hash => 4
  | .searchPrint => 5

/-- `Method::from_code`. -/
def methodFromCode : Nat → Option Method
  | 1 => some .encrypt
  | 2 => some .encryptFullPrint
  | 3 => some .encryptPartPrints
  | 4 => some .hash
  | 5 => some .searchPrint
  | _ => none

/-- `SealedField::from_spec`. -/
def SealedField.fromSpec (spec : SealedSpec) : SealedField :=
  ⟨spec.id, spec.key, methodCode spec.method, none, if spec.method.hasParts then some spec.window else none,
    if spec.method.hasParts then some spec.bits else none⟩

/-- What happens to one field. -/
inductive StepKind where
  | keep
  | seal
  | hash
  | printOnly
  | addPrints
  | remakePrints
  | dropPrints
  | open
  | openToHash
  | openToPrintOnly
  deriving DecidableEq, Repr

def StepKind.oneWay : StepKind → Bool
  | .hash | .printOnly | .openToHash | .openToPrintOnly => true
  | _ => false

/-- One field of one table and what is done to it: `was` and `declared` are `from` and `to` of the source. -/
structure FieldStep where
  id : Nat
  key : String
  was : Option SealedField
  declared : Option SealedSpec
  kind : StepKind
  deriving DecidableEq

namespace FieldStep

def opens (s : FieldStep) : Bool :=
  match s.kind with
  | .addPrints | .remakePrints | .open | .openToHash | .openToPrintOnly => true
  | _ => false

def seals (s : FieldStep) : Bool :=
  match s.kind with
  | .seal | .addPrints | .remakePrints => true
  | _ => false

def hashes (s : FieldStep) : Bool :=
  match s.kind with
  | .hash | .openToHash => true
  | _ => false

def prints (s : FieldStep) : Bool :=
  match s.kind with
  | .printOnly | .openToPrintOnly | .addPrints | .remakePrints => true
  | .seal => s.declared.any fun t => t.method.hasStoredPrint
  | _ => false

end FieldStep

/-- What the program has to hold to make a change. -/
structure Needs where
  read : Bool
  search : Bool
  oneWay : Bool
  deriving DecidableEq

structure TablePlan where
  table : String
  steps : List FieldStep
  newTableId : Bool
  dropTableId : Bool
  deriving DecidableEq

namespace TablePlan

/-- The steps that rewrite a field. -/
def rewrites (p : TablePlan) : List FieldStep := p.steps.filter fun s => s.kind ≠ .keep

def changesRows (p : TablePlan) : Bool := p.steps.any fun s => s.kind ≠ .keep

def needs (p : TablePlan) : Needs :=
  ⟨p.steps.any fun s => s.opens || s.seals || s.hashes, p.steps.any FieldStep.prints,
    p.steps.any fun s => s.kind.oneWay⟩

end TablePlan

def refuse (table key why : String) : ClError :=
  .migrationError ("table '" ++ table ++ "': field '" ++ key ++ "' " ++ why ++ ". Nothing was changed")

/-- `decide`. -/
def decideStep (table key : String) (was : Option SealedField) (declared : Option SealedSpec) : Result StepKind :=
  match was with
  | none =>
      match declared with
      | none => .ok .keep
      | some t =>
          match t.method with
          | .encrypt | .encryptFullPrint | .encryptPartPrints => .ok .seal
          | .hash => .ok .hash
          | .searchPrint => .ok .printOnly
  | some old =>
      match methodFromCode old.method with
      | none => .error (refuse table key "was made by a method this version does not know")
      | some made =>
          match declared with
          | none =>
              match made with
              | .hash => .error (refuse table key
                  "is a verification hash: it cannot be removed or turned back, its value is not kept")
              | .searchPrint => .error (refuse table key
                  "is a search fingerprint: it cannot be removed or turned back, its value is not kept")
              | _ => .ok .open
          | some t =>
              if old.id ≠ t.id ∨ old.name ≠ t.key then
                .error (refuse table key "changes its number or its key: that is not part of this change")
              else
                match made, t.method with
                | .hash, .hash | .searchPrint, .searchPrint => .ok .keep
                | .hash, _ => .error (refuse table key "is a verification hash: it cannot be turned into anything else")
                | .searchPrint, _ =>
                    .error (refuse table key "is a search fingerprint: it cannot be turned into anything else")
                | _, .hash => .ok .openToHash
                | _, .searchPrint => .ok .openToPrintOnly
                | .encrypt, .encrypt | .encryptFullPrint, .encryptFullPrint | .encryptPartPrints, .encryptPartPrints =>
                    let (window, bits) := if t.method.hasParts then (some t.window, some t.bits) else (none, none)
                    if (old.window, old.bits) ≠ (window, bits) then .ok .remakePrints else .ok .keep
                | _, .encrypt => .ok .dropPrints
                | .encrypt, _ => .ok .addPrints
                | .encryptFullPrint, .encryptPartPrints => .ok .addPrints
                | .encryptPartPrints, .encryptFullPrint => .ok .remakePrints

/-- `settled`: `same` says that the stored settings are those of the code. -/
def settled (table : String) (step : FieldStep) (same : Bool) : Result StepKind :=
  if same then .ok .keep
  else
    match step.declared with
    | none => .ok .keep
    | some t =>
        match t.method with
        | .encryptFullPrint | .encryptPartPrints => .ok .remakePrints
        | .hash => .error (refuse table step.key
            "has other hash settings than it was made with: a hash cannot be made again without the secret")
        | .searchPrint => .error (refuse table step.key
            "has other normalisation than it was made with: a fingerprint alone cannot be made again, its value is not kept")
        | .encrypt => .ok .keep

/-- `parts_are_set_up`. -/
def partsAreSetUp (spec : SealedSpec) : Bool :=
  !spec.method.hasParts || (spec.window ≠ 0 && (1 ≤ spec.bits && spec.bits ≤ 64))

/-- The declarations that `plan_table` refuses before it plans. -/
def checkDeclared (table : String) : List SealedSpec → Result Unit
  | [] => .ok ()
  | a :: rest =>
      if rest.any fun b => b.id == a.id then
        .error (.migrationError ("table '" ++ table ++ "': field number " ++ toString a.id ++
          " is used by more than one protected field. Nothing was changed"))
      else if a.method.hasParts && !partsAreSetUp a then
        .error (refuse table a.key "has part fingerprints that are not set up (the length of a part or the bits kept)")
      else if a.method = .hash ∧ a.hash = none then .error (refuse table a.key "is a hash with no hash setting")
      else checkDeclared table rest

/-- The step of a field the table has. -/
def oldStep (table : String) (new : List SealedSpec) (field : SealedField) : Result FieldStep := do
  let declared := new.find? fun s => s.id == field.id
  let kind ← decideStep table field.name (some field) declared
  .ok ⟨field.id, field.name, some field, declared, kind⟩

/-- The step of a field the table does not have. -/
def newStep (table : String) (spec : SealedSpec) : Result FieldStep := do
  let kind ← decideStep table spec.key none (some spec)
  .ok ⟨spec.id, spec.key, none, some spec, kind⟩

/-- `plan_table`. -/
def planTable (table : String) (old : List SealedField) (new : List SealedSpec) : Result TablePlan := do
  checkDeclared table new
  let kept ← collect (oldStep table new) old
  let added ← collect (newStep table) (new.filter fun s => !old.any fun f => f.id == s.id)
  .ok ⟨table, (kept ++ added).insertionSort fun a b => a.id ≤ b.id, old.isEmpty && !new.isEmpty,
    !old.isEmpty && new.isEmpty⟩

end CloveDb.FieldChange
