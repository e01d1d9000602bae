/-
# CloveDb.Fields.Extract — the value a path selects from a row

`fields/extract.rs`, `fields/transforms.rs` and `path_value` of `query/eval.rs`: walk the steps into
the row, apply the declared kind, then the text transformations. Selecting reads only what the path
touches, but it reads every key of an object it looks into.
-/
import CloveDb.Fields.Codec

namespace CloveDb.Fields

open CloveDb.Lib

/-! ## Selecting -/

/-- Put a field into an object kept in the order of its keys; a later field replaces an earlier one
of the same key. -/
def insertField (k : String) (v : Value) : List (String × Value) → List (String × Value)
  | [] => [(k, v)]
  | (k', v') :: fields =>
      if k < k' then (k, v) :: (k', v') :: fields
      else if k = k' then (k, v) :: fields
      else (k', v') :: insertField k v fields

mutual

/-- `materialize`: a whole JSON value. -/
def materialize : Json → Result Value
  | .null => .ok .null
  | .bool b => .ok (.bool b)
  | .number token => .ok (.number token)
  | .string none => .error .serialization
  | .string (some s) => .ok (.string s)
  | .array items => do
      let items ← materializeItems items
      return .array items
  | .object fields => do
      let fields ← materializeFields fields []
      return .object fields

def materializeItems : List Json → Result (List Value)
  | [] => .ok []
  | j :: js => do
      let v ← materialize j
      let vs ← materializeItems js
      return v :: vs

/-- The fields of an object, into the sorted map read so far. A repeated key keeps its last value
only; the earlier ones are never looked at. -/
def materializeFields :
    List (Option String × Json) → List (String × Value) → Result (List (String × Value))
  | [], done => .ok done
  | (none, _) :: _, _ => .error .serialization
  | (some k, j) :: fields, done =>
      if fields.any (fun f => f.1 == some k) then materializeFields fields done
      else do
        let v ← materialize j
        materializeFields fields (insertField k v done)

end

/-- The last field of an object with a given key; every key is read on the way. -/
def findKey (k : String) : List (Option String × Json) → Option Json → Result (Option Json)
  | [], found => .ok found
  | (none, _) :: _, _ => .error .serialization
  | (some k', j) :: fields, found => findKey k fields (if k' = k then some j else found)

/-- `select`: follow the steps. -/
def select : List Step → Json → Result Value
  | [], json => materialize json
  | .key k :: rest, .object fields =>
      match findKey k fields none with
      | .error e => .error e
      | .ok none => .ok .missing
      | .ok (some j) => select rest j
  | .index i :: rest, .array items =>
      match items[i]? with
      | none => .ok .missing
      | some j => select rest j
  | .any :: rest, .array items => do
      let items ← collect (select rest) items
      return .array items
  | .all :: rest, .array items => do
      let items ← collect (select rest) items
      return .array items
  | .length :: _, .array items => .ok (.number (toString items.length))
  | _ :: _, _ => .ok .missing

section

variable (out : Outside)

/-- `extract`: select a field from a stored row. -/
def extract (bytes : Bytes) (steps : List Step) : Result Value :=
  match out.parseJson bytes with
  | none => .error .serialization
  | some json => select steps json

/-! ## Text transformations -/

/-- What the Arabic normalization does with one character. -/
def normalizeChar (c : Char) : Option Char :=
  if c ∈ ['أ', 'إ', 'آ', 'ٱ'] then some 'ا'
  else if c = 'ة' then some 'ه'
  else if c = 'ى' then some 'ي'
  else if c = 'ؤ' then some 'و'
  else if c = 'ئ' then some 'ي'
  else if (0x064B ≤ c.toNat ∧ c.toNat ≤ 0x0652) ∨ c.toNat = 0x0670 ∨ c.toNat = 0x0640 then none
  else if '٠' ≤ c ∧ c ≤ '٩' then some (Char.ofNat ('0'.toNat + c.toNat - '٠'.toNat))
  else if '۰' ≤ c ∧ c ≤ '۹' then some (Char.ofNat ('0'.toNat + c.toNat - '۰'.toNat))
  else some c

def transform (text : String) : TransformKind → String
  | .trim => out.trim text
  | .lowercase => out.lowercase text
  | .normalizeArabic => String.ofList (text.toList.filterMap normalizeChar)

/-- The transformations of a field on a scalar, in order. -/
def applyAll : List Transform → Value → Result Value
  | [], v => .ok v
  | t :: ts, v =>
      if t.version ≠ 1 then .error (.validation "unsupported text transformation version")
      else
        match v with
        | .string s => applyAll ts (.string (transform out s t.kind))
        | _ => .error (.validation "text transformation requires a string")

mutual

/-- `transforms::apply` -/
def apply (transforms : List Transform) : Value → Result Value
  | .array items =>
      if transforms.isEmpty then .ok (.array items)
      else do
        let items ← applyItems transforms items
        return .array items
  | v => if transforms.isEmpty || v.isEmpty then .ok v else applyAll out transforms v

def applyItems (transforms : List Transform) : List Value → Result (List Value)
  | [] => .ok []
  | v :: vs => do
      let v ← apply transforms v
      let vs ← applyItems transforms vs
      return v :: vs

end

/-- `path_value` -/
def pathValue (bytes : Bytes) (path : Path) : Result Value := do
  let v ← extract out bytes path.steps
  let v ← Codec.interpret out path.kind v
  apply out path.transforms v

end

end CloveDb.Fields
