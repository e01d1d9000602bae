/-
# CloveDb.Fields.Value — paths into stored rows and the values they select

`fields/ast.rs` and `fields/mod.rs`: a path is a list of steps, a declared kind and the text
transformations of the field; a value is an exact JSON value, whose numbers keep their spelling.

`Json` is a row as `serde_json` sees it before anything is selected from it: numbers are tokens, the
fields of an object stand in the order of the text and may repeat. A string whose escapes have no
characters is accepted by the parser and only fails when it is read, so it is `none` here.
-/
import CloveDb.Lib.Bytes
import CloveDb.Units

namespace CloveDb.Fields

open CloveDb.Lib

inductive ValueKind where
  | auto
  | dateTime
  | date
  | naiveDateTime
  | epochSeconds
  | epochMillis
  deriving DecidableEq, Repr

inductive Step where
  | key (k : String)
  | index (i : Nat)
  | any
  | all
  | length
  deriving DecidableEq, Repr

/-- `Step::Any | Step::All` -/
def Step.quantifies : Step → Bool
  | .any => true
  | .all => true
  | _ => false

inductive TransformKind where
  | trim
  | lowercase
  | normalizeArabic
  deriving DecidableEq, Repr

structure Transform where
  kind : TransformKind
  version : Nat
  deriving DecidableEq, Repr

structure Path where
  steps : List Step
  kind : ValueKind
  transforms : List Transform
  deriving DecidableEq, Repr

/-- `i128` -/
def I128 : Type := { n : Int // -2 ^ 127 ≤ n ∧ n < 2 ^ 127 }
  deriving DecidableEq

/-- A checked operation: `none` outside the range. -/
def I128.ofInt? (n : Int) : Option I128 :=
  if h : -2 ^ 127 ≤ n ∧ n < 2 ^ 127 then some ⟨n, h⟩ else none

instance : Repr I128 := ⟨fun n _ => repr n.val⟩

/-- An exact JSON value. The fields of an object stand in the order of their keys. -/
inductive Value where
  | missing
  | null
  | bool (b : Bool)
  | number (token : String)
  | time (nanos : I128)
  | string (s : String)
  | array (items : List Value)
  | object (fields : List (String × Value))
  deriving Repr

namespace Value

def isEmpty : Value → Bool
  | .missing => true
  | .null => true
  | _ => false

def isMissing : Value → Bool
  | .missing => true
  | _ => false

def isNull : Value → Bool
  | .null => true
  | _ => false

/-- `std::mem::discriminant` -/
def discriminant : Value → Nat
  | .missing => 0
  | .null => 1
  | .bool _ => 2
  | .number _ => 3
  | .time _ => 4
  | .string _ => 5
  | .array _ => 6
  | .object _ => 7

end Value

/-- A row as the JSON parser sees it. -/
inductive Json where
  | null
  | bool (b : Bool)
  | number (token : String)
  | string (s : Option String)
  | array (items : List Json)
  | object (fields : List (Option String × Json))

/-- The shape of a JSON number: a sign, digits, a fraction, an exponent. -/
structure IsNumber (text : List Char) : Prop where
  parts : ∃ sign integer fraction exponent : List Char,
    text = sign ++ integer ++ fraction ++ exponent ∧ (sign = [] ∨ sign = ['-']) ∧
      integer ≠ [] ∧ (∀ c ∈ integer, c.isDigit) ∧
      (fraction = [] ∨ ∃ ds, fraction = '.' :: ds ∧ ∀ c ∈ ds, c.isDigit) ∧
      (exponent = [] ∨ ∃ e ds, exponent = e :: ds ∧ (e = 'e' ∨ e = 'E'))

/-- What the field code takes from other crates. -/
structure Outside where
  /-- `serde_json::from_slice` to a raw value. -/
  parseJson : Bytes → Option Json
  /-- `RawValue::from_string`: the JSON value the text is, with the blanks around it gone. -/
  rawValue : String → Option String
  /-- A JSON value that starts like a number is one. -/
  rawValue_number : ∀ token raw c rest, rawValue token = some raw → raw.toList = c :: rest →
    c = '-' ∨ c.isDigit → IsNumber raw.toList
  /-- `DateTime::parse_from_rfc3339`, in nanoseconds. -/
  parseRfc3339 : String → Option I128
  /-- `NaiveDate::parse_from_str` with `%Y-%m-%d`, in nanoseconds. -/
  parseDate : String → Option I128
  /-- `NaiveDateTime::parse_from_str` with the two formats, in nanoseconds. -/
  parseNaive : String → Option I128
  /-- `str::trim` -/
  trim : String → String
  /-- `str::to_lowercase` -/
  lowercase : String → String

/-- An outside for concrete runs: the rows it can read are listed, a number is a row of digits, and no
text is a moment. -/
def Outside.listed (docs : List (Bytes × Json)) : Outside where
  parseJson bytes := (docs.find? fun d => d.1 == bytes).map Prod.snd
  rawValue token := if token.toList ≠ [] ∧ token.toList.all Char.isDigit then some token else none
  rawValue_number := by
    intro token raw c rest h _ _
    split at h
    · rename_i hdigits
      cases h
      exact ⟨[], token.toList, [], [], by simp, .inl rfl, hdigits.1,
        fun c hc => List.all_eq_true.mp hdigits.2 c hc, .inl rfl, .inl rfl⟩
    · cases h
  parseRfc3339 _ := none
  parseDate _ := none
  parseNaive _ := none
  trim := id
  lowercase := id

end CloveDb.Fields
