/-
# CloveDb.Fields.Codec — ordered keys of values

`fields/codec.rs`: each value has a key of bytes, self-delimiting, whose order is the order of the
values; objects have one only where equality is asked for. Numbers are compared by their decimal
digits and exponent, never as floats.
-/
import CloveDb.Fields.Value

namespace CloveDb.Fields.Codec

open CloveDb.Lib

def error {α : Type} (message : String) : Result α := .error (.validation message)

/-! ## Numbers -/

/-- `str::split_once` on a set of characters. -/
def splitOnce (p : Char → Bool) (text : List Char) : Option (List Char × List Char) :=
  match text.span (fun c => !p c) with
  | (_, []) => none
  | (front, _ :: rest) => some (front, rest)

/-- `str::parse::<i128>` -/
def parseI128 (text : List Char) : Option I128 :=
  let (negative, digits) := match text with
    | '-' :: ds => (true, ds)
    | '+' :: ds => (false, ds)
    | ds => (false, ds)
  if digits.isEmpty || !digits.all Char.isDigit then none
  else
    let n : Int := digits.foldl (fun acc c => acc * 10 + (c.toNat - '0'.toNat : Nat)) 0
    I128.ofInt? (if negative then -n else n)

/-- A decimal number `0.digits * 10 ^ exponent`; no digits is zero. -/
structure Decimal where
  negative : Bool
  digits : List Char
  exponent : I128

def zeroI128 : I128 := ⟨0, by decide, by decide⟩

def isZero (c : Char) : Bool := c == '0'

/-- `trim_matches('0')` -/
def trimZeros (digits : List Char) : List Char :=
  ((digits.dropWhile isZero).reverse.dropWhile isZero).reverse

/-- The text of a JSON number to a decimal. -/
def Decimal.ofText (text : List Char) : Result Decimal :=
  let negative := text.head? == some '-'
  let token := if negative then text.tail else text
  let (mantissa, exp) := (splitOnce (fun c => c == 'e' || c == 'E') token).getD (token, ['0'])
  match parseI128 exp with
  | none => error "numeric exponent exceeds i128"
  | some exp =>
      let (integer, fraction) := (splitOnce (· == '.') mantissa).getD (mantissa, [])
      let digits := integer ++ fraction
      let leading := (digits.takeWhile isZero).length
      match (I128.ofInt? (exp.val + integer.length)).bind fun v => I128.ofInt? (v.val - leading) with
      | none => error "numeric exponent exceeds i128"
      | some exponent =>
          let digits := trimZeros digits
          if digits.isEmpty then .ok ⟨false, [], zeroI128⟩
          else .ok ⟨negative, digits, exponent⟩

section

variable (out : Outside)

/-- `Decimal::parse` -/
def Decimal.parse (token : String) : Result Decimal :=
  match out.rawValue token with
  | none => .error .serialization
  | some raw =>
      match raw.toList with
      | [] => error "expected a finite JSON number"
      | c :: rest =>
          if c = '-' ∨ c.isDigit then Decimal.ofText (c :: rest)
          else error "expected a finite JSON number"

/-- `Decimal::integer_scaled`: the number times a power of ten, when that is an integer. -/
def Decimal.integerScaled (d : Decimal) (scale : Nat) : Result I128 :=
  if d.digits.isEmpty then .ok zeroI128
  else
    match (I128.ofInt? (d.exponent.val - d.digits.length)).bind fun v =>
      I128.ofInt? (v.val + scale) with
    | none => error "timestamp outside supported range"
    | some power =>
        if power.val < 0 then error "timestamp precision exceeds nanoseconds"
        else if 2 ^ 32 ≤ power.val then error "timestamp outside supported range"
        else
          match (parseI128 d.digits).bind fun value =>
            (I128.ofInt? (10 ^ power.val.toNat)).bind fun p => I128.ofInt? (value.val * p.val) with
          | none => error "timestamp outside supported range"
          | some value =>
              match I128.ofInt? (if d.negative then -value.val else value.val) with
              | none => error "timestamp outside supported range"
              | some n => .ok n

end

/-! ## Keys -/

/-- An `i128` with its sign bit turned, most significant byte first. -/
def signed (n : I128) : Bytes := beBytes 16 (n.val + 2 ^ 127).toNat

/-- The bytes of a text, a zero byte as `0 255`, with `0 0` at the end. -/
def text (bytes : Bytes) : Bytes :=
  bytes.flatMap (fun b => if b = 0 then [0, 255] else [b]) ++ [0, 0]

/-- The digits as bytes. -/
def digitBytes (digits : List Char) : Bytes := digits.map fun c => UInt8.ofNat c.toNat

def numberKey (n : Decimal) : Bytes :=
  if n.digits.isEmpty then [5, 1]
  else
    let part := signed n.exponent ++ digitBytes n.digits ++ [0]
    if n.negative then [5, 0] ++ part.map (fun b => ~~~b) else [5, 2] ++ part

section

variable (out : Outside)

mutual

/-- `append`: the key of a value; `objects` says whether objects have one. -/
def append (objects : Bool) : Value → Result Bytes
  | .missing => .ok [1]
  | .null => .ok [2]
  | .bool false => .ok [3]
  | .bool true => .ok [4]
  | .number token => do
      let n ← Decimal.parse out token
      return numberKey n
  | .time n => .ok (6 :: signed n)
  | .string v => .ok (7 :: text (utf8 v))
  | .array items => do
      let keys ← appendItems objects items
      return 8 :: keys ++ [0]
  | .object fields =>
      if objects then do
        let keys ← appendFields fields
        return 9 :: keys ++ [0]
      else error "objects support canonical equality only, not ordering"

def appendItems (objects : Bool) : List Value → Result Bytes
  | [] => .ok []
  | v :: vs => do
      let key ← append objects v
      let keys ← appendItems objects vs
      return key ++ keys

def appendFields : List (String × Value) → Result Bytes
  | [] => .ok []
  | (k, v) :: fields => do
      let key ← append true v
      let keys ← appendFields fields
      return 7 :: text (utf8 k) ++ key ++ keys

end

def encode (value : Value) : Result Bytes := append out false value

def encodeEquality (value : Value) : Result Bytes := append out true value

def encodeTuple (values : List Value) : Result Bytes := encode out (.array values)

/-! ## Declared kinds -/

/-- The moment a scalar stands for under a temporal kind. -/
def interpretScalar (kind : ValueKind) (value : Value) : Result Value :=
  match kind, value with
  | .epochSeconds, .number v => do
      let d ← Decimal.parse out v
      let n ← d.integerScaled 9
      return .time n
  | .epochMillis, .number v => do
      let d ← Decimal.parse out v
      let n ← d.integerScaled 6
      return .time n
  | .dateTime, .string v =>
      match out.parseRfc3339 v with
      | none => error "invalid RFC3339 datetime"
      | some n => .ok (.time n)
  | .date, .string v =>
      match out.parseDate v with
      | none => error "invalid date"
      | some n => .ok (.time n)
  | .naiveDateTime, .string v =>
      match out.parseNaive v with
      | none => error "invalid naive datetime"
      | some n => .ok (.time n)
  | _, _ => error "value does not match declared temporal representation"

mutual

/-- `interpret`: apply a declared temporal interpretation; ordinary strings stay strings. -/
def interpret (kind : ValueKind) : Value → Result Value
  | .missing => .ok .missing
  | .null => .ok .null
  | .time n => .ok (.time n)
  | .array items =>
      if kind = .auto then .ok (.array items)
      else do
        let items ← interpretItems kind items
        return .array items
  | .object fields =>
      if kind = .auto then .ok (.object fields)
      else do
        let fields ← interpretFields kind fields
        return .object fields
  | v => if kind = .auto then .ok v else interpretScalar out kind v

def interpretItems (kind : ValueKind) : List Value → Result (List Value)
  | [] => .ok []
  | v :: vs => do
      let v ← interpret kind v
      let vs ← interpretItems kind vs
      return v :: vs

def interpretFields (kind : ValueKind) : List (String × Value) → Result (List (String × Value))
  | [] => .ok []
  | (k, v) :: fields => do
      let v ← interpret kind v
      let fields ← interpretFields kind fields
      return (k, v) :: fields

end

end

end CloveDb.Fields.Codec
