/-
# CloveDb.Query.Eval — what a condition means for one row

`query/eval.rs` over the conditions of `fields/ast.rs`. A comparison looks at the value a path selects;
values of two kinds never compare, and an order comparison of values that have no order is an error. A
path with `any` or `all` steps is walked structurally, each step with its own scope; errors stop the walk
where they occur, so what comes first counts.
-/
import CloveDb.Fields.Extract
import CloveDb.Lib.OrderedCode
import CloveDb.Lib.Table
import Mathlib.Data.List.Infix
import Mathlib.Data.String.Basic

namespace CloveDb.Query

open CloveDb.Lib CloveDb.Fields

/-! ## Conditions -/

inductive Compare where
  | eq
  | ne
  | gt
  | ge
  | lt
  | le
  | between
  | isIn
  | startsWith
  | contains
  | text
  | fuzzy (distance : Nat)
  | parts
  deriving DecidableEq, Repr

inductive Presence where
  | exists
  | null
  | missing
  | empty
  deriving DecidableEq, Repr

inductive Expr where
  | compare (path : Path) (op : Compare) (values : List Value)
  | presence (path : Path) (op : Presence)
  | and (a b : Expr)
  | or (a b : Expr)
  | not (a : Expr)
  | elemMatch (path : Path) (inner : Expr)
  | never
  | invalid (message : String)

/-- `Predicate`: a condition, and the fingerprints a field handle with a search grant put in it. -/
structure Predicate where
  expression : Expr
  printed : List String

def Predicate.and (p q : Predicate) : Predicate := ⟨.and p.expression q.expression, p.printed ++ q.printed⟩

/-- The code outside that conditions on texts use. -/
structure Tools extends Outside where
  /-- `char::is_alphanumeric` -/
  alphanumeric : Char → Bool
  /-- `strsim::levenshtein` -/
  levenshtein : String → String → Nat
  /-- `fst::automaton::Levenshtein::new`: the tokens it accepts, if it can be built. -/
  automaton : String → Nat → Option (String → Bool)
  /-- The automaton counts edits as `strsim` does. -/
  automaton_exact : ∀ term distance accepts, automaton term distance = some accepts →
    ∀ token, accepts token = decide (levenshtein token term ≤ distance)
  /-- `serde_json::to_vec` of a text. -/
  quote : String → Bytes

/-- Tools for concrete runs: a text is one edit from each other. -/
def Tools.listed (docs : List (Bytes × Json)) : Tools where
  toOutside := Outside.listed docs
  alphanumeric := Char.isAlphanum
  levenshtein a b := if a = b then 0 else 1
  automaton term distance := some fun token => decide ((if token = term then 0 else 1) ≤ distance)
  automaton_exact := by
    intro term distance accepts h token
    cases h
    rfl
  quote := utf8

variable (tools : Tools)

/-! ## Terms of a text -/

/-- `tokens`: the words of a text, in lower case. -/
def tokens (s : String) : List String :=
  ((s.toList.splitOnP fun c => !tools.alphanumeric c).filter fun w => !w.isEmpty).map fun w =>
    tools.lowercase (String.ofList w)

/-- All runs of three characters. -/
def windows : List Char → List String
  | a :: b :: c :: rest => String.ofList [a, b, c] :: windows (b :: c :: rest)
  | _ => []

/-- A `BTreeSet` of texts, in order. -/
def sortedSet (terms : List String) : List String :=
  (Table.ofList (terms.map fun t => (t, ()))).keys

theorem mem_sortedSet {terms : List String} {t : String} : t ∈ sortedSet terms ↔ t ∈ terms := by
  unfold sortedSet
  rw [Table.mem_keys_ofList, List.map_map]
  simp [Function.comp_def]

/-- `trigrams` -/
def trigrams (s : String) : List String := sortedSet (windows s.toList)

/-! ## One value -/

/-- `compare`: the order of two values of one kind. -/
def compareValues (a b : Value) : Result (Option Ordering) :=
  if a.discriminant ≠ b.discriminant || a.isEmpty || b.isEmpty then .ok none
  else do
    let x ← Codec.encodeEquality tools.toOutside a
    let y ← Codec.encodeEquality tools.toOutside b
    return some (ordering x y)

/-- The comparisons that ask for an order. -/
def Compare.ordered : Compare → Bool
  | .gt => true
  | .ge => true
  | .lt => true
  | .le => true
  | .between => true
  | _ => false

/-- One of the values equals `v`. -/
def isAmong (v : Value) : List Value → Result Bool
  | [] => .ok false
  | b :: bs => do
      let c ← compareValues tools v b
      if c = some .eq then return true else isAmong v bs

/-- The comparisons of texts. -/
def compareTexts (op : Compare) (a b : String) : Bool :=
  match op with
  | .startsWith => (utf8 b).isPrefixOf (utf8 a)
  | .contains => decide (b.toList <:+: a.toList)
  | .fuzzy distance => (tokens tools a).any fun t => decide (tools.levenshtein t b ≤ distance)
  | _ =>
      let wanted := tokens tools b
      !wanted.isEmpty && wanted.all fun t => (tokens tools a).contains t

/-- `scalar`: does one value meet a comparison? -/
def scalar (v : Value) (op : Compare) : List Value → Result Bool
  | [] => .ok false
  | first :: rest => do
      let c ← compareValues tools v first
      if c.isSome && op.ordered then
        let _ ← Codec.encode tools.toOutside v
        let _ ← collect (Codec.encode tools.toOutside) (first :: rest)
      match op with
      | .eq => return c == some .eq
      | .ne => return c.any (· != .eq)
      | .gt => return c == some .gt
      | .ge => return c.any (· != .lt)
      | .lt => return c == some .lt
      | .le => return c.any (· != .gt)
      | .between =>
          if c.any (· != .lt) then
            match rest with
            | [] => return false
            | upper :: _ =>
                let d ← compareValues tools v upper
                return d == some .lt
          else return false
      | .isIn => isAmong tools v (first :: rest)
      | _ =>
          match v, first with
          | .string a, .string b => return compareTexts tools op a b
          | _, _ => return false

/-! ## Paths -/

/-- A path with one step replaced by an index. -/
def atIndex (path : Path) (i n : Nat) : Path := { path with steps := path.steps.set i (.index n) }

/-- The loop over the items of a list: the first one that decides does. -/
def quantifyLoop (all : Bool) (test : Nat → Result Bool) : List Nat → Result Bool
  | [] => .ok all
  | n :: ns => do
      let yes ← test n
      if yes ≠ all then return !all else quantifyLoop all test ns

/-- `quantified`, with the number of quantifiers still to walk. -/
def quantifiedN (bytes : Bytes) (leaf : Value → Result Bool) : Nat → Path → Result Bool
  | 0, path => do
      let v ← pathValue tools.toOutside bytes path
      leaf v
  | n + 1, path =>
      match path.steps.findIdx? Step.quantifies with
      | none => do
          let v ← pathValue tools.toOutside bytes path
          leaf v
      | some i => do
          match ← extract tools.toOutside bytes (path.steps.take i) with
          | .array items =>
              quantifyLoop (path.steps[i]? == some .all)
                (fun k => quantifiedN bytes leaf n (atIndex path i k)) (List.range items.length)
          | _ => return false

/-- `quantified` -/
def quantified (bytes : Bytes) (path : Path) (leaf : Value → Result Bool) : Result Bool :=
  quantifiedN tools bytes leaf (path.steps.countP Step.quantifies) path

def Presence.test (op : Presence) (v : Value) : Result Bool :=
  .ok (match op with
    | .exists => !v.isMissing
    | .null => v.isNull
    | .missing => v.isMissing
    | .empty => v.isEmpty)

/-- A test of what a path selects. -/
def testPath (bytes : Bytes) (path : Path) (leaf : Value → Result Bool) : Result Bool :=
  if path.steps.any Step.quantifies then quantified tools bytes path leaf
  else do
    let v ← pathValue tools.toOutside bytes path
    leaf v

/-! ## Rows -/

/-- Parts with commas between them. -/
def joinComma : List Bytes → Bytes
  | [] => []
  | [p] => p
  | p :: ps => p ++ [44] ++ joinComma ps

mutual

/-- `json_bytes`: a value as JSON again. -/
def jsonBytes : Value → Result Bytes
  | .number n => .ok (utf8 n)
  | .missing => .ok (utf8 "null")
  | .null => .ok (utf8 "null")
  | .bool b => .ok (utf8 (toString b))
  | .string s => .ok (tools.quote s)
  | .array items => do
      let parts ← jsonItems items
      return [91] ++ joinComma parts ++ [93]
  | .object fields => do
      let parts ← jsonFields fields
      return [123] ++ joinComma parts ++ [125]
  | .time _ => .error (.validation "time value is not raw JSON")

def jsonItems : List Value → Result (List Bytes)
  | [] => .ok []
  | v :: vs => do
      let p ← jsonBytes v
      let ps ← jsonItems vs
      return p :: ps

def jsonFields : List (String × Value) → Result (List Bytes)
  | [] => .ok []
  | (k, v) :: fields => do
      let p ← jsonBytes v
      let ps ← jsonFields fields
      return (tools.quote k ++ [58] ++ p) :: ps

end

/-- `matches`: does a row meet a condition? -/
def rowMatches (bytes : Bytes) : Expr → Result Bool
  | .compare path op values => do
      let values ← collect (Codec.interpret tools.toOutside path.kind) values
      testPath tools bytes path fun v => scalar tools v op values
  | .presence path op => testPath tools bytes path op.test
  | .and a b => do
      if ← rowMatches bytes a then rowMatches bytes b else return false
  | .or a b => do
      if ← rowMatches bytes a then return true else rowMatches bytes b
  | .not a => do
      let yes ← rowMatches bytes a
      return !yes
  | .elemMatch path inner => do
      match ← pathValue tools.toOutside bytes path with
      | .array items =>
          quantifyLoop false (fun n => do
            let item ← jsonBytes tools (items.getD n .missing)
            rowMatches item inner) (List.range items.length)
      | _ => return false
  | .never => .ok false
  | .invalid _ => .error (.validation "invalid query expression")

end CloveDb.Query
