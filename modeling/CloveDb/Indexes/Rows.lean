/-
# CloveDb.Indexes.Rows — rows of an index are written and removed

`write_row_core`, `remove_row` and `insert_run` of `indexes/worker.rs`, and the counters of
`indexes/statistics.rs`. What a row has put into an index is kept in its reverse record, and only from there
it is taken out again. A build hands entries over in runs, which are sorted and appended or inserted.
-/
import CloveDb.Indexes.Builder
import CloveDb.Indexes.Format

namespace CloveDb.Indexes

open CloveDb.Lib CloveDb.Fields CloveDb.Query

/-! ## Counters -/

def flag (b : Bool) : Nat := if b then 1 else 0

variable (tools : Tools)

/-- The sample of a row's values: nothing once they are too large together. -/
def sampleValues : List Value → Nat → List Bytes → Result (List Bytes)
  | [], _, encoded => .ok encoded
  | v :: vs, used, encoded => do
      let b ← Codec.encodeEquality tools.toOutside v
      if 4096 < b.length ∨ 4096 < used + b.length then return []
      else sampleValues vs (used + b.length) (encoded ++ [b])

/-- Values that have no order. -/
def anyUnorderable (values : List Value) : Bool :=
  values.any fun v => !(Codec.encode tools.toOutside v).isOk

/-- `RowStats::new` -/
def RowStats.make (key : String) (json : Nat) (values : List Value) : Result RowStats := do
  let encoded ← sampleValues tools values 0 []
  return ⟨key, flag (values.any Value.isMissing), flag (values.any Value.isNull), values.length, json,
    (utf8 key).length, encoded, flag (anyUnorderable tools values)⟩

/-- `Reservoir`, its counters. -/
structure Reservoir where
  rows : Nat
  missing : Nat
  nulls : Nat
  fanout : Nat
  json : Nat
  keys : Nat
  unorderable : Nat
  deriving DecidableEq, Repr

def Reservoir.zero : Reservoir := ⟨0, 0, 0, 0, 0, 0, 0⟩

def Reservoir.drop (r : Reservoir) (s : RowStats) : Reservoir :=
  ⟨r.rows - 1, r.missing - s.missing, r.nulls - s.nulls, r.fanout - s.fanout, r.json - s.jsonBytes,
    r.keys - s.keyBytes, r.unorderable - s.unorderable⟩

def Reservoir.count (r : Reservoir) (s : RowStats) : Reservoir :=
  ⟨r.rows + 1, r.missing + s.missing, r.nulls + s.nulls, r.fanout + s.fanout, r.json + s.jsonBytes,
    r.keys + s.keyBytes, r.unorderable + s.unorderable⟩

/-- `Reservoir::apply` -/
def Reservoir.apply (r : Reservoir) (old new : Option RowStats) : Reservoir :=
  let r := match old with
    | some s => r.drop s
    | none => r
  match new with
  | some s => r.count s
  | none => r

/-! ## Reverse records -/

structure Reverse where
  keys : List Bytes
  terms : List String
  stats : Option RowStats
  deriving DecidableEq

def putBytes (bytes : Bytes) : Bytes := putVarint bytes.length ++ bytes

/-- `get_bytes` -/
def getBytes (bytes : Bytes) : Result (Bytes × Bytes) := do
  let (n, rest) ← getVarint bytes
  if rest.length < n then .error (.validation "truncated reverse row")
  else return (rest.take n, rest.drop n)

/-- What ends every entry key of a row. -/
def rowSuffix (row : String) : Result Bytes := Codec.encode tools.toOutside (.string row)

/-- A key without the suffix of its row, if it has it. -/
def putKey (suffix key : Bytes) : Bytes :=
  if suffix.isSuffixOf key then [1] ++ putBytes (key.take (key.length - suffix.length))
  else [0] ++ putBytes key

def putStats : Option RowStats → Bytes
  | none => [0]
  | some s => [1] ++ putVarint s.missing ++ putVarint s.nulls ++ putVarint s.fanout ++ putVarint s.jsonBytes ++
      putVarint s.keyBytes ++ putVarint s.unorderable

/-- `encode_reverse` -/
def encodeReverse (row : String) (r : Reverse) : Result Bytes := do
  let suffix ← rowSuffix tools row
  return [2] ++ putVarint r.keys.length ++ (r.keys.map (putKey suffix)).flatten ++
    putVarint r.terms.length ++ (r.terms.map fun t => putBytes (utf8 t)).flatten ++ putStats r.stats

def getKey (suffix : Bytes) : Bytes → Result (Bytes × Bytes)
  | [] => .error (.validation "truncated reverse row")
  | own :: bytes => do
      let (key, rest) ← getBytes bytes
      return (if own = 1 then key ++ suffix else key, rest)

def corruptReverse {α : Type} : Result α := .error (.validation "corrupt reverse row")

/-- A text from its bytes. -/
def getTerm (bytes : Bytes) : Result (String × Bytes) := do
  let (text, rest) ← getBytes bytes
  match fromUtf8 text with
  | some t => return (t, rest)
  | none => corruptReverse

/-- So many items, one after the other. -/
def getItems {α : Type} (item : Bytes → Result (α × Bytes)) : Nat → Bytes → Result (List α × Bytes)
  | 0, bytes => .ok ([], bytes)
  | n + 1, bytes => do
      let (a, rest) ← item bytes
      let (as, rest) ← getItems item n rest
      return (a :: as, rest)

def getStats (row : String) : Bytes → Result (Option RowStats)
  | 1 :: bytes => do
      let (missing, bytes) ← getVarint bytes
      let (nulls, bytes) ← getVarint bytes
      let (fanout, bytes) ← getVarint bytes
      let (json, bytes) ← getVarint bytes
      let (keys, bytes) ← getVarint bytes
      let (unorderable, _) ← getVarint bytes
      return some ⟨row, missing, nulls, fanout, json, keys, [], unorderable⟩
  | _ => .ok none

/-- `decode_reverse`. Records of the older format are JSON, which `older` reads. -/
def decodeReverse (older : Bytes → Result Reverse) (row : String) : Bytes → Result Reverse
  | 2 :: bytes => do
      let suffix ← rowSuffix tools row
      let (n, bytes) ← getVarint bytes
      let (keys, bytes) ← getItems (getKey suffix) n bytes
      let (t, bytes) ← getVarint bytes
      let (terms, bytes) ← getItems getTerm t bytes
      let stats ← getStats row bytes
      return ⟨keys, terms, stats⟩
  | bytes => older bytes

/-! ## Rows -/

/-- The tables of one generation of an index that is not kept as postings. -/
structure IndexTables where
  entries : Table Bytes String
  reverse : Table String Bytes
  terms : Table String Nat

def IndexTables.empty : IndexTables := ⟨Table.empty, Table.empty, Table.empty⟩

/-- One row less has a term. -/
def dropTerm (terms : Table String Nat) (term : String) : Table String Nat :=
  let count := (terms.get term).getD 0
  if count ≤ 1 then terms.remove term else terms.insert term (count - 1)

/-- One row more has a term. -/
def countTerm (terms : Table String Nat) (term : String) : Table String Nat :=
  terms.insert term ((terms.get term).getD 0 + 1)

variable (older : Bytes → Result Reverse)

/-- `remove_row` -/
def removeRow (d : Definition) (row : String) (s : IndexTables) : Result (Option RowStats × IndexTables) :=
  match s.reverse.get row with
  | none => .ok (none, s)
  | some bytes => do
      let old ← decodeReverse tools older row bytes
      return (old.stats, {
        entries := old.keys.foldl (fun t k => t.remove k) s.entries
        reverse := s.reverse.remove row
        terms := if d.kind = .token then old.terms.foldl dropTerm s.terms else s.terms })

/-- What the sampler sees of a row: the values of the first path. -/
def sampledValues (d : Definition) (bytes : Bytes) (seq : Nat) : Result (List Value) :=
  if d.kind = .lastWrite then .ok [.number (toString seq)]
  else
    match d.paths with
    | [] => .ok []
    | path :: _ => pathValues tools bytes path

/-- The terms of a value, as values of their own. -/
def termValues (d : Definition) : Value → List Value
  | .string s => ((if d.kind = .token then tokens tools s else trigrams s).map .string)
  | _ => []

/-- A value of each path, in one. -/
def tupleOf (bytes : Bytes) (paths : List Path) : Result (List Value) :=
  collect (fun path : Path =>
    if path.steps.any Step.quantifies then
      .error (.validation "compound multikey requires a single expansion path")
    else pathValue tools.toOutside bytes path) paths

/-- The values a row is indexed by. -/
def indexedValues (d : Definition) (bytes : Bytes) (seq : Nat) (sampled : List Value) : Result (List Value) :=
  if d.kind = .lastWrite then .ok [.number (toString seq)]
  else if d.paths.length = 1 then
    .ok (if d.kind = .token ∨ d.kind = .trigram then (sampled.map (termValues tools d)).flatten else sampled)
  else do
    let tuple ← tupleOf tools bytes d.paths
    return [.array tuple]

/-- The distinct texts of some values, in order. -/
def textsOf (values : List Value) : List String :=
  sortedSet (values.filterMap fun
    | .string s => some s
    | _ => none)

/-- A `BTreeSet` of keys, in order. -/
def keySet (keys : List Bytes) : List Bytes := (Table.ofList (keys.map fun k => (k, ()))).keys

/-- What a row puts into an index. -/
structure RowIndex where
  keys : List Bytes
  terms : List String
  stats : RowStats

/-- What `write_row_core` reads of a row. -/
def rowIndex (d : Definition) (row : String) (bytes : Bytes) (seq : Nat) : Result RowIndex := do
  let sampled ← sampledValues tools d bytes seq
  let stats ← RowStats.make tools row bytes.length sampled
  let values ← indexedValues tools d bytes seq sampled
  let stats := if 1 < d.paths.length then { stats with unorderable := flag (anyUnorderable tools values) } else stats
  let terms := if d.kind = .token then textsOf values else []
  let keys ← collect (fun v => definitionKey tools d v row) values
  return ⟨keySet keys, terms, stats⟩

/-- Entries waiting to be inserted, with their rows. -/
abbrev Pending := List (Bytes × String)

/-- What `write_row_core` writes of a row. -/
def putRow (d : Definition) (row : String) (i : RowIndex) (pending : Option Pending) (s : IndexTables) :
    Result (Option Pending × IndexTables) := do
  let terms := if d.kind = .token then i.terms.foldl countTerm s.terms else s.terms
  let items := i.keys.map fun k => (k, row)
  let entries := if pending.isSome then s.entries else items.foldl (fun t r => t.insert r.1 r.2) s.entries
  let reverse ← encodeReverse tools row ⟨i.keys, i.terms, some { i.stats with values := [] }⟩
  return (pending.map (· ++ items), ⟨entries, s.reverse.insert row reverse, terms⟩)

/-- `RowDelta` -/
structure RowDelta where
  old : Option RowStats
  new : RowStats

/-- `write_row_core`. `fresh` says that the row cannot have an entry, so that there is none to remove. -/
def writeRowCore (d : Definition) (row : String) (bytes : Bytes) (seq : Nat) (pending : Option Pending)
    (fresh : Bool) (s : IndexTables) : Result (RowDelta × Option Pending × IndexTables) := do
  let (old, s) ← if fresh then .ok (none, s) else removeRow tools older d row s
  let i ← rowIndex tools d row bytes seq
  let (pending, s) ← putRow tools d row i pending s
  return (⟨old, i.stats⟩, pending, s)

/-- `write_row` -/
def writeRow (d : Definition) (row : String) (bytes : Bytes) (seq : Nat) (s : IndexTables) :
    Result (RowDelta × IndexTables) := do
  let (delta, _, s) ← writeRowCore tools older d row bytes seq none false s
  return (delta, s)

/-- `insert_run` -/
def insertRun (pending : Pending) (s : IndexTables) : Result IndexTables := do
  let entries ← Trigram.runItems (pending.mergeSort fun a b => decide (a.1 ≤ b.1)) s.entries
  return { s with entries }

/-- The terms an index lists: `refresh_dictionary` -/
def dictionary (s : IndexTables) : List String := s.terms.keys

/-- The values a row is indexed by. -/
def rowValues (d : Definition) (bytes : Bytes) (seq : Nat) : Result (List Value) := do
  let sampled ← sampledValues tools d bytes seq
  indexedValues tools d bytes seq sampled

/-! ## Changes and builds -/

/-- A change of a row, as the journal has it. -/
inductive RowChange where
  | upsert (row : String) (bytes : Bytes) (seq : Nat)
  | delete (row : String)

/-- A change is applied to an index and its counters. -/
def RowChange.run (d : Definition) (s : IndexTables) (r : Reservoir) : RowChange → Result (IndexTables × Reservoir)
  | .upsert row bytes seq => do
      let (delta, s) ← writeRow tools older d row bytes seq s
      return (s, r.apply delta.old (some delta.new))
  | .delete row => do
      let (old, s) ← removeRow tools older d row s
      return (s, r.apply old none)

def runChanges (d : Definition) : List RowChange → IndexTables → Reservoir → Result (IndexTables × Reservoir)
  | [], s, r => .ok (s, r)
  | c :: cs, s, r => do
      let (s, r) ← c.run tools older d s r
      runChanges d cs s r

/-- The rows of a table, each with its bytes and the number of the change that wrote it. -/
abbrev SourceRows := Table String (Bytes × Nat)

/-- A build: all rows of a table. After a row the entries held may be inserted, as `runs` says; at the end
they are. -/
def buildRows (d : Definition) (fresh : Bool) :
    List (String × Bytes × Nat) → List Bool → Pending → IndexTables → Reservoir → Result (IndexTables × Reservoir)
  | [], _, pending, s, r => do
      let s ← insertRun pending s
      return (s, r)
  | (row, bytes, seq) :: rows, runs, pending, s, r => do
      let (delta, held, s) ← writeRowCore tools older d row bytes seq (some pending) fresh s
      let r := r.apply delta.old (some delta.new)
      if runs.headD false then
        let s ← insertRun (held.getD []) s
        buildRows d fresh rows runs.tail [] s r
      else buildRows d fresh rows runs.tail (held.getD []) s r

def buildIndex (d : Definition) (fresh : Bool) (runs : List Bool) (source : SourceRows) :
    Result (IndexTables × Reservoir) :=
  buildRows tools older d fresh source.rows runs [] IndexTables.empty Reservoir.zero

end CloveDb.Indexes
