/-
# CloveDb.Query.Page — the rows of a query, page by page

`query/mod.rs`: a query visits rows in the order its source gives them (the whole table, or the keys of an index plan),
keeps those that meet the condition and come after the cursor, and either collects them as they come or, when the query
has an order, keeps the first ones in a bounded heap. The cursor of the next page is the last row of this one.

What an index gives is an argument (`Source`): the plans are modelled with the indexes. Left out are the single-row
lookup by id, the costs and the events.
-/
import CloveDb.FieldCrypto.Search
import Mathlib.Data.Prod.Lex
import Mathlib.Order.Lex

set_option linter.dupNamespace false

namespace CloveDb.Query

open CloveDb.Lib CloveDb.Fields CloveDb.FieldCrypto

inductive Direction where
  | asc
  | desc
  deriving DecidableEq, Repr

inductive OrderSource where
  | field (path : Path)
  | lastWrite
  | similarity (path : Path) (term : String)
  deriving DecidableEq, Repr

/-- The path an order looks at. -/
def OrderSource.path : OrderSource → Option Path
  | .field path => some path
  | .similarity path _ => some path
  | .lastWrite => none

/-- What a query takes from outside besides the conditions' tools. -/
structure PageTools extends Tools where
  /-- `strsim::normalized_levenshtein`, as the text of a number -/
  similarityText : String → String → String
  /-- `to_vec` of the versions, the table, the normalised condition and the order -/
  queryBytes : String → Option Expr → List (OrderSource × Direction) → Bytes

/-- `ReadView`: one table, as of one transaction. -/
structure ReadView where
  head : Nat
  databaseUuid : Bytes
  rows : Table String Bytes
  /-- `lastwrite::get` -/
  lastWrite : String → Nat

structure Cursor where
  fingerprint : Bytes
  order : List Bytes
  key : String
  sequence : Nat
  database : Bytes

/-- `Query`; `specs` are the protected fields of the entity, if it has any. -/
structure Query where
  table : String
  predicate : Option Predicate
  order : List (OrderSource × Direction)
  limit : Option Nat
  after : Option Cursor
  specs : Option (List SealedSpec)

variable (tools : PageTools)

/-! ## The identity of a query -/

/-- `canonical_number` -/
def canonicalNumber (token : String) : Result String := do
  let d ← Codec.Decimal.parse tools.toOutside token
  if d.digits.isEmpty then .ok "0"
  else
    match I128.ofInt? (d.exponent.val - d.digits.length) with
    | none => .error (.validation "numeric exponent exceeds i128")
    | some power => .ok ((if d.negative then "-" else "") ++ String.ofList d.digits ++ "e" ++ toString power.val)

mutual

def canonicalValue : Value → Result Value
  | .number token => do
      let token ← canonicalNumber tools token
      return .number token
  | .array items => do
      let items ← canonicalItems items
      return .array items
  | .object fields => do
      let fields ← canonicalFields fields
      return .object fields
  | v => .ok v

def canonicalItems : List Value → Result (List Value)
  | [] => .ok []
  | v :: vs => do
      let v ← canonicalValue v
      let vs ← canonicalItems vs
      return v :: vs

def canonicalFields : List (String × Value) → Result (List (String × Value))
  | [] => .ok []
  | (k, v) :: fields => do
      let v ← canonicalValue v
      let fields ← canonicalFields fields
      return (k, v) :: fields

end

/-- What `Predicate::fingerprint` refuses. -/
def Expr.check : Expr → Result Unit
  | .compare _ (.fuzzy distance) _ =>
      if 2 < distance then .error (.validation "fuzzy distance exceeds 2") else .ok ()
  | .invalid message => .error (.validation message)
  | .and a b => do
      a.check
      b.check
  | .or a b => do
      a.check
      b.check
  | .not a => a.check
  | .elemMatch _ inner => inner.check
  | _ => .ok ()

/-- Literals as the declared kind reads them, numbers in one spelling. -/
def Expr.normalize : Expr → Result Expr
  | .compare path op values => do
      let values ← collect (fun v => do
        let v ← Codec.interpret tools.toOutside path.kind v
        canonicalValue tools v) values
      return .compare path op values
  | .and a b => do
      let a ← a.normalize
      let b ← b.normalize
      return .and a b
  | .or a b => do
      let a ← a.normalize
      let b ← b.normalize
      return .or a b
  | .not a => do
      let a ← a.normalize
      return .not a
  | .elemMatch path inner => do
      let inner ← inner.normalize
      return .elemMatch path inner
  | e => .ok e

/-- `Predicate::fingerprint`, before it is written out. -/
def Predicate.canonical (p : Predicate) : Result Expr := do
  p.expression.check
  p.expression.normalize tools

/-- `optimizer::paths(None, order)`: the paths of an order, each once. -/
def orderPaths (order : List (OrderSource × Direction)) : List Path :=
  (order.filterMap fun o => o.1.path).foldl (fun out p => if out.contains p then out else out ++ [p]) []

/-- `refuse_protected` -/
def refuseProtected (specs : List SealedSpec) : List Path → Result Unit
  | [] => .ok ()
  | path :: paths =>
      match protectedBy specs path with
      | some spec => .error (denied spec.key)
      | none => refuseProtected specs paths

/-- `refuse_protected_query` -/
def Query.refuseProtectedQuery (q : Query) : Result Unit :=
  match q.specs with
  | none => .ok ()
  | some specs => do
      refuseProtected specs (orderPaths q.order)
      match q.predicate with
      | none => .ok ()
      | some p => checkFilter specs p.printed p.expression

def Query.fingerprint (q : Query) : Result Bytes := do
  q.refuseProtectedQuery
  match q.predicate with
  | none => .ok (tools.queryBytes q.table none q.order)
  | some p => do
      let canonical ← p.canonical tools
      .ok (tools.queryBytes q.table (some canonical) q.order)

/-! ## Rows -/

/-- A row that was kept, with the keys it is ordered by. -/
structure Row where
  order : List Bytes
  key : String
  bytes : Bytes
  deriving DecidableEq

/-- Rows are ordered by their order keys, then by their own. -/
def Row.rank (r : Row) : List Bytes ×ₗ String := toLex (r.order, r.key)

def Cursor.rank (c : Cursor) : List Bytes ×ₗ String := toLex (c.order, c.key)

/-- The key a row is ordered by under one source. -/
def orderKey (view : ReadView) (key : String) (bytes : Bytes) (o : OrderSource × Direction) : Result Bytes := do
  let encoded ← match o.1 with
    | .field path => do
        let v ← pathValue tools.toOutside bytes path
        Codec.encode tools.toOutside v
    | .similarity path term => do
        let v ← pathValue tools.toOutside bytes path
        let score := match v with
          | .string s => tools.similarityText s term
          | _ => "0"
        Codec.encode tools.toOutside (.number score)
    | .lastWrite => Codec.encode tools.toOutside (.number (toString (view.lastWrite key)))
  return if o.2 = .desc then complement encoded else encoded

/-- `Query::row`, with the bytes. -/
def Query.row (q : Query) (view : ReadView) (key : String) (bytes : Bytes) : Result Row := do
  let order ← collect (orderKey tools view key bytes) q.order
  return ⟨order, key, bytes⟩

/-- The heap of the first rows, as the sorted list of what it holds. -/
def pushRow (row : Row) : List Row → List Row
  | [] => [row]
  | r :: rows => if row.rank < r.rank then row :: r :: rows else r :: pushRow row rows

/-- A heap that may hold `limit` rows: a full one takes a row that comes before its last. -/
def offer (limit : Option Nat) (row : Row) (heap : List Row) : List Row :=
  if limit.all (heap.length < ·) then pushRow row heap
  else
    match heap.getLast? with
    | some last => if row.rank < last.rank then (pushRow row heap).dropLast else heap
    | none => heap

/-- What `page_in` does with a row that meets the condition; `false` ends the visit. -/
def Query.visit (q : Query) (view : ReadView) (key : String) (bytes : Bytes) (rows : List Row) :
    Result (List Row × Bool) := do
  let row ← q.row tools view key bytes
  if q.after.any (fun c => row.rank ≤ c.rank) then return (rows, true)
  else if q.limit = some 0 then return (rows, false)
  else if q.order.isEmpty then return (rows ++ [row], q.limit.all (rows.length + 1 < ·))
  else return (offer q.limit row rows, true)

/-- Does a row meet the condition of the query? -/
def Query.accepts (q : Query) (bytes : Bytes) : Result Bool :=
  match q.predicate with
  | none => .ok true
  | some p => rowMatches tools.toTools bytes p.expression

/-- The loop of `rows` over what its source gives. -/
def Query.visitRows (q : Query) (view : ReadView) : List (String × Bytes) → List Row → Result (List Row)
  | [], rows => .ok rows
  | (key, bytes) :: rest, rows => do
      if ← q.accepts tools bytes then
        let (rows, more) ← q.visit tools view key bytes rows
        if more then q.visitRows view rest rows else .ok rows
      else q.visitRows view rest rows

/-- Where a query takes its rows from. -/
inductive Source where
  | scan
  | indexed (keys : List String)
  deriving DecidableEq, Repr

/-- The rows a source gives: an index names keys, and those without a row are passed over. -/
def Source.rows (source : Source) (view : ReadView) : List (String × Bytes) :=
  match source with
  | .scan => view.rows.rows
  | .indexed keys => keys.filterMap fun k => (view.rows.get k).map fun bytes => (k, bytes)

structure Page where
  rows : List Row
  next : Option Cursor

/-- A cursor belongs to this query, this database and no later time. -/
def Cursor.valid (c : Cursor) (fingerprint : Bytes) (view : ReadView) : Bool :=
  c.fingerprint == fingerprint && c.database == view.databaseUuid && c.sequence ≤ view.head

/-- `page_in`, before the rows are decoded. -/
def Query.pageIn (q : Query) (view : ReadView) (source : Source) : Result Page := do
  let fingerprint ← q.fingerprint tools
  if q.after.any (fun c => !c.valid fingerprint view) then .error .invalidCursor
  else
    let rows ← q.visitRows tools view (source.rows view) []
    return ⟨rows, rows.getLast?.map fun r => ⟨fingerprint, r.order, r.key, view.head, view.databaseUuid⟩⟩

/-! ## Pages of a query without an order -/

/-- The answer of a condition on the rows of a view: it gives no error there. -/
def Answers (q : Query) (view : ReadView) (p : String × Bytes → Bool) : Prop :=
  ∀ r ∈ view.rows.rows, q.accepts tools r.2 = .ok (p r)

/-- A source that gives every row that is asked for, in the order of the keys. -/
def Source.Covers (source : Source) (view : ReadView) (p : String × Bytes → Bool) : Prop :=
  match source with
  | .scan => True
  | .indexed keys => keys.Pairwise (· < ·) ∧ ∀ r ∈ view.rows.rows, p r = true → r.1 ∈ keys

/-- The rows after a cursor. -/
def afterKey (after : Option Cursor) (k : String) : Bool := after.all fun c => decide (c.key < k)

section Unordered

variable {tools : PageTools} {q : Query} {view : ReadView} {p : String × Bytes → Bool}

theorem Source.rows_subset (source : Source) {r : String × Bytes} (h : r ∈ source.rows view) : r ∈ view.rows.rows := by
  cases source with
  | scan => exact h
  | indexed keys =>
      obtain ⟨k, -, hrow⟩ := List.mem_filterMap.mp h
      obtain ⟨bytes, hget, rfl⟩ := Option.map_eq_some_iff.mp hrow
      exact (view.rows.mem_rows_iff k bytes).mpr hget

/-- What a source gives of the rows asked for is all of them. -/
theorem Source.Covers.filter_rows {source : Source} (h : source.Covers view p) :
    (source.rows view).filter p = view.rows.rows.filter p := by
  cases source with
  | scan => rfl
  | indexed keys =>
      refine (view.rows.filter_rows_eq p ?_ fun r => ?_).symm
      · refine List.Pairwise.filter p (List.Pairwise.filterMap _ (fun k k' hlt r hr r' hr' => ?_) h.1)
        obtain ⟨bytes, -, rfl⟩ := Option.map_eq_some_iff.mp hr
        obtain ⟨bytes', -, rfl⟩ := Option.map_eq_some_iff.mp hr'
        exact hlt
      · rw [List.mem_filter]
        refine ⟨fun ⟨hr, hp⟩ => ⟨Source.rows_subset _ hr, hp⟩, fun ⟨hr, hp⟩ => ⟨?_, hp⟩⟩
        have hget := (view.rows.mem_rows_iff r.1 r.2).mp hr
        exact List.mem_filterMap.mpr ⟨r.1, h.2 r hr hp, by rw [hget]; rfl⟩

/-- A row of a query without an order. -/
def plainRow (r : String × Bytes) : Row := ⟨[], r.1, r.2⟩

theorem rank_le_iff {c : Cursor} (hc : c.order = []) (r : String × Bytes) :
    (plainRow r).rank ≤ c.rank ↔ r.1 ≤ c.key := by
  rw [Row.rank, Cursor.rank, hc, Prod.Lex.toLex_le_toLex]
  simp [plainRow]

/-- The rows are collected as they come, those after the cursor, until there are enough. -/
theorem visitRows_plain (horder : q.order = []) {limit : Nat} (hlimit : q.limit = some limit)
    (hafter : ∀ c ∈ q.after, c.order = []) {xs : List (String × Bytes)}
    (haccepts : ∀ r ∈ xs, q.accepts tools r.2 = .ok (p r)) {rows : List Row} (hroom : rows.length < limit) :
    q.visitRows tools view xs rows = .ok (rows ++
      (((xs.filter p).filter fun r => afterKey q.after r.1).take (limit - rows.length)).map plainRow) := by
  induction xs generalizing rows with
  | nil => simp [Query.visitRows]
  | cons r xs ih =>
      have hrest := fun rows h => @ih (fun r hr => haccepts r (List.mem_cons_of_mem _ hr)) rows h
      rw [Query.visitRows, haccepts r List.mem_cons_self, ok_bind]
      cases hp : p r with
      | false =>
          rw [if_neg Bool.false_ne_true, hrest rows hroom, List.filter_cons_of_neg (by simp [hp])]
      | true =>
          have hpast : q.after.any (fun c => decide ((plainRow r).rank ≤ c.rank)) = !afterKey q.after r.1 := by
            cases hq : q.after with
            | none => rfl
            | some c =>
                rw [Option.any_some, afterKey, Option.all_some, ← decide_not]
                exact decide_eq_decide.mpr ((rank_le_iff (hafter c (by rw [hq]; rfl)) r).trans not_lt.symm)
          have hrow : q.row tools view r.1 r.2 = .ok (plainRow r) := by
            rw [Query.row, horder]
            rfl
          rw [if_pos rfl, Query.visit, hrow, ok_bind, hpast, List.filter_cons_of_pos hp]
          cases hk : afterKey q.after r.1 with
          | false =>
              rw [List.filter_cons_of_neg (by simp [hk])]
              exact hrest rows hroom
          | true =>
              have hzero : q.limit ≠ some 0 := by
                rw [hlimit]
                intro h
                cases h
                exact absurd hroom (Nat.not_lt_zero _)
              obtain ⟨room, hroom'⟩ : ∃ room, limit - rows.length = room + 1 := ⟨limit - rows.length - 1, by omega⟩
              rw [List.filter_cons_of_pos (p := fun r : String × Bytes => afterKey q.after r.1) hk, hroom', List.take_succ_cons, List.map_cons]
              rw [Bool.not_true, if_neg Bool.false_ne_true, if_neg hzero, horder, List.isEmpty_nil, if_pos rfl]
              show (if q.limit.all (fun n => decide (rows.length + 1 < n)) = true then
                q.visitRows tools view xs (rows ++ [plainRow r]) else .ok (rows ++ [plainRow r])) = _
              rw [hlimit, Option.all_some]
              by_cases hmore : rows.length + 1 < limit
              · have hlen : (rows ++ [plainRow r]).length = rows.length + 1 := by simp
                rw [if_pos (decide_eq_true hmore), hrest _ (by rw [hlen]; exact hmore), hlen,
                  show limit - (rows.length + 1) = room by omega, List.append_assoc]
                rfl
              · have hfull : room = 0 := by omega
                rw [if_neg (by simpa using hmore), hfull, List.take_zero]
                rfl

/-- One page: the first rows after the cursor that meet the condition. -/
theorem pageIn_plain (horder : q.order = []) {limit : Nat} (hlimit : q.limit = some limit) (hpos : 0 < limit)
    (hafter : ∀ c ∈ q.after, c.order = []) {fingerprint : Bytes} (hfingerprint : q.fingerprint tools = .ok fingerprint)
    (hvalid : ∀ c ∈ q.after, c.valid fingerprint view = true) (hanswers : Answers tools q view p) {source : Source}
    (hcovers : source.Covers view p) :
    ∃ rows, rows = (((view.rows.rows.filter p).filter fun r => afterKey q.after r.1).take limit).map plainRow ∧
      q.pageIn tools view source = .ok ⟨rows, rows.getLast?.map fun r =>
        ⟨fingerprint, r.order, r.key, view.head, view.databaseUuid⟩⟩ := by
  have hcursor : q.after.any (fun c => !c.valid fingerprint view) = false := by
    cases hq : q.after with
    | none => rfl
    | some c => simp [hvalid c (by rw [hq]; rfl)]
  refine ⟨_, rfl, ?_⟩
  have hvisit := @visitRows_plain tools q view p horder limit hlimit hafter _
    (fun r hr => hanswers r (Source.rows_subset source hr)) [] hpos
  rw [Query.pageIn, hfingerprint, ok_bind, hcursor, if_neg Bool.false_ne_true, hvisit, hcovers.filter_rows]
  rfl

/-- After the last of its first rows, an ascending list has the others. -/
theorem filter_after_last {l : List (String × Bytes)} (h : Ascending l) {n : Nat} {r : String × Bytes}
    (hlast : (l.take n).getLast? = some r) : (l.filter fun x => decide (r.1 < x.1)) = l.drop n := by
  have hsplit : Ascending (l.take n ++ l.drop n) := (List.take_append_drop n l).symm ▸ h
  obtain ⟨htake, -, hcross⟩ := List.pairwise_append.mp hsplit
  have hr : r ∈ l.take n := List.mem_of_getLast? hlast
  conv_lhs => rw [← List.take_append_drop n l]
  rw [List.filter_append, List.filter_eq_nil_iff.mpr, List.filter_eq_self.mpr, List.nil_append]
  · intro x hx
    exact decide_eq_true (hcross r hr x hx)
  · -- what comes before the last one is below it
    intro x hx
    obtain ⟨front, hfront⟩ := List.getLast?_eq_some_iff.mp hlast
    rw [hfront] at htake hx
    rcases List.mem_append.mp hx with hx | hx
    · have hlt := (List.pairwise_append.mp htake).2.2 x hx r (List.mem_singleton_self r)
      exact fun hr => absurd (decide_eq_true_iff.mp hr) hlt.le.not_gt
    · obtain rfl := List.mem_singleton.mp hx
      exact fun hr => absurd (decide_eq_true_iff.mp hr) (lt_irrefl _)

end Unordered

end CloveDb.Query
