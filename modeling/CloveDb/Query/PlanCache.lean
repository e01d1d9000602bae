/-
# CloveDb.Query.PlanCache — the plans and statistics the optimizer keeps

`Runtime` of `query/optimizer.rs` keeps plans and `Bank` of `query/stats.rs` keeps field statistics, both in queues
with a running total of bytes. All threads share one runtime behind a mutex; `prepare` takes it several times, and
between two of its sections others may act. Each section is one step here.

A trial's result is written back to the last entry with the fingerprint of the query and the generation of the
statistics. The fingerprint says nothing of the limit, so the entry may be of the same query with another limit and
have another number of alternatives, which its weight depends on. The total then is no longer the sum
(`total_drifts`), and it goes below zero when the entries leave. In a run whose write-backs all find an entry with
as many alternatives, both totals are right in every state (`totals_exact`).

Costs are numbers of a type of their own (`Floats`); measured times, samples and estimates of selectivity are given
to the steps. A section that panics leaves what it has done so far, as the lock is taken again after a panic.
-/
import CloveDb.Lib.Runs
import CloveDb.Lib.WeighedQueue
import Mathlib.Data.List.Sort
import Mathlib.Data.Rat.Defs

namespace CloveDb.Query.Optimizer

open CloveDb.Lib

/-- `CACHE_BYTES` -/
def cacheBytes : Nat := 256 * 1024

/-- `BANK_BYTES` -/
def bankBytes : Nat := 1024 * 1024

/-- The operations of `f64` that the optimizer uses. `lit n d` is the literal `n / d`. -/
structure Floats (F : Type) where
  lit : Nat → Nat → F
  ofNat : Nat → F
  mul : F → F → F
  add : F → F → F
  div : F → F → F
  max : F → F → F
  min : F → F → F
  log2 : F → F
  lt : F → F → Bool
  totalCmp : F → F → Ordering
  /-- `as u64` -/
  toNat : F → Nat

/-- Exact fractions, for concrete runs. -/
def Floats.fractions : Floats ℚ where
  lit n d := (n : ℚ) / d
  ofNat n := n
  mul := (· * ·)
  add := (· + ·)
  div := (· / ·)
  max := Max.max
  min := Min.min
  log2 x := Nat.log2 x.num.toNat
  lt a b := decide (a < b)
  totalCmp := compare
  toNat x := x.num.toNat / x.den

inductive Plan where
  | fullScan
  | selectiveScan
  | pointLookup
  | topK
  | earlyStop
  | indexEquality
  | indexRange
  | indexUnion
  | indexIntersection
  | indexPrefix
  | indexContains
  | indexText
  | indexOrder
  | indexCount
  | indexFuzzy
  | indexEsr
  | indexErs
  deriving DecidableEq, Repr

structure Alternative (F : Type) where
  plan : Plan
  estimatedMs : F
  estimatedRows : F
  waitMs : F
  indexIds : List Nat
  deriving DecidableEq

structure Explain (F : Type) where
  selected : Plan
  alternatives : List (Alternative F)
  estimatedRows : F
  reason : String
  cacheHit : Bool
  statisticsGeneration : Nat
  trialMicros : Nat
  fingerprint : UInt64
  deriving DecidableEq

structure Work where
  rows : Nat
  bytes : Nat
  matched : Nat
  micros : Nat
  deriving DecidableEq

structure Cached (F : Type) where
  key : Bytes
  explain : Explain F
  ewma : Option Work
  errors : Nat
  touched : Nat
  sourceRows : Nat
  deriving DecidableEq

structure Costs (F : Type) where
  scan : F
  selective : F
  point : F
  deriving DecidableEq

/-! ## Statistics -/

/-- What `Bank` reads of the statistics of a field. -/
structure FieldStats where
  rows : Nat
  sampleBytes : Nat
  generation : Nat
  mcv : List (Bytes × Nat)
  histogram : List Bytes
  deriving DecidableEq

/-- `FieldStats::weight` -/
def FieldStats.weight (s : FieldStats) : Nat :=
  s.sampleBytes + (s.mcv.map fun m => m.1.length + 32).sum + (s.histogram.map fun k => k.length + 24).sum + 256

/-- An `Arc<FieldStats>`: statistics and which allocation they are. -/
structure SharedStats where
  arc : Nat
  stats : FieldStats
  deriving DecidableEq

/-- `Bank`: statistics by the JSON text of their table and path. -/
structure Bank where
  entries : WeighedQueue (Bytes × SharedStats)
  generation : Nat
  deriving DecidableEq

namespace Bank

def weight (entry : Bytes × SharedStats) : Nat := entry.1.length + entry.2.stats.weight

/-- The numbers of rows differ by at most a fifth. -/
def near (known rows : Nat) : Bool := decide (max known rows - min known rows ≤ max (known / 5) 1)

def indexOf (key : Bytes) (b : Bank) : Option Nat := b.entries.items.findIdx? fun e => e.1 == key

def invalidate (b : Bank) : Bank := ⟨b.entries.clear, b.generation + 1⟩

/-- Take the entry of a key out, if there is one. -/
def drop (key : Bytes) (b : Bank) : Bank :=
  match b.indexOf key with
  | none => b
  | some i => { b with entries := b.entries.removeAt weight i }

def lookup (key : Bytes) (rows : Nat) (b : Bank) : Bank × Option SharedStats :=
  match b.indexOf key with
  | none => (b, none)
  | some i =>
      match b.entries.items[i]? with
      | none => (b, none)
      | some item =>
          if near item.2.stats.rows rows then ({ b with entries := b.entries.moveToBack id i }, some item.2)
          else (⟨b.entries.removeAt weight i, b.generation + 1⟩, none)

/-- `insert_shared` -/
def insertShared (b : Bank) (entry : Bytes × SharedStats) : Bank :=
  if (b.entries.items.find? fun e => e.1 == entry.1).any fun e => e.2.arc == entry.2.arc then b
  else
    let b := b.drop entry.1
    { entries := b.entries.push weight bankBytes entry
      generation := if weight entry ≤ bankBytes then b.generation + 1 else b.generation }

/-- `insert`, with the allocation it makes. -/
def insert (key : Bytes) (value : FieldStats) (arc : Nat) (b : Bank) : Bank :=
  let b := b.drop key
  let generation := b.generation + 1
  ⟨b.entries.push weight bankBytes (key, ⟨arc, { value with generation }⟩), generation⟩

end Bank

/-! ## Plans -/

/-- `Context`, as far as plans depend on it. `paths` are the JSON texts of the table and each path the query names. -/
structure Context where
  canonical : Bytes
  limit : Option Nat
  point : Bool
  /-- The query has an order. -/
  ordered : Bool
  schema : Nat
  paths : List Bytes
  deriving DecidableEq

/-- `fingerprint` -/
def fingerprint (bytes : Bytes) : UInt64 :=
  bytes.foldl (fun h b => (h ^^^ b.toUInt64) * 0x100000001b3) 0xcbf29ce484222325

structure Runtime (F : Type) where
  bank : Bank
  /-- `cache` and `bytes` -/
  cache : WeighedQueue (Cached F)
  costs : Costs F
  calibrated : Bool
  schema : Option Nat
  tick : Nat
  refresh : Bool
  multipliers : Plan → F

section

variable {F : Type} (num : Floats F)

/-- `Context::candidates` -/
def candidates (c : Context) (rows matched : F) (costs : Costs F) : List (Alternative F) :=
  let alt (plan : Plan) (estimatedMs estimatedRows : F) : Alternative F :=
    ⟨plan, estimatedMs, estimatedRows, num.ofNat 0, []⟩
  if c.point then [alt .pointLookup costs.point (num.min matched (num.ofNat 1))]
  else
    alt .fullScan (num.mul costs.scan rows) matched ::
      ((if !c.ordered || c.limit.isNone then [alt .selectiveScan (num.mul costs.selective rows) matched] else []) ++
        match c.limit with
        | none => []
        | some limit =>
            if !c.ordered then
              [alt .earlyStop
                (num.mul (num.mul costs.selective rows)
                  (num.min (num.div (num.ofNat limit) (num.max matched (num.ofNat 1))) (num.ofNat 1)))
                (num.min matched (num.ofNat limit))]
            else
              [alt .topK
                (num.add (num.mul costs.selective rows)
                  (num.mul (num.mul matched (num.log2 (num.ofNat (max limit 1)))) (num.lit 1 100000)))
                matched])

/-- The order `choose` sorts by. -/
def before (a b : Alternative F) : Bool :=
  (num.totalCmp a.estimatedMs b.estimatedMs).then (compare a.plan.ctorIdx b.plan.ctorIdx) != .gt

/-- `choose`; there is always an alternative. -/
def choose (alternatives : List (Alternative F)) (generation : Nat) (fingerprint : UInt64) : Explain F :=
  let sorted := alternatives.insertionSort fun a b => before num a b = true
  { selected := (sorted.head?.map (·.plan)).getD .fullScan
    alternatives := sorted
    estimatedRows := (sorted.head?.map (·.estimatedRows)).getD (num.ofNat 0)
    reason := "lowest calibrated estimated cost"
    cacheHit := false
    statisticsGeneration := generation
    trialMicros := 0
    fingerprint }

/-- `run_trial`, with what it measured: the faster of the first two plans, if any row was read, and the time. -/
def runTrial (c : Context) (measured : Option Plan) (micros : Nat) (e : Explain F) : Explain F :=
  match e.alternatives with
  | a :: b :: _ =>
      if !num.lt (num.add (num.mul a.estimatedMs (num.lit 125 100)) (num.lit 1 100000)) b.estimatedMs && !c.point then
        match measured with
        | some plan => { e with selected := plan, reason := "bounded same-snapshot trial", trialMicros := micros }
        | none => { e with trialMicros := micros }
      else e
  | _ => e

/-- `weight` -/
def weight (v : Cached F) : Nat := v.key.length + 512 + v.explain.alternatives.length * 64

/-- The place of the last item with a property, as `rposition` finds it. -/
def lastIdx {α : Type} (p : α → Bool) (l : List α) : Option Nat :=
  (l.reverse.findIdx? p).map fun i => l.length - 1 - i

/-- The entry is of the query and the statistics of an explain. -/
def sameQuery (e : Explain F) (v : Cached F) : Bool :=
  v.explain.fingerprint == e.fingerprint && v.explain.statisticsGeneration == e.statisticsGeneration

namespace Runtime

def start : Runtime F where
  bank := ⟨.empty, 0⟩
  cache := .empty
  costs := ⟨num.lit 587564 1000000000, num.lit 3064 10000000, num.lit 670375 100000000⟩
  calibrated := false
  schema := none
  tick := 0
  refresh := false
  multipliers _ := num.ofNat 1

def setup (schema : Nat) (r : Runtime F) : Runtime F :=
  if r.schema ≠ some schema ∨ r.refresh = true then
    { r with schema := some schema, refresh := false, bank := r.bank.invalidate, cache := r.cache.clear }
  else r

/-- The key of a plan without its last byte, the selectivity. -/
def keyStart (c : Context) (schema : Nat) (r : Runtime F) : Bytes :=
  let limit := match c.limit with
    | none => "null"
    | some n => toString n
  c.canonical ++ utf8 ("[" ++ limit ++ "," ++ toString c.point ++ "]") ++ beBytes 8 c.schema ++ beBytes 8 schema ++
    beBytes 8 r.bank.generation

/-- An entry that is used: it goes to the back. -/
def hit (i : Nat) (r : Runtime F) : Runtime F × Option (Explain F) :=
  ({ r with cache := r.cache.moveToBack (fun v => { v with touched := r.tick }) i },
    r.cache.items[i]?.map fun v => { v.explain with cacheHit := true })

/-- `cached` -/
def cached (c : Context) (rows schema : Nat) (r : Runtime F) : Runtime F × Option (Explain F) :=
  let start := r.keyStart c schema
  match r.cache.items.findIdx? fun v =>
      v.key.length == start.length + 1 && start.isPrefixOf v.key && Bank.near v.sourceRows rows with
  | none => (r, none)
  | some i => { r with tick := r.tick + 1 }.hit i

/-- `plan`, with the fraction of the rows that the statistics promise. -/
def plan (c : Context) (rows schema : Nat) (fraction : F) (r : Runtime F) : Runtime F × Option (Explain F) :=
  let r := { r with tick := r.tick + 1 }
  let total := num.ofNat rows
  let bucket : UInt8 := if num.lt fraction (num.lit 5 100) then 0 else 1
  let key := r.keyStart c schema ++ [bucket]
  match r.cache.items.findIdx? fun v => v.key == key with
  | some i => r.hit i
  | none =>
      let alternatives := (candidates num c total (num.mul total fraction) r.costs).map fun a =>
        { a with estimatedMs := num.mul a.estimatedMs (r.multipliers a.plan) }
      let explain := choose num alternatives r.bank.generation (Optimizer.fingerprint c.canonical)
      let item : Cached F := ⟨key, explain, none, 0, r.tick, num.toNat total⟩
      ({ r with cache := r.cache.push weight cacheBytes item }, some explain)

/-- The write-back of a trial's result in `prepare`. -/
def writeBack (e : Explain F) (r : Runtime F) : Runtime F :=
  match lastIdx (sameQuery e) r.cache.items with
  | none => r
  | some i => { r with cache := r.cache.modifyAt (fun v => { v with explain := e }) i }

/-- The moving average of the work of a plan. -/
def average (old : Option Work) (w : Work) : Work :=
  match old with
  | none => w
  | some old =>
      ⟨(old.rows * 3 + w.rows) / 4, (old.bytes * 3 + w.bytes) / 4, (old.matched * 3 + w.matched) / 4,
        (old.micros * 3 + w.micros) / 4⟩

/-- The estimate of a plan was wrong by more than four times. -/
def bad (e : Explain F) (predicted : Alternative F) (w : Work) : Bool :=
  num.lt (num.mul (num.max e.estimatedRows (num.ofNat 1)) (num.ofNat 4)) (num.ofNat w.matched) ||
    num.lt (num.mul (num.mul (num.max predicted.estimatedMs (num.lit 1 100)) (num.ofNat 1000)) (num.ofNat 4))
      (num.ofNat w.micros)

/-- What `feedback` makes of the multiplier of a plan. -/
def adjusted (old : F) (predicted : Alternative F) (micros : Nat) : F :=
  let observed := num.div (num.ofNat micros) (num.mul (num.max predicted.estimatedMs (num.lit 1 1000)) (num.ofNat 1000))
  num.min (num.max (num.add (num.mul old (num.lit 75 100)) (num.mul observed (num.lit 25 100))) (num.lit 1 10))
    (num.ofNat 1000)

/-- `feedback` on the entry at a place. -/
def learn (e : Explain F) (predicted : Alternative F) (w : Work) (i : Nat) (v : Cached F) (r : Runtime F) :
    Runtime F :=
  let errors := if bad num e predicted w then min (v.errors + 1) 255 else 0
  let ewma := average v.ewma w
  let cache := r.cache.modifyAt (fun v => { v with errors, ewma := some ewma }) i
  if 3 ≤ errors then
    { r with
      cache := cache.removeAt weight i
      refresh := true
      multipliers := fun p =>
        if p = e.selected then adjusted num (r.multipliers p) predicted ewma.micros else r.multipliers p }
  else { r with cache }

/-- `feedback`. An explain whose plan is none of its alternatives makes it panic before it changes anything. -/
def feedback (e : Explain F) (w : Work) (r : Runtime F) : Runtime F :=
  match lastIdx (sameQuery e) r.cache.items, e.alternatives.find? (fun a => a.plan = e.selected) with
  | some i, some predicted =>
      match r.cache.items[i]? with
      | none => r
      | some v => r.learn num e predicted w i v
  | _, _ => r

end Runtime

end

/-! ## Calls -/

/-- Where a call of `prepare_indexed`, or the query around it, is. -/
inductive Stage (F : Type) where
  /-- before the statistics of the indexes go into the bank -/
  | share (indexed : List (Bytes × SharedStats))
  /-- before it asks for a plan that is kept -/
  | ask
  /-- before the next lookup of `fields`, with the costs that were measured, if any -/
  | lookup (costs : Option (Costs F)) (paths : List Bytes)
  /-- with a sample that is not in the bank yet -/
  | insert (costs : Option (Costs F)) (path : Bytes) (stats : FieldStats) (paths : List Bytes)
  | plan (costs : Option (Costs F))
  /-- after its trial -/
  | writeBack (explain : Explain F)
  /-- before the feedback of its query -/
  | feedback (explain : Explain F)
  | done

structure Call (F : Type) where
  context : Context
  /-- the rows and the schema of its snapshot -/
  rows : Nat
  schema : Nat
  trial : Bool
  stage : Stage F

/-- The calls that share a runtime. -/
structure Sys (F : Type) where
  runtime : Runtime F
  calls : List (Call F)

/-- What a section is given from outside the runtime: measured costs, a sample and its allocation, the selectivity,
the outcome of a trial, the work of the query, and what it made of its explain: the alternatives, the plan and the
rows. -/
structure Given (F : Type) where
  costs : Costs F
  stats : FieldStats
  arc : Nat
  fraction : F
  measured : Option Plan
  micros : Nat
  work : Work
  changed : Option (List (Alternative F) × Plan × F)

inductive Action (F : Type) where
  /-- a new call, with the statistics of the indexes -/
  | enter (context : Context) (rows schema : Nat) (trial : Bool) (indexed : List (Bytes × SharedStats))
  /-- the next section of a call -/
  | advance (i : Nat) (given : Given F)
  /-- a call fails, or needs no feedback -/
  | stop (i : Nat)

/-- What is left of `fields`. -/
def Stage.fields {F : Type} (costs : Option (Costs F)) : List Bytes → Stage F
  | [] => .plan costs
  | paths => .lookup costs paths

namespace Sys

variable {F : Type} (num : Floats F)

def start : Sys F := ⟨.start num, []⟩

/-- The section of a call, and where the call is then. -/
def nextSection (call : Call F) (given : Given F) (r : Runtime F) : Option (Runtime F × Stage F) :=
  match call.stage with
  | .share indexed =>
      let r := r.setup call.schema
      some ({ r with bank := indexed.foldl Bank.insertShared r.bank }, .ask)
  | .ask =>
      match (r.setup call.schema).cached call.context call.rows call.schema with
      | (r, some explain) => some (r, .feedback explain)
      | (r, none) => some (r, .fields (if r.calibrated then none else some given.costs) call.context.paths)
  | .lookup _ [] => none
  | .lookup costs (path :: paths) =>
      let r := r.setup call.schema
      match r.bank.lookup path call.rows with
      | (bank, some _) => some ({ r with bank }, .fields costs paths)
      | (bank, none) => some ({ r with bank }, .insert costs path given.stats paths)
  | .insert costs path stats paths =>
      let r := r.setup call.schema
      match r.bank.lookup path call.rows with
      | (bank, some _) => some ({ r with bank }, .fields costs paths)
      | (bank, none) => some ({ r with bank := bank.insert path stats given.arc }, .fields costs paths)
  | .plan costs =>
      let r := r.setup call.schema
      let r := match costs, r.calibrated with
        | some costs, false => { r with costs, calibrated := true }
        | _, _ => r
      match r.plan num call.context call.rows call.schema given.fraction with
      | (r, none) => some (r, .done)
      | (r, some explain) =>
          if call.trial && !explain.cacheHit then
            some (r, .writeBack (runTrial num call.context given.measured given.micros explain))
          else some (r, .feedback explain)
  | .writeBack explain => some (r.writeBack explain, .feedback explain)
  | .feedback explain =>
      -- the query may have chosen another plan meanwhile
      let explain := match given.changed with
        | none => explain
        | some (alternatives, selected, estimatedRows) => { explain with alternatives, selected, estimatedRows }
      some (r.feedback num explain given.work, .done)
  | .done => none

def step (s : Sys F) : Action F → Option (Sys F)
  | .enter context rows schema trial indexed =>
      let stage := if indexed.isEmpty then .ask else .share indexed
      some { s with calls := s.calls ++ [⟨context, rows, schema, trial, stage⟩] }
  | .advance i given => do
      let call ← s.calls[i]?
      let (r, stage) ← nextSection num call given s.runtime
      return ⟨r, s.calls.set i { call with stage }⟩
  | .stop i => s.calls[i]?.map fun call => { s with calls := s.calls.set i { call with stage := .done } }

/-- A write-back puts as many alternatives as are in the entry it goes to. -/
def sameCount (s : Sys F) : Action F → Bool
  | .advance i _ =>
      match s.calls[i]? with
      | some ⟨_, _, _, _, .writeBack explain⟩ =>
          ((lastIdx (sameQuery explain) s.runtime.cache.items).bind (s.runtime.cache.items[·]?)).all fun v =>
            explain.alternatives.length == v.explain.alternatives.length
      | _ => true
  | _ => true

end Sys

/-! ## The totals -/

/-- The bank's total is right. -/
def Bank.Accounted (b : Bank) : Prop := b.entries.Exact Bank.weight bankBytes

/-- Both totals are the sums of the weights and within their bounds, and no subtraction went below zero. -/
structure Runtime.Accounted {F : Type} (r : Runtime F) : Prop where
  cache : r.cache.Exact weight cacheBytes
  bank : r.bank.Accounted

namespace Bank.Accounted

variable {b : Bank} (h : b.Accounted)
include h

theorem drop (key : Bytes) : (b.drop key).Accounted := by
  unfold Bank.drop
  split
  · exact h
  · exact h.removeAt _

theorem lookup (key : Bytes) (rows : Nat) : (b.lookup key rows).1.Accounted := by
  unfold Bank.lookup
  split
  · exact h
  · split
    · exact h
    · split
      · exact h.moveToBack (fun _ => rfl) _
      · exact h.removeAt _

theorem insertShared (entry : Bytes × SharedStats) : (b.insertShared entry).Accounted := by
  unfold Bank.insertShared
  split
  · exact h
  · exact (h.drop entry.1).push

theorem insertAll (entries : List (Bytes × SharedStats)) : (entries.foldl Bank.insertShared b).Accounted := by
  induction entries generalizing b with
  | nil => exact h
  | cons entry entries ih => exact ih (h.insertShared entry)

theorem insert (key : Bytes) (value : FieldStats) (arc : Nat) : (b.insert key value arc).Accounted :=
  (h.drop key).push

end Bank.Accounted

namespace Runtime

variable {F : Type} {num : Floats F} {r : Runtime F}

theorem accounted_start : (start num).Accounted := ⟨WeighedQueue.exact_empty, WeighedQueue.exact_empty⟩

/-- A write-back keeps the totals right exactly if it puts as many alternatives as it takes. -/
theorem accounted_writeBack_iff (h : r.Accounted) (e : Explain F) : (r.writeBack e).Accounted ↔
    ∀ v, (lastIdx (sameQuery e) r.cache.items).bind (r.cache.items[·]?) = some v →
      e.alternatives.length = v.explain.alternatives.length := by
  unfold writeBack
  cases lastIdx (sameQuery e) r.cache.items with
  | none => exact iff_of_true h nofun
  | some i =>
      simp only [Option.bind_some]
      cases hv : r.cache.items[i]? with
      | none =>
          refine iff_of_true ⟨?_, h.bank⟩ nofun
          rw [List.getElem?_eq_none_iff] at hv
          rw [WeighedQueue.modifyAt, List.modify_eq_self hv]
          exact h.cache
      | some v =>
          have hiff := h.cache.modifyAt_iff (f := fun v => { v with explain := e }) hv
          have hweight : weight { v with explain := e } = weight v ↔
              e.alternatives.length = v.explain.alternatives.length := by
            unfold weight
            dsimp only
            omega
          rw [hweight] at hiff
          simp only [Option.some.injEq, forall_eq']
          exact ⟨fun hnew => hiff.mp hnew.cache, fun hsame => ⟨hiff.mpr hsame, h.bank⟩⟩

namespace Accounted

variable (h : r.Accounted)
include h

theorem setup (schema : Nat) : (r.setup schema).Accounted := by
  unfold Runtime.setup
  split
  · exact ⟨h.cache.clear, h.bank.clear⟩
  · exact h

theorem tick : { r with tick := r.tick + 1 }.Accounted := ⟨h.cache, h.bank⟩

theorem hit (i : Nat) : (r.hit i).1.Accounted := by
  refine ⟨?_, h.bank⟩
  exact h.cache.moveToBack (f := fun v => { v with touched := r.tick }) (fun _ => rfl) i

theorem cached (c : Context) (rows schema : Nat) : (r.cached c rows schema).1.Accounted := by
  unfold Runtime.cached
  dsimp only
  split
  · exact h
  · exact h.tick.hit _

theorem plan (c : Context) (rows schema : Nat) (fraction : F) : (r.plan num c rows schema fraction).1.Accounted := by
  unfold Runtime.plan
  dsimp only
  split
  · exact h.tick.hit _
  · exact ⟨h.cache.push, h.bank⟩

theorem feedback (e : Explain F) (w : Work) : (r.feedback num e w).Accounted := by
  unfold Runtime.feedback
  split
  next i predicted _ _ =>
    split
    · exact h
    next v hv =>
      -- the counters of an entry are not part of its weight
      have hkept : ∀ errors ewma,
          (r.cache.modifyAt (fun v => { v with errors := errors, ewma := ewma }) i).Exact weight cacheBytes :=
        fun errors ewma => (h.cache.modifyAt_iff hv).mpr rfl
      unfold Runtime.learn
      dsimp only
      generalize (if bad num e predicted w = true then min (v.errors + 1) 255 else 0) = errors
      split
      · exact ⟨(hkept _ _).removeAt i, h.bank⟩
      · exact ⟨hkept _ _, h.bank⟩
  · exact h

end Accounted

end Runtime

namespace Sys

variable {F : Type} {num : Floats F}

/-- One section of a call keeps the totals right, unless it is a write-back to an entry of another size. -/
theorem nextSection_accounted {call : Call F} {given : Given F} {r r' : Runtime F} {stage : Stage F}
    (hr : r.Accounted) (hcount : ∀ e, call.stage = .writeBack e → (r.writeBack e).Accounted)
    (h : nextSection num call given r = some (r', stage)) : r'.Accounted := by
  have hset := hr.setup call.schema
  unfold nextSection at h
  split at h
  next indexed hstage =>
    obtain ⟨rfl, -⟩ := Prod.mk.inj (Option.some.inj h)
    exact ⟨hset.cache, hset.bank.insertAll indexed⟩
  next hstage =>
    have hcached := hset.cached call.context call.rows call.schema
    split at h
    next after explain heq =>
      obtain ⟨rfl, -⟩ := Prod.mk.inj (Option.some.inj h)
      rwa [heq] at hcached
    next after heq =>
      obtain ⟨rfl, -⟩ := Prod.mk.inj (Option.some.inj h)
      rwa [heq] at hcached
  next => cases h
  next costs path paths hstage =>
    have hlookup := hset.bank.lookup path call.rows
    dsimp only at h
    split at h
    next bank found heq =>
      obtain ⟨rfl, -⟩ := Prod.mk.inj (Option.some.inj h)
      rw [heq] at hlookup
      exact ⟨hset.cache, hlookup⟩
    next bank heq =>
      obtain ⟨rfl, -⟩ := Prod.mk.inj (Option.some.inj h)
      rw [heq] at hlookup
      exact ⟨hset.cache, hlookup⟩
  next costs path stats paths hstage =>
    have hlookup := hset.bank.lookup path call.rows
    dsimp only at h
    split at h
    next bank found heq =>
      obtain ⟨rfl, -⟩ := Prod.mk.inj (Option.some.inj h)
      rw [heq] at hlookup
      exact ⟨hset.cache, hlookup⟩
    next bank heq =>
      obtain ⟨rfl, -⟩ := Prod.mk.inj (Option.some.inj h)
      rw [heq] at hlookup
      exact ⟨hset.cache, hlookup.insert path stats given.arc⟩
  next costs hstage =>
    -- measured costs are no part of the totals
    have hcosts : (match costs, (r.setup call.schema).calibrated with
        | some costs, false => { r.setup call.schema with costs := costs, calibrated := true }
        | _, _ => r.setup call.schema).Accounted := by
      split
      · exact ⟨hset.cache, hset.bank⟩
      · exact hset
    have hplan : (Runtime.plan num call.context call.rows call.schema given.fraction _).1.Accounted :=
      hcosts.plan _ _ _ _
    dsimp only at h
    split at h
    next after heq =>
      obtain ⟨rfl, -⟩ := Prod.mk.inj (Option.some.inj h)
      rwa [heq] at hplan
    next after explain heq =>
      rw [heq] at hplan
      split at h
      · obtain ⟨rfl, -⟩ := Prod.mk.inj (Option.some.inj h)
        exact hplan
      · obtain ⟨rfl, -⟩ := Prod.mk.inj (Option.some.inj h)
        exact hplan
  next explain hstage =>
    obtain ⟨rfl, -⟩ := Prod.mk.inj (Option.some.inj h)
    exact hcount explain hstage
  next explain hstage =>
    obtain ⟨rfl, -⟩ := Prod.mk.inj (Option.some.inj h)
    exact hr.feedback _ _
  next => cases h

/-- One step of the calls. -/
theorem step_accounted {s s' : Sys F} {a : Action F} (hcount : s.sameCount a = true) (h : step num s a = some s')
    (hs : s.runtime.Accounted) : s'.runtime.Accounted := by
  cases a with
  | enter context rows schema trial indexed =>
      obtain rfl := Option.some.inj h
      exact hs
  | stop i =>
      obtain ⟨call, -, rfl⟩ := Option.map_eq_some_iff.mp h
      exact hs
  | advance i given =>
      simp only [step, Option.bind_eq_bind, Option.bind_eq_some_iff, Option.pure_def, Option.some.injEq] at h
      obtain ⟨call, hcall, ⟨r, stage⟩, hsection, rfl⟩ := h
      refine nextSection_accounted hs (fun e hstage => ?_) hsection
      rw [Runtime.accounted_writeBack_iff hs]
      intro v hv
      obtain ⟨context, rows, schema, trial, stage⟩ := call
      obtain rfl : stage = .writeBack e := hstage
      simp only [sameCount, hcall, hv, Option.all_some, beq_iff_eq] at hcount
      exact hcount

/-- **The totals are right in every state of a run whose write-backs keep the number of alternatives.** The calls
may be any number of threads with any queries, and their sections may interleave in any way. -/
theorem totals_exact {actions : List (Action F)} {s : Sys F}
    (hcounts : StepsMeet (step num) (fun s a => s.sameCount a = true) (start num) actions)
    (hrun : runSteps (step num) (start num) actions = some s) :
    (s.runtime.cache.total = (s.runtime.cache.items.map weight).sum ∧ s.runtime.cache.total ≤ cacheBytes) ∧
      (s.runtime.bank.entries.total = (s.runtime.bank.entries.items.map Bank.weight).sum ∧
        s.runtime.bank.entries.total ≤ bankBytes) ∧
      s.runtime.cache.underflow = false ∧ s.runtime.bank.entries.underflow = false := by
  have h := runSteps_invariant (I := fun s : Sys F => s.runtime.Accounted) step_accounted hcounts hrun
    Runtime.accounted_start
  exact ⟨⟨h.cache.sum, h.cache.bounded⟩, ⟨h.bank.sum, h.bank.bounded⟩, h.cache.sound, h.bank.sound⟩

/-! ## Two limits -/

/-- One query on a table of 100 rows, with or without a limit. -/
def limited (limit : Option Nat) : Action ℚ := .enter ⟨[91, 93, 0], limit, false, false, 7, []⟩ 100 5 true []

/-- Costs and times of the runs below: a query takes a second, and the trial finds nothing. -/
def slow : Given ℚ where
  costs := ⟨1 / 100, 1 / 100, 1 / 100⟩
  stats := ⟨100, 0, 0, [], []⟩
  arc := 0
  fraction := 1
  measured := none
  micros := 2000
  work := ⟨100, 4000, 100, 1000000⟩
  changed := none

/-- A call with a limit plans; one without plans and writes its trial back; then the first writes its own back, to the
entry of the second. -/
def crossing : List (Action ℚ) :=
  [limited (some 10), .advance 0 slow, .advance 0 slow, limited none, .advance 1 slow, .advance 1 slow, .advance 1 slow,
    .advance 0 slow]

/-- Four more calls find the changed entry; three feedbacks take it out, and three more the other one. -/
def leaving : List (Action ℚ) :=
  [limited none, limited none, limited none, limited none, .advance 2 slow, .advance 3 slow, .advance 4 slow,
    .advance 5 slow, .advance 0 slow, .advance 1 slow, .advance 2 slow, .advance 3 slow, .advance 4 slow,
    .advance 5 slow]

/-- After the crossing the total is 64 bytes short of the sum, and when both entries have left it went below zero. -/
theorem total_drifts : ∃ s t, runSteps (step .fractions) (start .fractions) crossing = some s ∧
    s.runtime.cache.total + 64 = (s.runtime.cache.items.map weight).sum ∧
    runSteps (step .fractions) s leaving = some t ∧ t.runtime.cache.underflow = true := by
  have hruns : ((runSteps (step .fractions) (start .fractions) crossing).any fun s =>
      s.runtime.cache.total + 64 == (s.runtime.cache.items.map weight).sum &&
        (runSteps (step .fractions) s leaving).any fun t => t.runtime.cache.underflow) = true := by decide +kernel
  obtain ⟨s, hs, hboth⟩ := (Option.any_eq_true _ _).mp hruns
  obtain ⟨hshort, hleft⟩ := Bool.and_eq_true_iff.mp hboth
  obtain ⟨t, ht, hunder⟩ := (Option.any_eq_true _ _).mp hleft
  exact ⟨s, t, hs, eq_of_beq hshort, ht, hunder⟩

/-- The same two calls, the second after the first has written back. -/
def apart : List (Action ℚ) :=
  [limited (some 10), .advance 0 slow, .advance 0 slow, .advance 0 slow, limited none, .advance 1 slow, .advance 1 slow,
    .advance 1 slow]

theorem totals_exact_apart : ∃ s, runSteps (step .fractions) (start .fractions) apart = some s ∧
    s.runtime.cache.items.length = 2 ∧ s.runtime.cache.total = (s.runtime.cache.items.map weight).sum := by
  have hcounts : StepsMeet (step .fractions) (fun s a => s.sameCount a = true) (start .fractions) apart := by
    decide +kernel
  have hruns : ((runSteps (step .fractions) (start .fractions) apart).any fun s =>
      s.runtime.cache.items.length == 2) = true := by decide +kernel
  obtain ⟨s, hs, hlength⟩ := (Option.any_eq_true _ _).mp hruns
  exact ⟨s, hs, eq_of_beq hlength, (totals_exact hcounts hs).1.1⟩

end Sys

end CloveDb.Query.Optimizer
