/-
# CloveDb.Journal.Log — transactions of the change log

`journal.rs`: every write of user data runs in `write_with_sink`, which checks the effects the write
reports, appends them to the log under consecutive numbers, removes what every consumer has
acknowledged and, above the size limit, gives up the consumers that hold the oldest rows. Numbers are
`u64` with checked additions. A transaction that fails leaves the database as it was.
-/
import CloveDb.Journal.Unique

namespace CloveDb.Journal

open CloveDb.Lib CloveDb.Fields

/-- The values of a `u64` are below this. -/
def u64End : Nat := 2 ^ 64

/-- `checked_add` -/
def checkedAdd (a b : Nat) (message : String) : Result Nat :=
  if a + b < u64End then .ok (a + b) else .error (.validation message)

/-- `saturating_add(1)` -/
def satSucc (n : Nat) : Nat := if n + 1 < u64End then n + 1 else n

/-- The size budget of the log. -/
inductive Retention where
  | unlimited
  | default
  | limit (maxBytes : Nat)
  deriving DecidableEq, Repr

def defaultMaxBytes : Nat := 256 * 1024 * 1024

def Retention.max : Retention → Option Nat
  | .unlimited => none
  | .default => some defaultMaxBytes
  | .limit maxBytes => some maxBytes

/-! ## Last writes -/

/-- `lastwrite::apply` -/
def applyLastWrite (serde : Serde) (s : Store) (seq : Nat) : ChangeKind → Store
  | .upsert table row _ => { s with lastWrite := s.lastWrite.insert (serde.pair table row) seq }
  | .delete table row => { s with lastWrite := s.lastWrite.remove (serde.pair table row) }
  | .tableReset table _ =>
      let kept := s.lastWrite.retain fun k _ =>
        match serde.unpair k with
        | none => true
        | some p => p.1 ≠ table
      { s with lastWrite :=
          (s.rows table).keys.foldl (fun t k => t.insert (serde.pair table k) seq) kept }
  | _ => s

/-- The last writes of the effects numbered from `seq + 1` on. -/
def applyLastWrites (serde : Serde) : Nat → List ChangeKind → Store → Result Store
  | _, [], s => .ok s
  | seq, e :: es, s => do
      let next ← checkedAdd seq 1 "sequence exhausted"
      applyLastWrites serde next es (applyLastWrite serde s next e)

theorem applyLastWrites_only {serde : Serde} {seq : Nat} {effects : List ChangeKind} {s t : Store}
    (h : applyLastWrites serde seq effects s = .ok t) :
    ∃ lastWrite, t = { s with lastWrite := lastWrite } := by
  induction effects generalizing seq s with
  | nil =>
      cases h
      exact ⟨_, rfl⟩
  | cons e es ih =>
      obtain ⟨next, _, h⟩ := bind_eq_ok.mp h
      obtain ⟨lastWrite, rfl⟩ := ih h
      refine ⟨lastWrite, ?_⟩
      cases e <;> rfl

/-! ## Appending -/

/-- `append_effects` -/
def appendEffects : List ChangeKind → Log → Result Log
  | [], l => .ok l
  | e :: es, l => do
      let head ← checkedAdd l.head 1 "journal sequence exhausted"
      let row ← e.encode
      let bytes ← checkedAdd l.journalBytes (8 + row.length) "journal size overflow"
      appendEffects es
        { l with head := head, journalBytes := bytes, changes := l.changes.insert head row }

/-- The number of the first row, or the one the next row will get. -/
def Log.firstSeq (l : Log) : Nat :=
  match l.changes.rows with
  | [] => satSucc l.head
  | (k, _) :: _ => k

def Log.withFloor (l : Log) : Log := { l with floor := l.firstSeq }

/-! ## Pruning -/

/-- The image a row of the log refers to. -/
def snapshotOf (row : Bytes) : Result (Option String) :=
  if row[1]? = some 2 then do
    match ← ChangeKind.decode row with
    | .tableReset _ snapshot => return some snapshot
    | _ => return none
  else .ok none

/-- A reset image and the references kept with it are deleted. -/
def dropImage (s : Store) : Option String → Store
  | none => s
  | some snapshot => { s.deleteTable snapshot with
      blobImages := s.blobImages.remove (snapshot ++ "_blobs") }

/-- One row out of the log. -/
def pruneRow (s : Store) (key : Nat) (row : Bytes) : Result Store :=
  if row.head? ≠ some 1 then .error (.validation "unsupported journal row")
  else do
    let snapshot ← snapshotOf row
    if s.log.journalBytes < 8 + row.length then
      .error (.validation "invalid journal byte accounting")
    else return { dropImage s snapshot with
      log := { s.log with
        journalBytes := s.log.journalBytes - (8 + row.length)
        changes := s.log.changes.remove key } }

/-- Pruning writes the log and the images, nothing else. -/
theorem pruneRow_only {s t : Store} {key : Nat} {row : Bytes} (h : pruneRow s key row = .ok t) :
    ∃ log tables blobImages, t = { s with log := log, tables := tables, blobImages := blobImages } := by
  unfold pruneRow at h
  split at h
  · cases h
  obtain ⟨snapshot, _, h⟩ := bind_eq_ok.mp h
  split at h
  · cases h
  cases h
  cases snapshot <;> exact ⟨_, _, _, rfl⟩

def pruneRows : List (Nat × Bytes) → Store → Result Store
  | [], s => .ok s
  | (key, row) :: rest, s => do
      let s ← pruneRow s key row
      pruneRows rest s

/-- `prune`: the rows numbered up to `through` go. -/
def prune (through : Nat) (s : Store) : Result Store := do
  let s ← pruneRows (s.log.changes.rows.takeWhile fun r => r.1 ≤ through) s
  return { s with log := s.log.withFloor }

/-- The positions of the active consumers. -/
def Log.acked (l : Log) : List Nat :=
  (l.consumers.rows.filter fun r => r.2.active).map fun r => r.2.ackedSeq

/-- The smallest position of an active consumer, or the head without one. -/
def Log.slowest (l : Log) : Nat := l.acked.min?.getD l.head

/-- `prune_acked` -/
def pruneAcked (s : Store) : Result Store := prune s.log.slowest s

/-! ## The size limit -/

/-- The consumer of the smallest generation; the first of several. -/
def oldest : List (String × Consumer) → Option (String × Consumer)
  | [] => none
  | c :: cs =>
      match oldest cs with
      | none => some c
      | some d => if d.2.generation < c.2.generation then some d else some c

/-- What happens to a consumer that holds too much: the library's own is told to rebuild, another one
expires. -/
def giveUp (head : Nat) (c : Consumer) : Consumer :=
  if c.internal then { c with needsRebuild := true, ackedSeq := head }
  else { c with active := false }

/-- `enforce`, for at most `fuel` consumers. -/
def enforceLoop (max : Nat) : Nat → Store → Result Store
  | 0, s => .ok s
  | fuel + 1, s =>
      if s.log.journalBytes ≤ max then .ok s
      else do
        let s ← pruneAcked s
        if s.log.journalBytes ≤ max then return s
        else
          match oldest (s.log.consumers.rows.filter fun r =>
            r.2.active && r.2.ackedSeq == s.log.slowest) with
          | none => .error (.validation "journal cannot be pruned")
          | some (name, c) =>
              enforceLoop max fuel { s with log := { s.log with
                consumers := s.log.consumers.insert name (giveUp s.log.head c) } }

/-- `enforce`. Each turn of the loop gives up one consumer, so there are no more turns than
consumers, and one (`enforceLoop_fits`). -/
def enforce (retention : Retention) (s : Store) : Result Store :=
  match retention.max with
  | none => .ok s
  | some max => enforceLoop max (s.log.consumers.rows.length + 1) s

/-! ## Transactions -/

section

variable (out : Outside) (serde : Serde)

/-- What `write_with_sink` does after the write itself, up to the removal of old rows. -/
def record (effects : List ChangeKind) (s : Store) : Result Store := do
  IdContract.validate out effects s
  let s ← Unique.validate out serde effects s
  let s ← applyLastWrites serde s.log.head effects s
  let log ← appendEffects effects s.log
  return { s with log := log.withFloor }

/-- `write_with_sink` -/
def writeWithSink {α : Type} (retention : Retention)
    (f : Store → Result (α × Store × List ChangeKind)) (s : Store) : Result (α × Store) := do
  let (output, s, effects) ← f s
  let s ← record out serde effects s
  let s ← pruneAcked s
  let s ← enforce retention s
  return (output, s)

end

/-! ## Consumers -/

def expired {α : Type} : Result α := .error .consumerExpired

/-- `check_token` -/
def checkToken (token : ConsumerToken) (uuid : Bytes) : Option Consumer → Result Consumer
  | none => expired
  | some c =>
      if token.databaseUuid ≠ uuid ∨ token.generation ≠ c.generation ∨ c.active = false then expired
      else if c.needsRebuild then .error .consumerNeedsRebuild
      else .ok c

/-- The write of `register_journal_consumer`. -/
def register (name : String) (internal : Bool) (s : Store) :
    Result (ConsumerToken × Store × List ChangeKind) :=
  if name = "" then .error (.validation "empty consumer name")
  else if !internal && (s.log.consumers.get name).any (·.internal) then
    .error (.validation "internal consumer is managed by the library")
  else do
    let generation ← checkedAdd s.log.consumerGeneration 1 "consumer generation exhausted"
    let c : Consumer := ⟨generation, s.log.head, true, internal, false⟩
    let log := { s.log with
      consumerGeneration := generation, consumers := s.log.consumers.insert name c }
    return (⟨s.log.dbUuid, name, generation⟩, { s with log := log }, [])

/-- The write of `ack`. -/
def ackWrite (token : ConsumerToken) (seq : Nat) (s : Store) :
    Result (Unit × Store × List ChangeKind) := do
  let c ← checkToken token s.log.dbUuid (s.log.consumers.get token.name)
  if seq < c.ackedSeq ∨ s.log.head < seq then .error (.validation "invalid acknowledgement")
  else
    let log := { s.log with
      consumers := s.log.consumers.insert token.name { c with ackedSeq := seq } }
    let s ← pruneAcked { s with log := log }
    return ((), s, [])

/-- The write of `unregister_consumer`. -/
def unregister (name : String) (s : Store) : Result (Unit × Store × List ChangeKind) :=
  if (s.log.consumers.get name).any (·.internal) then
    .error (.validation "internal consumer is managed by the library")
  else do
    let s ← pruneAcked { s with log := { s.log with consumers := s.log.consumers.remove name } }
    return ((), s, [])

/-- `disable_index_consumer` -/
def disableIndexConsumer (s : Store) : Result (Unit × Store × List ChangeKind) :=
  match s.log.consumers.get "__indexer" with
  | none => .ok ((), s, [])
  | some c =>
      if c.internal then
        .ok ((), { s with log := { s.log with
          consumers := s.log.consumers.insert "__indexer" { c with active := false } } }, [])
      else .ok ((), s, [])

/-- The transactions on consumers. -/
inductive ConsumerCall where
  | register (name : String) (internal : Bool)
  | ack (token : ConsumerToken) (seq : Nat)
  | unregister (name : String)
  | disableIndexConsumer

/-- The write of each; a registration gives a token. -/
def ConsumerCall.write : ConsumerCall → Store → Result (Option ConsumerToken × Store × List ChangeKind)
  | .register name internal, s => do
      let (token, rest) ← Journal.register name internal s
      return (some token, rest)
  | .ack token seq, s => do
      let (_, rest) ← ackWrite token seq s
      return (none, rest)
  | .unregister name, s => do
      let (_, rest) ← Journal.unregister name s
      return (none, rest)
  | .disableIndexConsumer, s => do
      let (_, rest) ← Journal.disableIndexConsumer s
      return (none, rest)

/-- `initialize`: the log of a database that has none. -/
def initializeLog (uuid : Bytes) (s : Store) : Store :=
  { s with
    log := ⟨0, 0, 1, 0, uuid, .empty, .empty⟩
    resetGeneration := 0 }

/-! ## Reading -/

/-- Rows of the log as changes. -/
def decodeRows (rows : List (Nat × Bytes)) : Result (List Change) :=
  collect (fun r => do
    let kind ← ChangeKind.decode r.2
    return ⟨r.1, kind⟩) rows

/-- The rows numbered above `after`. -/
def Log.after (l : Log) (after : Nat) : List (Nat × Bytes) :=
  l.changes.rows.filter fun r => after < r.1

/-- `read_changes` -/
def readChanges (s : Store) (token : ConsumerToken) (after limit : Nat) : Result (List Change) := do
  let _ ← checkToken token s.log.dbUuid (s.log.consumers.get token.name)
  if after < s.log.floor - 1 then expired
  else if s.log.head < after then .error (.validation "sequence is ahead of journal")
  else decodeRows ((s.log.after after).take limit)

end CloveDb.Journal
