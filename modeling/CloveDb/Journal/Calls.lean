/-
# CloveDb.Journal.Calls — every transaction of the library

All callers of `write_with_sink`, as data: the writes of user tables, the copies of attachments, the
batches of a streamed import, the calls on consumers, and the transactions that report nothing
(`id_contract::configure`, `unique::configure`, the catalogue of indexes, `set_journal_retention`). A
call is checked and prepared first and gives the closure that runs in the transaction
(`Call.prepare`).

A write makes the tables `__reset_N` and `__reset_N_blobs` of the resets it reports, and touches no
other table of that kind (`Adds`).
-/
import CloveDb.Journal.Retention

namespace CloveDb.Journal

open CloveDb.Lib CloveDb.Fields

/-! ## The calls -/

/-- What runs in a transaction: the new state and the effects it reports. -/
abbrev Closure := Store → Result (Store × List ChangeKind)

/-- A row of a streamed batch: its key, the reference of its attachment and its bytes. -/
abbrev Pending := String × Option BlobRef × Bytes

section

variable (mgr : Manager) (serde : Serde)

/-- The closure of `copy_current_blob`. -/
def copyWrite (table id : String) (reference : BlobRef) : Closure := fun s =>
  let (s, put) := putRef serde s table id reference
  .ok (s, [put])

/-- `flush` of a streamed import. -/
def streamWrite (table : String) : List Pending → Store → Store × List ChangeKind
  | [], s => (s, [])
  | (id, reference, row) :: rest, s =>
      let (s, put) := putRefs serde (reference.toList.map fun r => (table, id, r)) s
      let (s, more) := streamWrite table rest (s.setRows table ((s.rows table).insert id row))
      (s, put ++ .upsert table id row :: more)

inductive Call where
  | applyChanges (writes : List Write) (deletes : List Del)
  | replaceTable (table : String) (entries : List (String × Bytes))
  | rewriteTables (writes : List Write) (deletes : List Del) (blobs : List (Write × String))
      (copies : List (String × String × Result BlobRef))
  | publishBlob (table id : String) (bytes : Bytes) (row : Option Bytes) (file : String)
  /-- `copied` is what copying the file gave. -/
  | copyBlob (table id : String) (copied : Result BlobRef)
  | stream (table : String) (batch : List Pending)
  | consumer (call : ConsumerCall)
  /-- A transaction that reports nothing; it may write what `edit` does to the tables of the
  checks. -/
  | quiet (edit : Store → Result Store)

/-- The checks before the transaction, and what runs in it. -/
def Call.prepare : Call → Result Closure
  | .applyChanges writes deletes => do
      validateTables (writes.map Prod.fst ++ deletes.map Prod.fst)
      mgr.ensureWritable
      return fun s => do
        let (_, rest) ← applyWrite mgr serde writes deletes s
        return rest
  | .replaceTable table entries => do
      mgr.refuseSealed [table]
      mgr.ensureWritable
      validateTable table
      return fun s => do
        let (_, rest) ← replaceWrite mgr serde table entries s
        return rest
  | .rewriteTables writes deletes blobs copies => do
      mgr.ensureWritable
      let prepared ← prepareAll mgr blobs copies
      validateTables (Journal.rewriteTables writes deletes)
      return fun s => do
        let (_, rest) ← rewriteWrite mgr serde writes deletes prepared s
        return rest
  | .publishBlob table id bytes row file => do
      let blob ← prepareBlob mgr table id bytes file
      return fun s => do
        let (_, rest) ← publishWrite serde table id blob row s
        return rest
  | .copyBlob table id copied => do
      validateTable table
      if !mgr.isBlobTable table || badPath table then .error (.validation "invalid blob table")
      else
        let reference ← copied
        return copyWrite serde table id reference
  | .stream table batch => do
      mgr.refuseSealed [table]
      mgr.ensureWritable
      validateTable table
      return fun s => .ok (streamWrite serde table batch s)
  | .consumer call => .ok fun s => do
      let (_, rest) ← call.write s
      return rest
  | .quiet edit => .ok fun s => do
      let t ← edit s
      return ({ t with
        log := s.log, resetGeneration := s.resetGeneration, tables := s.tables,
        blobImages := s.blobImages, refs := s.refs }, [])

variable (out : Outside)

/-- A call with the size limit that is set. One that fails changes nothing. -/
def Call.commit (retention : Retention) (call : Call) (s : Store) : Result Store := do
  let f ← call.prepare mgr serde
  let (_, t) ← writeWithSink out serde retention (fun s => do
    let rest ← f s
    return ((), rest)) s
  return t

/-- The database after some calls. -/
def runCalls : List (Retention × Call) → Store → Store
  | [], s => s
  | (retention, call) :: rest, s =>
      match call.commit mgr serde out retention s with
      | .ok t => runCalls rest t
      | .error _ => runCalls rest s

end

/-! ## Snapshots a write adds -/

/-- The snapshots that effects name. -/
def snapshots (effects : List ChangeKind) : List String := effects.filterMap ChangeKind.snapshot

theorem snapshots_append (es es' : List ChangeKind) :
    snapshots (es ++ es') = snapshots es ++ snapshots es' :=
  List.filterMap_append

theorem snapshots_aboutBlob {effects : List ChangeKind} (h : ∀ e ∈ effects, e.aboutBlob = true) :
    snapshots effects = [] := by
  refine List.filterMap_eq_nil_iff.mpr fun e he => ?_
  have := h e he
  cases e <;> first | rfl | cases this

/-- The table beside a snapshot that holds its references. -/
def blobsName (snapshot : String) : String := snapshot ++ "_blobs"

theorem blobsName_inj {a b : String} (h : blobsName a = blobsName b) : a = b := by
  have h := congrArg String.toList h
  rw [blobsName, blobsName, String.toList_append, String.toList_append] at h
  exact String.toList_injective (List.append_cancel_right h)

/-- A write leaves the log alone and makes the tables of the snapshots `names`, under names that were
never used. -/
structure Adds (s u : Store) (names : List String) : Prop where
  log : u.log = s.log
  generation : s.resetGeneration ≤ u.resetGeneration
  tables : ∀ n, (u.tables.get (resetName n)).isSome ↔
    (s.tables.get (resetName n)).isSome ∨ resetName n ∈ names
  blobs : ∀ name, (u.blobImages.get name).isSome ↔
    (s.blobImages.get name).isSome ∨ name ∈ names.map blobsName
  named : ∀ x ∈ names, ∃ n, x = resetName n ∧ s.resetGeneration < n ∧ n ≤ u.resetGeneration
  distinct : names.Nodup

namespace Adds

/-- A write that leaves the tables of snapshots as they are. -/
theorem same {s u : Store} (hlog : u.log = s.log) (hgen : u.resetGeneration = s.resetGeneration)
    (htables : ∀ n, u.tables.get (resetName n) = s.tables.get (resetName n))
    (hblobs : u.blobImages = s.blobImages) : Adds s u [] where
  log := hlog
  generation := hgen.ge
  tables n := by simp [htables n]
  blobs name := by simp [hblobs]
  named := by simp
  distinct := List.nodup_nil

theorem refl (s : Store) : Adds s s [] := .same rfl rfl (fun _ => rfl) rfl

theorem setRows (s : Store) {table : String} (ht : reserved table = false) (r : Table String Bytes) :
    Adds s (s.setRows table r) [] :=
  .same rfl rfl (fun n => s.tables.get_insert_ne _ (ne_resetName ht n).symm) rfl

theorem trans {s u v : Store} {a b : List String} (h : Adds s u a) (h' : Adds u v b) :
    Adds s v (a ++ b) where
  log := h'.log.trans h.log
  generation := h.generation.trans h'.generation
  tables n := by rw [h'.tables, h.tables, List.mem_append, or_assoc]
  blobs name := by rw [h'.blobs, h.blobs, List.map_append, List.mem_append, or_assoc]
  named := by
    intro x hx
    rcases List.mem_append.mp hx with hx | hx
    · obtain ⟨n, rfl, hlow, hhigh⟩ := h.named x hx
      exact ⟨n, rfl, hlow, hhigh.trans h'.generation⟩
    · obtain ⟨n, rfl, hlow, hhigh⟩ := h'.named x hx
      exact ⟨n, rfl, h.generation.trans_lt hlow, hhigh⟩
  distinct := by
    refine List.nodup_append.mpr ⟨h.distinct, h'.distinct, ?_⟩
    -- the later names have later numbers
    rintro x hx _ hy rfl
    obtain ⟨m, rfl, -, hm⟩ := h.named x hx
    obtain ⟨n, hn, hlow, -⟩ := h'.named _ hy
    cases resetName_inj hn
    omega

/-- A write without snapshots before another one. -/
theorem after {s u v : Store} {names : List String} (h : Adds s u []) (h' : Adds u v names) :
    Adds s v names :=
  h.trans h'

theorem ofRefs {s u : Store} {effects : List ChangeKind} (h : RefsOnly s u effects) :
    Adds s u (snapshots effects) := by
  obtain ⟨⟨refs, rfl⟩, hes⟩ := h
  rw [snapshots_aboutBlob hes]
  exact .same rfl rfl (fun _ => rfl) rfl

end Adds

section

variable {mgr : Manager} {serde : Serde} {s u : Store} {effects : List ChangeKind}

/-- A reset makes its two tables under the next number. -/
theorem captureReset_adds {table : String} (h : captureReset serde s table = .ok (u, effects)) :
    Adds s u (snapshots effects) := by
  obtain ⟨generation, hgen, h⟩ := bind_eq_ok.mp h
  obtain ⟨_, _, h⟩ := bind_eq_ok.mp h
  cases h
  cases checkedAdd_ok hgen
  refine ⟨rfl, Nat.le_succ _, fun n => ?_, fun name => ?_, ?_, List.pairwise_singleton _ _⟩
  · show ((s.tables.insert _ _).get _).isSome ↔ _ ∨ _ ∈ [resetName _]
    rw [Table.get_insert, List.mem_singleton]
    split
    · rename_i heq
      simp [heq]
    · rename_i hne
      simp [hne]
  · show ((s.blobImages.insert (blobsName _) _).get name).isSome ↔ _ ∨ name ∈ [blobsName _]
    rw [Table.get_insert, List.mem_singleton]
    split
    · rename_i heq
      simp [heq]
    · rename_i hne
      simp [hne]
  · intro x hx
    cases List.mem_singleton.mp hx
    exact ⟨_, rfl, Nat.lt_succ_self _, Nat.le_refl _⟩

theorem snapshots_aboutRow (h : ∀ e ∈ effects, e.aboutRow = true) : snapshots effects = [] := by
  refine List.filterMap_eq_nil_iff.mpr fun e he => ?_
  have := h e he
  cases e <;> first | rfl | cases this

theorem Made.adds {there : String → String → Prop} (h : Made serde there s u effects) : Adds s u (snapshots effects) := by
  induction h with
  | refl s => exact .refl s
  | rows r user about _ ih =>
      rw [snapshots_append, snapshots_aboutRow about]
      exact (Adds.setRows _ user r).after ih
  | @put s _ table id reference _ _ _ ih =>
      have hput : Adds s (putRef serde s table id reference).1 [] := .same rfl rfl (fun _ => rfl) rfl
      exact hput.after ih
  | remove table id _ ih =>
      rw [snapshots_append]
      exact (Adds.ofRefs (removeRef_refsOnly _ table id)).trans ih
  | reset captured _ ih =>
      rw [snapshots_append]
      exact (captureReset_adds captured).trans ih

/-! ## What a call is made of -/

/-- The tables and names of the files that a call puts references for. -/
def Call.files : Call → List (String × String)
  | .rewriteTables _ _ blobs copies =>
      blobs.map (fun b => (b.1.1, b.2)) ++
        copies.filterMap fun c => c.2.2.toOption.map fun r => (c.1, r.id)
  | .publishBlob table _ _ _ file => [(table, file)]
  | .copyBlob table _ copied => (copied.toOption.map fun r => (table, r.id)).toList
  | .stream table batch => batch.filterMap fun p => p.2.1.map fun r => (table, r.id)
  | _ => []

theorem prepareBlob_id {table row file : String} {bytes : Bytes} {blob : BlobRef}
    (h : prepareBlob mgr table row bytes file = .ok blob) : blob.id = file := by
  obtain ⟨_, _, h⟩ := bind_eq_ok.mp h
  split at h
  · cases h
  split at h
  · cases h
  obtain ⟨_, _, h⟩ := bind_eq_ok.mp h
  cases h
  rfl

/-- Each attachment a rewrite prepares is one of its files. -/
theorem prepareAll_files {writes : List Write} {deletes : List Del} {blobs : List (Write × String)}
    {copies : List (String × String × Result BlobRef)} {prepared : List (String × String × BlobRef)}
    (h : prepareAll mgr blobs copies = .ok prepared) {p : String × String × BlobRef} (hp : p ∈ prepared) :
    (p.1, p.2.2.id) ∈ (Call.rewriteTables writes deletes blobs copies).files := by
  obtain ⟨written, hwritten, h⟩ := bind_eq_ok.mp h
  obtain ⟨copied, hcopied, h⟩ := bind_eq_ok.mp h
  cases h
  rcases List.mem_append.mp hp with hp | hp
  · obtain ⟨b, hb, hmade⟩ := (mem_collect hwritten).mp hp
    obtain ⟨r, hr, hmade⟩ := bind_eq_ok.mp hmade
    cases hmade
    rw [prepareBlob_id hr]
    exact List.mem_append_left _ (List.mem_map_of_mem hb)
  · obtain ⟨c, hc, hmade⟩ := (mem_collect hcopied).mp hp
    obtain ⟨_, _, hmade⟩ := bind_eq_ok.mp hmade
    split at hmade
    · cases hmade
    obtain ⟨r, hr, hmade⟩ := bind_eq_ok.mp hmade
    cases hmade
    refine List.mem_append_right _ (List.mem_filterMap.mpr ⟨c, hc, ?_⟩)
    rw [hr]
    rfl

theorem streamWrite_made {there : String → String → Prop} {table : String} (ht : reserved table = false)
    (batch : List Pending) (s : Store) (hfiles : ∀ p ∈ (Call.stream table batch).files, there p.1 p.2) :
    Made serde there s (streamWrite serde table batch s).1 (streamWrite serde table batch s).2 := by
  induction batch generalizing s with
  | nil => exact .refl s
  | cons p batch ih =>
      obtain ⟨id, reference, row⟩ := p
      have hput : ∀ q ∈ reference.toList.map (fun r => (table, id, r)), there q.1 q.2.2.id := by
        intro q hq
        obtain ⟨r, hr, rfl⟩ := List.mem_map.mp hq
        cases Option.mem_toList.mp hr
        exact hfiles (table, r.id) (List.mem_filterMap.mpr ⟨_, List.mem_cons_self, rfl⟩)
      have hrest : ∀ q ∈ (Call.stream table batch).files, there q.1 q.2 := by
        intro q hq
        obtain ⟨p, hp, hmade⟩ := List.mem_filterMap.mp hq
        exact hfiles q (List.mem_filterMap.mpr ⟨p, List.mem_cons_of_mem _ hp, hmade⟩)
      have habout : ∀ e ∈ [ChangeKind.upsert table id row], e.aboutRow = true := by
        simp [ChangeKind.aboutRow]
      exact (putRefs_made s hput).trans (.rows _ ht habout (ih _ hrest))

/-- What a closure does to the database. -/
inductive Ran (serde : Serde) (there : String → String → Prop) (s u : Store) (effects : List ChangeKind) : Prop
  | made (h : Made serde there s u effects)
  | consumer (call : ConsumerCall) (output : Option ConsumerToken) (h : call.write s = .ok (output, u, effects))
  | quiet (t : Store) (heq : u = { t with
      log := s.log, resetGeneration := s.resetGeneration, tables := s.tables,
      blobImages := s.blobImages, refs := s.refs }) (none : effects = [])

/-- **What runs in a transaction** is made of the steps of `Made`, or is one of the calls on consumers, or
leaves the data alone. -/
theorem prepare_ran {there : String → String → Prop} {call : Call} {f : Closure}
    (hfiles : ∀ p ∈ call.files, there p.1 p.2) (hf : call.prepare mgr serde = .ok f)
    (h : f s = .ok (u, effects)) : Ran serde there s u effects := by
  cases call with
  | applyChanges writes deletes =>
      obtain ⟨_, hvalid, hf⟩ := bind_eq_ok.mp hf
      obtain ⟨_, _, hf⟩ := bind_eq_ok.mp hf
      cases hf
      obtain ⟨⟨removed, rest⟩, hw, h⟩ := bind_eq_ok.mp h
      cases h
      obtain ⟨hwrites, hdeletes⟩ := validateTables_changes hvalid
      exact .made (applyWrite_made hwrites hdeletes hw)
  | replaceTable table entries =>
      obtain ⟨_, _, hf⟩ := bind_eq_ok.mp hf
      obtain ⟨_, _, hf⟩ := bind_eq_ok.mp hf
      obtain ⟨_, hvalid, hf⟩ := bind_eq_ok.mp hf
      cases hf
      obtain ⟨⟨_, rest⟩, hw, h⟩ := bind_eq_ok.mp h
      cases h
      exact .made (replaceWrite_made (validateTable_ok hvalid) hw)
  | rewriteTables writes deletes blobs copies =>
      obtain ⟨_, _, hf⟩ := bind_eq_ok.mp hf
      obtain ⟨prepared, hprepared, hf⟩ := bind_eq_ok.mp hf
      obtain ⟨_, hvalid, hf⟩ := bind_eq_ok.mp hf
      cases hf
      obtain ⟨⟨_, rest⟩, hw, h⟩ := bind_eq_ok.mp h
      cases h
      exact .made (rewriteWrite_made (validateTables_ok hvalid)
        (fun p hp => hfiles _ (prepareAll_files hprepared hp)) hw)
  | publishBlob table id bytes row file =>
      obtain ⟨blob, hblob, hf⟩ := bind_eq_ok.mp hf
      cases hf
      obtain ⟨_, hvalid, _⟩ := bind_eq_ok.mp hblob
      obtain ⟨⟨_, rest⟩, hw, h⟩ := bind_eq_ok.mp h
      cases h
      have hfile : there table blob.id := by
        rw [prepareBlob_id hblob]
        exact hfiles (table, file) (List.mem_singleton.mpr rfl)
      exact .made (publishWrite_made (validateTable_ok hvalid) hfile hw)
  | copyBlob table id copied =>
      obtain ⟨_, _, hf⟩ := bind_eq_ok.mp hf
      split at hf
      · cases hf
      obtain ⟨reference, rfl, hf⟩ := bind_eq_ok.mp hf
      cases hf
      cases h
      exact .made (.put (hfiles (table, reference.id) (List.mem_singleton.mpr rfl)) (.refl _))
  | stream table batch =>
      obtain ⟨_, _, hf⟩ := bind_eq_ok.mp hf
      obtain ⟨_, _, hf⟩ := bind_eq_ok.mp hf
      obtain ⟨_, hvalid, hf⟩ := bind_eq_ok.mp hf
      cases hf
      have hmade : Made serde there s (streamWrite serde table batch s).1 (streamWrite serde table batch s).2 :=
        streamWrite_made (validateTable_ok hvalid) batch s hfiles
      rw [Except.ok.inj h] at hmade
      exact .made hmade
  | consumer call =>
      cases hf
      obtain ⟨⟨output, rest⟩, hw, h⟩ := bind_eq_ok.mp h
      cases h
      exact .consumer call output hw
  | quiet edit =>
      cases hf
      obtain ⟨t, _, h⟩ := bind_eq_ok.mp h
      cases h
      exact .quiet t rfl rfl

/-- A committed call, in the order it did things. -/
theorem commit_ok {out : Outside} {retention : Retention} {call : Call} {s t : Store}
    (h : call.commit mgr serde out retention s = .ok t) :
    ∃ f u effects v w, call.prepare mgr serde = .ok f ∧ f s = .ok (u, effects) ∧
      record out serde effects u = .ok v ∧ pruneAcked v = .ok w ∧ enforce retention w = .ok t := by
  obtain ⟨f, hf, h⟩ := bind_eq_ok.mp h
  obtain ⟨⟨_, x⟩, hw, h⟩ := bind_eq_ok.mp h
  cases h
  obtain ⟨u, effects, v, w, hmade, hv, hprune, he⟩ := writeWithSink_ok hw
  obtain ⟨⟨u', effects'⟩, hfs, hmade⟩ := bind_eq_ok.mp hmade
  cases hmade
  exact ⟨f, u, effects, v, w, hf, hfs, hv, hprune, he⟩

end

end CloveDb.Journal
