/-
# CloveDb.Journal.Replay — the change log rebuilds the tables

Runs of the transactions, with the list of all effects they recorded. Pruning deletes the image of a
reset together with its row and no other table, so as long as the rows of the log after a state are
there, they and the images they refer to rebuild the tables from that state on.
-/
import CloveDb.Journal.Made
import Mathlib.Logic.Relation

namespace CloveDb.Journal

open CloveDb.Lib CloveDb.Fields

/-! ## Images and pruning -/

theorem snapshotOf_encode {e : ChangeKind} {row : Bytes} (h : e.encode = .ok row) :
    snapshotOf row = .ok e.snapshot := by
  have hdecode := ChangeKind.decode_encode h
  have htag : row[1]? = some e.parts.1 := by
    unfold ChangeKind.encode ChangeKind.encodeParts at h
    obtain ⟨_, _, h⟩ := bind_eq_ok.mp h
    obtain ⟨_, _, h⟩ := bind_eq_ok.mp h
    obtain ⟨_, _, h⟩ := bind_eq_ok.mp h
    cases h
    rfl
  unfold snapshotOf
  rw [htag, hdecode]
  cases e <;> rfl

/-- Taking out the row of an effect deletes the image the effect names. -/
theorem pruneRow_rows {e : ChangeKind} {row : Bytes} (he : e.encode = .ok row) {k : Nat} {s t : Store}
    (h : pruneRow s k row = .ok t) :
    t.resetGeneration = s.resetGeneration ∧
      ∀ table, e.snapshot ≠ some table → t.rows table = s.rows table := by
  unfold pruneRow at h
  split at h
  · cases h
  rw [snapshotOf_encode he, ok_bind] at h
  split at h
  · cases h
  cases h
  cases hs : e.snapshot with
  | none => exact ⟨rfl, fun _ _ => rfl⟩
  | some snapshot =>
      refine ⟨rfl, fun table hne => ?_⟩
      exact s.rows_deleteTable_ne fun heq => hne (heq ▸ rfl)

/-- The images of the retained resets are stored, each under a name of its own. -/
structure Images (hist : List Recorded) (p : Nat) (s : Store) : Prop where
  fresh : Fresh s
  stored : recorded s ((hist.drop p).map Recorded.kind) = hist.drop p
  named : ∀ r ∈ hist, ∀ snapshot, r.kind.snapshot = some snapshot →
    ∃ n, snapshot = resetName n ∧ n ≤ s.resetGeneration
  distinct : ((hist.map Recorded.kind).filterMap ChangeKind.snapshot).Nodup

theorem map_kind_recorded (s : Store) (effects : List ChangeKind) :
    (recorded s effects).map Recorded.kind = effects := by
  simp [recorded, Function.comp_def]

/-- The row of the first retained effect goes. -/
theorem Images.prune {hist : List Recorded} {p k : Nat} {s t : Store} {row : Bytes}
    {rest : List (Nat × Bytes)} (hf : Follows (hist.map Recorded.kind) p s.log)
    (hrows : s.log.changes.rows = (k, row) :: rest) (h : Images hist p s)
    (hp : pruneRow s k row = .ok t) :
    Images hist (p + 1) t ∧ ∀ table, reserved table = false → t.rows table = s.rows table := by
  -- the effect the row was made from
  obtain ⟨r, rs, hdrop⟩ : ∃ r rs, hist.drop p = r :: rs := by
    cases hd : hist.drop p with
    | nil =>
        have hlen := hf.length_rows
        rw [hrows, hf.head] at hlen
        have := congrArg List.length hd
        simp only [List.length_drop, List.length_nil, List.length_map, List.length_cons] at this hlen
        omega
    | cons r rs => exact ⟨r, rs, rfl⟩
  have hnext : hist.drop (p + 1) = rs := by
    rw [← List.drop_drop, hdrop]
    rfl
  have hrow : r.kind.encode = .ok row := by
    obtain ⟨rows, hc, hr⟩ := hf.rows
    rw [← List.map_drop, hdrop, List.map_cons] at hc
    obtain ⟨b, bs, hb, _, rfl⟩ := collect_cons_ok.mp hc
    rw [hrows] at hr
    cases hr
    exact hb
  obtain ⟨hgen, hsame⟩ := pruneRow_rows hrow hp
  have hmem : r ∈ hist := List.mem_of_mem_drop (hdrop ▸ List.mem_cons_self)
  have hother : ∀ table, reserved table = false → t.rows table = s.rows table := by
    intro table htable
    refine hsame table fun hsnap => ?_
    obtain ⟨n, hname, _⟩ := h.named r hmem table hsnap
    exact ne_resetName htable n hname
  refine ⟨⟨?_, ?_, ?_, h.distinct⟩, hother⟩
  · intro n hn
    rw [hgen] at hn
    rw [hsame _ fun hsnap => ?_]
    · exact h.fresh n hn
    · obtain ⟨n', hname, hle⟩ := h.named r hmem _ hsnap
      have := resetName_inj hname
      omega
  · -- the snapshots that stay have other names
    have hstored := h.stored
    rw [hdrop] at hstored
    have hstored := (List.cons.inj hstored).2
    rw [hnext]
    refine (recorded_congr fun e he snapshot hsnap => hsame snapshot fun hsnap' => ?_).trans hstored
    have hnodup := (((List.drop_sublist p hist).map Recorded.kind).filterMap ChangeKind.snapshot).nodup
      h.distinct
    rw [hdrop, List.map_cons, List.filterMap_cons_some hsnap', List.nodup_cons] at hnodup
    exact hnodup.1 (List.mem_filterMap.mpr ⟨e, he, hsnap⟩)
  · rw [hgen]
    exact h.named

theorem rows_eq_of_tables {s t : Store} (h : t.tables = s.tables) : t.rows = s.rows := by
  funext table
  unfold Store.rows
  rw [h]

/-- Nothing but the tables counts. -/
theorem Images.data {hist : List Recorded} {p : Nat} {s t : Store} (htables : t.tables = s.tables)
    (hgen : t.resetGeneration = s.resetGeneration) (h : Images hist p s) : Images hist p t := by
  have hrows := rows_eq_of_tables htables
  have hrecorded : ∀ es, recorded t es = recorded s es := by
    intro es
    unfold recorded
    rw [hrows]
  refine ⟨?_, ?_, ?_, h.distinct⟩
  · intro n hn
    rw [hrows]
    exact h.fresh n (hgen ▸ hn)
  · rw [hrecorded, h.stored]
  · rw [hgen]
    exact h.named

theorem record_tables {out : Outside} {serde : Serde} {effects : List ChangeKind} {s t : Store}
    (h : record out serde effects s = .ok t) :
    t.tables = s.tables ∧ t.resetGeneration = s.resetGeneration := by
  obtain ⟨_, u, hu, lastWrite, l, _, rfl⟩ := record_ok h
  obtain ⟨_, _, rfl⟩ := Unique.validate_keysOnly out serde hu
  exact ⟨rfl, rfl⟩

/-- The images and the user tables, as they are in `base`. -/
def Holds (hist : List Recorded) (base : Rows) (p : Nat) (s : Store) : Prop :=
  Images hist p s ∧ ∀ table, reserved table = false → s.rows table = base table

/-- Pruning keeps the images that are still referred to, and every user table. -/
theorem kept_images (hist : List Recorded) (base : Rows) :
    Kept (hist.map Recorded.kind) (Holds hist base) where
  row := by
    rintro p k row s t rest hf hrows ⟨himages, huser⟩ hp
    obtain ⟨himages, hsame⟩ := himages.prune hf hrows hp
    exact ⟨himages, fun table htable => (hsame table htable).trans (huser table htable)⟩
  log := by
    rintro p s l ⟨himages, huser⟩
    exact ⟨Images.data (s := s) rfl rfl himages, huser⟩

theorem Holds.record {hist : List Recorded} {base : Rows} {p : Nat} {out : Outside} {serde : Serde}
    {effects : List ChangeKind} {s t : Store} (h : Holds hist base p s)
    (hr : record out serde effects s = .ok t) : Holds hist base p t := by
  obtain ⟨htables, hgen⟩ := record_tables hr
  refine ⟨h.1.data htables hgen, ?_⟩
  rw [rows_eq_of_tables htables]
  exact h.2

/-- The images, the user tables, and a part of the store that pruning leaves alone, as they are in
`base`. -/
def HoldsWith {β : Type} (part : Store → β) (hist : List Recorded) (base : Store) (p : Nat) (s : Store) : Prop :=
  Holds hist base.rows p s ∧ part s = part base

/-- A part of the store that is neither the log nor a table of rows or images. -/
def Apart {β : Type} (part : Store → β) : Prop :=
  ∀ s log tables blobImages,
    part { s with log := log, tables := tables, blobImages := blobImages } = part s

theorem kept_with {β : Type} {part : Store → β} (hpart : Apart part) (hist : List Recorded) (base : Store) :
    Kept (hist.map Recorded.kind) (HoldsWith part hist base) where
  row := by
    rintro p k row s t rest hf hrows ⟨hholds, hsame⟩ hp
    refine ⟨(kept_images hist base.rows).row hf hrows hholds hp, ?_⟩
    obtain ⟨log, tables, images, rfl⟩ := pruneRow_only hp
    exact (hpart s log tables images).trans hsame
  log := by
    rintro p s l ⟨hholds, hsame⟩
    exact ⟨(kept_images hist base.rows).log l hholds, (hpart s l s.tables s.blobImages).trans hsame⟩

/-! ## Runs -/

theorem validateTable_ok {table : String} (h : validateTable table = .ok ()) :
    reserved table = false := by
  unfold validateTable at h
  split at h
  · cases h
  · rename_i hr
    simpa using hr

theorem validateTables_ok {tables : List String} (h : validateTables tables = .ok ()) :
    ∀ table ∈ tables, reserved table = false := by
  induction tables with
  | nil =>
      intro table hmem
      cases hmem
  | cons t rest ih =>
      obtain ⟨_, ht, h⟩ := bind_eq_ok.mp h
      intro table hmem
      rcases List.mem_cons.mp hmem with rfl | hmem
      · exact validateTable_ok ht
      · exact ih h table hmem

theorem validateTables_changes {writes : List Write} {deletes : List Del}
    (h : validateTables (writes.map Prod.fst ++ deletes.map Prod.fst) = .ok ()) :
    (∀ w ∈ writes, reserved w.1 = false) ∧ ∀ d ∈ deletes, reserved d.1 = false := by
  have hall := validateTables_ok h
  constructor
  · intro w hmem
    exact hall _ (List.mem_append_left _ (List.mem_map_of_mem hmem))
  · intro d hmem
    exact hall _ (List.mem_append_right _ (List.mem_map_of_mem hmem))

section

variable (mgr : Manager) (out : Outside) (serde : Serde)

/-- A committed transaction, with the list of all recorded effects before and after it. The last kind
stands for the other transactions of the library (constraints, the catalogue of indexes, the size
limit), which report nothing and write none of the tables here. -/
inductive Step : List Recorded × Store → List Recorded × Store → Prop
  | applyChanges {hist : List Recorded} {s t u : Store} (retention : Retention) {writes : List Write}
      {deletes : List Del} {removed : List Bool} {effects : List ChangeKind}
      (call : applyChanges mgr serde out retention writes deletes s = .ok (removed, t))
      (made : applyWrite mgr serde writes deletes s = .ok (removed, u, effects)) :
      Step (hist, s) (hist ++ recorded u effects, t)
  | replaceTable {hist : List Recorded} {s t u : Store} (retention : Retention) {table : String}
      {entries : List (String × Bytes)} {effects : List ChangeKind}
      (call : replaceTable mgr serde out retention table entries s = .ok ((), t))
      (made : replaceWrite mgr serde table entries s = .ok ((), u, effects)) :
      Step (hist, s) (hist ++ recorded u effects, t)
  | rewriteTables {hist : List Recorded} {s t u : Store} (retention : Retention) {writes : List Write}
      {deletes : List Del} {blobs : List (Write × String)}
      {copies : List (String × String × Result BlobRef)} {prepared : List (String × String × BlobRef)}
      {effects : List ChangeKind}
      (call : rewriteTablesWithBlobs mgr serde out retention writes deletes blobs copies s = .ok ((), t))
      (prepares : prepareAll mgr blobs copies = .ok prepared)
      (made : rewriteWrite mgr serde writes deletes prepared s = .ok ((), u, effects)) :
      Step (hist, s) (hist ++ recorded u effects, t)
  | publishBlob {hist : List Recorded} {s t u : Store} (retention : Retention) {table id file : String}
      {bytes : Bytes} {row : Option Bytes} {blob : BlobRef} {effects : List ChangeKind}
      (call : publishBlob mgr serde out retention table id bytes row file s = .ok ((), t))
      (prepares : prepareBlob mgr table id bytes file = .ok blob)
      (made : publishWrite serde table id blob row s = .ok ((), u, effects)) :
      Step (hist, s) (hist ++ recorded u effects, t)
  | consumer {hist : List Recorded} {s t : Store} (retention : Retention) (call : ConsumerCall)
      {output : Option ConsumerToken}
      (committed : writeWithSink out serde retention call.write s = .ok (output, t)) :
      Step (hist, s) (hist, t)
  | quiet {hist : List Recorded} {s t u : Store} (retention : Retention) {α : Type}
      (f : Store → Result (α × Store × List ChangeKind)) {output : α}
      (committed : writeWithSink out serde retention f s = .ok (output, t))
      (made : f s = .ok (output, u, [])) (log : u.log = s.log) (tables : u.tables = s.tables)
      (generation : u.resetGeneration = s.resetGeneration) : Step (hist, s) (hist, t)

variable {mgr out serde}

variable (out serde) in
/-- A transaction on `s` that wrote `u` and reported `effects` was committed as `t`. -/
def Commits (s u : Store) (effects : List ChangeKind) (t : Store) : Prop :=
  ∃ (retention : Retention) (α : Type) (f : Store → Result (α × Store × List ChangeKind)) (output : α),
    f s = .ok (output, u, effects) ∧ writeWithSink out serde retention f s = .ok (output, t)

/-- What a step is: a committed write of data that reports what it does, a call on consumers, or a
transaction that reports nothing. -/
theorem Step.kinds {x y : List Recorded × Store} (h : Step mgr out serde x y) (hs : Fresh x.2) :
    (∃ u effects, y.1 = x.1 ++ recorded u effects ∧ Emits x.2 u effects ∧ DataOnly x.2 u ∧
      Commits out serde x.2 u effects y.2) ∨
    (∃ (retention : Retention) (call : ConsumerCall) (output : Option ConsumerToken), y.1 = x.1 ∧
      writeWithSink out serde retention call.write x.2 = .ok (output, y.2)) ∨
    ∃ u, y.1 = x.1 ∧ Emits x.2 u [] ∧ Commits out serde x.2 u [] y.2 := by
  cases h with
  | applyChanges retention call made =>
      obtain ⟨_, hvalid, call⟩ := bind_eq_ok.mp call
      obtain ⟨_, _, call⟩ := bind_eq_ok.mp call
      obtain ⟨hw, hd⟩ := validateTables_changes hvalid
      exact .inl ⟨_, _, rfl, applyWrite_emits hs hw hd made, (applyWrite_made hw hd made).dataOnly,
        retention, _, _, _, made, call⟩
  | replaceTable retention call made =>
      obtain ⟨_, _, call⟩ := bind_eq_ok.mp call
      obtain ⟨_, _, call⟩ := bind_eq_ok.mp call
      obtain ⟨_, hvalid, call⟩ := bind_eq_ok.mp call
      have ht := validateTable_ok hvalid
      exact .inl ⟨_, _, rfl, replaceWrite_emits hs ht made, (replaceWrite_made ht made).dataOnly,
        retention, _, _, _, made, call⟩
  | rewriteTables retention call prepares made =>
      obtain ⟨_, _, call⟩ := bind_eq_ok.mp call
      obtain ⟨prepared, hprepared, call⟩ := bind_eq_ok.mp call
      obtain ⟨_, hvalid, call⟩ := bind_eq_ok.mp call
      rw [prepares] at hprepared
      cases hprepared
      have ht := validateTables_ok hvalid
      exact .inl ⟨_, _, rfl, rewriteWrite_emits hs ht made,
        (rewriteWrite_made ht (fun _ _ => trivial) made).dataOnly, retention, _, _, _, made, call⟩
  | publishBlob retention call prepares made =>
      obtain ⟨blob, hblob, call⟩ := bind_eq_ok.mp call
      rw [prepares] at hblob
      cases hblob
      obtain ⟨_, hvalid, _⟩ := bind_eq_ok.mp prepares
      have ht := validateTable_ok hvalid
      exact .inl ⟨_, _, rfl, publishWrite_emits hs ht made, (publishWrite_made ht trivial made).dataOnly,
        retention, _, _, _, made, call⟩
  | consumer retention call committed => exact .inr (.inl ⟨retention, call, _, rfl, committed⟩)
  | @quiet hist s t u retention α f output committed made log tables generation =>
      have hrows := rows_eq_of_tables tables
      refine .inr (.inr ⟨u, rfl, ?_, retention, α, f, output, made, committed⟩)
      refine .plain hs log generation (by simp) (fun n => by rw [hrows]) fun m table _ hm => ?_
      rw [hrows]
      exact hm

/-- Each step is a committed write that reports what it does, or one on consumers. -/
theorem Step.emits {x y : List Recorded × Store} (h : Step mgr out serde x y) (hs : Fresh x.2) :
    (∃ (retention : Retention) (α : Type) (f : Store → Result (α × Store × List ChangeKind)) (output : α)
      (u : Store) (effects : List ChangeKind), y.1 = x.1 ++ recorded u effects ∧
        f x.2 = .ok (output, u, effects) ∧ Emits x.2 u effects ∧
        writeWithSink out serde retention f x.2 = .ok (output, y.2)) ∨
    ∃ (retention : Retention) (call : ConsumerCall) (output : Option ConsumerToken), y.1 = x.1 ∧
      writeWithSink out serde retention call.write x.2 = .ok (output, y.2) := by
  rcases h.kinds hs with ⟨u, effects, heq, he, -, retention, α, f, output, made, committed⟩ | hconsumer |
    ⟨u, heq, he, retention, α, f, output, made, committed⟩
  · exact .inl ⟨retention, α, f, output, u, effects, heq, made, he, committed⟩
  · exact .inr hconsumer
  · exact .inl ⟨retention, α, f, output, u, [], heq.trans (List.append_nil _).symm, made, he, committed⟩

/-- The log and the images of a database belong to the recorded effects. -/
def Sound (x : List Recorded × Store) : Prop :=
  ∃ p, Follows (x.1.map Recorded.kind) p x.2.log ∧ Images x.1 p x.2

/-- The new effects of a write join the images that are kept. -/
theorem Images.append {hist : List Recorded} {p : Nat} {s u : Store} {effects : List ChangeKind}
    (h : Images hist p s) (hp : p ≤ hist.length) (he : Emits s u effects) :
    Images (hist ++ recorded u effects) p u where
  fresh := he.fresh
  stored := by
    rw [List.drop_append_of_le_length hp, List.map_append, recorded_append, map_kind_recorded]
    congr 1
    refine (recorded_congr fun e hmem snapshot hsnap => ?_).trans h.stored
    obtain ⟨r, hr, rfl⟩ := List.mem_map.mp hmem
    obtain ⟨n, rfl, hn⟩ := h.named r (List.mem_of_mem_drop hr) snapshot hsnap
    exact he.old n hn
  named := by
    intro r hr snapshot hsnap
    rcases List.mem_append.mp hr with hr | hr
    · obtain ⟨n, hname, hn⟩ := h.named r hr snapshot hsnap
      exact ⟨n, hname, hn.trans he.generation⟩
    · obtain ⟨e, hmem, rfl⟩ := List.mem_map.mp hr
      obtain ⟨n, hname, _, hn⟩ := he.named e hmem snapshot hsnap
      exact ⟨n, hname, hn⟩
  distinct := by
    rw [List.map_append, map_kind_recorded, List.filterMap_append, List.nodup_append]
    refine ⟨h.distinct, he.distinct, ?_⟩
    rintro a ha b hb rfl
    obtain ⟨e, hmem, hsnap⟩ := List.mem_filterMap.mp ha
    obtain ⟨r, hr, rfl⟩ := List.mem_map.mp hmem
    obtain ⟨e', hmem', hsnap'⟩ := List.mem_filterMap.mp hb
    obtain ⟨n, hname, hn⟩ := h.named r hr a hsnap
    obtain ⟨n', hname', hn', _⟩ := he.named e' hmem' a hsnap'
    have := resetName_inj (hname.symm.trans hname')
    omega

/-- One transaction: its effects rebuild the user tables. -/
theorem step_replays {x y : List Recorded × Store} (h : Step mgr out serde x y) (hx : Sound x) :
    Sound y ∧ ∃ es, y.1 = x.1 ++ es ∧
      ∀ table, reserved table = false → replay es x.2.rows table = y.2.rows table := by
  obtain ⟨hist, s⟩ := x
  obtain ⟨hist', t⟩ := y
  obtain ⟨p, hf, hi⟩ := hx
  rcases h.emits hi.fresh with ⟨retention, α, f, output, u, effects, rfl, made, he, committed⟩ |
    ⟨retention, call, output, rfl, committed⟩
  · have hkeeps := kept_images (hist ++ recorded u effects) u.rows
    have hkinds : (hist ++ recorded u effects).map Recorded.kind
        = hist.map Recorded.kind ++ effects := by rw [List.map_append, map_kind_recorded]
    rw [hkinds] at hkeeps
    have hp : p ≤ hist.length := by simpa using hf.pruned
    obtain ⟨⟨p', hf', hi', huser⟩, -⟩ := writeWithSink_follows hkeeps made (he.log ▸ hf)
      (fun v hv => Holds.record ⟨hi.append hp he, fun _ _ => rfl⟩ hv) committed
    refine ⟨⟨p', hkinds ▸ hf', hi'⟩, _, rfl, fun table htable => ?_⟩
    rw [he.user s.rows table htable (.inl rfl)]
    exact (huser table htable).symm
  · obtain ⟨p', hf', hi', huser⟩ := consumerCall_follows (kept_images hist' s.rows) hf
      ⟨hi, fun _ _ => rfl⟩ (fun _ hu _ hv => hu.record hv) committed
    exact ⟨⟨p', hf', hi'⟩, [], (List.append_nil _).symm, fun table htable => (huser table htable).symm⟩

/-- A database that gets its log: it has user tables only. -/
theorem sound_start (uuid : Bytes) {s : Store}
    (h : ∀ name, reserved name = true → s.rows name = .empty) : Sound ([], initializeLog uuid s) :=
  ⟨0, follows_initial uuid s, fun n _ => h _ (reserved_resetName n), rfl,
    fun _ hr => absurd hr List.not_mem_nil, List.nodup_nil⟩

open Relation in
/-- Any number of transactions. -/
theorem run_replays {x y : List Recorded × Store} (h : ReflTransGen (Step mgr out serde) x y)
    (hx : Sound x) :
    Sound y ∧ ∃ es, y.1 = x.1 ++ es ∧
      ∀ table, reserved table = false → replay es x.2.rows table = y.2.rows table := by
  induction h with
  | refl => exact ⟨hx, [], (List.append_nil _).symm, fun _ _ => rfl⟩
  | tail _ hstep ih =>
      obtain ⟨hsound, es, heq, hreplay⟩ := ih
      obtain ⟨hsound', es', heq', hreplay'⟩ := step_replays hstep hsound
      refine ⟨hsound', es ++ es', by rw [heq', heq, List.append_assoc], fun table htable => ?_⟩
      rw [replay_append, replay_congr es' (hreplay table htable)]
      exact hreplay' table htable

/-- While a row above each position from `after` on is there, the stored rows and images are the
effects after `after`. -/
theorem Sound.stored {x : List Recorded × Store} (h : Sound x) {after : Nat}
    (hafter : after ≤ x.2.log.head)
    (hkept : ∀ n, after < n → n ≤ x.2.log.head → (x.2.log.changes.get n).isSome) :
    ∃ changes, decodeRows (x.2.log.after after) = .ok changes ∧
      recorded x.2 (changes.map Change.kind) = x.1.drop after := by
  obtain ⟨p, hf, hi⟩ := h
  -- nothing after this position is pruned
  have hp : p ≤ after := by
    by_contra hlt
    have hpruned := hf.head ▸ hf.pruned
    obtain ⟨row, hrow⟩ := Option.isSome_iff_exists.mp (hkept (after + 1) (by omega) (by omega))
    obtain ⟨rows, _, hr⟩ := hf.rows
    have hmem := (x.2.log.changes.mem_rows_iff _ _).mpr hrow
    rw [hr] at hmem
    have := (numbered_bounds hmem).1
    omega
  obtain ⟨rows, hc, hr⟩ := hf.after hp
  refine ⟨_, hr ▸ decodeRows_encoded hc (after + 1), ?_⟩
  have hkinds : ∀ n (kinds : List ChangeKind), (changesFrom n kinds).map Change.kind = kinds := by
    intro n kinds
    induction kinds generalizing n with
    | nil => rfl
    | cons k kinds ih => exact congrArg (k :: ·) (ih (n + 1))
  have hdrop := congrArg (List.drop (after - p)) hi.stored
  rw [List.drop_drop, Nat.add_sub_cancel' hp] at hdrop
  rw [hkinds, ← hdrop, recorded, recorded, ← List.map_drop, ← List.map_drop, ← List.map_drop,
    List.drop_drop, Nat.add_sub_cancel' hp]

open Relation in
/-- **Replaying the change log rebuilds the tables.** Between any two states of a run, folding the
effects recorded after the head of the earlier one over its rows gives the rows of every user table
of the later one, where a reset replaces the table by the rows its snapshot was made with. While the
log still has the rows after that head, they and the snapshots stored in the later database are
these effects. -/
theorem replay_rebuilds_tables {uuid : Bytes} {s : Store}
    (hs : ∀ name, reserved name = true → s.rows name = .empty) {a b : List Recorded × Store}
    (ha : ReflTransGen (Step mgr out serde) ([], initializeLog uuid s) a)
    (hb : ReflTransGen (Step mgr out serde) a b) {table : String} (ht : reserved table = false) :
    replay (b.1.drop a.2.log.head) a.2.rows table = b.2.rows table ∧
      ((∀ n, a.2.log.head < n → n ≤ b.2.log.head → (b.2.log.changes.get n).isSome) →
        ∃ changes, decodeRows (b.2.log.after a.2.log.head) = .ok changes ∧
          replay (recorded b.2 (changes.map Change.kind)) a.2.rows table = b.2.rows table) := by
  obtain ⟨hsa, -⟩ := run_replays ha (sound_start uuid hs)
  obtain ⟨hsb, es, heq, hreplay⟩ := run_replays hb hsa
  have hhead : a.2.log.head = a.1.length := by
    obtain ⟨p, hf, _⟩ := hsa
    simpa using hf.head
  have hdrop : b.1.drop a.2.log.head = es := by rw [heq, hhead, List.drop_left]
  refine ⟨hdrop ▸ hreplay table ht, fun hkept => ?_⟩
  have hle : a.2.log.head ≤ b.2.log.head := by
    obtain ⟨p, hf, _⟩ := hsb
    have hb := hf.head
    rw [heq, List.length_map, List.length_append] at hb
    omega
  obtain ⟨changes, hdecode, hstored⟩ := hsb.stored hle hkept
  exact ⟨changes, hdecode, by rw [hstored, hdrop]; exact hreplay table ht⟩

end

/-- A manager without attachments. -/
def sampleManager : Manager :=
  ⟨fun _ => false, false, [], fun _ _ _ => .ok 0, fun _ _ _ _ => .ok ()⟩

/-- A batch that writes one key twice, and another one it also deletes. -/
def sampleWrites : List Write := [("notes", "a", [1]), ("notes", "a", [2]), ("notes", "b", [3])]

def sampleApplied : Store :=
  committedTo sampleRegistered (applyChanges sampleManager .simple (.listed []) .unlimited
    sampleWrites [("notes", "b")] sampleRegistered)

/-- Then the table is replaced. -/
def sampleReplaced : Store :=
  committedTo sampleApplied
    (replaceTable sampleManager .simple (.listed []) .unlimited "notes" [("c", [4])] sampleApplied)

theorem sampleReplaced_replays :
    ∃ changes, decodeRows (sampleReplaced.log.after 0) = .ok changes ∧ changes.length = 5 ∧
      replay (recorded sampleReplaced (changes.map Change.kind)) sampleStore.rows "notes"
        = sampleReplaced.rows "notes" := by
  have registered : writeWithSink (.listed []) .simple .default
      (ConsumerCall.register "c" false).write sampleStore = .ok (some sampleToken, sampleRegistered) := rfl
  have applied : applyChanges sampleManager .simple (.listed []) .unlimited sampleWrites
      [("notes", "b")] sampleRegistered = .ok ([true], sampleApplied) := rfl
  have replaced : replaceTable sampleManager .simple (.listed []) .unlimited "notes" [("c", [4])]
      sampleApplied = .ok ((), sampleReplaced) := rfl
  obtain ⟨u, effects, made⟩ : ∃ u effects, applyWrite sampleManager .simple sampleWrites
      [("notes", "b")] sampleRegistered = .ok ([true], u, effects) := ⟨_, _, rfl⟩
  obtain ⟨v, reset, made'⟩ : ∃ v reset, replaceWrite sampleManager .simple "notes" [("c", [4])]
      sampleApplied = .ok ((), v, reset) := ⟨_, _, rfl⟩
  have first : Step sampleManager (.listed []) .simple ([], sampleStore) ([], sampleRegistered) :=
    .consumer .default _ registered
  have run := ((Relation.ReflTransGen.single first).tail (.applyChanges .unlimited applied made)).tail
    (.replaceTable .unlimited replaced made')
  have hkept : ∀ n, n < 6 → 0 < n → (sampleReplaced.log.changes.get n).isSome := by decide
  obtain ⟨-, hstored⟩ := replay_rebuilds_tables (s := sampleStore) (fun _ _ => rfl) .refl run
    (by decide : reserved "notes" = false)
  obtain ⟨changes, hdecode, hreplay⟩ := hstored fun n hlow hhigh => hkept n (Nat.lt_succ_of_le hhigh) hlow
  exact ⟨changes, hdecode, by cases hdecode; rfl, hreplay⟩

end CloveDb.Journal
