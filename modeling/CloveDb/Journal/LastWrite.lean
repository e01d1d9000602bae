/-
# CloveDb.Journal.LastWrite — the number of a row's last change

`lastwrite.rs` keeps, for each row, the sequence number of the effect that wrote it last. A transaction
sets the numbers before its effects are appended, from the head they will be appended to; a reset gives
its own number to every row the table has when the transaction ends. What counts for a row is the last
effect of the transaction that is about it: after that one neither the row nor its number changes.
-/
import CloveDb.Journal.Replay

namespace CloveDb.Journal

open CloveDb.Lib CloveDb.Fields

variable {out : Outside} {serde : Serde} {table row : String}

/-! ## Effects on one row -/

/-- What an effect makes of a row: nothing said, or the bytes it has then, if it is there. -/
def Recorded.outcome (table row : String) (r : Recorded) : Option (Option Bytes) :=
  match r.kind with
  | .upsert t key value => if t = table ∧ key = row then some (some value) else none
  | .delete t key => if t = table ∧ key = row then some none else none
  | .tableReset t _ => if t = table then some (r.image.get row) else none
  | _ => none

theorem apply_get (r : Recorded) (m : Rows) :
    (r.apply m table).get row = (r.outcome table row).getD ((m table).get row) := by
  unfold Recorded.apply Recorded.outcome
  cases r.kind with
  | upsert t key value =>
      by_cases ht : t = table
      · subst ht
        by_cases hk : key = row
        · simp [hk]
        · simp [hk, Table.get_insert_ne _ _ (Ne.symm hk)]
      · simp [ht, Ne.symm ht]
  | delete t key =>
      by_cases ht : t = table
      · subst ht
        by_cases hk : key = row
        · simp [hk]
        · simp [hk, Table.get_remove_ne _ (Ne.symm hk)]
      · simp [ht, Ne.symm ht]
  | tableReset t snapshot =>
      by_cases ht : t = table
      · simp [ht]
      · simp [ht, Ne.symm ht]
  | blobPut t key blob size => rfl
  | blobDelete t key blob size => rfl

/-- Either no effect is about a row, or one is the last. -/
theorem last_outcome (table row : String) (es : List Recorded) :
    (∀ r ∈ es, r.outcome table row = none) ∨
      ∃ before r after o, es = before ++ r :: after ∧ r.outcome table row = some o ∧
        ∀ r ∈ after, r.outcome table row = none := by
  induction es with
  | nil => exact .inl fun r hr => absurd hr List.not_mem_nil
  | cons e es ih =>
      rcases ih with hnone | ⟨before, r, after, o, rfl, ho, hafter⟩
      · cases he : e.outcome table row with
        | none =>
            refine .inl fun r hr => ?_
            rcases List.mem_cons.mp hr with rfl | hr
            · exact he
            · exact hnone r hr
        | some o => exact .inr ⟨[], e, es, o, rfl, he, hnone⟩
      · exact .inr ⟨e :: before, r, after, o, rfl, ho, hafter⟩

theorem replay_untouched {es : List Recorded} (h : ∀ r ∈ es, r.outcome table row = none) (m : Rows) :
    (replay es m table).get row = (m table).get row := by
  induction es generalizing m with
  | nil => rfl
  | cons e es ih =>
      refine (ih (fun r hr => h r (List.mem_cons_of_mem _ hr)) _).trans ?_
      rw [apply_get, h e List.mem_cons_self]
      rfl

/-- The last effect on a row decides it. -/
theorem replay_last {before after : List Recorded} {r : Recorded} {o : Option Bytes}
    (ho : r.outcome table row = some o) (hafter : ∀ r ∈ after, r.outcome table row = none) (m : Rows) :
    (replay (before ++ r :: after) m table).get row = o := by
  have happly : replay (before ++ r :: after) m = replay after (r.apply (replay before m)) := by
    rw [replay_append]
    rfl
  rw [happly, replay_untouched hafter, apply_get, ho]
  rfl

/-! ## The stored numbers -/

theorem get_foldl_pairs (table row : String) (t : String) (keys : List String) (seq : Nat) (numbers : Table String Nat) :
    (keys.foldl (fun n k => n.insert (serde.pair t k) seq) numbers).get (serde.pair table row)
      = if t = table ∧ row ∈ keys then some seq else numbers.get (serde.pair table row) := by
  induction keys generalizing numbers with
  | nil => simp
  | cons k keys ih =>
      rw [List.foldl_cons, ih, Table.get_insert]
      by_cases hpair : serde.pair table row = serde.pair t k
      · obtain ⟨rfl, rfl⟩ := serde.pair_inj hpair
        simp
      · have hne : ¬(t = table ∧ row = k) := by
          rintro ⟨rfl, rfl⟩
          exact hpair rfl
        rw [if_neg hpair]
        by_cases ht : t = table
        · have hk : row ≠ k := fun hk => hne ⟨ht, hk⟩
          simp [ht, hk]
        · simp [ht]

theorem filter_const {α : Type} (o : Option α) (b : Bool) : (o.filter fun _ => b) = if b then o else none := by
  cases o <;> cases b <;> rfl

/-- An effect about other rows leaves a number alone. -/
theorem applyLastWrite_other {r : Recorded} (h : r.outcome table row = none) (s : Store) (seq : Nat) :
    (applyLastWrite serde s seq r.kind).lastWrite.get (serde.pair table row)
      = s.lastWrite.get (serde.pair table row) := by
  unfold Recorded.outcome at h
  unfold applyLastWrite
  cases hk : r.kind with
  | upsert t key value =>
      rw [hk] at h
      refine Table.get_insert_ne _ _ fun hpair => ?_
      obtain ⟨rfl, rfl⟩ := serde.pair_inj hpair
      simp at h
  | delete t key =>
      rw [hk] at h
      refine Table.get_remove_ne _ fun hpair => ?_
      obtain ⟨rfl, rfl⟩ := serde.pair_inj hpair
      simp at h
  | tableReset t snapshot =>
      rw [hk] at h
      have ht : t ≠ table := by
        rintro rfl
        simp at h
      dsimp only
      rw [get_foldl_pairs, if_neg (fun hand => ht hand.1), Table.get_retain]
      simp only [serde.unpair_pair]
      rw [filter_const, if_pos (by simpa using ht.symm)]
  | blobPut t key blob size => rfl
  | blobDelete t key blob size => rfl

/-- An effect about a row that leaves it as it is in the end sets its number. -/
theorem applyLastWrite_own {r : Recorded} {o : Option Bytes} (ho : r.outcome table row = some o) {s : Store}
    (hend : (s.rows table).get row = o) (seq : Nat) :
    (applyLastWrite serde s seq r.kind).lastWrite.get (serde.pair table row) = o.map fun _ => seq := by
  unfold Recorded.outcome at ho
  unfold applyLastWrite
  cases hk : r.kind with
  | upsert t key value =>
      rw [hk] at ho
      dsimp only at ho
      split at ho
      · rename_i heq
        obtain ⟨rfl, rfl⟩ := heq
        cases ho
        exact Table.get_insert_self _ _ _
      · cases ho
  | delete t key =>
      rw [hk] at ho
      dsimp only at ho
      split at ho
      · rename_i heq
        obtain ⟨rfl, rfl⟩ := heq
        cases ho
        exact Table.get_remove_self _ _
      · cases ho
  | tableReset t snapshot =>
      rw [hk] at ho
      dsimp only at ho
      split at ho
      · rename_i heq
        subst heq
        dsimp only
        rw [get_foldl_pairs, Table.get_retain]
        have hmem : row ∈ (s.rows t).keys ↔ o.isSome := by
          rw [Table.mem_keys_iff, hend]
          exact Option.isSome_iff_exists.symm
        simp only [serde.unpair_pair, filter_const, hmem]
        cases o <;> simp
      · cases ho
  | blobPut t key blob size =>
      rw [hk] at ho
      cases ho
  | blobDelete t key blob size =>
      rw [hk] at ho
      cases ho

theorem applyLastWrites_append {es es' : List ChangeKind} {seq : Nat} {s t : Store}
    (h : applyLastWrites serde seq (es ++ es') s = .ok t) :
    ∃ u, applyLastWrites serde seq es s = .ok u ∧ applyLastWrites serde (seq + es.length) es' u = .ok t := by
  induction es generalizing seq s with
  | nil => exact ⟨s, rfl, h⟩
  | cons e es ih =>
      obtain ⟨next, hnext, h⟩ := bind_eq_ok.mp h
      obtain ⟨u, hu, h⟩ := ih h
      refine ⟨u, bind_eq_ok.mpr ⟨next, hnext, hu⟩, ?_⟩
      rw [checkedAdd_ok hnext] at h
      rw [List.length_cons, Nat.add_comm es.length, ← Nat.add_assoc]
      exact h

theorem applyLastWrites_untouched {es : List Recorded} (hes : ∀ r ∈ es, r.outcome table row = none) {seq : Nat}
    {s t : Store} (h : applyLastWrites serde seq (es.map Recorded.kind) s = .ok t) :
    t.lastWrite.get (serde.pair table row) = s.lastWrite.get (serde.pair table row) := by
  induction es generalizing seq s with
  | nil =>
      cases h
      rfl
  | cons e es ih =>
      obtain ⟨next, hnext, h⟩ := bind_eq_ok.mp h
      rw [ih (fun r hr => hes r (List.mem_cons_of_mem _ hr)) h]
      exact applyLastWrite_other (hes e List.mem_cons_self) s next

/-- The number of a row after a transaction is that of the last effect on it. -/
theorem applyLastWrites_last {before after : List Recorded} {r : Recorded} {o : Option Bytes}
    (ho : r.outcome table row = some o) (hafter : ∀ r ∈ after, r.outcome table row = none) {seq : Nat}
    {s t : Store} (hend : (s.rows table).get row = o)
    (h : applyLastWrites serde seq ((before ++ r :: after).map Recorded.kind) s = .ok t) :
    t.lastWrite.get (serde.pair table row) = o.map fun _ => seq + before.length + 1 := by
  rw [List.map_append, List.map_cons] at h
  obtain ⟨u, hu, h⟩ := applyLastWrites_append h
  obtain ⟨next, hnext, h⟩ := bind_eq_ok.mp h
  have hrows : u.rows = s.rows := by
    obtain ⟨_, rfl⟩ := applyLastWrites_only hu
    rfl
  rw [applyLastWrites_untouched hafter h, applyLastWrite_own ho (hrows ▸ hend) next, checkedAdd_ok hnext,
    List.length_map]

/-! ## The last write in the log -/

/-- An effect that writes a row: an upsert of it, or a reset of its table. -/
def ChangeKind.writes (table row : String) : ChangeKind → Bool
  | .upsert t key _ => t = table && key = row
  | .tableReset t _ => t = table
  | _ => false

/-- The number of the last effect that wrote a row, where effects are numbered from one. -/
def lastWritten (hist : List ChangeKind) (table row : String) : Option Nat :=
  ((numbered 1 hist).filter fun e => e.2.writes table row).getLast?.map Prod.fst

theorem writes_eq_false_of_outcome {r : Recorded} (h : r.outcome table row = none) :
    r.kind.writes table row = false := by
  unfold Recorded.outcome at h
  unfold ChangeKind.writes
  cases hk : r.kind <;> rw [hk] at h <;> simp_all

theorem writes_of_outcome {r : Recorded} {value : Bytes} (h : r.outcome table row = some (some value)) :
    r.kind.writes table row = true := by
  unfold Recorded.outcome at h
  unfold ChangeKind.writes
  cases hk : r.kind <;> rw [hk] at h <;> simp_all

/-- Effects that do not write the row are passed over. -/
theorem filter_writes_untouched {es : List Recorded} (h : ∀ r ∈ es, r.outcome table row = none) (n : Nat) :
    ((numbered n (es.map Recorded.kind)).filter fun e => e.2.writes table row) = [] := by
  induction es generalizing n with
  | nil => rfl
  | cons e es ih =>
      have he := writes_eq_false_of_outcome (h e List.mem_cons_self)
      rw [List.map_cons, numbered, List.filter_cons_of_neg (by simp [he])]
      exact ih (fun r hr => h r (List.mem_cons_of_mem _ hr)) (n + 1)

theorem lastWritten_untouched (hist : List ChangeKind) {es : List Recorded}
    (h : ∀ r ∈ es, r.outcome table row = none) :
    lastWritten (hist ++ es.map Recorded.kind) table row = lastWritten hist table row := by
  unfold lastWritten
  rw [numbered_append, List.filter_append, filter_writes_untouched h, List.append_nil]

theorem lastWritten_last (hist : List ChangeKind) {before after : List Recorded} {r : Recorded} {value : Bytes}
    (ho : r.outcome table row = some (some value)) (hafter : ∀ r ∈ after, r.outcome table row = none) :
    lastWritten (hist ++ (before ++ r :: after).map Recorded.kind) table row
      = some (hist.length + before.length + 1) := by
  unfold lastWritten
  have hcons : (numbered (1 + (hist ++ before.map Recorded.kind).length) ((r :: after).map Recorded.kind)).filter
      (fun e => e.2.writes table row) = [(1 + (hist ++ before.map Recorded.kind).length, r.kind)] := by
    rw [List.map_cons, numbered]
    simp only [List.filter_cons, writes_of_outcome ho, if_true, filter_writes_untouched hafter]
  rw [List.map_append, ← List.append_assoc, numbered_append, List.filter_append, hcons, List.getLast?_append]
  simp only [List.getLast?_singleton, Option.some_or, Option.map_some, List.length_append, List.length_map]
  congr 1
  omega

/-! ## Runs -/

/-- Every number is that of the last write of its row, and rows that are not there have none. -/
def LastWrites (serde : Serde) (hist : List ChangeKind) (s : Store) : Prop :=
  ∀ table row, reserved table = false → s.lastWrite.get (serde.pair table row)
    = if ((s.rows table).get row).isSome then lastWritten hist table row else none

theorem LastWrites.congr {hist : List ChangeKind} {s t : Store} (h : LastWrites serde hist s)
    (hnumbers : t.lastWrite = s.lastWrite) (hrows : ∀ table, reserved table = false → t.rows table = s.rows table) :
    LastWrites serde hist t := by
  intro table row htable
  rw [hnumbers, hrows table htable]
  exact h table row htable

/-- The numbers of a transaction that reports what it does, counted on from the head. -/
theorem LastWrites.write {hist : List ChangeKind} {s u w v : Store} {effects : List ChangeKind}
    (h : LastWrites serde hist s) (he : Emits s u effects) (hu : u.lastWrite = s.lastWrite)
    (hw : w.lastWrite = u.lastWrite) (hrows : w.rows = u.rows)
    (hv : applyLastWrites serde hist.length effects w = .ok v) : LastWrites serde (hist ++ effects) v := by
  have hvrows : v.rows = u.rows := by
    obtain ⟨_, rfl⟩ := applyLastWrites_only hv
    exact hrows
  intro table row htable
  have hend : replay (recorded u effects) s.rows table = u.rows table := he.user s.rows table htable (.inl rfl)
  rw [← map_kind_recorded u effects] at hv ⊢
  rw [hvrows]
  rcases last_outcome table row (recorded u effects) with hnone | ⟨before, r, after, o, heq, ho, hafter⟩
  · rw [applyLastWrites_untouched hnone hv, hw, hu, h table row htable, lastWritten_untouched hist hnone, ← hend,
      replay_untouched hnone]
  · have hfinal : (u.rows table).get row = o := by
      rw [← hend, heq]
      exact replay_last ho hafter _
    rw [heq] at hv ⊢
    rw [applyLastWrites_last ho hafter (hrows ▸ hfinal) hv, hfinal]
    cases o with
    | none => rfl
    | some value =>
        rw [lastWritten_last hist ho hafter]
        rfl

theorem apart_lastWrite : Apart Store.lastWrite := fun _ _ _ _ => rfl

/-- What recording a transaction does to the numbers. -/
theorem record_lastWrites {effects : List ChangeKind} {u v : Store} (h : record out serde effects u = .ok v) :
    ∃ w w', w.lastWrite = u.lastWrite ∧ w.rows = u.rows ∧ applyLastWrites serde u.log.head effects w = .ok w' ∧
      v.lastWrite = w'.lastWrite ∧ v.rows = w'.rows := by
  obtain ⟨_, _, h⟩ := bind_eq_ok.mp h
  obtain ⟨w, hw, h⟩ := bind_eq_ok.mp h
  obtain ⟨w', hw', h⟩ := bind_eq_ok.mp h
  obtain ⟨l, _, h⟩ := bind_eq_ok.mp h
  cases h
  obtain ⟨keys, rows, rfl⟩ := Unique.validate_keysOnly out serde hw
  exact ⟨{ u with uniqueKeys := keys, uniqueRows := rows }, w', rfl, rfl, hw', rfl, rfl⟩

/-- A committed write that reports what it does leaves exact numbers. -/
theorem Commits.lastWrites {hist : List Recorded} {s u t : Store} {effects : List ChangeKind}
    (hx : Sound (hist, s)) (he : Emits s u effects) (hu : u.lastWrite = s.lastWrite)
    (hc : Commits out serde s u effects t) (h : LastWrites serde (hist.map Recorded.kind) s) :
    LastWrites serde (hist.map Recorded.kind ++ effects) t := by
  obtain ⟨p, hf, himages⟩ := hx
  obtain ⟨retention, α, f, output, made, committed⟩ := hc
  obtain ⟨u', effects', v, _, made', hrecord, _⟩ := writeWithSink_ok committed
  rw [made] at made'
  cases made'
  have hkeeps := kept_with apart_lastWrite (hist ++ recorded u effects) v
  rw [List.map_append, map_kind_recorded] at hkeeps
  have hp : p ≤ hist.length := by simpa using hf.pruned
  have hvrows : v.rows = u.rows := rows_eq_of_tables (record_tables hrecord).1
  have hholds : Holds (hist ++ recorded u effects) v.rows p v :=
    Holds.record ⟨himages.append hp he, fun _ _ => by rw [hvrows]⟩ hrecord
  obtain ⟨⟨_, _, hall⟩, -⟩ := writeWithSink_follows hkeeps made (he.log ▸ hf)
    (fun v' hv' => by
      rw [hrecord] at hv'
      cases hv'
      exact ⟨hholds, rfl⟩) committed
  obtain ⟨w, w', hw, hrows, happly, hnumbers, hrows'⟩ := record_lastWrites hrecord
  have hhead : u.log.head = (hist.map Recorded.kind).length := by
    rw [he.log]
    exact hf.head
  rw [hhead] at happly
  have hv := (h.write he hu hw hrows happly).congr hnumbers fun _ _ => by rw [hrows']
  exact hv.congr hall.2 hall.1.2

section

variable (mgr : Manager) (out : Outside) (serde : Serde)

/-- A committed transaction; one that reports nothing does not write the numbers. -/
def NumberedStep (x y : List Recorded × Store) : Prop :=
  Step mgr out serde x y ∧ (y.1 = x.1 → y.2.lastWrite = x.2.lastWrite)

end

variable {mgr : Manager}

theorem NumberedStep.lastWrites {x y : List Recorded × Store} (h : NumberedStep mgr out serde x y) (hx : Sound x)
    (hnumbers : LastWrites serde (x.1.map Recorded.kind) x.2) : LastWrites serde (y.1.map Recorded.kind) y.2 := by
  obtain ⟨hstep, hsilent⟩ := h
  -- nothing is written by a transaction without effects
  have hquiet : y.1 = x.1 → LastWrites serde (y.1.map Recorded.kind) y.2 := by
    intro heq
    obtain ⟨_, es, hes, hrows⟩ := step_replays hstep hx
    have hnone : es = [] := List.self_eq_append_right.mp (heq.symm.trans hes)
    subst hnone
    rw [heq]
    exact hnumbers.congr (hsilent heq) fun table htable => (hrows table htable).symm
  obtain ⟨hist, s⟩ := x
  obtain ⟨p, hf, himages⟩ := hx
  rcases hstep.kinds himages.fresh with ⟨u, effects, heq, he, hdata, hc⟩ | ⟨_, _, _, heq, _⟩ | ⟨_, heq, _⟩
  · have hu : u.lastWrite = s.lastWrite := by
      obtain ⟨_, _, _, _, rfl⟩ := hdata
      rfl
    rw [heq, List.map_append, map_kind_recorded]
    exact Commits.lastWrites ⟨p, hf, himages⟩ he hu hc hnumbers
  · exact hquiet heq
  · exact hquiet heq

open Relation in
/-- Any number of transactions, from a new log on. -/
theorem numberedRun_lastWrites {uuid : Bytes} {s : Store}
    (hs : ∀ name, reserved name = true → s.rows name = .empty) (hempty : s.lastWrite = .empty)
    {y : List Recorded × Store} (h : ReflTransGen (NumberedStep mgr out serde) ([], initializeLog uuid s) y) :
    Sound y ∧ LastWrites serde (y.1.map Recorded.kind) y.2 ∧
      ∀ table, reserved table = false → replay y.1 s.rows table = y.2.rows table := by
  induction h with
  | refl =>
      refine ⟨sound_start uuid hs, fun table row _ => ?_, fun _ _ => rfl⟩
      change s.lastWrite.get _ = _
      rw [hempty]
      split <;> rfl
  | @tail x y _ hstep ih =>
      obtain ⟨hsound, hnumbers, hrows⟩ := ih
      obtain ⟨hsound', es, heq, hreplay⟩ := step_replays hstep.1 hsound
      refine ⟨hsound', hstep.lastWrites hsound hnumbers, fun table htable => ?_⟩
      rw [heq, replay_append, replay_congr es (hrows table htable)]
      exact hreplay table htable

theorem mem_numbered {α : Type} {n k : Nat} {as : List α} {a : α} (h : (k, a) ∈ numbered n as) :
    ∃ i, as[i]? = some a ∧ k = n + i := by
  induction as generalizing n with
  | nil => cases h
  | cons b as ih =>
      rcases List.mem_cons.mp h with heq | h
      · cases heq
        exact ⟨0, rfl, rfl⟩
      · obtain ⟨i, hi, hk⟩ := ih h
        exact ⟨i + 1, hi, by omega⟩

/-- The row of the log under a number is the effect with that number. -/
theorem Follows.row_at {hist : List ChangeKind} {p : Nat} {l : Log} (h : Follows hist p l) {n : Nat} {bytes : Bytes}
    (hget : l.changes.get (n + 1) = some bytes) : ∃ e, hist[n]? = some e ∧ e.encode = .ok bytes := by
  obtain ⟨rows, hc, hr⟩ := h.rows
  have hmem : (n + 1, bytes) ∈ numbered (p + 1) rows := hr ▸ (l.changes.mem_rows_iff _ _).mpr hget
  obtain ⟨i, hi, hn⟩ := mem_numbered hmem
  obtain ⟨e, he, hencode⟩ := getElem?_collect hc hi
  rw [List.getElem?_drop] at he
  have hindex : p + i = n := by omega
  exact ⟨e, hindex ▸ he, hencode⟩

end CloveDb.Journal
