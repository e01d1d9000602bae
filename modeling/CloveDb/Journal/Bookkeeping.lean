/-
# CloveDb.Journal.Bookkeeping — the counters and tables of the change log agree

Over any list of calls, after every commit: the numbers of the rows are those from `floor` to `head`,
`journal_bytes` is their size, and the tables `__reset_N` and `__reset_N_blobs` are the ones the
retained resets name. Numbers are given once, in order, and pruning never fails.

The invariant `Booked kinds p s` carries the list of retained effects. A write adds its effects at the
end and makes the snapshots they name (`Booked.record`); pruning takes effects from the front together
with their snapshots, which no other retained effect names (`Booked.prune`).

`floor` is computed with a saturating addition, so an empty log whose head is the last number of a
`u64` has `floor = head` and not `head + 1`.
-/
import CloveDb.Journal.Calls

namespace CloveDb.Journal

open CloveDb.Lib CloveDb.Fields

/-! ## Numbers -/

theorem keys_numbered {α : Type} (n : Nat) (as : List α) :
    (numbered n as).map Prod.fst = List.range' n as.length := by
  induction as generalizing n with
  | nil => rfl
  | cons a as ih =>
      rw [numbered, List.map_cons, ih, List.length_cons, List.range'_succ]

namespace Log.Counted

variable {kinds : List ChangeKind} {p : Nat} {l : Log}

theorem keys (h : l.Counted kinds p) : l.changes.keys = List.range' (p + 1) kinds.length := by
  obtain ⟨rows, hrows, hnum⟩ := h.rows
  rw [Table.keys, hnum, keys_numbered, collect_length hrows]

/-- One more effect, under the number after the head. -/
theorem append (h : l.Counted kinds p) {e : ChangeKind} {row : Bytes} (he : e.encode = .ok row) :
    Log.Counted (kinds ++ [e]) p { l with
      head := l.head + 1
      journalBytes := l.journalBytes + (8 + row.length)
      changes := l.changes.insert (l.head + 1) row } := by
  have hlast : (l.changes.insert (l.head + 1) row).rows = l.changes.rows ++ [(l.head + 1, row)] :=
    l.changes.rows_insert_last row fun r hr => Nat.lt_succ_of_le (h.mem_bounds hr).2
  obtain ⟨rows, hrows, hnum⟩ := h.rows
  have hhead := h.head
  have hnumber : p + 1 + rows.length = l.head + 1 := by
    rw [collect_length hrows]
    omega
  refine ⟨⟨rows ++ [row], ?_, ?_⟩, ?_, ?_⟩
  · exact collect_append_ok hrows (collect_cons_ok.mpr ⟨row, [], he, rfl, rfl⟩)
  · rw [numbered_append, hnumber, ← hnum]
    exact hlast
  · show l.head + 1 = _
    rw [List.length_append, List.length_singleton]
    omega
  · show _ = (List.map rowSize (l.changes.insert (l.head + 1) row).rows).sum
    rw [hlast, List.map_append, List.sum_append, ← h.bytes]
    rfl

end Log.Counted

/-- The numbers `append_effects` puts its rows under. -/
def appendNumbers : List ChangeKind → Nat → List Nat
  | [], _ => []
  | _ :: es, head => (head + 1) :: appendNumbers es (head + 1)

theorem appendNumbers_eq (effects : List ChangeKind) (head : Nat) :
    appendNumbers effects head = List.range' (head + 1) effects.length := by
  induction effects generalizing head with
  | nil => rfl
  | cons e es ih => rw [appendNumbers, ih, List.length_cons, List.range'_succ]

theorem appendEffects_counted {effects kinds : List ChangeKind} {p : Nat} {l l' : Log}
    (h : l.Counted kinds p) (ha : appendEffects effects l = .ok l') :
    l'.Counted (kinds ++ effects) p := by
  induction effects generalizing kinds l with
  | nil =>
      cases ha
      rw [List.append_nil]
      exact h
  | cons e es ih =>
      obtain ⟨head, hhead, ha⟩ := bind_eq_ok.mp ha
      obtain ⟨row, hrow, ha⟩ := bind_eq_ok.mp ha
      obtain ⟨bytes, hbytes, ha⟩ := bind_eq_ok.mp ha
      cases checkedAdd_ok hhead
      cases checkedAdd_ok hbytes
      have hnext := ih (h.append hrow) ha
      rw [List.append_assoc] at hnext
      exact hnext

/-! ## Snapshots and pruning -/

/-- Dropping the images of some effects drops the tables they name and no other. -/
theorem dropImages_get (kinds : List ChangeKind) (s : Store) :
    (∀ name, ((dropImages s kinds).tables.get name).isSome ↔
      (s.tables.get name).isSome ∧ name ∉ snapshots kinds) ∧
    (∀ name, ((dropImages s kinds).blobImages.get name).isSome ↔
      (s.blobImages.get name).isSome ∧ name ∉ (snapshots kinds).map blobsName) ∧
    (dropImages s kinds).resetGeneration = s.resetGeneration := by
  induction kinds generalizing s with
  | nil => simp [dropImages, snapshots]
  | cons e kinds ih =>
      obtain ⟨htables, hblobs, hgen⟩ := ih (dropImage s e.snapshot)
      show (∀ name, ((dropImages (dropImage s e.snapshot) kinds).tables.get name).isSome ↔ _) ∧
        (∀ name, ((dropImages (dropImage s e.snapshot) kinds).blobImages.get name).isSome ↔ _) ∧
        (dropImages (dropImage s e.snapshot) kinds).resetGeneration = _
      cases hsnap : e.snapshot with
      | none =>
          have hcons : snapshots (e :: kinds) = snapshots kinds := List.filterMap_cons_none hsnap
          rw [hsnap] at htables hblobs hgen
          rw [hcons]
          exact ⟨htables, hblobs, hgen⟩
      | some x =>
          have hcons : snapshots (e :: kinds) = x :: snapshots kinds := List.filterMap_cons_some hsnap
          rw [hsnap] at htables hblobs hgen
          rw [hcons]
          refine ⟨fun name => ?_, fun name => ?_, hgen⟩
          · rw [htables]
            show ((s.tables.remove x).get name).isSome ∧ _ ↔ _
            rw [Table.get_remove]
            split <;> simp [*]
          · rw [hblobs]
            show ((s.blobImages.remove (blobsName x)).get name).isSome ∧ _ ↔ _
            rw [Table.get_remove]
            split <;> simp [*]

/-! ## The invariant -/

/-- The retained effects are `kinds`, numbered from `p + 1` on, and the tables of snapshots are those
they name. -/
structure Booked (kinds : List ChangeKind) (p : Nat) (s : Store) : Prop where
  counted : s.log.Counted kinds p
  floor : s.log.floor = s.log.firstSeq
  tables : ∀ n, (s.tables.get (resetName n)).isSome ↔ resetName n ∈ snapshots kinds
  blobs : ∀ name, (s.blobImages.get name).isSome ↔ name ∈ (snapshots kinds).map blobsName
  named : ∀ x ∈ snapshots kinds, ∃ n, x = resetName n ∧ n ≤ s.resetGeneration
  distinct : (snapshots kinds).Nodup

/-- A database without tables of snapshots. -/
structure Blank (s : Store) : Prop where
  tables : ∀ n, s.tables.get (resetName n) = none
  blobs : s.blobImages = .empty

theorem booked_initial (uuid : Bytes) {s : Store} (h : Blank s) : Booked [] 0 (initializeLog uuid s) where
  counted := ⟨⟨[], rfl, rfl⟩, rfl, rfl⟩
  floor := rfl
  tables n := by
    show (s.tables.get (resetName n)).isSome ↔ resetName n ∈ []
    simp [h.tables n]
  blobs name := by
    show (s.blobImages.get name).isSome ↔ name ∈ []
    simp [h.blobs]
  named x hx := by cases hx
  distinct := List.nodup_nil

namespace Booked

variable {kinds : List ChangeKind} {p : Nat} {s : Store}

/-- The consumers may be any. -/
theorem withConsumers (h : Booked kinds p s) (generation : Nat) (consumers : Table String Consumer) :
    Booked kinds p { s with log := { s.log with
      consumerGeneration := generation, consumers := consumers } } :=
  { h with counted := ⟨h.counted.rows, h.counted.head, h.counted.bytes⟩, floor := h.floor }

/-- A write and the recording of its effects. -/
theorem record (h : Booked kinds p s) {out : Outside} {serde : Serde} {u v : Store}
    {effects : List ChangeKind} (hadds : Adds s u (snapshots effects))
    (hr : record out serde effects u = .ok v) : Booked (kinds ++ effects) p v := by
  obtain ⟨_, w, hw, lastWrite, l, hl, rfl⟩ := record_ok hr
  obtain ⟨_, _, rfl⟩ := Unique.validate_keysOnly out serde hw
  rw [hadds.log] at hl
  refine ⟨(appendEffects_counted h.counted hl).withFloor, rfl, fun n => ?_, fun name => ?_, ?_, ?_⟩
  · rw [snapshots_append, List.mem_append, ← h.tables]
    exact hadds.tables n
  · rw [snapshots_append, List.map_append, List.mem_append, ← h.blobs]
    exact hadds.blobs name
  · intro x hx
    rw [snapshots_append, List.mem_append] at hx
    rcases hx with hx | hx
    · obtain ⟨n, rfl, hn⟩ := h.named x hx
      exact ⟨n, rfl, hn.trans hadds.generation⟩
    · obtain ⟨n, rfl, _, hn⟩ := hadds.named x hx
      exact ⟨n, rfl, hn⟩
  · rw [snapshots_append]
    refine List.nodup_append.mpr ⟨h.distinct, hadds.distinct, ?_⟩
    rintro x hx _ hy rfl
    obtain ⟨m, rfl, hm⟩ := h.named x hx
    obtain ⟨n, hn, hlow, -⟩ := hadds.named _ hy
    cases resetName_inj hn
    omega

/-- Pruning takes effects from the front, with the snapshots they name. -/
theorem prune (h : Booked kinds p s) (through : Nat) :
    ∃ t n l p', prune through s = .ok t ∧ t = { dropImages s (kinds.take n) with log := l } ∧
      Booked (kinds.drop n) p' t ∧ SameReaders s.log t.log := by
  obtain ⟨t, ht, hcounted, heq⟩ := prune_counted h.counted through
  have hsplit : snapshots kinds
      = snapshots (kinds.take (through - p)) ++ snapshots (kinds.drop (through - p)) := by
    rw [← snapshots_append, List.take_append_drop]
  have hdistinct := h.distinct
  rw [hsplit, List.nodup_append] at hdistinct
  obtain ⟨-, hkept, hapart⟩ := hdistinct
  obtain ⟨htables, hblobs, hgen⟩ := dropImages_get (kinds.take (through - p)) s
  -- a name of the whole list that is not dropped is one of the rest
  have hrest : ∀ x, x ∈ snapshots kinds ∧ x ∉ snapshots (kinds.take (through - p)) ↔
      x ∈ snapshots (kinds.drop (through - p)) := by
    intro x
    rw [hsplit, List.mem_append]
    constructor
    · rintro ⟨hx | hx, hnot⟩
      · exact absurd hx hnot
      · exact hx
    · exact fun hx => ⟨.inr hx, fun hx' => hapart x hx' x hx rfl⟩
  refine ⟨t, _, _, _, ht, heq, ⟨hcounted, ?_, fun n => ?_, fun name => ?_, fun x hx => ?_, hkept⟩, ?_⟩
  · rw [heq]
    rfl
  · rw [heq, ← hrest, ← h.tables]
    exact htables _
  · rw [heq]
    refine (hblobs name).trans ?_
    rw [h.blobs, List.mem_map, List.mem_map, List.mem_map]
    constructor
    · rintro ⟨⟨x, hx, rfl⟩, hnot⟩
      exact ⟨x, (hrest x).mp ⟨hx, fun hx' => hnot ⟨x, hx', rfl⟩⟩, rfl⟩
    · rintro ⟨x, hx, rfl⟩
      obtain ⟨hx, hnot⟩ := (hrest x).mpr hx
      refine ⟨⟨x, hx, rfl⟩, ?_⟩
      rintro ⟨y, hy, heq⟩
      exact hnot (blobsName_inj heq ▸ hy)
  · obtain ⟨n, rfl, hn⟩ := h.named x ((hrest x).mpr hx).1
    refine ⟨n, rfl, ?_⟩
    rw [heq]
    exact hn.trans hgen.ge
  · rw [heq]
    exact ⟨rfl, rfl⟩

end Booked

/-- The log and the snapshots of a database agree. -/
def Store.Agrees (s : Store) : Prop := ∃ kinds p, Booked kinds p s

/-- The same, with `P` of the retained effects and the database. -/
def Store.Keeps (P : List ChangeKind → Store → Prop) (s : Store) : Prop :=
  ∃ kinds p, Booked kinds p s ∧ P kinds s

/-- What is about references and images, and stays with the writes and with pruning. -/
structure Lasting (serde : Serde) (there : String → String → Prop)
    (P : List ChangeKind → Store → Prop) : Prop where
  same : ∀ {kinds : List ChangeKind} {s t : Store}, P kinds s → t.refs = s.refs →
    t.blobImages = s.blobImages → t.resetGeneration = s.resetGeneration → P kinds t
  drop : ∀ {kinds : List ChangeKind} {s : Store} (n : Nat), P kinds s →
    P (kinds.drop n) (dropImages s (kinds.take n))
  made : ∀ {kinds effects : List ChangeKind} {s u : Store}, Made serde there s u effects → P kinds s →
    P (kinds ++ effects) u

theorem Lasting.trivial (serde : Serde) : Lasting serde (fun _ _ => True) fun _ _ => True where
  same _ _ _ _ := True.intro
  drop _ _ := True.intro
  made _ _ := True.intro

theorem Store.agrees_iff {s : Store} : s.Agrees ↔ s.Keeps fun _ _ => True := by
  simp [Store.Agrees, Store.Keeps]

namespace Store.Keeps

variable {serde : Serde} {there : String → String → Prop} {P : List ChangeKind → Store → Prop} {s : Store}

theorem agrees (h : s.Keeps P) : s.Agrees := by
  obtain ⟨kinds, p, h, -⟩ := h
  exact ⟨kinds, p, h⟩

theorem exact (h : s.Keeps P) : s.log.Exact := by
  obtain ⟨kinds, p, h, -⟩ := h
  exact ⟨kinds, p, h.counted⟩

variable (hP : Lasting serde there P)

include hP

theorem withConsumers (h : s.Keeps P) (generation : Nat) (consumers : Table String Consumer) :
    Store.Keeps P { s with log := { s.log with
      consumerGeneration := generation, consumers := consumers } } := by
  obtain ⟨kinds, p, h, hp⟩ := h
  exact ⟨kinds, p, h.withConsumers generation consumers, hP.same hp rfl rfl rfl⟩

theorem prune (h : s.Keeps P) (through : Nat) :
    ∃ t, Journal.prune through s = .ok t ∧ t.Keeps P ∧ SameReaders s.log t.log := by
  obtain ⟨kinds, p, h, hp⟩ := h
  obtain ⟨t, n, l, p', ht, heq, hbooked, hsame⟩ := h.prune through
  refine ⟨t, ht, ⟨_, p', hbooked, ?_⟩, hsame⟩
  rw [heq]
  exact hP.same (hP.drop n hp) rfl rfl rfl

/-- A successful `prune_acked` keeps the agreement. -/
theorem pruneAcked (h : s.Keeps P) {t : Store} (ht : pruneAcked s = .ok t) :
    t.Keeps P ∧ t.log.head = s.log.head := by
  obtain ⟨u, hu, hkeeps, hhead, -⟩ := h.prune hP s.log.slowest
  have hut : u = t := Except.ok.inj (hu.symm.trans ht)
  subst hut
  exact ⟨hkeeps, hhead⟩

/-- The same after a change of the consumers, as `ack` and `unregister_consumer` make one. -/
theorem pruneConsumers (h : s.Keeps P) {consumers : Table String Consumer} {t : Store}
    (ht : Journal.pruneAcked { s with log := { s.log with consumers := consumers } } = .ok t) :
    t.Keeps P ∧ t.log.head = s.log.head :=
  (h.withConsumers hP s.log.consumerGeneration consumers).pruneAcked hP ht

/-- The loop of the size limit prunes and writes consumers. -/
theorem enforceLoop (h : s.Keeps P) {max fuel : Nat} {t : Store} (ht : enforceLoop max fuel s = .ok t) :
    t.Keeps P ∧ t.log.head = s.log.head := by
  induction fuel generalizing s with
  | zero =>
      cases ht
      exact ⟨h, rfl⟩
  | succ fuel ih =>
      unfold Journal.enforceLoop at ht
      split at ht
      · cases ht
        exact ⟨h, rfl⟩
      obtain ⟨u, hu, ht⟩ := bind_eq_ok.mp ht
      obtain ⟨hkeeps, hhead⟩ := h.pruneAcked hP hu
      dsimp only at ht
      split at ht
      · cases ht
        exact ⟨hkeeps, hhead⟩
      split at ht
      · cases ht
      obtain ⟨hdone, hsame⟩ := ih (hkeeps.withConsumers hP _ _) ht
      exact ⟨hdone, hsame.trans hhead⟩

/-- `enforce` succeeds and keeps the agreement. -/
theorem enforce (h : s.Keeps P) (retention : Retention) :
    ∃ t, enforce retention s = .ok t ∧ t.Keeps P ∧ t.log.head = s.log.head := by
  unfold Journal.enforce
  cases retention.max with
  | none => exact ⟨s, rfl, h, rfl⟩
  | some max =>
      obtain ⟨t, -, hloop⟩ := enforceLoop_fits h.exact max
      have ht := hloop (s.log.consumers.rows.length + 1)
        (Nat.lt_succ_of_le (List.length_filter_le _ _))
      exact ⟨t, ht, h.enforceLoop hP ht⟩

/-- The calls on consumers report nothing and leave the head. -/
theorem consumerCall (h : s.Keeps P) {call : ConsumerCall} {output : Option ConsumerToken} {u : Store}
    {effects : List ChangeKind} (hc : call.write s = .ok (output, u, effects)) :
    effects = [] ∧ u.Keeps P ∧ u.log.head = s.log.head := by
  cases call with
  | register name internal =>
      obtain ⟨⟨token, rest⟩, hr, hc⟩ := bind_eq_ok.mp hc
      cases hc
      unfold register at hr
      split at hr
      · cases hr
      split at hr
      · cases hr
      obtain ⟨generation, _, hr⟩ := bind_eq_ok.mp hr
      cases hr
      exact ⟨rfl, h.withConsumers hP _ _, rfl⟩
  | ack token seq =>
      obtain ⟨⟨_, rest⟩, hr, hc⟩ := bind_eq_ok.mp hc
      cases hc
      obtain ⟨c, _, hr⟩ := bind_eq_ok.mp hr
      split at hr
      · cases hr
      obtain ⟨v, hv, hr⟩ := bind_eq_ok.mp hr
      cases hr
      exact ⟨rfl, h.pruneConsumers hP hv⟩
  | unregister name =>
      obtain ⟨⟨_, rest⟩, hr, hc⟩ := bind_eq_ok.mp hc
      cases hc
      unfold unregister at hr
      split at hr
      · cases hr
      obtain ⟨v, hv, hr⟩ := bind_eq_ok.mp hr
      cases hr
      exact ⟨rfl, h.pruneConsumers hP hv⟩
  | disableIndexConsumer =>
      obtain ⟨⟨_, rest⟩, hr, hc⟩ := bind_eq_ok.mp hc
      cases hc
      unfold disableIndexConsumer at hr
      split at hr
      · cases hr
        exact ⟨rfl, h, rfl⟩
      split at hr
      · cases hr
        exact ⟨rfl, h.withConsumers hP s.log.consumerGeneration _, rfl⟩
      · cases hr
        exact ⟨rfl, h, rfl⟩

end Store.Keeps

/-! ## One transaction -/

section

variable {mgr : Manager} {serde : Serde} {out : Outside} {there : String → String → Prop}
  {P : List ChangeKind → Store → Prop} (hP : Lasting serde there P) {s : Store} {call : Call}
  (hfiles : ∀ p ∈ call.files, there p.1 p.2)

include hP hfiles

/-- **What runs in a transaction, and the recording of what it reports**: the new rows go under the
numbers after the head. -/
theorem Store.Keeps.recorded {u v : Store} (h : s.Keeps P) {f : Closure} {effects : List ChangeKind}
    (hf : call.prepare mgr serde = .ok f) (hmade : f s = .ok (u, effects))
    (hr : record out serde effects u = .ok v) :
    v.Keeps P ∧ u.log.head = s.log.head ∧ v.log.head = s.log.head + effects.length ∧
      v.log.changes.keys = u.log.changes.keys ++ appendNumbers effects u.log.head := by
  -- the state the effects are recorded on, as one a write without snapshots may follow
  obtain ⟨base, kinds, p, hbase, hadds, hhead, hp⟩ : ∃ base kinds p, Booked kinds p base ∧
      Adds base u (snapshots effects) ∧ u.log.head = s.log.head ∧ P (kinds ++ effects) u := by
    have hran : Ran serde there s u effects := prepare_ran hfiles hf hmade
    cases hran with
    | made hmade =>
        obtain ⟨kinds, p, h, hp⟩ := h
        exact ⟨s, kinds, p, h, hmade.adds, by rw [hmade.adds.log], hP.made hmade hp⟩
    | consumer c output hc =>
        obtain ⟨rfl, ⟨kinds, p, hu, hp⟩, hhead⟩ := h.consumerCall hP hc
        exact ⟨u, kinds, p, hu, .refl u, hhead, by rwa [List.append_nil]⟩
    | quiet t heq none =>
        obtain ⟨kinds, p, h, hp⟩ := h
        subst heq none
        refine ⟨s, kinds, p, h, .same rfl rfl (fun _ => rfl) rfl, rfl, ?_⟩
        rw [List.append_nil]
        exact hP.same hp rfl rfl rfl
  have hv := hbase.record hadds hr
  have hu : u.log.Counted kinds p := hadds.log ▸ hbase.counted
  refine ⟨⟨_, _, hv, ?_⟩, hhead, ?_, ?_⟩
  · obtain ⟨_, w, hw, lastWrite, l, _, rfl⟩ := record_ok hr
    obtain ⟨_, _, rfl⟩ := Unique.validate_keysOnly out serde hw
    exact hP.same hp rfl rfl rfl
  · have := hv.counted.head
    rw [List.length_append] at this
    have := hu.head
    omega
  · rw [hv.counted.keys, hu.keys, appendNumbers_eq, hu.head, List.length_append, Nat.add_right_comm,
      List.range'_append_1]

/-- A committed call keeps the agreement, and its numbers are those after the head. -/
theorem Store.Keeps.commit {t : Store} (h : s.Keeps P) {retention : Retention}
    (hc : call.commit mgr serde out retention s = .ok t) :
    t.Keeps P ∧ ∃ f u effects, call.prepare mgr serde = .ok f ∧ f s = .ok (u, effects) ∧
      u.log.head = s.log.head ∧ t.log.head = s.log.head + effects.length := by
  obtain ⟨f, u, effects, v, w, hf, hmade, hv, hprune, he⟩ := commit_ok hc
  obtain ⟨hkeeps, huhead, hvhead, -⟩ := h.recorded hP hfiles hf hmade hv
  obtain ⟨hkeeps, hwhead⟩ := hkeeps.pruneAcked hP hprune
  obtain ⟨t', ht', hkeeps, hthead⟩ := hkeeps.enforce hP retention
  have heq : t' = t := Except.ok.inj (ht'.symm.trans he)
  subst heq
  exact ⟨hkeeps, f, u, effects, hf, hmade, huhead, by omega⟩

end

/-! ## What the agreement says -/

/-- The retained rows name a snapshot exactly when an effect does. -/
theorem mem_snapshots_iff {kinds : List ChangeKind} {rows : List Bytes}
    (h : collect ChangeKind.encode kinds = .ok rows) (n : Nat) (x : String) :
    x ∈ snapshots kinds ↔ ∃ r ∈ numbered n rows, snapshotOf r.2 = .ok (some x) := by
  induction kinds generalizing rows n with
  | nil =>
      cases h
      simp [snapshots, numbered]
  | cons e kinds ih =>
      obtain ⟨row, rest, hrow, hrest, rfl⟩ := collect_cons_ok.mp h
      have hhead : e.snapshot = some x ↔ snapshotOf row = .ok (some x) := by
        rw [snapshotOf_encode hrow, Except.ok.injEq]
      have htail := ih hrest (n + 1)
      simp only [numbered, List.mem_cons, exists_eq_or_imp, ← hhead, ← htail]
      simp [snapshots]

/-- The books of a log: its rows, its counters and the tables of snapshots. -/
structure Store.Bookkept (s : Store) : Prop where
  /-- The rows are numbered from `floor` to `head`. -/
  keys : s.log.changes.keys ≠ [] ∨ s.log.head + 1 < u64End →
    s.log.changes.keys = List.range' s.log.floor (s.log.head + 1 - s.log.floor)
  empty : s.log.changes.keys ≠ [] ∨ s.log.head + 1 < u64End →
    (s.log.changes.keys = [] ↔ s.log.floor = s.log.head + 1)
  /-- An empty log at the last number. -/
  saturated : s.log.changes.keys = [] → u64End ≤ s.log.head + 1 → s.log.floor = s.log.head
  bytes : s.log.journalBytes = (s.log.changes.rows.map fun r => 8 + r.2.length).sum
  tables : ∀ n, (s.tables.get (resetName n)).isSome ↔
    ∃ r ∈ s.log.changes.rows, snapshotOf r.2 = .ok (some (resetName n))
  blobs : ∀ name, (s.blobImages.get name).isSome ↔
    ∃ r ∈ s.log.changes.rows, ∃ x, snapshotOf r.2 = .ok (some x) ∧ name = x ++ "_blobs"
  named : ∀ r ∈ s.log.changes.rows, ∀ x, snapshotOf r.2 = .ok (some x) → ∃ n, x = resetName n

theorem Booked.bookkept {kinds : List ChangeKind} {p : Nat} {s : Store} (h : Booked kinds p s) :
    s.Bookkept := by
  obtain ⟨rows, hrows, hnum⟩ := h.counted.rows
  have hkeys := h.counted.keys
  have hhead := h.counted.head
  have hnames : ∀ x, x ∈ snapshots kinds ↔
      ∃ r ∈ s.log.changes.rows, snapshotOf r.2 = .ok (some x) := by
    intro x
    rw [hnum]
    exact mem_snapshots_iff hrows (p + 1) x
  -- the first number, and the one it is without rows
  have hfloor : s.log.floor = if kinds = [] then satSucc s.log.head else p + 1 := by
    rw [h.floor, Log.firstSeq, hnum]
    cases kinds with
    | nil =>
        cases hrows
        rfl
    | cons e kinds =>
        obtain ⟨row, rest, -, -, rfl⟩ := collect_cons_ok.mp hrows
        rfl
  have hempty : s.log.changes.keys = [] ↔ kinds = [] := by
    rw [hkeys, List.range'_eq_nil_iff, List.length_eq_zero_iff]
  refine ⟨fun hopen => ?_, fun hopen => ?_, fun hnone hfull => ?_, h.counted.bytes, fun n => ?_,
    fun name => ?_, fun r hr x hx => ?_⟩
  · by_cases hk : kinds = []
    · have hlt := hopen.resolve_left fun hne => hne (hempty.mpr hk)
      rw [hempty.mpr hk, hfloor, if_pos hk, satSucc, if_pos hlt, Nat.sub_self]
      rfl
    · rw [hkeys, hfloor, if_neg hk, hhead]
      congr 1
      omega
  · rw [hempty, hfloor]
    by_cases hk : kinds = []
    · have hlt := hopen.resolve_left fun hne => hne (hempty.mpr hk)
      simp [hk, satSucc, hlt]
    · have hpos := List.length_pos_iff.mpr hk
      simp only [hk, if_false, false_iff]
      omega
  · rw [hfloor, if_pos (hempty.mp hnone), satSucc, if_neg (by omega)]
  · rw [h.tables, hnames]
  · rw [h.blobs, List.mem_map]
    constructor
    · rintro ⟨x, hx, rfl⟩
      obtain ⟨r, hr, hsnap⟩ := (hnames x).mp hx
      exact ⟨r, hr, x, hsnap, rfl⟩
    · rintro ⟨r, hr, x, hsnap, rfl⟩
      exact ⟨x, (hnames x).mpr ⟨r, hr, hsnap⟩, rfl⟩
  · obtain ⟨n, hn, -⟩ := h.named x ((hnames x).mpr ⟨r, hr, hx⟩)
    exact ⟨n, hn⟩

/-! ## Runs -/

section

variable (mgr : Manager) (serde : Serde) (out : Outside)

/-- The numbers the transaction of a call gives. -/
def Call.numbers (call : Call) (s : Store) : List Nat :=
  match call.prepare mgr serde with
  | .error _ => []
  | .ok f =>
      match f s with
      | .error _ => []
      | .ok (u, effects) => appendNumbers effects u.log.head

/-- The numbers the committed transactions of a run give, in order. -/
def assigned : List (Retention × Call) → Store → List Nat
  | [], _ => []
  | (retention, call) :: rest, s =>
      match call.commit mgr serde out retention s with
      | .ok t => call.numbers mgr serde s ++ assigned rest t
      | .error _ => assigned rest s

theorem runCalls_append (calls more : List (Retention × Call)) (s : Store) :
    runCalls mgr serde out (calls ++ more) s
      = runCalls mgr serde out more (runCalls mgr serde out calls s) := by
  induction calls generalizing s with
  | nil => rfl
  | cons c rest ih =>
      obtain ⟨retention, call⟩ := c
      simp only [List.cons_append, runCalls]
      split <;> exact ih _

/-- The calls keep the agreement, and give the numbers between the heads. -/
theorem runCalls_agrees {s : Store} (h : s.Agrees) (calls : List (Retention × Call)) :
    (runCalls mgr serde out calls s).Agrees ∧ s.log.head ≤ (runCalls mgr serde out calls s).log.head ∧
      assigned mgr serde out calls s = List.range' (s.log.head + 1)
        ((runCalls mgr serde out calls s).log.head - s.log.head) := by
  induction calls generalizing s with
  | nil =>
      refine ⟨h, Nat.le_refl _, ?_⟩
      simp [runCalls, assigned]
  | cons c rest ih =>
      obtain ⟨retention, call⟩ := c
      cases ht : call.commit mgr serde out retention s with
      | error e =>
        simp only [runCalls, assigned, ht]
        exact ih h
      | ok t =>
        simp only [runCalls, assigned, ht]
        obtain ⟨hkeeps, f, u, effects, hf, hmade, huhead, hhead⟩ :=
          (Store.agrees_iff.mp h).commit (.trivial serde) (fun _ _ => True.intro) ht
        obtain ⟨hdone, hle, hnumbers⟩ := ih hkeeps.agrees
        refine ⟨hdone, by omega, ?_⟩
        have hgiven : call.numbers mgr serde s = List.range' (s.log.head + 1) effects.length := by
          simp only [Call.numbers, hf, hmade, appendNumbers_eq, huhead]
        have hstart : t.log.head + 1 = s.log.head + 1 + effects.length := by omega
        rw [hgiven, hnumbers, hstart, List.range'_append_1]
        congr 1
        omega

variable {mgr serde out}

/-- Rows can be removed up to any position. -/
def Prunable (s : Store) : Prop := ∀ through, ∃ t, prune through s = .ok t

theorem Store.Agrees.prunable {s : Store} (h : s.Agrees) : Prunable s := fun through => by
  obtain ⟨kinds, p, h⟩ := h
  obtain ⟨t, _, _, _, ht, -⟩ := h.prune through
  exact ⟨t, ht⟩

/-- **The books of the change log are exact.** Start with a database that gets its log and take any
calls, failed ones among them. Then the books agree; the head does not go back whatever comes after; no
number is given twice, and the next transaction puts its rows under new numbers after those it has;
pruning cannot fail, neither in `ack` and `unregister_consumer` nor at the end of the next
transaction. -/
theorem journal_bookkeeping (uuid : Bytes) {s : Store} (hs : Blank s) (calls : List (Retention × Call)) :
    let t := runCalls mgr serde out calls (initializeLog uuid s)
    t.Bookkept ∧
      (∀ more, t.log.head ≤ (runCalls mgr serde out (calls ++ more) (initializeLog uuid s)).log.head) ∧
      (assigned mgr serde out calls (initializeLog uuid s)).Nodup ∧
      (∀ consumers, Prunable { t with log := { t.log with consumers := consumers } }) ∧
      ∀ (call : Call) (f : Closure) (u v : Store) (effects : List ChangeKind),
        call.prepare mgr serde = .ok f → f t = .ok (u, effects) → record out serde effects u = .ok v →
        v.log.changes.keys = u.log.changes.keys ++ call.numbers mgr serde t ∧
          (∀ n ∈ call.numbers mgr serde t, t.log.head < n) ∧
          Prunable v ∧ ∀ w, pruneAcked v = .ok w → ∀ retention, ∃ x, enforce retention w = .ok x := by
  intro t
  have hstart : (initializeLog uuid s).Agrees := ⟨[], 0, booked_initial uuid hs⟩
  obtain ⟨hagrees, -, hnumbers⟩ := runCalls_agrees mgr serde out hstart calls
  have hkeeps := Store.agrees_iff.mp hagrees
  have hlasts := Lasting.trivial serde
  refine ⟨?_, fun more => ?_, ?_, fun consumers => ?_, fun call f u v effects hf hmade hr => ?_⟩
  · obtain ⟨kinds, p, hbooked⟩ := hagrees
    exact hbooked.bookkept
  · rw [runCalls_append]
    exact (runCalls_agrees mgr serde out hagrees more).2.1
  · rw [hnumbers]
    exact List.nodup_range'
  · exact (hkeeps.withConsumers hlasts t.log.consumerGeneration consumers).agrees.prunable
  · obtain ⟨hv, huhead, -, hkeys⟩ := hkeeps.recorded hlasts (fun _ _ => True.intro) hf hmade hr
    have hgiven : call.numbers mgr serde t = appendNumbers effects u.log.head := by
      simp only [Call.numbers, hf]
      rw [hmade]
    refine ⟨hgiven ▸ hkeys, fun n hn => ?_, hv.agrees.prunable, fun w hw retention => ?_⟩
    · rw [hgiven, appendNumbers_eq, List.mem_range'_1, huhead] at hn
      exact hn.1
    · obtain ⟨x, hx, -⟩ := (hv.pruneAcked hlasts hw).1.enforce hlasts retention
      exact ⟨x, hx⟩

end

theorem sampleStore_blank : Blank sampleStore := ⟨fun _ => rfl, rfl⟩

/-- A consumer is registered, a table is replaced: the books agree, with one snapshot. -/
theorem journal_bookkeeping_reset :
    (runCalls sampleManager .simple (.listed []) [(.default, .consumer (.register "c" false)),
      (.default, .replaceTable "notes" [("a", [1])])] (initializeLog [7] sampleStore)).Bookkept :=
  (journal_bookkeeping [7] sampleStore_blank _).1

/-! ## The last number -/

/-- A manager where every table has attachments. -/
def copyManager : Manager := { sampleManager with isBlobTable := fun _ => true }

/-- The copy of an attachment, which reports one effect. -/
def sampleCopy : Call := .copyBlob "notes" "a" (.ok ⟨"file", 3⟩)

/-- A store that has the reference of this copy already. -/
def sampleReferred : Store :=
  { sampleStore with refs := Table.empty.insert (Serde.simple.pair "notes" "a") ⟨"file", 3⟩ }

/-- The store after `n` effects that are all pruned. -/
def copied (n : Nat) : Store :=
  { initializeLog [7] sampleReferred with log := ⟨n, 0, satSucc n, 0, [7], .empty, .empty⟩ }

/-- The effect of the copy and its row. -/
def sampleEffect : ChangeKind := .blobPut "notes" "a" "file" 3

theorem exists_sampleRow : ∃ row, sampleEffect.encode = .ok row ∧ 8 + row.length < u64End :=
  ⟨_, rfl, by decide⟩

theorem copied_counted (n : Nat) : (copied n).log.Counted [] n := ⟨⟨[], rfl, rfl⟩, rfl, rfl⟩

/-- The copy is recorded under the next number. -/
theorem copied_record {n : Nat} (h : n + 1 < u64End) {row : Bytes} (hrow : sampleEffect.encode = .ok row)
    (hlength : 8 + row.length < u64End) :
    record (.listed []) .simple [sampleEffect] (copied n) = .ok { copied n with
      log := Log.withFloor ⟨n + 1, 8 + row.length, satSucc n, 0, [7], Table.empty.insert (n + 1) row,
        .empty⟩ } := by
  have hnext : ∀ message, checkedAdd n 1 message = .ok (n + 1) := fun message => if_pos h
  have hbytes : ∀ message, checkedAdd 0 (8 + row.length) message = .ok (8 + row.length) := fun message => by
    rw [checkedAdd, Nat.zero_add, if_pos hlength]
  have happend : appendEffects [sampleEffect] (copied n).log
      = .ok ⟨n + 1, 8 + row.length, satSucc n, 0, [7], Table.empty.insert (n + 1) row, .empty⟩ := by
    show (checkedAdd n 1 _ >>= fun head => sampleEffect.encode >>= fun row =>
      checkedAdd 0 (8 + row.length) _ >>= fun bytes => _) = _
    rw [hnext, ok_bind, hrow, ok_bind, hbytes]
    rfl
  have hwrites : applyLastWrites .simple n [sampleEffect] (copied n) = .ok (copied n) := by
    unfold applyLastWrites
    rw [hnext]
    rfl
  show (applyLastWrites .simple n [sampleEffect] (copied n) >>= fun s =>
    appendEffects [sampleEffect] s.log >>= fun log => _) = _
  rw [hwrites, ok_bind, happend]
  rfl

/-- Without consumers the row goes at once. -/
theorem copied_prune (n : Nat) {row : Bytes} (hrow : sampleEffect.encode = .ok row) :
    pruneAcked { copied n with
      log := Log.withFloor ⟨n + 1, 8 + row.length, satSucc n, 0, [7], Table.empty.insert (n + 1) row,
        .empty⟩ } = .ok (copied (n + 1)) := by
  have hcounted := ((copied_counted n).append hrow).withFloor
  obtain ⟨t, ht, hleft, heq⟩ := prune_counted (s := { copied n with
    log := Log.withFloor ⟨n + 1, 0 + (8 + row.length), satSucc n, 0, [7],
      Table.empty.insert (n + 1) row, .empty⟩ }) hcounted (n + 1)
  have hone : n + 1 - n = 1 := by omega
  rw [hone] at hleft heq
  obtain ⟨rows, hrows, hnum⟩ := hleft.rows
  cases hrows
  have hchanges : t.log.changes = .empty := Table.ext hnum
  have hbytes : t.log.journalBytes = 0 := by
    rw [hleft.bytes, hchanges]
    rfl
  rw [hchanges, hbytes] at heq
  rw [Nat.zero_add] at ht
  rw [heq] at ht
  exact ht

theorem copied_commit {n : Nat} (h : n + 1 < u64End) :
    sampleCopy.commit copyManager .simple (.listed []) .unlimited (copied n) = .ok (copied (n + 1)) := by
  obtain ⟨row, hrow, hlength⟩ := exists_sampleRow
  show (record (.listed []) .simple [sampleEffect] (copied n) >>= fun s => pruneAcked s >>= fun s =>
    enforce .unlimited s >>= fun s => .ok ((), s)) >>= (fun p : Unit × Store => .ok p.2) = _
  rw [copied_record h hrow hlength, ok_bind, copied_prune n hrow]
  rfl

/-- Any number of copies below the last number. -/
theorem copied_run {n k : Nat} (h : n + k < u64End) :
    runCalls copyManager .simple (.listed []) (List.replicate k (.unlimited, sampleCopy)) (copied n)
      = copied (n + k) := by
  induction k generalizing n with
  | zero => rfl
  | succ k ih =>
      rw [List.replicate_succ, runCalls, copied_commit (by omega)]
      show runCalls _ _ _ _ (copied (n + 1)) = _
      rw [ih (by omega), Nat.add_right_comm, Nat.add_assoc]

/-- **At the last number the floor does not move on.** After as many effects as a `u64` can number,
all of them pruned, the log is empty and its floor is its head. -/
theorem floor_saturates :
    Blank sampleReferred ∧
    let t := runCalls copyManager .simple (.listed [])
      (List.replicate (u64End - 1) (.unlimited, sampleCopy)) (initializeLog [7] sampleReferred)
    t.log.changes.keys = [] ∧ t.log.floor = t.log.head ∧ t.log.floor ≠ t.log.head + 1 := by
  refine ⟨⟨fun _ => rfl, rfl⟩, ?_⟩
  intro t
  have ht : t = copied (u64End - 1) := by
    have hrun := copied_run (n := 0) (k := u64End - 1) (by decide)
    rw [Nat.zero_add] at hrun
    exact hrun
  have hfloor : satSucc (u64End - 1) = u64End - 1 := by
    rw [satSucc, if_neg (by decide)]
  rw [ht]
  refine ⟨rfl, hfloor, ?_⟩
  show satSucc (u64End - 1) ≠ u64End - 1 + 1
  rw [hfloor]
  exact Nat.ne_of_lt (Nat.lt_succ_self _)

end CloveDb.Journal
