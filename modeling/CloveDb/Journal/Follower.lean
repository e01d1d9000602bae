/-
# CloveDb.Journal.Follower — a consumer reads every change once

`Follows hist p l` relates the log `l` to the list `hist` of all effects ever committed: the rows of
the log are the encoded effects number `p + 1` to `head`, and no active consumer stands before `p`.
Every transaction keeps it, for a larger `p` when rows are pruned (`run_follows`), so a read from
an acknowledged position on finds exactly the effects that follow it.
-/
import CloveDb.Journal.Log
import Mathlib.Data.List.TakeWhile

namespace CloveDb.Journal

open CloveDb.Lib CloveDb.Fields

/-- Items under consecutive numbers from `n` on. -/
def numbered {α : Type} (n : Nat) : List α → List (Nat × α)
  | [] => []
  | a :: as => (n, a) :: numbered (n + 1) as

section

variable {α : Type}

theorem length_numbered (n : Nat) (as : List α) : (numbered n as).length = as.length := by
  induction as generalizing n with
  | nil => rfl
  | cons a as ih => simp [numbered, ih]

theorem numbered_append (n : Nat) (as bs : List α) :
    numbered n (as ++ bs) = numbered n as ++ numbered (n + as.length) bs := by
  induction as generalizing n with
  | nil => rfl
  | cons a as ih => simp [numbered, ih, Nat.add_assoc, Nat.add_comm 1]

theorem numbered_bounds {n : Nat} {as : List α} {r : Nat × α} (h : r ∈ numbered n as) :
    n ≤ r.1 ∧ r.1 < n + as.length := by
  induction as generalizing n with
  | nil => simp [numbered] at h
  | cons a as ih =>
      rcases List.mem_cons.mp h with rfl | h
      · simp
      · have := ih h
        simp only [List.length_cons]
        omega

/-- The items numbered above `m`, where the first number is at most `m + 1`. -/
theorem numbered_filter_above {n m : Nat} (hm : n ≤ m + 1) (as : List α) :
    (numbered n as).filter (fun r => m < r.1) = numbered (m + 1) (as.drop (m + 1 - n)) := by
  induction as generalizing n with
  | nil => simp [numbered]
  | cons a as ih =>
      by_cases h : n = m + 1
      · subst h
        have hall : ∀ r ∈ numbered (m + 1) (a :: as), decide (m < r.1) = true := by
          intro r hr
          exact decide_eq_true (numbered_bounds hr).1
        rw [List.filter_eq_self.mpr hall, Nat.sub_self, List.drop_zero]
      · have hn : n + 1 ≤ m + 1 := by omega
        have hdrop : m + 1 - n = (m + 1 - (n + 1)) + 1 := by omega
        rw [numbered, List.filter_cons_of_neg (by simp; omega), ih hn, hdrop, List.drop_succ_cons]

end

/-! ## Collecting -/

section

variable {α β : Type} {f : α → Result β}

theorem collect_append_ok {as as' : List α} {bs bs' : List β} (h : collect f as = .ok bs)
    (h' : collect f as' = .ok bs') : collect f (as ++ as') = .ok (bs ++ bs') := by
  induction as generalizing bs with
  | nil =>
      cases h
      exact h'
  | cons a as ih =>
      obtain ⟨b, bs, hb, hr, rfl⟩ := collect_cons_ok.mp h
      exact collect_cons_ok.mpr ⟨b, _, hb, ih hr, rfl⟩

theorem collect_drop_ok {as : List α} {bs : List β} (h : collect f as = .ok bs) (n : Nat) :
    collect f (as.drop n) = .ok (bs.drop n) := by
  induction n generalizing as bs with
  | zero => exact h
  | succ n ih =>
      cases as with
      | nil =>
          cases h
          rfl
      | cons a as =>
          obtain ⟨b, bs, _, hr, rfl⟩ := collect_cons_ok.mp h
          exact ih hr

theorem collect_take_ok {as : List α} {bs : List β} (h : collect f as = .ok bs) (n : Nat) :
    collect f (as.take n) = .ok (bs.take n) := by
  induction n generalizing as bs with
  | zero => rfl
  | succ n ih =>
      cases as with
      | nil =>
          cases h
          rfl
      | cons a as =>
          obtain ⟨b, bs, hb, hr, rfl⟩ := collect_cons_ok.mp h
          exact collect_cons_ok.mpr ⟨b, _, hb, ih hr, rfl⟩

end

/-- The effects of `kinds` as changes numbered from `n` on. -/
def changesFrom (n : Nat) (kinds : List ChangeKind) : List Change :=
  (numbered n kinds).map fun r => ⟨r.1, r.2⟩

/-- Encoded rows read back as the changes they were made from. -/
theorem decodeRows_encoded {kinds : List ChangeKind} {rows : List Bytes}
    (h : collect ChangeKind.encode kinds = .ok rows) (n : Nat) :
    decodeRows (numbered n rows) = .ok (changesFrom n kinds) := by
  induction kinds generalizing rows n with
  | nil =>
      cases h
      rfl
  | cons k kinds ih =>
      obtain ⟨row, rows, hrow, hrest, rfl⟩ := collect_cons_ok.mp h
      refine collect_cons_ok.mpr ⟨⟨n, k⟩, _, ?_, ih hrest (n + 1), rfl⟩
      rw [ChangeKind.decode_encode hrow]
      rfl

theorem numbered_take {α : Type} (n limit : Nat) (as : List α) :
    (numbered n as).take limit = numbered n (as.take limit) := by
  induction limit generalizing n as with
  | zero => rfl
  | succ limit ih =>
      cases as with
      | nil => rfl
      | cons a as => simp [numbered, ih]

/-! ## The invariant -/

/-- The log `l` holds the effects of `hist` from number `p + 1` on, and every active consumer has
acknowledged at least the first `p`. -/
structure Follows (hist : List ChangeKind) (p : Nat) (l : Log) : Prop where
  head : l.head = hist.length
  pruned : p ≤ hist.length
  rows : ∃ rows, collect ChangeKind.encode (hist.drop p) = .ok rows ∧
    l.changes.rows = numbered (p + 1) rows
  floor : l.floor ≤ p + 1
  bytes : l.journalBytes = (l.changes.rows.map fun r => 8 + r.2.length).sum
  acked : ∀ name c, l.consumers.get name = some c → c.active = true → p ≤ c.ackedSeq

theorem follows_initial (uuid : Bytes) (s : Store) : Follows [] 0 (initializeLog uuid s).log where
  head := rfl
  pruned := Nat.le_refl 0
  rows := ⟨[], rfl, rfl⟩
  floor := Nat.le_refl 1
  bytes := rfl
  acked := by
    intro name c h
    cases h

/-- The numbers of the rows, and how many there are. -/
theorem Follows.length_rows {hist : List ChangeKind} {p : Nat} {l : Log} (h : Follows hist p l) :
    l.changes.rows.length = l.head - p := by
  obtain ⟨rows, hc, hr⟩ := h.rows
  rw [hr, length_numbered, collect_length hc, List.length_drop, h.head]

/-- The first number after the pruned ones. -/
theorem Follows.firstSeq_le {hist : List ChangeKind} {p : Nat} {l : Log} (h : Follows hist p l) :
    l.firstSeq ≤ p + 1 := by
  have hlen := h.length_rows
  obtain ⟨rows, _, hr⟩ := h.rows
  unfold Log.firstSeq
  rw [hr] at hlen ⊢
  cases rows with
  | nil =>
      simp only [numbered, List.length_nil] at hlen
      simp only [numbered, satSucc]
      split <;> omega
  | cons row rest => exact Nat.le_refl _

theorem Follows.withFloor {hist : List ChangeKind} {p : Nat} {l : Log} (h : Follows hist p l) :
    Follows hist p l.withFloor :=
  { h with floor := h.firstSeq_le }

/-! ## Appending -/

theorem checkedAdd_ok {a b c : Nat} {message : String} (h : checkedAdd a b message = .ok c) :
    c = a + b := by
  unfold checkedAdd at h
  split at h
  · exact (Except.ok.inj h).symm
  · cases h

/-- One more effect. -/
theorem Follows.append {hist : List ChangeKind} {p : Nat} {l : Log} (h : Follows hist p l)
    {e : ChangeKind} {row : Bytes} (he : e.encode = .ok row) :
    Follows (hist ++ [e]) p { l with
      head := l.head + 1
      journalBytes := l.journalBytes + (8 + row.length)
      changes := l.changes.insert (l.head + 1) row } := by
  obtain ⟨rows, hc, hr⟩ := h.rows
  have hlen : rows.length = l.head - p := by rw [← h.length_rows, hr, length_numbered]
  have hp := h.pruned
  have hhead := h.head
  have hlast : (l.changes.insert (l.head + 1) row).rows = l.changes.rows ++ [(l.head + 1, row)] := by
    refine l.changes.rows_insert_last row fun r hrow => ?_
    rw [hr] at hrow
    have := (numbered_bounds hrow).2
    omega
  have hnumber : p + 1 + rows.length = l.head + 1 := by omega
  refine ⟨?_, ?_, ⟨rows ++ [row], ?_, ?_⟩, h.floor, ?_, h.acked⟩
  · simp [hhead]
  · simp only [List.length_append]
    omega
  · rw [List.drop_append_of_le_length hp]
    exact collect_append_ok hc (collect_cons_ok.mpr ⟨row, [], he, rfl, rfl⟩)
  · rw [numbered_append, hnumber, ← hr]
    exact hlast
  · show _ = (List.map _ (l.changes.insert (l.head + 1) row).rows).sum
    rw [hlast, List.map_append, List.sum_append, ← h.bytes]
    simp

theorem appendEffects_follows {effects hist : List ChangeKind} {p : Nat} {l l' : Log}
    (h : Follows hist p l) (ha : appendEffects effects l = .ok l') :
    Follows (hist ++ effects) p l' ∧ l'.consumers = l.consumers := by
  induction effects generalizing hist l with
  | nil =>
      cases ha
      rw [List.append_nil]
      exact ⟨h, rfl⟩
  | cons e es ih =>
      obtain ⟨head, hhead, ha⟩ := bind_eq_ok.mp ha
      obtain ⟨row, hrow, ha⟩ := bind_eq_ok.mp ha
      obtain ⟨bytes, hbytes, ha⟩ := bind_eq_ok.mp ha
      cases checkedAdd_ok hhead
      cases checkedAdd_ok hbytes
      have hnext := ih (h.append hrow) ha
      rw [List.append_assoc] at hnext
      exact hnext

/-! ## Pruning -/

/-- What pruning leaves alone. -/
def SameReaders (l l' : Log) : Prop :=
  l'.head = l.head ∧ l'.consumers = l.consumers

/-- The first row of the log is effect `p + 1`, and the other rows are the effects after it. -/
theorem Follows.first_row {hist : List ChangeKind} {p k : Nat} {row : Bytes} {l : Log}
    {rest : List (Nat × Bytes)} (h : Follows hist p l) (hrows : l.changes.rows = (k, row) :: rest) :
    k = p + 1 ∧ ∃ rows, collect ChangeKind.encode (hist.drop (p + 1)) = .ok rows ∧
      rest = numbered (p + 1 + 1) rows := by
  obtain ⟨rows, hc, hr⟩ := h.rows
  rw [hrows] at hr
  cases rows with
  | nil => cases hr
  | cons row' rows' =>
      cases hr
      have hdrop := collect_drop_ok hc 1
      rw [List.drop_drop] at hdrop
      exact ⟨rfl, rows', hdrop, rfl⟩

/-- The first row goes; every active consumer has acknowledged it. -/
theorem pruneRow_follows {hist : List ChangeKind} {p k : Nat} {row : Bytes} {s t : Store}
    {rest : List (Nat × Bytes)} (h : Follows hist p s.log)
    (hrows : s.log.changes.rows = (k, row) :: rest)
    (hacked : ∀ name c, s.log.consumers.get name = some c → c.active = true → k ≤ c.ackedSeq)
    (hp : pruneRow s k row = .ok t) :
    Follows hist (p + 1) t.log ∧ t.log.changes.rows = rest ∧ SameReaders s.log t.log := by
  have hrest := s.log.changes.rows_remove_head hrows
  have hlen := h.length_rows
  obtain ⟨rfl, rows, hc, hr⟩ := h.first_row hrows
  unfold pruneRow at hp
  split at hp
  · cases hp
  obtain ⟨snapshot, _, hp⟩ := bind_eq_ok.mp hp
  split at hp
  · cases hp
  cases hp
  refine ⟨⟨h.head, ?_, ⟨rows, hc, hrest.trans hr⟩, Nat.le_succ_of_le h.floor, ?_, hacked⟩,
    hrest, rfl, rfl⟩
  · rw [hrows, List.length_cons] at hlen
    have := h.head
    omega
  · show s.log.journalBytes - _ = (List.map _ (s.log.changes.remove (p + 1)).rows).sum
    rw [hrest, h.bytes, hrows, List.map_cons, List.sum_cons]
    exact Nat.add_sub_cancel_left _ _

/-- The slowest active consumer stands before every active one. -/
theorem slowest_le {l : Log} {name : String} {c : Consumer} (hget : l.consumers.get name = some c)
    (hactive : c.active = true) : l.slowest ≤ c.ackedSeq := by
  have hmem : c.ackedSeq ∈ l.acked :=
    List.mem_map.mpr ⟨(name, c), List.mem_filter.mpr ⟨(l.consumers.mem_rows_iff _ _).mpr hget, hactive⟩,
      rfl⟩
  unfold Log.slowest
  cases hmin : l.acked.min? with
  | none =>
      rw [List.min?_eq_none_iff] at hmin
      rw [hmin] at hmem
      cases hmem
  | some m => exact (List.min?_eq_some_iff.mp hmin).2 _ hmem

/-- `I p s` survives pruning: the removal of the first row takes it from `p` to `p + 1`, and it says
nothing of the log itself. -/
structure Kept (hist : List ChangeKind) (I : Nat → Store → Prop) : Prop where
  row : ∀ {p k : Nat} {row : Bytes} {s t : Store} {rest : List (Nat × Bytes)}, Follows hist p s.log →
    s.log.changes.rows = (k, row) :: rest → I p s → pruneRow s k row = .ok t → I (p + 1) t
  log : ∀ {p : Nat} {s : Store} (l : Log), I p s → I p { s with log := l }

theorem kept_true (hist : List ChangeKind) : Kept hist fun _ _ => True :=
  ⟨fun _ _ _ _ => trivial, fun _ _ => trivial⟩

section

variable {hist : List ChangeKind} {I : Nat → Store → Prop} (keeps : Kept hist I)

include keeps

/-- The rows up to `through` go, where every active consumer has acknowledged `through`. -/
theorem pruneRows_follows {p through : Nat} {s t : Store} {rows rest : List (Nat × Bytes)}
    (h : Follows hist p s.log) (hI : I p s) (hrows : s.log.changes.rows = rows ++ rest)
    (hle : ∀ r ∈ rows, r.1 ≤ through)
    (hacked : ∀ name c, s.log.consumers.get name = some c → c.active = true → through ≤ c.ackedSeq)
    (hp : pruneRows rows s = .ok t) :
    Follows hist (p + rows.length) t.log ∧ I (p + rows.length) t ∧ t.log.changes.rows = rest ∧
      SameReaders s.log t.log := by
  induction rows generalizing s p with
  | nil =>
      cases hp
      exact ⟨h, hI, hrows, rfl, rfl⟩
  | cons r rows ih =>
      obtain ⟨k, row⟩ := r
      obtain ⟨u, hu, hp⟩ := bind_eq_ok.mp hp
      have hk : k ≤ through := hle (k, row) List.mem_cons_self
      obtain ⟨hf, hrest, hhead, hsame⟩ := pruneRow_follows h hrows
        (fun name c hget hactive => hk.trans (hacked name c hget hactive)) hu
      obtain ⟨hf, hI, hrest, hhead', hsame'⟩ := ih hf (keeps.row h hrows hI hu) hrest
        (fun r hr => hle r (List.mem_cons_of_mem _ hr)) (hsame ▸ hacked) hp
      rw [List.length_cons, Nat.add_comm rows.length, ← Nat.add_assoc]
      exact ⟨hf, hI, hrest, hhead'.trans hhead, hsame'.trans hsame⟩

/-- `prune` up to a position every active consumer has acknowledged. Nothing is left of a log that is
pruned up to its head. -/
theorem prune_follows {p through : Nat} {s t : Store} (h : Follows hist p s.log) (hI : I p s)
    (hacked : ∀ name c, s.log.consumers.get name = some c → c.active = true → through ≤ c.ackedSeq)
    (hp : prune through s = .ok t) :
    (∃ p', Follows hist p' t.log ∧ I p' t) ∧ SameReaders s.log t.log ∧
      (s.log.head ≤ through → t.log.journalBytes = 0) := by
  obtain ⟨u, hu, hp⟩ := bind_eq_ok.mp hp
  cases hp
  obtain ⟨hf, hI, hrest, hsame⟩ := pruneRows_follows keeps h hI List.takeWhile_append_dropWhile.symm
    (fun r hr => by simpa using List.mem_takeWhile_imp hr) hacked hu
  refine ⟨⟨_, hf.withFloor, keeps.log _ hI⟩, hsame, fun hhead => ?_⟩
  -- every row is numbered at most `head`
  have hnone : s.log.changes.rows.dropWhile (fun r => decide (r.1 ≤ through)) = [] := by
    rw [List.dropWhile_eq_nil_iff]
    intro r hr
    have hlen := h.length_rows
    obtain ⟨rows, _, hnum⟩ := h.rows
    rw [hnum] at hr hlen
    have hb := (numbered_bounds hr).2
    rw [length_numbered] at hlen
    have hp := h.head ▸ h.pruned
    exact decide_eq_true (by omega)
  show u.log.journalBytes = 0
  rw [hf.bytes, hrest, hnone]
  rfl

theorem pruneAcked_follows {p : Nat} {s t : Store} (h : Follows hist p s.log) (hI : I p s)
    (hp : pruneAcked s = .ok t) :
    (∃ p', Follows hist p' t.log ∧ I p' t) ∧ SameReaders s.log t.log ∧
      (s.log.head ≤ s.log.slowest → t.log.journalBytes = 0) :=
  prune_follows keeps h hI (fun _ _ => slowest_le) hp

end

/-! ## The size limit -/

theorem Follows.withConsumers {hist : List ChangeKind} {p : Nat} {l : Log} (h : Follows hist p l)
    (generation : Nat) {consumers : Table String Consumer}
    (hacked : ∀ name c, consumers.get name = some c → c.active = true → p ≤ c.ackedSeq) :
    Follows hist p { l with consumerGeneration := generation, consumers := consumers } :=
  { h with acked := hacked }

/-- A consumer that is not behind the pruned rows may be put in. -/
theorem Follows.acked_insert {hist : List ChangeKind} {p : Nat} {l : Log} (h : Follows hist p l)
    {name : String} {c : Consumer} (hc : c.active = true → p ≤ c.ackedSeq) :
    ∀ name' c', (l.consumers.insert name c).get name' = some c' → c'.active = true →
      p ≤ c'.ackedSeq := by
  intro name' c' hget hactive
  rw [Table.get_insert] at hget
  split at hget
  · cases hget
    exact hc hactive
  · exact h.acked name' c' hget hactive

theorem mem_of_oldest {cs : List (String × Consumer)} {c : String × Consumer}
    (h : oldest cs = some c) : c ∈ cs := by
  induction cs with
  | nil => cases h
  | cons d cs ih =>
      simp only [oldest] at h
      split at h
      · cases h
        exact List.mem_cons_self
      · rename_i e he
        split at h
        · exact List.mem_cons_of_mem _ (ih (he.trans h))
        · cases h
          exact List.mem_cons_self

/-- The active consumers that have not read the whole log. -/
def Log.lagging (l : Log) : Nat :=
  (l.consumers.rows.filter fun r => r.2.active && decide (r.2.ackedSeq < l.head)).length

/-- Giving up a consumer that lags leaves fewer of them. -/
theorem lagging_giveUp {l : Log} {name : String} {c : Consumer}
    (hget : l.consumers.get name = some c) (hactive : c.active = true) (hlag : c.ackedSeq < l.head) :
    Log.lagging { l with consumers := l.consumers.insert name (giveUp l.head c) } < l.lagging := by
  refine l.consumers.length_filter_insert_lt _ hget (by simp [hactive, hlag]) ?_
  unfold giveUp
  split <;> simp

/-- The consumer `enforce` gives up is an active one at the slowest position. -/
theorem oldest_slowest {l : Log} {name : String} {c : Consumer}
    (h : oldest (l.consumers.rows.filter fun r => r.2.active && r.2.ackedSeq == l.slowest)
      = some (name, c)) :
    l.consumers.get name = some c ∧ c.active = true ∧ c.ackedSeq = l.slowest := by
  obtain ⟨hmem, hc⟩ := List.mem_filter.mp (mem_of_oldest h)
  rw [Bool.and_eq_true, beq_iff_eq] at hc
  exact ⟨(l.consumers.mem_rows_iff _ _).mp hmem, hc⟩

section

variable {hist : List ChangeKind} {I : Nat → Store → Prop} (keeps : Kept hist I)

include keeps

/-- The loop keeps the log complete, and with a turn for each lagging consumer and one more it ends
within the limit. -/
theorem enforceLoop_follows {p max fuel : Nat} {s t : Store} (h : Follows hist p s.log) (hI : I p s)
    (he : enforceLoop max fuel s = .ok t) :
    (∃ p', Follows hist p' t.log ∧ I p' t) ∧ (s.log.lagging < fuel → t.log.journalBytes ≤ max) := by
  induction fuel generalizing s p with
  | zero =>
      cases he
      exact ⟨⟨p, h, hI⟩, fun hlt => absurd hlt (Nat.not_lt_zero _)⟩
  | succ fuel ih =>
      unfold enforceLoop at he
      split at he
      · cases he
        exact ⟨⟨p, h, hI⟩, fun _ => ‹_›⟩
      obtain ⟨u, hu, he⟩ := bind_eq_ok.mp he
      obtain ⟨⟨p', hf, hI⟩, ⟨hhead, hsame⟩, hall⟩ := pruneAcked_follows keeps h hI hu
      dsimp only at he
      split at he
      · cases he
        exact ⟨⟨p', hf, hI⟩, fun _ => ‹_›⟩
      · rename_i hbig
        split at he
        · cases he
        rename_i name c hold
        obtain ⟨hget, hactive, hslow⟩ := oldest_slowest hold
        have hgive : (giveUp u.log.head c).active = true → p' ≤ (giveUp u.log.head c).ackedSeq := by
          unfold giveUp
          split
          · exact fun _ => hf.head ▸ hf.pruned
          · intro hfalse
            cases hfalse
        have hnext := ih (s := { u with log := { u.log with
            consumers := u.log.consumers.insert name (giveUp u.log.head c) } })
          (hf.withConsumers u.log.consumerGeneration (hf.acked_insert hgive)) (keeps.log _ hI) he
        refine ⟨hnext.1, fun hfuel => hnext.2 ?_⟩
        -- the log is not empty, so its slowest consumer has not read all of it
        have hlag : c.ackedSeq < u.log.head := by
          by_contra hge
          have hsl : u.log.slowest = s.log.slowest := by
            unfold Log.slowest Log.acked
            rw [hhead, hsame]
          have := hall (by omega)
          omega
        have hless := lagging_giveUp hget hactive hlag
        have hsame' : u.log.lagging = s.log.lagging := by
          unfold Log.lagging
          rw [hhead, hsame]
        exact lt_of_lt_of_le hless (by omega)

/-- **The size limit holds at the end of `enforce`**: it never stops early. -/
theorem enforce_follows {p : Nat} {s t : Store} {retention : Retention} (h : Follows hist p s.log)
    (hI : I p s) (he : enforce retention s = .ok t) :
    (∃ p', Follows hist p' t.log ∧ I p' t) ∧ ∀ max, retention.max = some max → t.log.journalBytes ≤ max := by
  unfold enforce at he
  split at he
  · rename_i hnone
    cases he
    refine ⟨⟨p, h, hI⟩, fun max hmax => ?_⟩
    rw [hnone] at hmax
    cases hmax
  · rename_i max hsome
    obtain ⟨hf, hle⟩ := enforceLoop_follows keeps h hI he
    refine ⟨hf, fun max' hmax => ?_⟩
    rw [hsome] at hmax
    cases hmax
    exact hle (Nat.lt_succ_of_le (List.length_filter_le _ _))

end

/-! ## Transactions -/

section

variable {out : Outside} {serde : Serde}

/-- What recording a transaction changed: the log, the last writes and the tables of keys. -/
theorem record_ok {effects : List ChangeKind} {s t : Store} (h : record out serde effects s = .ok t) :
    IdContract.validate out effects s = .ok () ∧ ∃ u, Unique.validate out serde effects s = .ok u ∧
      ∃ lastWrite l, appendEffects effects s.log = .ok l ∧
        t = { u with lastWrite := lastWrite, log := l.withFloor } := by
  obtain ⟨_, hid, h⟩ := bind_eq_ok.mp h
  obtain ⟨u, hu, h⟩ := bind_eq_ok.mp h
  obtain ⟨v, hv, h⟩ := bind_eq_ok.mp h
  obtain ⟨l, hl, h⟩ := bind_eq_ok.mp h
  cases h
  obtain ⟨lastWrite, rfl⟩ := applyLastWrites_only hv
  have hlog : u.log = s.log := by
    obtain ⟨_, _, rfl⟩ := Unique.validate_keysOnly out serde hu
    rfl
  exact ⟨hid, u, hu, lastWrite, l, hlog ▸ hl, rfl⟩

theorem record_follows {effects hist : List ChangeKind} {p : Nat} {s t : Store}
    (h : Follows hist p s.log) (hr : record out serde effects s = .ok t) :
    Follows (hist ++ effects) p t.log := by
  obtain ⟨_, u, _, lastWrite, l, hl, rfl⟩ := record_ok hr
  exact (appendEffects_follows h hl).1.withFloor

/-- What a committed transaction did, in the order it did it. -/
theorem writeWithSink_ok {α : Type} {retention : Retention}
    {f : Store → Result (α × Store × List ChangeKind)} {s t : Store} {output : α}
    (h : writeWithSink out serde retention f s = .ok (output, t)) :
    ∃ u effects v w, f s = .ok (output, u, effects) ∧ record out serde effects u = .ok v ∧
      pruneAcked v = .ok w ∧ enforce retention w = .ok t := by
  obtain ⟨⟨o, u, effects⟩, hf, h⟩ := bind_eq_ok.mp h
  obtain ⟨v, hv, h⟩ := bind_eq_ok.mp h
  obtain ⟨w, hw, h⟩ := bind_eq_ok.mp h
  obtain ⟨x, hx, h⟩ := bind_eq_ok.mp h
  cases h
  exact ⟨u, effects, v, w, hf, hv, hw, hx⟩

/-- A committed transaction appends its effects and ends within the size limit. -/
theorem writeWithSink_follows {α : Type} {retention : Retention}
    {f : Store → Result (α × Store × List ChangeKind)} {s t u : Store} {output : α}
    {effects hist : List ChangeKind} {I : Nat → Store → Prop} (keeps : Kept (hist ++ effects) I) {p : Nat}
    (hf : f s = .ok (output, u, effects)) (h : Follows hist p u.log)
    (hI : ∀ v, record out serde effects u = .ok v → I p v)
    (hw : writeWithSink out serde retention f s = .ok (output, t)) :
    (∃ p', Follows (hist ++ effects) p' t.log ∧ I p' t) ∧
      ∀ max, retention.max = some max → t.log.journalBytes ≤ max := by
  obtain ⟨u', effects', v, w, hf', hv, hprune, he⟩ := writeWithSink_ok hw
  rw [hf] at hf'
  cases hf'
  obtain ⟨⟨p', hw, hI⟩, _⟩ := pruneAcked_follows keeps (record_follows h hv) (hI v hv) hprune
  exact enforce_follows keeps hw hI he

/-! ## Consumers -/

theorem checkToken_ok {token : ConsumerToken} {uuid : Bytes} {record : Option Consumer} {c : Consumer}
    (h : checkToken token uuid record = .ok c) : record = some c ∧ c.active = true := by
  unfold checkToken at h
  split at h
  · cases h
  split at h
  · cases h
  rename_i hvalid
  split at h
  · cases h
  cases h
  refine ⟨rfl, ?_⟩
  by_contra hinactive
  exact hvalid (.inr (.inr (by simpa using hinactive)))

section

variable {hist effects : List ChangeKind} {I : Nat → Store → Prop} (keeps : Kept hist I) {p : Nat}
  {s u : Store} (h : Follows hist p s.log) (hI : I p s)

include keeps h hI

theorem register_follows {name : String} {internal : Bool} {token : ConsumerToken}
    (hr : register name internal s = .ok (token, u, effects)) :
    effects = [] ∧ ∃ p', Follows hist p' u.log ∧ I p' u := by
  unfold register at hr
  split at hr
  · cases hr
  split at hr
  · cases hr
  obtain ⟨generation, _, hr⟩ := bind_eq_ok.mp hr
  cases hr
  exact ⟨rfl, p, h.withConsumers generation (h.acked_insert fun _ => h.head ▸ h.pruned),
    keeps.log _ hI⟩

theorem ackWrite_follows {token : ConsumerToken} {seq : Nat}
    (ha : ackWrite token seq s = .ok ((), u, effects)) :
    effects = [] ∧ ∃ p', Follows hist p' u.log ∧ I p' u := by
  obtain ⟨c, hc, ha⟩ := bind_eq_ok.mp ha
  obtain ⟨hget, hactive⟩ := checkToken_ok hc
  split at ha
  · cases ha
  rename_i hseq
  rw [not_or, not_lt] at hseq
  obtain ⟨v, hv, ha⟩ := bind_eq_ok.mp ha
  cases ha
  -- an acknowledgement never goes back
  have hp : p ≤ seq := (h.acked _ _ hget hactive).trans hseq.1
  refine ⟨rfl, (pruneAcked_follows keeps (p := p) ?_ ?_ hv).1⟩
  · exact h.withConsumers s.log.consumerGeneration (h.acked_insert fun _ => hp)
  · exact keeps.log _ hI

theorem unregister_follows {name : String} (hr : unregister name s = .ok ((), u, effects)) :
    effects = [] ∧ ∃ p', Follows hist p' u.log ∧ I p' u := by
  unfold unregister at hr
  split at hr
  · cases hr
  obtain ⟨v, hv, hr⟩ := bind_eq_ok.mp hr
  cases hr
  have hacked : ∀ name' c, (s.log.consumers.remove name).get name' = some c → c.active = true →
      p ≤ c.ackedSeq := by
    intro name' c hget
    rw [Table.get_remove] at hget
    split at hget
    · cases hget
    · exact h.acked name' c hget
  refine ⟨rfl, (pruneAcked_follows keeps (p := p) ?_ ?_ hv).1⟩
  · exact h.withConsumers s.log.consumerGeneration hacked
  · exact keeps.log _ hI

theorem disableIndexConsumer_follows (hr : disableIndexConsumer s = .ok ((), u, effects)) :
    effects = [] ∧ ∃ p', Follows hist p' u.log ∧ I p' u := by
  unfold disableIndexConsumer at hr
  split at hr
  · cases hr
    exact ⟨rfl, p, h, hI⟩
  split at hr
  · cases hr
    refine ⟨rfl, p, h.withConsumers s.log.consumerGeneration (h.acked_insert ?_),
      keeps.log _ hI⟩
    intro hfalse
    cases hfalse
  · cases hr
    exact ⟨rfl, p, h, hI⟩

theorem consumerCall_write_follows {call : ConsumerCall} {output : Option ConsumerToken}
    (hc : call.write s = .ok (output, u, effects)) :
    effects = [] ∧ ∃ p', Follows hist p' u.log ∧ I p' u := by
  cases call with
  | register name internal =>
      obtain ⟨⟨token, rest⟩, hr, hc⟩ := bind_eq_ok.mp hc
      cases hc
      exact register_follows keeps h hI hr
  | ack token seq =>
      obtain ⟨⟨_, rest⟩, hr, hc⟩ := bind_eq_ok.mp hc
      cases hc
      exact ackWrite_follows keeps h hI hr
  | unregister name =>
      obtain ⟨⟨_, rest⟩, hr, hc⟩ := bind_eq_ok.mp hc
      cases hc
      exact unregister_follows keeps h hI hr
  | disableIndexConsumer =>
      obtain ⟨⟨_, rest⟩, hr, hc⟩ := bind_eq_ok.mp hc
      cases hc
      exact disableIndexConsumer_follows keeps h hI hr

/-- A committed transaction on consumers. -/
theorem consumerCall_follows {call : ConsumerCall} {output : Option ConsumerToken} {t : Store}
    {retention : Retention}
    (hrecord : ∀ {p : Nat} (u : Store), I p u → ∀ v, record out serde [] u = .ok v → I p v)
    (hw : writeWithSink out serde retention call.write s = .ok (output, t)) :
    ∃ p', Follows hist p' t.log ∧ I p' t := by
  obtain ⟨u, effects, _, _, hfs, _⟩ := writeWithSink_ok hw
  obtain ⟨rfl, p', hu, hI⟩ := consumerCall_write_follows keeps h hI hfs
  have hkeeps : Kept (hist ++ []) I := by rwa [List.append_nil]
  have hdone := (writeWithSink_follows hkeeps hfs hu (hrecord u hI) hw).1
  rwa [List.append_nil] at hdone

end

end

/-! ## Runs -/

section

variable (out : Outside) (serde : Serde)

/-- `Run out serde hist s`: committed transactions lead from a database whose log is new to `s`, and
`hist` lists all effects they recorded. A transaction that fails is no step: it leaves the database as
it was. The write of user data is any function that does not touch the log itself. -/
inductive Run : List ChangeKind → Store → Prop
  | start (uuid : Bytes) (s : Store) : Run [] (initializeLog uuid s)
  | write {hist effects : List ChangeKind} {s t u : Store} (run : Run hist s) (retention : Retention)
      {α : Type} (f : Store → Result (α × Store × List ChangeKind)) {output : α}
      (writes : f s = .ok (output, u, effects)) (log : u.log = s.log)
      (committed : writeWithSink out serde retention f s = .ok (output, t)) : Run (hist ++ effects) t
  | consumer {hist : List ChangeKind} {s t : Store} (run : Run hist s) (retention : Retention)
      (call : ConsumerCall) {output : Option ConsumerToken}
      (committed : writeWithSink out serde retention call.write s = .ok (output, t)) : Run hist t

variable {out serde}

theorem run_follows {hist : List ChangeKind} {s : Store} (h : Run out serde hist s) :
    ∃ p, Follows hist p s.log := by
  induction h with
  | start uuid s => exact ⟨0, follows_initial uuid s⟩
  | write run retention f writes log committed ih =>
      obtain ⟨p, hp⟩ := ih
      obtain ⟨⟨p', hp', -⟩, -⟩ :=
        writeWithSink_follows (kept_true _) writes (log ▸ hp) (fun _ _ => trivial) committed
      exact ⟨p', hp'⟩
  | consumer run retention call committed ih =>
      obtain ⟨p, hp⟩ := ih
      obtain ⟨p', hp', -⟩ := consumerCall_follows (kept_true _) hp trivial
        (fun _ _ _ _ => trivial) committed
      exact ⟨p', hp'⟩

/-- The token of a consumer's record passes while the record is active and needs no rebuild. -/
theorem checkToken_of_record {name : String} {uuid : Bytes} {c : Consumer} (hactive : c.active = true)
    (hrebuild : c.needsRebuild = false) :
    checkToken ⟨uuid, name, c.generation⟩ uuid (some c) = .ok c := by
  simp [checkToken, hactive, hrebuild]

/-- The rows after a position the log still follows are the effects after it. -/
theorem Follows.after {hist : List ChangeKind} {p : Nat} {l : Log} (h : Follows hist p l) {after : Nat}
    (hp : p ≤ after) : ∃ rows, collect ChangeKind.encode (hist.drop after) = .ok rows ∧
      l.after after = numbered (after + 1) rows := by
  obtain ⟨rows, hc, hr⟩ := h.rows
  have hdrop := collect_drop_ok hc (after - p)
  rw [List.drop_drop, Nat.add_sub_cancel' hp] at hdrop
  refine ⟨_, hdrop, ?_⟩
  have hsub : after + 1 - (p + 1) = after - p := by omega
  rw [Log.after, hr, numbered_filter_above (by omega), hsub]

/-- A read at a position the log still follows. -/
theorem readChanges_follows {hist : List ChangeKind} {p : Nat} {s : Store} (h : Follows hist p s.log)
    {name : String} {c : Consumer} (hget : s.log.consumers.get name = some c)
    (hactive : c.active = true) (hrebuild : c.needsRebuild = false) {after : Nat} (hp : p ≤ after)
    (hhead : after ≤ s.log.head) (limit : Nat) :
    readChanges s ⟨s.log.dbUuid, name, c.generation⟩ after limit
      = .ok (changesFrom (after + 1) ((hist.drop after).take limit)) := by
  obtain ⟨rows, hc, hr⟩ := h.after hp
  have hfloor := h.floor
  simp only [readChanges, hget, checkToken_of_record hactive hrebuild, ok_bind]
  rw [if_neg (by omega), if_neg (by omega), hr, numbered_take]
  exact decodeRows_encoded (collect_take_ok hc limit) (after + 1)

/-- **A follower never misses or repeats a change.** Whatever transactions were committed, a read
with the token of an active consumer that needs no rebuild, from any position between its last
acknowledgement and the head, gives the first `limit` effects committed after that position, under
consecutive numbers and in commit order. -/
theorem follower_reads_every_change {hist : List ChangeKind} {s : Store} (h : Run out serde hist s)
    {name : String} {c : Consumer} (hget : s.log.consumers.get name = some c)
    (hactive : c.active = true) (hrebuild : c.needsRebuild = false) {after : Nat}
    (hacked : c.ackedSeq ≤ after) (hhead : after ≤ s.log.head) (limit : Nat) :
    readChanges s ⟨s.log.dbUuid, name, c.generation⟩ after limit
      = .ok (changesFrom (after + 1) ((hist.drop after).take limit)) := by
  obtain ⟨p, hp⟩ := run_follows h
  exact readChanges_follows hp hget hactive hrebuild ((hp.acked name c hget hactive).trans hacked)
    hhead limit

end

/-- A new database. -/
def sampleStore : Store :=
  initializeLog [7] ⟨⟨0, 0, 0, 0, [], .empty, .empty⟩, 0, .empty, .empty, .empty, .empty, .empty,
    .empty, .empty, .empty⟩

/-- A write of two rows. -/
def sampleWrite (s : Store) : Result (Unit × Store × List ChangeKind) :=
  .ok ((), s.setRows "notes" (.ofList [("a", [1]), ("b", [2])]),
    [.upsert "notes" "a" [1], .upsert "notes" "b" [2]])

/-- The database after a committed transaction. -/
def committedTo {α : Type} (s : Store) : Result (α × Store) → Store
  | .ok p => p.2
  | .error _ => s

def sampleToken : ConsumerToken := ⟨[7], "c", 1⟩

/-- A consumer is registered, two rows are written, the first one is acknowledged. -/
def sampleRegistered : Store :=
  committedTo sampleStore
    (writeWithSink (.listed []) .simple .default (ConsumerCall.register "c" false).write sampleStore)

def sampleWritten : Store :=
  committedTo sampleRegistered
    (writeWithSink (.listed []) .simple (.limit 100) sampleWrite sampleRegistered)

def sampleAcked : Store :=
  committedTo sampleWritten
    (writeWithSink (.listed []) .simple .unlimited (ConsumerCall.ack sampleToken 1).write sampleWritten)

theorem sampleAcked_reads_second :
    readChanges sampleAcked sampleToken 1 5 = .ok [⟨2, .upsert "notes" "b" [2]⟩] := by
  have registered : writeWithSink (.listed []) .simple .default
      (ConsumerCall.register "c" false).write sampleStore = .ok (some sampleToken, sampleRegistered) := rfl
  have written : writeWithSink (.listed []) .simple (.limit 100) sampleWrite sampleRegistered
      = .ok ((), sampleWritten) := rfl
  have acked : writeWithSink (.listed []) .simple .unlimited
      (ConsumerCall.ack sampleToken 1).write sampleWritten = .ok (none, sampleAcked) := rfl
  have run := (((Run.start [7] _).consumer .default _ registered).write (.limit 100) sampleWrite rfl rfl
    written).consumer .unlimited _ acked
  exact follower_reads_every_change run (c := ⟨1, 1, true, false, false⟩) rfl rfl rfl (Nat.le_refl 1)
    (by decide) 5

end CloveDb.Journal
