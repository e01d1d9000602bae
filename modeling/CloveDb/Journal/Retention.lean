/-
# CloveDb.Journal.Retention — the size limit gives up only consumers that hold too much

`prune`, `prune_acked` and `enforce` of `journal.rs`. A log is *exact* when its rows are encoded effects
under consecutive numbers up to the head and its counter is their size. Pruning an exact log cannot
fail: every row decodes and the counter covers it (`prune_counted`). A turn of `enforce` that is still
above the limit after pruning leaves the rows after the slowest active consumer and nothing else, so
this consumer holds more than the limit and stands before the head; giving it up leaves fewer that do.
-/
import CloveDb.Journal.Replay
import Mathlib.Algebra.Order.BigOperators.Group.List

namespace CloveDb.Journal

open CloveDb.Lib

/-! ## Exact logs -/

/-- What a row counts for in `journal_bytes`. -/
def rowSize (r : Nat × Bytes) : Nat := 8 + r.2.length

/-- The bytes of the retained rows after a position. -/
def Log.bytesAfter (l : Log) (seq : Nat) : Nat := ((l.after seq).map rowSize).sum

namespace Log

/-- The rows of the log are the effects `kinds`, numbered from `p + 1` up to the head. -/
structure Counted (kinds : List ChangeKind) (p : Nat) (l : Log) : Prop where
  rows : ∃ rows, collect ChangeKind.encode kinds = .ok rows ∧ l.changes.rows = numbered (p + 1) rows
  head : l.head = p + kinds.length
  bytes : l.journalBytes = (l.changes.rows.map rowSize).sum

/-- The invariant of the log. -/
def Exact (l : Log) : Prop := ∃ kinds p, l.Counted kinds p

theorem Counted.mem_bounds {kinds : List ChangeKind} {p : Nat} {l : Log} (h : l.Counted kinds p)
    {r : Nat × Bytes} (hr : r ∈ l.changes.rows) : p < r.1 ∧ r.1 ≤ l.head := by
  obtain ⟨rows, hrows, hnum⟩ := h.rows
  rw [hnum] at hr
  have hbounds := numbered_bounds hr
  rw [collect_length hrows] at hbounds
  have := h.head
  omega

/-- The consumers may be any. -/
theorem Counted.withConsumers {kinds : List ChangeKind} {p : Nat} {l : Log} (h : l.Counted kinds p)
    (consumers : Table String Consumer) : Log.Counted kinds p { l with consumers := consumers } :=
  ⟨h.rows, h.head, h.bytes⟩

theorem Counted.withFloor {kinds : List ChangeKind} {p : Nat} {l : Log} (h : l.Counted kinds p) :
    l.withFloor.Counted kinds p :=
  ⟨h.rows, h.head, h.bytes⟩

end Log

/-! ## Pruning an exact log -/

/-- The images that some effects name are deleted. -/
def dropImages (s : Store) (kinds : List ChangeKind) : Store :=
  kinds.foldl (fun s e => dropImage s e.snapshot) s

@[simp] theorem log_dropImage (s : Store) (snapshot : Option String) :
    (dropImage s snapshot).log = s.log := by
  cases snapshot <;> rfl

/-- Dropping an image and writing the log do not meet. -/
theorem dropImage_withLog (s : Store) (l : Log) (snapshot : Option String) :
    dropImage { s with log := l } snapshot = { dropImage s snapshot with log := l } := by
  cases snapshot <;> rfl

theorem dropImages_withLog (s : Store) (l : Log) (kinds : List ChangeKind) :
    dropImages { s with log := l } kinds = { dropImages s kinds with log := l } := by
  induction kinds generalizing s with
  | nil => rfl
  | cons e kinds ih =>
      show dropImages (dropImage { s with log := l } e.snapshot) kinds = _
      rw [dropImage_withLog, ih]
      rfl

theorem head_encode {e : ChangeKind} {row : Bytes} (h : e.encode = .ok row) : row.head? = some 1 := by
  unfold ChangeKind.encode ChangeKind.encodeParts at h
  obtain ⟨_, _, h⟩ := bind_eq_ok.mp h
  obtain ⟨_, _, h⟩ := bind_eq_ok.mp h
  obtain ⟨_, _, h⟩ := bind_eq_ok.mp h
  cases h
  rfl

/-- The row of an effect that the counter covers goes, with the image it names. -/
theorem pruneRow_encoded {e : ChangeKind} {row : Bytes} (he : e.encode = .ok row) {s : Store} {k : Nat}
    (hbytes : 8 + row.length ≤ s.log.journalBytes) :
    pruneRow s k row = .ok { dropImage s e.snapshot with
      log := { s.log with
        journalBytes := s.log.journalBytes - (8 + row.length)
        changes := s.log.changes.remove k } } := by
  unfold pruneRow
  rw [if_neg (by simp [head_encode he]), snapshotOf_encode he, ok_bind, if_neg (by omega)]
  rfl

/-- The rows of the first effects go. Nothing else of the log changes. -/
theorem pruneRows_counted {taken kept : List ChangeKind} {p : Nat} {s : Store}
    (h : s.log.Counted (taken ++ kept) p) :
    ∃ rows t, collect ChangeKind.encode taken = .ok rows ∧
      pruneRows (numbered (p + 1) rows) s = .ok t ∧ t.log.Counted kept (p + taken.length) ∧
      t = { dropImages s taken with log := { s.log with
        journalBytes := t.log.journalBytes, changes := t.log.changes } } := by
  induction taken generalizing p s with
  | nil => exact ⟨[], s, rfl, rfl, h, rfl⟩
  | cons e taken ih =>
      obtain ⟨all, hall, hnum⟩ := h.rows
      obtain ⟨row, rest, hrow, hrest, rfl⟩ := collect_cons_ok.mp hall
      have hbytes := h.bytes
      rw [hnum, numbered, List.map_cons, List.sum_cons] at hbytes
      have hcover : 8 + row.length ≤ s.log.journalBytes := by
        rw [hbytes]
        exact Nat.le_add_right _ _
      have hone := pruneRow_encoded hrow (s := s) (k := p + 1) hcover
      -- the state after the first row, whose log holds the other effects
      have hnext : Log.Counted (taken ++ kept) (p + 1) { s.log with
          journalBytes := s.log.journalBytes - (8 + row.length)
          changes := s.log.changes.remove (p + 1) } := by
        have hremoved := s.log.changes.rows_remove_head hnum
        refine ⟨⟨rest, hrest, hremoved⟩, ?_, ?_⟩
        · have := h.head
          simp only [List.cons_append, List.length_cons] at this
          show s.log.head = _
          omega
        · show s.log.journalBytes - _ = (List.map rowSize (s.log.changes.remove (p + 1)).rows).sum
          rw [hremoved, hbytes]
          exact Nat.add_sub_cancel_left _ _
      obtain ⟨rows, t, hrows, ht, hcounted, heq⟩ := ih (s := { dropImage s e.snapshot with
        log := { s.log with
          journalBytes := s.log.journalBytes - (8 + row.length)
          changes := s.log.changes.remove (p + 1) } }) hnext
      refine ⟨row :: rows, t, collect_cons_ok.mpr ⟨row, rows, hrow, hrows, rfl⟩, ?_, ?_, ?_⟩
      · rw [numbered, pruneRows, hone, ok_bind]
        exact ht
      · rw [List.length_cons, Nat.add_comm taken.length, ← Nat.add_assoc]
        exact hcounted
      · rw [dropImages_withLog] at heq
        exact heq

theorem numbered_takeWhile {α : Type} (p through : Nat) (as : List α) :
    (numbered (p + 1) as).takeWhile (fun r => decide (r.1 ≤ through))
      = numbered (p + 1) (as.take (through - p)) := by
  induction as generalizing p with
  | nil => simp [numbered]
  | cons a as ih =>
      by_cases hle : p + 1 ≤ through
      · have hsub : through - p = through - (p + 1) + 1 := by omega
        rw [hsub, List.take_succ_cons, numbered, List.takeWhile_cons_of_pos (by simpa using hle), ih]
        rfl
      · have hsub : through - p = 0 := by omega
        rw [hsub, numbered, List.takeWhile_cons_of_neg (by simpa using hle)]
        rfl

/-- **`prune` of an exact log**: it succeeds, and what is left are the rows after `through`. -/
theorem prune_counted {kinds : List ChangeKind} {p : Nat} {s : Store} (h : s.log.Counted kinds p)
    (through : Nat) :
    ∃ t, prune through s = .ok t ∧
      t.log.Counted (kinds.drop (through - p)) (p + (kinds.take (through - p)).length) ∧
      t = { dropImages s (kinds.take (through - p)) with log := Log.withFloor { s.log with
        journalBytes := t.log.journalBytes, changes := t.log.changes } } := by
  rw [← List.take_append_drop (through - p) kinds] at h
  obtain ⟨rows, t, hrows, ht, hcounted, heq⟩ := pruneRows_counted h
  obtain ⟨all, hall, hnum⟩ := h.rows
  rw [List.take_append_drop] at hall
  have htaken := collect_take_ok hall (through - p)
  rw [hrows] at htaken
  cases htaken
  refine ⟨{ t with log := t.log.withFloor }, ?_, hcounted.withFloor, ?_⟩
  · unfold prune
    rw [hnum, numbered_takeWhile, ht]
    rfl
  · rw [heq]
    rfl

/-- The rows a pruned log has left are those after `through`. -/
theorem after_of_counted {kinds : List ChangeKind} {p through : Nat} {l l' : Log}
    (h : l.Counted kinds p)
    (h' : l'.Counted (kinds.drop (through - p)) (p + (kinds.take (through - p)).length)) :
    l'.changes.rows = l.after through := by
  obtain ⟨rows, hrows, hnum⟩ := h.rows
  obtain ⟨rows', hrows', hnum'⟩ := h'.rows
  rw [collect_drop_ok hrows] at hrows'
  cases hrows'
  have hlength := collect_length hrows
  rw [List.length_take, ← hlength] at hnum'
  by_cases hp : p ≤ through
  · unfold Log.after
    rw [hnum, hnum', numbered_filter_above (by omega), Nat.add_sub_add_right]
    by_cases hall : through - p ≤ rows.length
    · rw [Nat.min_eq_left hall, Nat.add_sub_cancel' hp]
    · rw [List.drop_eq_nil_of_le (by omega)]
      rfl
  · -- nothing was pruned, and every row is above
    have hzero : through - p = 0 := by omega
    rw [hzero, Nat.zero_min, Nat.add_zero, List.drop_zero, ← hnum] at hnum'
    rw [hnum']
    refine (List.filter_eq_self.mpr fun r hr => decide_eq_true ?_).symm
    have := (h.mem_bounds hr).1
    omega

/-- `prune_acked` of an exact log. -/
theorem pruneAcked_exact {s : Store} (h : s.log.Exact) :
    ∃ t, pruneAcked s = .ok t ∧ t.log.Exact ∧ SameReaders s.log t.log ∧
      t.log.changes.rows = s.log.after s.log.slowest := by
  obtain ⟨kinds, p, h⟩ := h
  obtain ⟨t, ht, hcounted, heq⟩ := prune_counted h s.log.slowest
  refine ⟨t, ht, ⟨_, _, hcounted⟩, ?_, after_of_counted h hcounted⟩
  rw [heq]
  exact ⟨rfl, rfl⟩

/-! ## One turn of the limit -/

theorem oldest_eq_none {cs : List (String × Consumer)} (h : oldest cs = none) : cs = [] := by
  cases cs with
  | nil => rfl
  | cons c cs =>
      simp only [oldest] at h
      split at h
      · cases h
      · split at h <;> cases h

/-- While the slowest position is before the head, some active consumer stands there. -/
theorem exists_oldest {l : Log} (h : l.slowest < l.head) :
    ∃ r, oldest (l.consumers.rows.filter fun r => r.2.active && r.2.ackedSeq == l.slowest) = some r := by
  cases hold : oldest (l.consumers.rows.filter fun r => r.2.active && r.2.ackedSeq == l.slowest) with
  | some r => exact ⟨r, rfl⟩
  | none =>
      have hempty := oldest_eq_none hold
      have hmin : l.acked.min? = some l.slowest := by
        cases hmin : l.acked.min? with
        | none => exact absurd h (by simp [Log.slowest, hmin])
        | some m => simp [Log.slowest, hmin]
      obtain ⟨r, hr, hacked⟩ := List.mem_map.mp (List.min?_mem hmin)
      obtain ⟨hmem, hactive⟩ := List.mem_filter.mp hr
      have hin : r ∈ l.consumers.rows.filter fun r => r.2.active && r.2.ackedSeq == l.slowest :=
        List.mem_filter.mpr ⟨hmem, by simp [hactive, hacked]⟩
      rw [hempty] at hin
      cases hin

/-- A log with fewer rows has fewer bytes after a position. -/
theorem bytesAfter_le {l l' : Log} (h : l'.changes.rows.Sublist l.changes.rows) (seq : Nat) :
    l'.bytesAfter seq ≤ l.bytesAfter seq :=
  ((h.filter _).map rowSize).sum_le_sum fun _ _ => Nat.zero_le _

/-- **One turn above the limit.** Pruning brings the log within it, or there is a consumer to give up:
an active one before the head, and the retained rows after its position are more than the limit. -/
theorem enforce_turn {s : Store} (h : s.log.Exact) (max : Nat) :
    ∃ u, pruneAcked s = .ok u ∧ u.log.Exact ∧ SameReaders s.log u.log ∧
      u.log.changes.rows.Sublist s.log.changes.rows ∧
      (u.log.journalBytes ≤ max ∨ max < u.log.journalBytes ∧ ∃ name c,
        oldest (u.log.consumers.rows.filter fun r => r.2.active && r.2.ackedSeq == u.log.slowest)
          = some (name, c) ∧
        s.log.consumers.get name = some c ∧ c.active = true ∧ c.ackedSeq < s.log.head ∧
        max < s.log.bytesAfter c.ackedSeq) := by
  obtain ⟨u, hu, hexact, ⟨hhead, hsame⟩, hrows⟩ := pruneAcked_exact h
  refine ⟨u, hu, hexact, ⟨hhead, hsame⟩, hrows ▸ List.filter_sublist, ?_⟩
  by_cases hfits : u.log.journalBytes ≤ max
  · exact .inl hfits
  have hslow : u.log.slowest = s.log.slowest := by
    unfold Log.slowest Log.acked
    rw [hhead, hsame]
  obtain ⟨kinds, p, hcounted⟩ := hexact
  have hbytes : u.log.journalBytes = s.log.bytesAfter s.log.slowest := by
    rw [hcounted.bytes, hrows]
    rfl
  -- a row is left, and its number lies between the slowest position and the head
  have hlag : u.log.slowest < u.log.head := by
    cases hleft : u.log.changes.rows with
    | nil =>
        have := hcounted.bytes
        rw [hleft] at this
        exact absurd this (by simp; omega)
    | cons r rest =>
        have hr : r ∈ u.log.changes.rows := hleft ▸ List.mem_cons_self
        have hhigh := (hcounted.mem_bounds hr).2
        rw [hrows] at hr
        have hlow := of_decide_eq_true (List.mem_filter.mp hr).2
        omega
  obtain ⟨⟨name, c⟩, hold⟩ := exists_oldest hlag
  obtain ⟨hget, hactive, hacked⟩ := oldest_slowest hold
  refine .inr ⟨by omega, name, c, hold, hsame ▸ hget, hactive, by omega, ?_⟩
  rw [hacked, hslow, ← hbytes]
  omega

/-! ## The loop -/

/-- What `enforce` may leave of `s`: a log within the limit, where a consumer that is not as it was
is one that held too much. -/
structure Fits (max : Nat) (s t : Store) : Prop where
  bytes : t.log.journalBytes ≤ max
  exact : t.log.Exact
  head : t.log.head = s.log.head
  consumers : ∀ name, t.log.consumers.get name = s.log.consumers.get name ∨
    ∃ c, s.log.consumers.get name = some c ∧ c.active = true ∧ c.ackedSeq < s.log.head ∧
      max < s.log.bytesAfter c.ackedSeq ∧
      t.log.consumers.get name = some (giveUp s.log.head c)

/-- A consumer that was given up is not given up again. -/
theorem giveUp_settled (head : Nat) (c : Consumer) :
    (giveUp head c).active = false ∨ (giveUp head c).ackedSeq = head := by
  unfold giveUp
  split
  · exact .inr rfl
  · exact .inl rfl

/-- Giving up one consumer and then what the rest of the loop does. -/
theorem Fits.afterGiveUp {max : Nat} {s u t : Store} {name : String} {c : Consumer}
    (hsame : SameReaders s.log u.log) (hrows : u.log.changes.rows.Sublist s.log.changes.rows)
    (hget : s.log.consumers.get name = some c) (hactive : c.active = true)
    (hlag : c.ackedSeq < s.log.head) (hheld : max < s.log.bytesAfter c.ackedSeq)
    (h : Fits max { u with log := { u.log with
      consumers := u.log.consumers.insert name (giveUp u.log.head c) } } t) : Fits max s t := by
  obtain ⟨hhead, hconsumers⟩ := hsame
  refine ⟨h.bytes, h.exact, h.head.trans hhead, fun other => ?_⟩
  have hother := h.consumers other
  simp only [hhead, hconsumers] at hother
  by_cases heq : other = name
  · subst heq
    rw [Table.get_insert_self] at hother
    refine .inr ⟨c, hget, hactive, hlag, hheld, ?_⟩
    rcases hother with hkept | ⟨d, hd, hdactive, hdlag, -⟩
    · exact hkept
    · cases hd
      rcases giveUp_settled s.log.head c with hoff | hon
      · rw [hoff] at hdactive
        cases hdactive
      · omega
  · rw [Table.get_insert_ne _ _ heq] at hother
    rcases hother with hkept | ⟨d, hd, hdactive, hdlag, hdheld, hgiven⟩
    · exact .inl hkept
    · exact .inr ⟨d, hd, hdactive, hdlag, hdheld.trans_le (bytesAfter_le hrows _), hgiven⟩

/-- **The loop ends within the limit**, after a turn for each lagging consumer and one more. -/
theorem enforceLoop_fits {s : Store} (h : s.log.Exact) (max : Nat) :
    ∃ t, Fits max s t ∧ ∀ fuel, s.log.lagging < fuel → enforceLoop max fuel s = .ok t := by
  -- each turn that goes on leaves fewer lagging consumers
  induction hn : s.log.lagging using Nat.strong_induction_on generalizing s with
  | _ n ih =>
    by_cases hfits : s.log.journalBytes ≤ max
    · refine ⟨s, ⟨hfits, h, rfl, fun _ => .inl rfl⟩, fun fuel hfuel => ?_⟩
      obtain ⟨fuel, rfl⟩ := Nat.exists_eq_succ_of_ne_zero (Nat.ne_zero_of_lt hfuel)
      rw [enforceLoop, if_pos hfits]
    obtain ⟨u, hu, hexact, hsame, hrows, hdone | ⟨hbig, name, c, hold, hget, hactive, hlag, hheld⟩⟩ :=
      enforce_turn h max
    · refine ⟨u, ⟨hdone, hexact, hsame.1, fun _ => .inl (by rw [hsame.2])⟩, fun fuel hfuel => ?_⟩
      obtain ⟨fuel, rfl⟩ := Nat.exists_eq_succ_of_ne_zero (Nat.ne_zero_of_lt hfuel)
      rw [enforceLoop, if_neg hfits, hu, ok_bind, if_pos hdone]
      rfl
    · have hless := lagging_giveUp (l := u.log) (hsame.2 ▸ hget) hactive (hsame.1 ▸ hlag)
      have hlagging : u.log.lagging = n := by
        rw [← hn]
        unfold Log.lagging
        rw [hsame.1, hsame.2]
      have hnext : Log.Exact { u.log with
          consumers := u.log.consumers.insert name (giveUp u.log.head c) } := by
        obtain ⟨kinds, p, hcounted⟩ := hexact
        exact ⟨kinds, p, hcounted.withConsumers _⟩
      obtain ⟨t, ht, hloop⟩ := ih _ (hlagging ▸ hless) (s := { u with log := { u.log with
        consumers := u.log.consumers.insert name (giveUp u.log.head c) } }) hnext rfl
      refine ⟨t, ht.afterGiveUp hsame hrows hget hactive hlag hheld, fun fuel hfuel => ?_⟩
      obtain ⟨fuel, rfl⟩ := Nat.exists_eq_succ_of_ne_zero (Nat.ne_zero_of_lt hfuel)
      rw [enforceLoop, if_neg hfits, hu, ok_bind, if_neg (Nat.not_le.mpr hbig), hold]
      exact hloop fuel (hless.trans_le (by omega))

/-- **Retention expires only whom it must, and always fits.** On an exact log with any consumers,
`enforce` ends without an error and within the limit, after at most one turn for each consumer and one
more. A consumer that is not as it was is an active one for which the retained rows after its position
were more than the limit; one that had read the whole log is never touched, and none is added. -/
theorem enforce_expires_only_holders {s : Store} (h : s.log.Exact) (retention : Retention) {max : Nat}
    (hmax : retention.max = some max) :
    ∃ t, enforce retention s = .ok t ∧
      (∀ fuel, s.log.consumers.rows.length < fuel → enforceLoop max fuel s = .ok t) ∧
      t.log.journalBytes ≤ max ∧
      (∀ name c, s.log.consumers.get name = some c →
        (t.log.consumers.get name ≠ some c → c.active = true ∧ max < s.log.bytesAfter c.ackedSeq ∧
          t.log.consumers.get name = some (giveUp s.log.head c)) ∧
        (c.ackedSeq = s.log.head → t.log.consumers.get name = some c)) ∧
      ∀ name, s.log.consumers.get name = none → t.log.consumers.get name = none := by
  obtain ⟨t, ht, hloop⟩ := enforceLoop_fits h max
  have hlagging : s.log.lagging ≤ s.log.consumers.rows.length := List.length_filter_le _ _
  have hfuel : ∀ fuel, s.log.consumers.rows.length < fuel → enforceLoop max fuel s = .ok t :=
    fun fuel hlt => hloop fuel (by omega)
  refine ⟨t, ?_, hfuel, ht.bytes, fun name c hc => ⟨fun hne => ?_, fun hhead => ?_⟩, fun name hnone => ?_⟩
  · unfold enforce
    rw [hmax]
    exact hfuel _ (Nat.lt_succ_self _)
  · rcases ht.consumers name with hkept | ⟨d, hd, hactive, -, hheld, hgiven⟩
    · exact absurd (hkept.trans hc) hne
    · rw [hc] at hd
      cases hd
      exact ⟨hactive, hheld, hgiven⟩
  · rcases ht.consumers name with hkept | ⟨d, hd, -, hlag, -⟩
    · exact hkept.trans hc
    · rw [hc] at hd
      cases hd
      omega
  · rcases ht.consumers name with hkept | ⟨d, hd, -⟩
    · exact hkept.trans hnone
    · rw [hnone] at hd
      cases hd

/-- One row is left: an outside consumer has not read it, the library's own has. -/
def sampleHeld : Store :=
  { sampleAcked with log := { sampleAcked.log with
    consumers := sampleAcked.log.consumers.insert "d" ⟨2, 2, true, true, false⟩ } }

theorem sampleHeld_exact : sampleHeld.log.Exact :=
  ⟨[.upsert "notes" "b" [2]], 1, ⟨⟨_, rfl, rfl⟩, rfl, rfl⟩⟩

theorem sampleHeld_expires_first :
    ∃ t, enforce (.limit 0) sampleHeld = .ok t ∧ t.log.journalBytes ≤ 0 ∧
      t.log.consumers.get "d" = some ⟨2, 2, true, true, false⟩ := by
  obtain ⟨t, ht, -, hbytes, hconsumers, -⟩ :=
    enforce_expires_only_holders sampleHeld_exact (.limit 0) rfl
  exact ⟨t, ht, hbytes, (hconsumers "d" _ rfl).2 rfl⟩

end CloveDb.Journal
