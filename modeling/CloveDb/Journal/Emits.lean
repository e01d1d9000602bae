/-
# CloveDb.Journal.Emits — every write reports what it does

`replay` folds recorded effects over the rows of all tables: an upsert sets a row, a delete removes
it, a reset replaces the table by the rows of its image. `Emits s u effects` says that a write which
takes `s` to `u` reports exactly the effects whose replay does the same to every user table. The
primitive steps of the transactions have it and it composes, so each transaction has it.
-/
import CloveDb.Journal.Follower
import CloveDb.Journal.Writes

namespace CloveDb.Journal

open CloveDb.Lib CloveDb.Fields

/-- The rows of all tables. -/
abbrev Rows := String → Table String Bytes

/-- An effect with the rows stored in the snapshot it names. -/
structure Recorded where
  kind : ChangeKind
  image : Table String Bytes

/-- The snapshot an effect refers to. -/
def ChangeKind.snapshot : ChangeKind → Option String
  | .tableReset _ snapshot => some snapshot
  | _ => none

/-- Effects with what `s` stores in the snapshots they name. -/
def recorded (s : Store) (effects : List ChangeKind) : List Recorded :=
  effects.map fun e => ⟨e, (e.snapshot.map s.rows).getD .empty⟩

def Recorded.apply (m : Rows) (r : Recorded) : Rows := fun table =>
  match r.kind with
  | .upsert t key value => if table = t then (m table).insert key value else m table
  | .delete t key => if table = t then (m table).remove key else m table
  | .tableReset t _ => if table = t then r.image else m table
  | _ => m table

/-- Fold recorded effects over the rows. -/
def replay (effects : List Recorded) (m : Rows) : Rows := effects.foldl Recorded.apply m

theorem replay_append (es es' : List Recorded) (m : Rows) :
    replay (es ++ es') m = replay es' (replay es m) := List.foldl_append

/-- Each effect is about one table. -/
theorem apply_congr (r : Recorded) {m m' : Rows} {table : String} (h : m table = m' table) :
    r.apply m table = r.apply m' table := by
  unfold Recorded.apply
  rw [h]

theorem replay_congr (es : List Recorded) {m m' : Rows} {table : String} (h : m table = m' table) :
    replay es m table = replay es m' table := by
  induction es generalizing m m' with
  | nil => exact h
  | cons r es ih => exact ih (apply_congr r h)

theorem recorded_append (s : Store) (es es' : List ChangeKind) :
    recorded s (es ++ es') = recorded s es ++ recorded s es' := List.map_append

/-- Stores that agree on the snapshots record the same. -/
theorem recorded_congr {s t : Store} {effects : List ChangeKind}
    (h : ∀ e ∈ effects, ∀ snapshot, e.snapshot = some snapshot → t.rows snapshot = s.rows snapshot) :
    recorded t effects = recorded s effects := by
  refine List.map_congr_left fun e he => ?_
  cases hs : e.snapshot with
  | none => rfl
  | some snapshot => simp [h e he snapshot hs]

/-! ## Names of images -/

theorem toList_resetName (n : Nat) : (resetName n).toList = "__reset_".toList ++ Nat.toDigits 10 n := by
  simp [resetName, Nat.toString_eq_ofList_toDigits]

theorem resetName_inj {m n : Nat} (h : resetName m = resetName n) : m = n := by
  have hlist := congrArg String.toList h
  rw [toList_resetName, toList_resetName] at hlist
  have hdigits := congrArg (fun ds => Nat.ofDigitChars 10 ds 0) (List.append_cancel_left hlist)
  simpa only [Nat.ofDigitChars_ten_toDigits] using hdigits

theorem reserved_resetName (n : Nat) : reserved (resetName n) = true := by
  unfold reserved
  rw [toList_resetName]
  rfl

/-- A user table is no image. -/
theorem ne_resetName {table : String} (h : reserved table = false) (n : Nat) :
    table ≠ resetName n := by
  rintro rfl
  rw [reserved_resetName] at h
  cases h

/-- No image has a number above the last one. -/
def Fresh (s : Store) : Prop := ∀ n, s.resetGeneration < n → s.rows (resetName n) = .empty

/-! ## What a write reports -/

/-- The write that takes `s` to `u` reports `effects`: their replay does to each user table what the
write did, also when it starts from other rows in a table that is reset on the way; and the
snapshots they name are new. -/
structure Emits (s u : Store) (effects : List ChangeKind) : Prop where
  log : u.log = s.log
  generation : s.resetGeneration ≤ u.resetGeneration
  user : ∀ (m : Rows) table, reserved table = false →
    m table = s.rows table ∨ (∃ snapshot, .tableReset table snapshot ∈ effects) →
      replay (recorded u effects) m table = u.rows table
  old : ∀ n, n ≤ s.resetGeneration → u.rows (resetName n) = s.rows (resetName n)
  fresh : Fresh u
  named : ∀ e ∈ effects, ∀ snapshot, e.snapshot = some snapshot →
    ∃ n, snapshot = resetName n ∧ s.resetGeneration < n ∧ n ≤ u.resetGeneration
  distinct : (effects.filterMap ChangeKind.snapshot).Nodup

namespace Emits

theorem refl {s : Store} (h : Fresh s) : Emits s s [] where
  log := rfl
  generation := Nat.le_refl _
  user := by
    rintro m table _ (hm | ⟨snapshot, hmem⟩)
    · exact hm
    · cases hmem
  old _ _ := rfl
  fresh := h
  named := by
    intro e he
    cases he
  distinct := List.nodup_nil

theorem trans {s u v : Store} {es es' : List ChangeKind} (h : Emits s u es) (h' : Emits u v es') :
    Emits s v (es ++ es') := by
  -- the second write leaves the images of the first alone
  have hsame : recorded v es = recorded u es := by
    refine recorded_congr fun e he snapshot hs => ?_
    obtain ⟨n, rfl, _, hn⟩ := h.named e he snapshot hs
    exact h'.old n hn
  refine ⟨h'.log.trans h.log, h.generation.trans h'.generation, ?_, ?_, h'.fresh, ?_, ?_⟩
  · intro m table htable hm
    rw [recorded_append, replay_append, hsame]
    refine h'.user _ table htable ?_
    rcases hm with hm | ⟨snapshot, hmem⟩
    · exact .inl (h.user m table htable (.inl hm))
    · rcases List.mem_append.mp hmem with hmem | hmem
      · exact .inl (h.user m table htable (.inr ⟨snapshot, hmem⟩))
      · exact .inr ⟨snapshot, hmem⟩
  · intro n hn
    rw [h'.old n (hn.trans h.generation), h.old n hn]
  · intro e he snapshot hs
    rcases List.mem_append.mp he with he | he
    · obtain ⟨n, hname, hlt, hle⟩ := h.named e he snapshot hs
      exact ⟨n, hname, hlt, hle.trans h'.generation⟩
    · obtain ⟨n, hname, hlt, hle⟩ := h'.named e he snapshot hs
      exact ⟨n, hname, h.generation.trans_lt hlt, hle⟩
  · rw [List.filterMap_append, List.nodup_append]
    refine ⟨h.distinct, h'.distinct, ?_⟩
    rintro a ha b hb rfl
    obtain ⟨e, he, hs⟩ := List.mem_filterMap.mp ha
    obtain ⟨e', he', hs'⟩ := List.mem_filterMap.mp hb
    obtain ⟨n, hname, _, hle⟩ := h.named e he a hs
    obtain ⟨n', hname', hlt, _⟩ := h'.named e' he' a hs'
    have := resetName_inj (hname.symm.trans hname')
    omega

/-- A write that changes only tables that are then reset. -/
theorem edit {s s' u : Store} {effects : List ChangeKind} (h : Emits s' u effects)
    (hlog : s'.log = s.log) (hgen : s'.resetGeneration = s.resetGeneration)
    (hrows : ∀ table, s'.rows table = s.rows table ∨
      (reserved table = false ∧ ∃ snapshot, .tableReset table snapshot ∈ effects)) :
    Emits s u effects where
  log := h.log.trans hlog
  generation := hgen ▸ h.generation
  user := by
    intro m table htable hm
    refine h.user m table htable ?_
    rcases hrows table with hsame | ⟨_, hreset⟩
    · exact hm.imp_left fun hm => hm.trans hsame.symm
    · exact .inr hreset
  old := by
    intro n hn
    rw [h.old n (hgen ▸ hn)]
    rcases hrows (resetName n) with hsame | ⟨hfalse, _⟩
    · exact hsame
    · exact absurd rfl (ne_resetName hfalse n)
  fresh := h.fresh
  named := by
    intro e he snapshot hs
    rw [← hgen]
    exact h.named e he snapshot hs
  distinct := h.distinct

/-- Effects that name no snapshot, on a store whose images stay. -/
theorem plain {s u : Store} {effects : List ChangeKind} (hs : Fresh s) (hlog : u.log = s.log)
    (hgen : u.resetGeneration = s.resetGeneration) (hnone : ∀ e ∈ effects, e.snapshot = none)
    (himages : ∀ n, u.rows (resetName n) = s.rows (resetName n))
    (huser : ∀ (m : Rows) table, reserved table = false → m table = s.rows table →
      replay (recorded u effects) m table = u.rows table) : Emits s u effects where
  log := hlog
  generation := hgen ▸ Nat.le_refl _
  user := by
    rintro m table htable (hm | ⟨snapshot, hmem⟩)
    · exact huser m table htable hm
    · cases hnone _ hmem
  old n _ := himages n
  fresh n hn := by
    rw [himages n]
    exact hs n (hgen ▸ hn)
  named := by
    intro e he snapshot hsome
    rw [hnone e he] at hsome
    cases hsome
  distinct := by
    have : effects.filterMap ChangeKind.snapshot = [] := List.filterMap_eq_nil_iff.mpr hnone
    rw [this]
    exact List.nodup_nil

end Emits

/-! ## The steps of the transactions -/

theorem rows_setRows (s : Store) (table other : String) (r : Table String Bytes) :
    (s.setRows table r).rows other = if other = table then r else s.rows other := by
  split
  · rename_i h
    rw [h, s.rows_setRows_self]
  · rename_i h
    exact s.rows_setRows_ne r h

/-- A write to one user table with effects that do the same. -/
theorem emits_setRows {s : Store} (hs : Fresh s) {table : String} (ht : reserved table = false)
    {r : Table String Bytes} {effects : List ChangeKind} (hnone : ∀ e ∈ effects, e.snapshot = none)
    (hreplay : ∀ (m : Rows) t, m t = s.rows t →
      replay (recorded (s.setRows table r) effects) m t = if t = table then r else s.rows t) :
    Emits s (s.setRows table r) effects := by
  refine .plain hs rfl rfl hnone (fun n => s.rows_setRows_ne r (ne_resetName ht n).symm) ?_
  intro m t _ hm
  rw [hreplay m t hm, rows_setRows]

theorem emits_upsert {s : Store} (hs : Fresh s) {table : String} (ht : reserved table = false)
    (key : String) (value : Bytes) :
    Emits s (s.setRows table ((s.rows table).insert key value)) [.upsert table key value] := by
  refine emits_setRows hs ht (by simp [ChangeKind.snapshot]) fun m t hm => ?_
  show (if t = table then (m t).insert key value else m t) = _
  rw [hm]
  split
  · rename_i h
    rw [h]
  · rfl

/-- A delete is reported when the row was there. -/
theorem emits_delete {s : Store} (hs : Fresh s) {table : String} (ht : reserved table = false)
    (key : String) :
    Emits s (s.setRows table ((s.rows table).remove key))
      (if ((s.rows table).get key).isSome then [.delete table key] else []) := by
  split
  · refine emits_setRows hs ht (by simp [ChangeKind.snapshot]) fun m t hm => ?_
    show (if t = table then (m t).remove key else m t) = _
    rw [hm]
    split
    · rename_i h
      rw [h]
    · rfl
  · rename_i hnone
    rw [Option.not_isSome_iff_eq_none] at hnone
    refine emits_setRows hs ht (by simp) fun m t hm => ?_
    rw [(s.rows table).remove_of_get_none hnone]
    show m t = _
    rw [hm]
    split
    · rename_i h
      rw [h]
    · rfl

/-! ### References -/

def ChangeKind.aboutBlob : ChangeKind → Bool
  | .blobPut .. => true
  | .blobDelete .. => true
  | _ => false

theorem replay_aboutBlob {s : Store} {effects : List ChangeKind}
    (h : ∀ e ∈ effects, e.aboutBlob = true) (m : Rows) : replay (recorded s effects) m = m := by
  induction effects with
  | nil => rfl
  | cons e es ih =>
      have he := h e List.mem_cons_self
      have hid : Recorded.apply m ⟨e, (e.snapshot.map s.rows).getD .empty⟩ = m := by
        cases e <;> first | rfl | cases he
      show replay (recorded s es) (Recorded.apply m _) = m
      rw [hid]
      exact ih fun e' he' => h e' (List.mem_cons_of_mem _ he')

/-- The references change, with effects about them only. -/
def RefsOnly (s u : Store) (effects : List ChangeKind) : Prop :=
  (∃ refs, u = { s with refs := refs }) ∧ ∀ e ∈ effects, e.aboutBlob = true

theorem RefsOnly.refl (s : Store) : RefsOnly s s [] := by
  refine ⟨⟨s.refs, rfl⟩, ?_⟩
  intro e he
  cases he

theorem RefsOnly.trans {s u v : Store} {es es' : List ChangeKind} (h : RefsOnly s u es)
    (h' : RefsOnly u v es') : RefsOnly s v (es ++ es') := by
  obtain ⟨⟨refs, rfl⟩, hes⟩ := h
  obtain ⟨⟨refs', rfl⟩, hes'⟩ := h'
  exact ⟨⟨refs', rfl⟩, fun e he => (List.mem_append.mp he).elim (hes e) (hes' e)⟩

theorem RefsOnly.emits {s u : Store} {effects : List ChangeKind} (h : RefsOnly s u effects)
    (hs : Fresh s) : Emits s u effects := by
  obtain ⟨⟨refs, rfl⟩, hes⟩ := h
  refine .plain hs rfl rfl (fun e he => ?_) (fun _ => rfl) fun m table _ hm => ?_
  · have := hes e he
    cases e <;> first | rfl | cases this
  · rw [replay_aboutBlob hes]
    exact hm

section

variable {mgr : Manager} {serde : Serde}

theorem removeRef_refsOnly (s : Store) (table id : String) :
    RefsOnly s (removeRef serde s table id).1 (removeRef serde s table id).2 := by
  unfold removeRef
  split
  · exact .refl s
  · exact ⟨⟨_, rfl⟩, by simp [ChangeKind.aboutBlob]⟩

theorem dropRefs_refsOnly (table : String) (keys : List (String × String)) (s : Store) :
    RefsOnly s (dropRefs serde table keys s).1 (dropRefs serde table keys s).2 := by
  induction keys generalizing s with
  | nil => exact .refl s
  | cons k rest ih =>
      unfold dropRefs
      split
      · exact (removeRef_refsOnly s table k.2).trans (ih _)
      · exact ih s

theorem validateBlobRows_refsOnly {s u : Store} {table : String} {effects : List ChangeKind}
    (h : validateBlobRows mgr serde s table = .ok (u, effects)) : RefsOnly s u effects := by
  unfold validateBlobRows at h
  split at h
  · cases h
    exact .refl _
  · obtain ⟨_, _, h⟩ := bind_eq_ok.mp h
    obtain ⟨keys, _, h⟩ := bind_eq_ok.mp h
    have hd := @dropRefs_refsOnly serde table keys s
    rw [show dropRefs serde table keys s = (u, effects) from Except.ok.inj h] at hd
    exact hd

theorem putRefs_refsOnly (prepared : List (String × String × BlobRef)) (s : Store) :
    RefsOnly s (putRefs serde prepared s).1 (putRefs serde prepared s).2 := by
  induction prepared generalizing s with
  | nil => exact .refl s
  | cons r rest ih =>
      have hput : RefsOnly s (putRef serde s r.1 r.2.1 r.2.2).1 [(putRef serde s r.1 r.2.1 r.2.2).2] :=
        ⟨⟨_, rfl⟩, by simp [putRef, ChangeKind.aboutBlob]⟩
      exact hput.trans (ih _)

/-! ### Whole tables -/

/-- A reset stores the rows of the table under a new name. -/
theorem captureReset_emits {s u : Store} {table : String} {effects : List ChangeKind} (hs : Fresh s)
    (ht : reserved table = false) (h : captureReset serde s table = .ok (u, effects)) :
    Emits s u effects ∧ ∃ snapshot, .tableReset table snapshot ∈ effects := by
  obtain ⟨generation, hgen, h⟩ := bind_eq_ok.mp h
  obtain ⟨_, _, h⟩ := bind_eq_ok.mp h
  cases h
  cases checkedAdd_ok hgen
  have himage : (s.rows table).rows.foldl (fun t r => t.insert r.1 r.2)
      (s.rows (resetName (s.resetGeneration + 1))) = s.rows table := by
    rw [hs _ (Nat.lt_succ_self _)]
    exact (s.rows table).ofList_rows
  have hrows : ∀ other, (s.setRows (resetName (s.resetGeneration + 1)) (s.rows table)).rows other
      = if other = resetName (s.resetGeneration + 1) then s.rows table else s.rows other :=
    fun other => rows_setRows s _ other _
  refine ⟨?_, _, List.mem_cons_self⟩
  dsimp only
  rw [himage]
  refine ⟨rfl, Nat.le_succ _, ?_, ?_, ?_, ?_, List.pairwise_singleton _ _⟩
  · intro m t htu hm
    show (if t = table then (s.setRows _ (s.rows table)).rows (resetName (s.resetGeneration + 1))
      else m t) = (s.setRows _ (s.rows table)).rows t
    rw [hrows, hrows, if_pos rfl, if_neg (ne_resetName htu _)]
    split
    · rename_i heq
      rw [heq]
    · rename_i hne
      rcases hm with hm | ⟨snapshot, hmem⟩
      · exact hm
      · cases List.mem_singleton.mp hmem
        exact absurd rfl hne
  · intro n hn
    refine (hrows _).trans (if_neg fun heq => ?_)
    have := resetName_inj heq
    omega
  · intro n (hn : s.resetGeneration + 1 < n)
    refine ((hrows _).trans (if_neg fun heq => ?_)).trans (hs n (by omega))
    have := resetName_inj heq
    omega
  · intro e he snapshot hsome
    cases List.mem_singleton.mp he
    cases hsome
    exact ⟨_, rfl, Nat.lt_succ_self _, Nat.le_refl _⟩

/-- The attachments of a table are checked and its image is taken. -/
theorem resetAll_emits {tables : List String} {s u : Store} {effects : List ChangeKind} (hs : Fresh s)
    (ht : ∀ table ∈ tables, reserved table = false)
    (h : resetAll mgr serde tables s = .ok (u, effects)) :
    Emits s u effects ∧ ∀ table ∈ tables, ∃ snapshot, .tableReset table snapshot ∈ effects := by
  induction tables generalizing s effects with
  | nil =>
      cases h
      refine ⟨.refl hs, ?_⟩
      intro table hmem
      cases hmem
  | cons table rest ih =>
      obtain ⟨⟨v, removed⟩, hv, h⟩ := bind_eq_ok.mp h
      obtain ⟨⟨w, reset⟩, hw, h⟩ := bind_eq_ok.mp h
      obtain ⟨⟨x, more⟩, hx, h⟩ := bind_eq_ok.mp h
      cases h
      have hv := (validateBlobRows_refsOnly hv).emits hs
      obtain ⟨hw, snapshot, hmem⟩ := captureReset_emits hv.fresh (ht table List.mem_cons_self) hw
      obtain ⟨hx, hall⟩ := ih hw.fresh (fun t h => ht t (List.mem_cons_of_mem _ h)) hx
      refine ⟨(hv.trans hw).trans hx, fun t hmemt => ?_⟩
      rcases List.mem_cons.mp hmemt with rfl | hmemt
      · exact ⟨snapshot, List.mem_append_left _ (List.mem_append_right _ hmem)⟩
      · obtain ⟨snapshot', hmem'⟩ := hall t hmemt
        exact ⟨snapshot', List.mem_append_right _ hmem'⟩

/-! ### The transactions -/

theorem applyWrites_emits {writes : List Write} {s u : Store} {effects : List ChangeKind}
    (hs : Fresh s) (ht : ∀ w ∈ writes, reserved w.1 = false)
    (h : applyWrites mgr serde writes s = .ok (u, effects)) : Emits s u effects := by
  induction writes generalizing s effects with
  | nil =>
      cases h
      exact .refl hs
  | cons w rest ih =>
      obtain ⟨table, key, value⟩ := w
      unfold applyWrites at h
      split at h
      · cases h
      obtain ⟨⟨v, more⟩, hv, h⟩ := bind_eq_ok.mp h
      cases h
      have hone := emits_upsert hs (ht (table, key, value) List.mem_cons_self) key value
      exact hone.trans (ih hone.fresh (fun w h => ht w (List.mem_cons_of_mem _ h)) hv)

theorem applyDelete_emits {s : Store} (hs : Fresh s) {table : String} (ht : reserved table = false)
    (key : String) :
    Emits s (applyDelete mgr serde s table key).2.1 (applyDelete mgr serde s table key).2.2 := by
  have hdelete := emits_delete hs ht key
  unfold applyDelete
  dsimp only
  split
  · exact hdelete.trans ((removeRef_refsOnly _ table key).emits hdelete.fresh)
  · exact hdelete

theorem applyDeletes_emits {deletes : List Del} {s : Store} (hs : Fresh s)
    (ht : ∀ d ∈ deletes, reserved d.1 = false) :
    Emits s (applyDeletes mgr serde deletes s).2.1 (applyDeletes mgr serde deletes s).2.2 := by
  induction deletes generalizing s with
  | nil => exact .refl hs
  | cons d rest ih =>
      obtain ⟨table, key⟩ := d
      have hone := @applyDelete_emits mgr serde s hs table (ht (table, key) List.mem_cons_self) key
      exact hone.trans (ih hone.fresh fun d h => ht d (List.mem_cons_of_mem _ h))

theorem applyWrite_emits {writes : List Write} {deletes : List Del} {s u : Store} {removed : List Bool}
    {effects : List ChangeKind} (hs : Fresh s) (hw : ∀ w ∈ writes, reserved w.1 = false)
    (hd : ∀ d ∈ deletes, reserved d.1 = false)
    (h : applyWrite mgr serde writes deletes s = .ok (removed, u, effects)) : Emits s u effects := by
  obtain ⟨⟨v, written⟩, hv, h⟩ := bind_eq_ok.mp h
  cases h
  have hv := applyWrites_emits hs hw hv
  exact hv.trans (applyDeletes_emits hv.fresh hd)

theorem replaceWrite_emits {table : String} {entries : List (String × Bytes)} {s u : Store}
    {effects : List ChangeKind} (hs : Fresh s) (ht : reserved table = false)
    (h : replaceWrite mgr serde table entries s = .ok ((), u, effects)) : Emits s u effects := by
  obtain ⟨⟨v, removed⟩, hv, h⟩ := bind_eq_ok.mp h
  obtain ⟨⟨w, reset⟩, hw, h⟩ := bind_eq_ok.mp h
  cases h
  have hfresh : Fresh (s.setRows table (.ofList entries)) := by
    intro n hn
    rw [s.rows_setRows_ne _ (ne_resetName ht n).symm]
    exact hs n hn
  have hv := (validateBlobRows_refsOnly hv).emits hfresh
  obtain ⟨hw, snapshot, hmem⟩ := captureReset_emits hv.fresh ht hw
  refine (hv.trans hw).edit rfl rfl fun t => ?_
  by_cases heq : t = table
  · exact .inr ⟨heq ▸ ht, snapshot, heq ▸ List.mem_append_right _ hmem⟩
  · exact .inl (s.rows_setRows_ne _ heq)

/-- Only the rows of some tables, and the references, differ. -/
structure Edited (touched : List String) (s u : Store) : Prop where
  log : u.log = s.log
  generation : u.resetGeneration = s.resetGeneration
  rows : ∀ table, table ∉ touched → u.rows table = s.rows table

namespace Edited

theorem refl (touched : List String) (s : Store) : Edited touched s s := ⟨rfl, rfl, fun _ _ => rfl⟩

theorem trans {touched : List String} {s u v : Store} (h : Edited touched s u)
    (h' : Edited touched u v) : Edited touched s v :=
  ⟨h'.log.trans h.log, h'.generation.trans h.generation,
    fun t ht => (h'.rows t ht).trans (h.rows t ht)⟩

theorem setRows {touched : List String} (s : Store) {table : String} (ht : table ∈ touched)
    (r : Table String Bytes) : Edited touched s (s.setRows table r) :=
  ⟨rfl, rfl, fun t hn => s.rows_setRows_ne r fun heq => hn (heq ▸ ht)⟩

theorem ofRefs {touched : List String} {s u : Store} {effects : List ChangeKind}
    (h : RefsOnly s u effects) : Edited touched s u := by
  obtain ⟨⟨refs, rfl⟩, _⟩ := h
  exact ⟨rfl, rfl, fun _ _ => rfl⟩

theorem fresh {touched : List String} {s u : Store} (h : Edited touched s u) (hs : Fresh s)
    (ht : ∀ table ∈ touched, reserved table = false) : Fresh u := by
  intro n hn
  rw [h.rows _ fun hmem => absurd rfl (ne_resetName (ht _ hmem) n)]
  exact hs n (h.generation ▸ hn)

end Edited

theorem rewriteDeletes_edited {touched : List String} {deletes : List Del} (s : Store)
    (ht : ∀ d ∈ deletes, d.1 ∈ touched) :
    Edited touched s (rewriteDeletes mgr serde deletes s).1 ∧
      ∀ e ∈ (rewriteDeletes mgr serde deletes s).2, e.aboutBlob = true := by
  induction deletes generalizing s with
  | nil =>
      refine ⟨.refl touched s, ?_⟩
      intro e he
      cases he
  | cons d rest ih =>
      have hrow := Edited.setRows s (ht d List.mem_cons_self) ((s.rows d.1).remove d.2)
      have hrest : ∀ d ∈ rest, d.1 ∈ touched := fun d h => ht d (List.mem_cons_of_mem _ h)
      unfold rewriteDeletes
      dsimp only
      split
      · have href := @removeRef_refsOnly serde (s.setRows d.1 ((s.rows d.1).remove d.2)) d.1 d.2
        obtain ⟨hmore, heffects⟩ := ih (removeRef serde _ d.1 d.2).1 hrest
        exact ⟨(hrow.trans (.ofRefs href)).trans hmore,
          fun e he => (List.mem_append.mp he).elim (href.2 e) (heffects e)⟩
      · obtain ⟨hmore, heffects⟩ := ih (s.setRows d.1 ((s.rows d.1).remove d.2)) hrest
        exact ⟨hrow.trans hmore, heffects⟩

theorem rewriteRows_edited (touched : List String) {writes : List Write} (s : Store)
    (ht : ∀ w ∈ writes, w.1 ∈ touched) : Edited touched s (rewriteRows writes s) := by
  induction writes generalizing s with
  | nil => exact .refl touched s
  | cons w rest ih =>
      have hrow := Edited.setRows s (ht w List.mem_cons_self) ((s.rows w.1).insert w.2.1 w.2.2)
      exact hrow.trans (ih _ fun w h => ht w (List.mem_cons_of_mem _ h))

theorem mem_rewriteTables {writes : List Write} {deletes : List Del} {table : String} :
    table ∈ rewriteTables writes deletes ↔
      (∃ w ∈ writes, w.1 = table) ∨ ∃ d ∈ deletes, d.1 = table := by
  simp [rewriteTables, Table.mem_keys_ofList]

/-- The rows of a rewrite are written without effects of their own; then every table it touched is
reset. -/
theorem rewriteWrite_emits {writes : List Write} {deletes : List Del}
    {prepared : List (String × String × BlobRef)} {s u : Store} {effects : List ChangeKind}
    (hs : Fresh s) (ht : ∀ table ∈ rewriteTables writes deletes, reserved table = false)
    (h : rewriteWrite mgr serde writes deletes prepared s = .ok ((), u, effects)) :
    Emits s u effects := by
  unfold rewriteWrite at h
  dsimp only at h
  have hdel := @rewriteDeletes_edited mgr serde (rewriteTables writes deletes) deletes s
    fun d hd => mem_rewriteTables.mpr (.inr ⟨d, hd, rfl⟩)
  generalize rewriteDeletes mgr serde deletes s = deleted at h hdel
  have hput := @putRefs_refsOnly serde prepared deleted.1
  generalize putRefs serde prepared deleted.1 = put at h hput
  have hrows := rewriteRows_edited (rewriteTables writes deletes) put.1
    fun w hw => mem_rewriteTables.mpr (.inl ⟨w, hw, rfl⟩)
  generalize rewriteRows writes put.1 = v at h hrows
  obtain ⟨⟨w, resets⟩, hw, h⟩ := bind_eq_ok.mp h
  cases h
  have hedited := (hdel.1.trans (.ofRefs hput)).trans hrows
  have hfresh := hedited.fresh hs ht
  obtain ⟨hresets, hall⟩ := resetAll_emits hfresh ht hw
  -- the edited rows with the old references, from which the references follow
  have hrefs : Emits { v with refs := s.refs } v (deleted.2 ++ put.2) :=
    RefsOnly.emits ⟨⟨v.refs, rfl⟩, fun e he => (List.mem_append.mp he).elim (hdel.2 e) (hput.2 e)⟩ hfresh
  refine (hrefs.trans hresets).edit hedited.log hedited.generation fun t => ?_
  by_cases hmem : t ∈ rewriteTables writes deletes
  · obtain ⟨snapshot, hreset⟩ := hall t hmem
    exact .inr ⟨ht t hmem, snapshot, List.mem_append_right _ hreset⟩
  · exact .inl (hedited.rows t hmem)

theorem publishWrite_emits {table id : String} {blob : BlobRef} {row : Option Bytes} {s u : Store}
    {effects : List ChangeKind} (hs : Fresh s) (ht : reserved table = false)
    (h : publishWrite serde table id blob row s = .ok ((), u, effects)) : Emits s u effects := by
  have hput : Emits s (putRef serde s table id blob).1 [(putRef serde s table id blob).2] :=
    RefsOnly.emits ⟨⟨_, rfl⟩, by simp [putRef, ChangeKind.aboutBlob]⟩ hs
  unfold publishWrite at h
  dsimp only at h
  split at h
  · cases h
    exact hput
  · cases h
    exact hput.trans (emits_upsert hput.fresh ht id _)

end

end CloveDb.Journal
