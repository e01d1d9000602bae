/-
# CloveDb.Journal.Made — what the writes are made of

Every write of a transaction is a sequence of four kinds of step: the rows of a user table change, a
reference is put for a file that was prepared, a reference is removed, or a reset captures a table with
its references. What holds for each step and for one after the other holds for every write, so it is
proved by one induction over `Made` and not once for every transaction.
-/
import CloveDb.Journal.Emits

namespace CloveDb.Journal

open CloveDb.Lib CloveDb.Fields

def ChangeKind.aboutRow : ChangeKind → Bool
  | .upsert .. => true
  | .delete .. => true
  | _ => false

/-- The write that takes `s` to `u` is made of such steps and reports `effects`; the files its new
references name are `there`. -/
inductive Made (serde : Serde) (there : String → String → Prop) : Store → Store → List ChangeKind → Prop
  | refl (s : Store) : Made serde there s s []
  | rows {s u : Store} {table : String} (r : Table String Bytes) {effects more : List ChangeKind}
      (user : reserved table = false) (about : ∀ e ∈ effects, e.aboutRow = true)
      (rest : Made serde there (s.setRows table r) u more) : Made serde there s u (effects ++ more)
  | put {s u : Store} {table id : String} {reference : BlobRef} {more : List ChangeKind}
      (file : there table reference.id) (rest : Made serde there (putRef serde s table id reference).1 u more) :
      Made serde there s u ((putRef serde s table id reference).2 :: more)
  | remove {s u : Store} (table id : String) {more : List ChangeKind}
      (rest : Made serde there (removeRef serde s table id).1 u more) :
      Made serde there s u ((removeRef serde s table id).2 ++ more)
  | reset {s v u : Store} {table : String} {effects more : List ChangeKind}
      (captured : captureReset serde s table = .ok (v, effects)) (rest : Made serde there v u more) :
      Made serde there s u (effects ++ more)

section

variable {mgr : Manager} {serde : Serde} {there : String → String → Prop} {s u : Store}
  {effects : List ChangeKind}

theorem Made.trans {v : Store} {more : List ChangeKind} (h : Made serde there s u effects)
    (h' : Made serde there u v more) : Made serde there s v (effects ++ more) := by
  induction h with
  | refl s => exact h'
  | rows r user about _ ih =>
      rw [List.append_assoc]
      exact .rows r user about (ih h')
  | put file _ ih => exact .put file (ih h')
  | remove table id _ ih =>
      rw [List.append_assoc]
      exact .remove table id (ih h')
  | reset captured _ ih =>
      rw [List.append_assoc]
      exact .reset captured (ih h')

theorem Made.edited {table : String} (r : Table String Bytes) (user : reserved table = false)
    (about : ∀ e ∈ effects, e.aboutRow = true) : Made serde there s (s.setRows table r) effects := by
  have h : Made serde there s (s.setRows table r) (effects ++ []) := .rows r user about (.refl _)
  rwa [List.append_nil] at h

theorem Made.removed (table id : String) :
    Made serde there s (removeRef serde s table id).1 (removeRef serde s table id).2 := by
  have h : Made serde there s (removeRef serde s table id).1 ((removeRef serde s table id).2 ++ []) :=
    .remove table id (.refl _)
  rwa [List.append_nil] at h

theorem Made.captured {table : String} (h : captureReset serde s table = .ok (u, effects)) :
    Made serde there s u effects := by
  have h' : Made serde there s u (effects ++ []) := .reset h (.refl _)
  rwa [List.append_nil] at h'

/-- The rows of a table change, and nothing is reported. -/
theorem Made.silent {table : String} (user : reserved table = false) (r : Table String Bytes)
    (h : Made serde there (s.setRows table r) u effects) : Made serde there s u effects :=
  .rows r user (fun e he => absurd he List.not_mem_nil) h

/-! ## The steps of the transactions -/

theorem applyWrites_made {writes : List Write} (hw : ∀ w ∈ writes, reserved w.1 = false)
    (h : applyWrites mgr serde writes s = .ok (u, effects)) : Made serde there s u effects := by
  induction writes generalizing s effects with
  | nil =>
      cases h
      exact .refl _
  | cons w writes ih =>
      unfold applyWrites at h
      split at h
      · cases h
      obtain ⟨⟨v, more⟩, hv, h⟩ := bind_eq_ok.mp h
      cases h
      have hrow : Made serde there s (s.setRows w.1 ((s.rows w.1).insert w.2.1 w.2.2))
          [.upsert w.1 w.2.1 w.2.2] :=
        .edited _ (hw w List.mem_cons_self) (by simp [ChangeKind.aboutRow])
      exact hrow.trans (ih (fun w hmem => hw w (List.mem_cons_of_mem _ hmem)) hv)

theorem applyDelete_made (s : Store) {table : String} (ht : reserved table = false) (key : String) :
    Made serde there s (applyDelete mgr serde s table key).2.1 (applyDelete mgr serde s table key).2.2 := by
  have habout : ∀ found : Bool, ∀ e ∈ (if found then [.delete table key] else [] : List ChangeKind),
      e.aboutRow = true := by
    intro found
    cases found <;> simp [ChangeKind.aboutRow]
  unfold applyDelete
  dsimp only
  split
  · exact .rows _ ht (habout _) (.removed table key)
  · exact .edited _ ht (habout _)

theorem applyDeletes_made {deletes : List Del} (s : Store) (hd : ∀ d ∈ deletes, reserved d.1 = false) :
    Made serde there s (applyDeletes mgr serde deletes s).2.1 (applyDeletes mgr serde deletes s).2.2 := by
  induction deletes generalizing s with
  | nil => exact .refl s
  | cons d deletes ih =>
      exact (applyDelete_made s (hd d List.mem_cons_self) d.2).trans
        (ih _ fun d hmem => hd d (List.mem_cons_of_mem _ hmem))

theorem applyWrite_made {writes : List Write} {deletes : List Del} {removed : List Bool}
    (hw : ∀ w ∈ writes, reserved w.1 = false) (hd : ∀ d ∈ deletes, reserved d.1 = false)
    (h : applyWrite mgr serde writes deletes s = .ok (removed, u, effects)) : Made serde there s u effects := by
  obtain ⟨⟨v, written⟩, hv, h⟩ := bind_eq_ok.mp h
  cases h
  exact (applyWrites_made hw hv).trans (applyDeletes_made v hd)

theorem dropRefs_made (table : String) (keys : List (String × String)) (s : Store) :
    Made serde there s (dropRefs serde table keys s).1 (dropRefs serde table keys s).2 := by
  induction keys generalizing s with
  | nil => exact .refl s
  | cons k keys ih =>
      obtain ⟨t, k⟩ := k
      unfold dropRefs
      split
      · exact .remove table k (ih _)
      · exact ih s

theorem validateBlobRows_made {table : String} (h : validateBlobRows mgr serde s table = .ok (u, effects)) :
    Made serde there s u effects := by
  unfold validateBlobRows at h
  split at h
  · cases h
    exact .refl _
  obtain ⟨_, _, h⟩ := bind_eq_ok.mp h
  obtain ⟨keys, _, h⟩ := bind_eq_ok.mp h
  have hdrop : Made serde there s (dropRefs serde table keys s).1 (dropRefs serde table keys s).2 :=
    dropRefs_made table keys s
  rw [Except.ok.inj h] at hdrop
  exact hdrop

theorem resetAll_made {tables : List String} (h : resetAll mgr serde tables s = .ok (u, effects)) :
    Made serde there s u effects := by
  induction tables generalizing s effects with
  | nil =>
      cases h
      exact .refl _
  | cons table rest ih =>
      obtain ⟨⟨v, removed⟩, hv, h⟩ := bind_eq_ok.mp h
      obtain ⟨⟨w, reset⟩, hw, h⟩ := bind_eq_ok.mp h
      obtain ⟨⟨x, more⟩, hx, h⟩ := bind_eq_ok.mp h
      cases h
      rw [List.append_assoc]
      exact (validateBlobRows_made hv).trans (.reset hw (ih hx))

theorem replaceWrite_made {table : String} {entries : List (String × Bytes)} (ht : reserved table = false)
    (h : replaceWrite mgr serde table entries s = .ok ((), u, effects)) : Made serde there s u effects := by
  obtain ⟨⟨v, removed⟩, hv, h⟩ := bind_eq_ok.mp h
  obtain ⟨⟨w, reset⟩, hw, h⟩ := bind_eq_ok.mp h
  cases h
  exact .silent ht _ ((validateBlobRows_made hv).trans (.captured hw))

theorem rewriteDeletes_made {deletes : List Del} (s : Store) (hd : ∀ d ∈ deletes, reserved d.1 = false) :
    Made serde there s (rewriteDeletes mgr serde deletes s).1 (rewriteDeletes mgr serde deletes s).2 := by
  induction deletes generalizing s with
  | nil => exact .refl s
  | cons d deletes ih =>
      have hrest : ∀ d ∈ deletes, reserved d.1 = false := fun d hmem => hd d (List.mem_cons_of_mem _ hmem)
      unfold rewriteDeletes
      dsimp only
      split
      · exact .silent (hd d List.mem_cons_self) _ (.remove d.1 d.2 (ih _ hrest))
      · exact .silent (hd d List.mem_cons_self) _ (ih _ hrest)

theorem putRefs_made {prepared : List (String × String × BlobRef)} (s : Store)
    (hfiles : ∀ p ∈ prepared, there p.1 p.2.2.id) :
    Made serde there s (putRefs serde prepared s).1 (putRefs serde prepared s).2 := by
  induction prepared generalizing s with
  | nil => exact .refl s
  | cons p prepared ih =>
      exact .put (hfiles p List.mem_cons_self) (ih _ fun p hmem => hfiles p (List.mem_cons_of_mem _ hmem))

theorem rewriteRows_made {writes : List Write} (s : Store) (hw : ∀ w ∈ writes, reserved w.1 = false) :
    Made serde there s (rewriteRows writes s) [] := by
  induction writes generalizing s with
  | nil => exact .refl s
  | cons w writes ih =>
      exact .silent (hw w List.mem_cons_self) _ (ih _ fun w hmem => hw w (List.mem_cons_of_mem _ hmem))

theorem rewriteWrite_made {writes : List Write} {deletes : List Del} {prepared : List (String × String × BlobRef)}
    (ht : ∀ table ∈ rewriteTables writes deletes, reserved table = false)
    (hfiles : ∀ p ∈ prepared, there p.1 p.2.2.id)
    (h : rewriteWrite mgr serde writes deletes prepared s = .ok ((), u, effects)) :
    Made serde there s u effects := by
  obtain ⟨⟨v, resets⟩, hv, h⟩ := bind_eq_ok.mp h
  cases h
  have hw : ∀ w ∈ writes, reserved w.1 = false :=
    fun w hmem => ht _ (mem_rewriteTables.mpr (.inl ⟨w, hmem, rfl⟩))
  have hd : ∀ d ∈ deletes, reserved d.1 = false :=
    fun d hmem => ht _ (mem_rewriteTables.mpr (.inr ⟨d, hmem, rfl⟩))
  exact ((rewriteDeletes_made s hd).trans (putRefs_made _ hfiles)).trans
    ((rewriteRows_made _ hw).trans (resetAll_made hv))

theorem publishWrite_made {table id : String} {blob : BlobRef} {row : Option Bytes} (ht : reserved table = false)
    (hfile : there table blob.id) (h : publishWrite serde table id blob row s = .ok ((), u, effects)) :
    Made serde there s u effects := by
  unfold publishWrite at h
  cases row with
  | none =>
      cases h
      exact .put hfile (.refl _)
  | some value =>
      cases h
      exact .put hfile (.edited _ ht (by simp [ChangeKind.aboutRow]))

/-! ## What the writes leave alone -/

/-- The rows, the references and the images change, and nothing else. -/
def DataOnly (s u : Store) : Prop :=
  ∃ tables images refs generation, u = { s with
    tables := tables, blobImages := images, refs := refs, resetGeneration := generation }

namespace DataOnly

theorem refl (s : Store) : DataOnly s s := ⟨s.tables, s.blobImages, s.refs, s.resetGeneration, rfl⟩

theorem trans {v : Store} (h : DataOnly s u) (h' : DataOnly u v) : DataOnly s v := by
  obtain ⟨_, _, _, _, rfl⟩ := h
  obtain ⟨tables, images, refs, generation, rfl⟩ := h'
  exact ⟨tables, images, refs, generation, rfl⟩

end DataOnly

theorem removeRef_dataOnly (serde : Serde) (s : Store) (table id : String) :
    DataOnly s (removeRef serde s table id).1 := by
  unfold removeRef
  split
  · exact .refl s
  · exact ⟨_, _, _, _, rfl⟩

theorem captureReset_dataOnly {table : String} (h : captureReset serde s table = .ok (u, effects)) :
    DataOnly s u := by
  obtain ⟨generation, _, h⟩ := bind_eq_ok.mp h
  obtain ⟨_, _, h⟩ := bind_eq_ok.mp h
  cases h
  exact ⟨_, _, s.refs, generation, rfl⟩

theorem Made.dataOnly (h : Made serde (fun _ _ => True) s u effects) : DataOnly s u := by
  induction h with
  | refl s => exact .refl s
  | rows r _ _ _ ih => exact DataOnly.trans ⟨_, _, _, _, rfl⟩ ih
  | put _ _ ih => exact DataOnly.trans ⟨_, _, _, _, rfl⟩ ih
  | remove table id _ ih => exact (removeRef_dataOnly serde _ table id).trans ih
  | reset captured _ ih => exact (captureReset_dataOnly captured).trans ih

end

end CloveDb.Journal
