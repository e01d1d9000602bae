/-
# CloveDb.FieldChange.RowSteps — a row through the steps of its table

A row that was read is a list of fields with distinct names, each with the text of one value, and it is read back after
it is written. A step replaces the value of its field and leaves the others. So if no two steps are on one field, each
step meets the value the row came with, and the check, which compares that value with the final one, sees exactly what
the step did (`rewrite_verify_iff`). With two steps on one field it does not.
-/
import CloveDb.FieldChange.Analyze

namespace CloveDb.FieldChange

open CloveDb.Lib CloveDb.Lib.JsonText CloveDb.FieldCrypto

/-! ## Rows -/

namespace RawRow

variable {tools : RawTools}

/-- The fields have distinct names, and each text is one value. -/
structure Clean (tools : RawTools) (row : RawRow) : Prop where
  names : (row.map Prod.fst).Nodup
  values : ∀ e ∈ row, tools.IsValue e.2

theorem parse_clean {bytes : Bytes} {row : RawRow} (h : parse tools bytes = .ok row) : row.Clean tools := by
  rw [parse] at h
  split at h
  · cases h
  · rename_i entries hentries
    split at h
    · rename_i hnodup
      cases h
      refine ⟨by simpa [List.map_map, Function.comp_def] using hnodup, ?_⟩
      intro e he
      obtain ⟨e', he', rfl⟩ := List.mem_map.mp he
      exact isValue_parseObject _ hentries e' he'
    · cases h

theorem parse_encode {row : RawRow} (h : row.Clean tools) : parse tools (row.encode tools) = .ok row := by
  have hentries : ∃ entries, tools.parseObject (row.encode tools) = some entries ∧
      entries.map (fun e => (e.1, e.2.value)) = row := by
    cases row with
    | nil => exact ⟨[], rfl, rfl⟩
    | cons e row =>
        have hgood : ∀ m ∈ (e :: row).map fun e => (⟨e.1, [], e.2, []⟩ : Member), m.Good tools.toJsonText := by
          intro m hm
          obtain ⟨e', he', rfl⟩ := List.mem_map.mp hm
          exact ⟨h.values e' he', rfl, rfl⟩
        refine ⟨_, parseObject_text (by simp) hgood fun m _ => tools.print_quote m.name, ?_⟩
        rw [values_located, List.map_map]
        simp [Function.comp_def]
  obtain ⟨entries, hparse, hrow⟩ := hentries
  have hnames : entries.map Prod.fst = row.map Prod.fst := by
    rw [← hrow, List.map_map]
    rfl
  rw [parse, hparse]
  dsimp only
  rw [if_pos (by rw [hnames]; exact h.names), hrow]

theorem get_cons (e : String × Bytes) (row : RawRow) (key : String) :
    get (e :: row) key = if key = e.1 then some e.2 else row.get key := by
  obtain ⟨name, value⟩ := e
  rw [get, List.lookup_cons]
  by_cases h : key = name
  · simp [h]
  · have hkey : (key == name) = false := beq_false_of_ne h
    rw [hkey, if_neg h]
    rfl

theorem get_isSome {row : RawRow} {key : String} : (row.get key).isSome ↔ key ∈ row.map Prod.fst := by
  induction row with
  | nil => simp [get]
  | cons e row ih =>
      rw [get_cons, List.map_cons, List.mem_cons, ← ih]
      split <;> simp_all

theorem mem_of_get {row : RawRow} {key : String} {value : Bytes} (h : row.get key = some value) : (key, value) ∈ row := by
  induction row with
  | nil => cases h
  | cons e row ih =>
      rw [get_cons] at h
      split at h
      · rename_i hkey
        cases h
        exact hkey ▸ List.mem_cons_self
      · exact List.mem_cons_of_mem _ (ih h)

theorem get_replace_self {row : RawRow} {key : String} {raw : Bytes} (h : row.get key = some raw) (value : Bytes) :
    (row.replace key value).get key = some value := by
  induction row with
  | nil => cases h
  | cons e row ih =>
      rw [replace]
      split
      · rw [get_cons, if_pos rfl]
      · rename_i hne
        have hkey : key ≠ e.1 := fun heq => hne heq.symm
        rw [get_cons, if_neg hkey] at h ⊢
        exact ih h

theorem get_replace_ne (row : RawRow) {key other : String} (h : other ≠ key) (value : Bytes) :
    (row.replace key value).get other = row.get other := by
  induction row with
  | nil => rfl
  | cons e row ih =>
      rw [replace]
      split
      · rename_i heq
        have hkey : other ≠ e.1 := fun h' => h (h'.trans heq)
        rw [get_cons, get_cons, if_neg h, if_neg hkey]
      · rw [get_cons, get_cons, ih]

theorem names_replace (row : RawRow) (key : String) (value : Bytes) :
    (row.replace key value).map Prod.fst = row.map Prod.fst := by
  induction row with
  | nil => rfl
  | cons e row ih =>
      rw [replace]
      split
      · rename_i heq
        simp [heq]
      · simp [ih]

theorem filter_replace (row : RawRow) {key : String} {changed : List String} (h : key ∈ changed) (value : Bytes) :
    (row.replace key value).filter (fun e => e.1 ∉ changed) = row.filter fun e => e.1 ∉ changed := by
  induction row with
  | nil => rfl
  | cons e row ih =>
      rw [replace]
      split
      · rename_i heq
        simp [heq, h]
      · simp only [List.filter_cons, ih]

theorem Clean.replace {row : RawRow} (h : row.Clean tools) (key : String) {value : Bytes}
    (hvalue : tools.IsValue value) : (row.replace key value).Clean tools := by
  refine ⟨by rw [names_replace]; exact h.names, ?_⟩
  have hvalues := h.values
  clear h
  induction row with
  | nil => exact fun e he => absurd he List.not_mem_nil
  | cons e row ih =>
      intro e' he'
      rw [RawRow.replace] at he'
      split at he'
      · rcases List.mem_cons.mp he' with rfl | he'
        · exact hvalue
        · exact hvalues e' (List.mem_cons_of_mem _ he')
      · rcases List.mem_cons.mp he' with rfl | he'
        · exact hvalues _ List.mem_cons_self
        · exact ih (fun x hx => hvalues x (List.mem_cons_of_mem _ hx)) e' he'

theorem set_eq_ok {row row' : RawRow} {key : String} {json : Bytes} : row.set tools key json = .ok row' ↔
    ∃ raw, tools.parseValue json = some raw ∧ (row.get key).isSome ∧ row' = row.replace key raw.value := by
  rw [set]
  cases hparse : tools.parseValue json with
  | none => simp
  | some raw =>
      cases hget : row.get key with
      | none => simp
      | some old => simp [eq_comm]

end RawRow

/-! ## Steps -/

namespace Rewriter

variable {Root N : Type} {crypto : Primitives Root N} {tools : RawTools} {w : Rewriter Root} {i : Nat} {rowKey : String}
  {draw : Nat → N × Bytes}

/-- A step makes `value` of `raw`. -/
def Makes (crypto : Primitives Root N) (tools : RawTools) (w : Rewriter Root) (i : Nat) (rowKey : String)
    (draw : Nat → N × Bytes) (step : FieldStep) (raw value : Bytes) : Prop :=
  ∃ out parsed, w.make crypto tools i rowKey (draw step.id) step raw = .ok out ∧ tools.parseValue out = some parsed ∧
    value = parsed.value

theorem rewriteSteps_cons {step : FieldStep} {steps : List FieldStep} {row new : RawRow} :
    w.rewriteSteps crypto tools i rowKey draw (step :: steps) row = .ok new ↔
      ∃ raw value, row.get step.key = some raw ∧ w.Makes crypto tools i rowKey draw step raw value ∧
        w.rewriteSteps crypto tools i rowKey draw steps (row.replace step.key value) = .ok new := by
  rw [rewriteSteps]
  cases hget : row.get step.key with
  | none => simp
  | some raw =>
      constructor
      · intro h
        obtain ⟨out, hout, h⟩ := bind_eq_ok.mp h
        obtain ⟨row', hset, h⟩ := bind_eq_ok.mp h
        obtain ⟨parsed, hparsed, -, rfl⟩ := RawRow.set_eq_ok.mp hset
        exact ⟨raw, parsed.value, rfl, ⟨out, parsed, hout, hparsed, rfl⟩, h⟩
      · rintro ⟨raw', value, hraw, ⟨out, parsed, hout, hparsed, rfl⟩, h⟩
        cases hraw
        refine bind_eq_ok.mpr ⟨out, hout, bind_eq_ok.mpr ⟨_, RawRow.set_eq_ok.mpr ⟨parsed, hparsed, ?_, rfl⟩, h⟩⟩
        rw [hget]
        rfl

/-- What the steps leave: the names, the fields they are not on, and values that are values. -/
structure Leaves (tools : RawTools) (steps : List FieldStep) (row new : RawRow) : Prop where
  clean : row.Clean tools → new.Clean tools
  names : new.map Prod.fst = row.map Prod.fst
  others : ∀ changed : List String, (∀ s ∈ steps, s.key ∈ changed) →
    new.filter (fun e => e.1 ∉ changed) = row.filter fun e => e.1 ∉ changed
  get : ∀ key, key ∉ steps.map FieldStep.key → new.get key = row.get key

theorem rewriteSteps_leaves {steps : List FieldStep} {row new : RawRow}
    (h : w.rewriteSteps crypto tools i rowKey draw steps row = .ok new) : Leaves tools steps row new := by
  induction steps generalizing row with
  | nil =>
      cases h
      exact ⟨fun hclean => hclean, rfl, fun _ _ => rfl, fun _ _ => rfl⟩
  | cons step steps ih =>
      obtain ⟨raw, value, hget, ⟨out, parsed, -, hparsed, rfl⟩, hrest⟩ := rewriteSteps_cons.mp h
      have hleaves := ih hrest
      refine ⟨fun hclean => hleaves.clean (hclean.replace _ (isValue_parseValue _ hparsed)),
        hleaves.names.trans (RawRow.names_replace _ _ _), fun changed hchanged => ?_, fun key hkey => ?_⟩
      · rw [hleaves.others changed fun s hs => hchanged s (List.mem_cons_of_mem _ hs)]
        exact RawRow.filter_replace _ (hchanged step List.mem_cons_self) _
      · rw [List.map_cons, List.mem_cons, not_or] at hkey
        rw [hleaves.get key hkey.2, RawRow.get_replace_ne _ hkey.1]

/-- With one step a field, the steps succeed exactly if each makes a value of what the row came with, and those are the
values of the new row. -/
theorem rewriteSteps_iff {steps : List FieldStep} (hkeys : (steps.map FieldStep.key).Nodup) {row : RawRow} :
    (∀ new, w.rewriteSteps crypto tools i rowKey draw steps row = .ok new → ∀ s ∈ steps, ∃ raw value,
      row.get s.key = some raw ∧ w.Makes crypto tools i rowKey draw s raw value ∧ new.get s.key = some value) ∧
    ((∀ s ∈ steps, ∃ raw value, row.get s.key = some raw ∧ w.Makes crypto tools i rowKey draw s raw value) →
      ∃ new, w.rewriteSteps crypto tools i rowKey draw steps row = .ok new) := by
  induction steps generalizing row with
  | nil => exact ⟨fun _ _ s hs => absurd hs List.not_mem_nil, fun _ => ⟨row, rfl⟩⟩
  | cons step steps ih =>
      obtain ⟨hstep, hkeys⟩ := List.nodup_cons.mp hkeys
      have hne : ∀ s ∈ steps, s.key ≠ step.key := fun s hs heq => hstep (heq ▸ List.mem_map_of_mem hs)
      constructor
      · intro new h s hs
        obtain ⟨raw, value, hget, hmakes, hrest⟩ := rewriteSteps_cons.mp h
        rcases List.mem_cons.mp hs with rfl | hs
        · exact ⟨raw, value, hget, hmakes,
            ((rewriteSteps_leaves hrest).get _ hstep).trans (RawRow.get_replace_self hget _)⟩
        · obtain ⟨raw', value', hget', hrest'⟩ := (ih hkeys).1 new hrest s hs
          exact ⟨raw', value', (RawRow.get_replace_ne _ (hne s hs) _).symm.trans hget', hrest'⟩
      · intro h
        obtain ⟨raw, value, hget, hmakes⟩ := h step List.mem_cons_self
        have hrest : ∀ s ∈ steps, ∃ raw' value', (row.replace step.key value).get s.key = some raw' ∧
            w.Makes crypto tools i rowKey draw s raw' value' := by
          intro s hs
          obtain ⟨raw', value', hget', hmakes'⟩ := h s (List.mem_cons_of_mem _ hs)
          exact ⟨raw', value', (RawRow.get_replace_ne _ (hne s hs) _).trans hget', hmakes'⟩
        obtain ⟨new, hnew⟩ := (ih hkeys).2 hrest
        exact ⟨new, rewriteSteps_cons.mpr ⟨raw, value, hget, hmakes, hnew⟩⟩

theorem orWrong_eq_ok {α : Type} {what : String} {x : Option α} {a : α} : orWrong what x = .ok a ↔ x = some a := by
  cases x <;> simp [orWrong]

theorem demand_eq_ok {p : Bool} {what : String} : demand p what = .ok () ↔ p = true := by
  cases p <;> simp [demand]

theorem verifySteps_iff {steps : List FieldStep} {old new : RawRow} :
    w.verifySteps crypto tools i rowKey old new steps = .ok () ↔ ∀ s ∈ steps, ∃ a b, old.get s.key = some a ∧
      new.get s.key = some b ∧ w.verifyStep crypto tools i rowKey s a b = .ok () := by
  induction steps with
  | nil => exact ⟨fun _ s hs => absurd hs List.not_mem_nil, fun _ => rfl⟩
  | cons step steps ih =>
      rw [verifySteps, List.forall_mem_cons, ← ih]
      constructor
      · intro h
        obtain ⟨a, ha, h⟩ := bind_eq_ok.mp h
        obtain ⟨b, hb, h⟩ := bind_eq_ok.mp h
        obtain ⟨⟨⟩, hstep, h⟩ := bind_eq_ok.mp h
        exact ⟨⟨a, b, orWrong_eq_ok.mp ha, orWrong_eq_ok.mp hb, hstep⟩, h⟩
      · rintro ⟨⟨a, b, ha, hb, hstep⟩, h⟩
        exact bind_eq_ok.mpr ⟨a, orWrong_eq_ok.mpr ha, bind_eq_ok.mpr ⟨b, orWrong_eq_ok.mpr hb,
          bind_eq_ok.mpr ⟨(), hstep, h⟩⟩⟩

/-- A row is rewritten and the check accepts it. -/
def Passes (crypto : Primitives Root N) (tools : RawTools) (w : Rewriter Root) (draw : Nat → N × Bytes)
    (table rowKey : String) (old : Bytes) : Prop :=
  ∃ new, w.rewrite crypto tools table rowKey draw old = .ok new ∧ w.verify crypto tools table rowKey old new = .ok ()

/-- A row whose table has one step a field passes exactly if it has every field that changes, and each step makes of
the value there one that its own check accepts. -/
theorem rewrite_verify_iff {table : String} {plan : TablePlan} {bytes : Bytes} {row : RawRow}
    (hfind : w.find table = some (i, plan)) (hkeys : (plan.rewrites.map FieldStep.key).Nodup)
    (hrow : RawRow.parse tools bytes = .ok row) :
    w.Passes crypto tools draw table rowKey bytes ↔ ∀ s ∈ plan.rewrites, ∃ raw, row.get s.key = some raw ∧
      ∃ value, w.Makes crypto tools i rowKey draw s raw value ∧
        w.verifyStep crypto tools i rowKey s raw value = .ok () := by
  have hclean := RawRow.parse_clean hrow
  have hspec := @rewriteSteps_iff Root N crypto tools w i rowKey draw plan.rewrites hkeys row
  constructor
  · rintro ⟨new, hnew, hverify⟩ s hs
    rw [rewrite, hfind] at hnew
    obtain ⟨row', hrow', hnew⟩ := bind_eq_ok.mp hnew
    cases hrow.symm.trans hrow'
    obtain ⟨out, hout, hnew⟩ := bind_eq_ok.mp hnew
    cases hnew
    rw [verify, hfind] at hverify
    obtain ⟨a, ha, hverify⟩ := bind_eq_ok.mp hverify
    cases hrow.symm.trans ha
    obtain ⟨b, hb, hverify⟩ := bind_eq_ok.mp hverify
    cases (RawRow.parse_encode ((rewriteSteps_leaves hout).clean hclean)).symm.trans hb
    obtain ⟨-, -, hverify⟩ := bind_eq_ok.mp hverify
    obtain ⟨raw, value, hget, hmakes, hnewGet⟩ := hspec.1 out hout s hs
    obtain ⟨raw', value', hget', hnewGet', hstep⟩ := verifySteps_iff.mp hverify s hs
    cases hget.symm.trans hget'
    cases hnewGet.symm.trans hnewGet'
    exact ⟨raw, hget, value, hmakes, hstep⟩
  · intro h
    obtain ⟨new, hnew⟩ := hspec.2 fun s hs => by
      obtain ⟨raw, hget, value, hmakes, -⟩ := h s hs
      exact ⟨raw, value, hget, hmakes⟩
    have hleaves := rewriteSteps_leaves hnew
    have hsame : row.sameBut new (plan.rewrites.map FieldStep.key) = true := by
      have hothers := hleaves.others _ fun s hs => List.mem_map_of_mem hs
      rw [RawRow.sameBut, hothers, hleaves.names]
      simp
    refine ⟨new.encode tools, ?_, ?_⟩
    · rw [rewrite, hfind]
      exact bind_eq_ok.mpr ⟨row, hrow, bind_eq_ok.mpr ⟨new, hnew, rfl⟩⟩
    · rw [verify, hfind]
      refine bind_eq_ok.mpr ⟨row, hrow, bind_eq_ok.mpr ⟨new, RawRow.parse_encode (hleaves.clean hclean),
        bind_eq_ok.mpr ⟨(), demand_eq_ok.mpr hsame, verifySteps_iff.mpr fun s hs => ?_⟩⟩⟩
      -- the value the step made is the one the check reads, and what a step makes of a value is one value
      obtain ⟨raw, hget, value, ⟨out, parsed, hout, hparsed, rfl⟩, hstep⟩ := h s hs
      obtain ⟨raw', value', hget', ⟨out', parsed', hout', hparsed', rfl⟩, hnewGet⟩ := hspec.1 new hnew s hs
      cases hget.symm.trans hget'
      cases hout.symm.trans hout'
      cases hparsed.symm.trans hparsed'
      exact ⟨raw, parsed.value, hget, hnewGet, hstep⟩

end Rewriter

end CloveDb.FieldChange
