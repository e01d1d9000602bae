/-
# CloveDb.FieldChange.Accepted — what an accepted analysis says, and what it does not

An analysis that returns plans has checked the declarations, the keys and the presence of every field in every row. So
each step of its plans has what its kind needs (`Analysis.ready`), and each row has every field that changes
(`Analysis.row_has`). Of the values it says nothing, and of saved versions only that the program allowed what they lack.
-/
import CloveDb.FieldChange.Feasible

namespace CloveDb.FieldChange

open CloveDb.Lib CloveDb.FieldCrypto CloveDb.Backup

/-! ## Plans -/

/-- What `plan_table` has checked of a declaration. -/
def Declarable (spec : SealedSpec) : Prop :=
  partsAreSetUp spec = true ∧ (spec.method = .hash → spec.hash.isSome)

theorem checkDeclared_all {table : String} {new : List SealedSpec} (h : checkDeclared table new = .ok ()) :
    ∀ spec ∈ new, Declarable spec := by
  induction new with
  | nil => exact fun spec hspec => absurd hspec List.not_mem_nil
  | cons a rest ih =>
      rw [checkDeclared] at h
      split at h
      · cases h
      split at h
      · cases h
      rename_i hparts
      split at h
      · cases h
      rename_i hhash
      intro spec hspec
      rcases List.mem_cons.mp hspec with rfl | hspec
      · refine ⟨?_, fun hmethod => ?_⟩
        · cases hset : partsAreSetUp spec with
          | true => rfl
          | false =>
              have hno : spec.method.hasParts = false := by simpa [hset] using hparts
              simp [partsAreSetUp, hno] at hset
        · rw [← Option.ne_none_iff_isSome]
          exact fun hnone => hhash ⟨hmethod, hnone⟩
      · exact ih h spec hspec

/-- What every planned step has. -/
structure Planned (old : List SealedField) (new : List SealedSpec) (s : FieldStep) : Prop where
  wf : s.Wf
  kept : ∀ field ∈ s.was, field ∈ old
  declared : ∀ spec ∈ s.declared, spec ∈ new
  added : s.was = none → s.declared.isSome

/-- A field that was sealed and is declared again: the kinds its step can have. -/
theorem decideStep_both {table key : String} {old : SealedField} {t : SealedSpec} {kind : StepKind}
    (h : decideStep table key (some old) (some t) = .ok kind) :
    kind = .keep ∨ kind = .dropPrints ∨ kind = .addPrints ∨ kind = .remakePrints ∨
      (kind = .openToHash ∧ t.method = .hash) ∨ kind = .openToPrintOnly := by
  simp only [decideStep] at h
  split at h
  · cases h
  rename_i made _
  rw [ite_eq_iff'] at h
  obtain ⟨hrefused, h⟩ := h
  by_cases hsame : old.id ≠ t.id ∨ old.name ≠ t.key
  · cases hrefused hsame
  · replace h := h hsame
    cases made <;> cases hmethod : t.method <;> simp only [hmethod] at h <;> (repeat' split at h) <;>
      cases h <;> simp

theorem decideStep_wf {table key : String} {was : Option SealedField} {declared : Option SealedSpec} {kind : StepKind}
    {id : Nat} (h : decideStep table key was declared = .ok kind) (hgood : ∀ spec ∈ declared, Declarable spec)
    (hid : ∀ spec ∈ declared, spec.id = id) : (FieldStep.mk id key was declared kind).Wf := by
  rw [FieldStep.Wf]
  cases declared with
  | none =>
      cases was with
      | none =>
          cases h
          trivial
      | some old =>
          simp only [decideStep] at h
          split at h
          · cases h
          · split at h
            · cases h
            · cases h
            · cases h
              trivial
  | some t =>
      obtain ⟨hset, hhash⟩ := hgood t rfl
      have htid := hid t rfl
      cases was with
      | none =>
          simp only [decideStep] at h
          split at h <;> rename_i hmethod <;> cases h
          · exact ⟨t, rfl, htid, by rw [hmethod]; rfl, hset⟩
          · exact ⟨t, rfl, htid, by rw [hmethod]; rfl, hset⟩
          · exact ⟨t, rfl, htid, by rw [hmethod]; rfl, hset⟩
          · exact ⟨t, rfl, hmethod, hhash hmethod⟩
          · exact ⟨t, rfl, hmethod⟩
      | some old =>
          rcases decideStep_both h with rfl | rfl | rfl | rfl | ⟨rfl, hmethod⟩ | rfl
          · trivial
          · trivial
          · exact ⟨t, rfl, hset⟩
          · exact ⟨t, rfl, hset⟩
          · exact ⟨t, rfl, hhash hmethod⟩
          · exact ⟨t, rfl⟩

theorem planTable_planned {table : String} {old : List SealedField} {new : List SealedSpec} {plan : TablePlan}
    (h : planTable table old new = .ok plan) : (∀ spec ∈ new, Declarable spec) ∧ (∀ s ∈ plan.steps, Planned old new s) ∧
      plan.table = table ∧ plan.newTableId = (old.isEmpty && !new.isEmpty) ∧
      plan.dropTableId = (!old.isEmpty && new.isEmpty) := by
  obtain ⟨⟨⟩, hcheck, h⟩ := bind_eq_ok.mp h
  obtain ⟨kept, hkept, h⟩ := bind_eq_ok.mp h
  obtain ⟨added, hadded, h⟩ := bind_eq_ok.mp h
  cases h
  have hgood := checkDeclared_all hcheck
  refine ⟨hgood, fun s hs => ?_, rfl, rfl, rfl⟩
  rw [List.mem_insertionSort, List.mem_append] at hs
  rcases hs with hs | hs
  · obtain ⟨field, hfield, hstep⟩ := (mem_collect hkept).mp hs
    obtain ⟨kind, hkind, hstep⟩ := bind_eq_ok.mp hstep
    cases hstep
    have hfound : ∀ spec ∈ new.find? (fun s => s.id == field.id), spec ∈ new ∧ spec.id = field.id := by
      intro spec hspec
      exact ⟨List.mem_of_find?_eq_some hspec, by simpa using List.find?_some hspec⟩
    refine ⟨decideStep_wf hkind ?_ ?_, ?_, ?_, nofun⟩
    · exact fun spec hspec => hgood spec (hfound spec hspec).1
    · exact fun spec hspec => (hfound spec hspec).2
    · intro f hf
      cases hf
      exact hfield
    · exact fun spec hspec => (hfound spec hspec).1
  · obtain ⟨spec, hspec, hstep⟩ := (mem_collect hadded).mp hs
    obtain ⟨kind, hkind, hstep⟩ := bind_eq_ok.mp hstep
    cases hstep
    have hmem : spec ∈ new := (List.mem_filter.mp hspec).1
    refine ⟨decideStep_wf hkind ?_ ?_, nofun, ?_, fun _ => rfl⟩
    all_goals
      intro spec' hspec'
      cases hspec'
    · exact hgood spec hmem
    · rfl
    · exact hmem

/-! ## The analysis -/

section Analysis

variable {Root N Lock : Type} {crypto : Primitives Root N} {tools : RawTools} {db : Database Lock}
  {c : ChangeFields Root Lock} {a : Analysis Root}

/-- What the analysis of a change has checked, as far as the rewriting rests on it. -/
structure Accepted (crypto : Primitives Root N) (tools : RawTools) (db : Database Lock) (c : ChangeFields Root Lock)
    (a : Analysis Root) (tables : List Described) (planned : List (TablePlan × Option String)) : Prop where
  described : db.tables = some tables
  plans : collect (planNamed tables) c.tables = .ok planned
  settled : collect (settlePlan crypto a.keys) planned = .ok a.plans
  oldIds : a.oldIds = planned.map Prod.snd
  needs : ∀ plan ∈ a.plans, checkNeeds c.oneWayConfirmed a.keys plan = .ok ()
  seen : ∀ plan ∈ a.plans, ∃ seen, lookAt tools db c.allowWithout plan = .ok seen
  tables : a.tables = tables
  moves : a.moves = movesOf db.refs a.plans

theorem analyze_accepted (h : analyze crypto tools db c = .ok a) :
    ∃ tables planned, Accepted crypto tools db c a tables planned := by
  rw [analyze] at h
  split at h
  · cases h
  split at h
  · cases h
  split at h
  · cases h
  · cases h
  · cases h
  split at h
  · cases h
  rename_i tables htables
  obtain ⟨planned, hplanned, h⟩ := bind_eq_ok.mp h
  obtain ⟨⟨opened, made⟩, -, h⟩ := bind_eq_ok.mp h
  obtain ⟨keys, -, h⟩ := bind_eq_ok.mp h
  obtain ⟨plans, hplans, h⟩ := bind_eq_ok.mp h
  obtain ⟨checked, hneeds, h⟩ := bind_eq_ok.mp h
  obtain ⟨unique, -, h⟩ := bind_eq_ok.mp h
  obtain ⟨⟨⟩, -, h⟩ := bind_eq_ok.mp h
  obtain ⟨seen, hseen, h⟩ := bind_eq_ok.mp h
  cases h
  refine ⟨tables, planned, htables, hplanned, hplans, rfl, fun plan hplan => ?_, fun plan hplan => ?_, rfl, rfl⟩
  · obtain ⟨⟨⟩, -, hcheck⟩ := exists_collect hneeds hplan
    exact hcheck
  · obtain ⟨s, -, hs⟩ := exists_collect hseen hplan
    exact ⟨s, hs⟩

/-- Settling may turn a step that keeps its field into one that makes its fingerprints again, and does no more. -/
theorem settleStep_cases {keys : FieldKeys Root} {table tableId : String} {s s' : FieldStep}
    (h : settleStep crypto keys table tableId s = .ok s') :
    s' = s ∨ (s' = { s with kind := .keep } ∨ s' = { s with kind := .remakePrints }) ∧ s.declared.isSome := by
  rw [settleStep] at h
  split at h
  swap
  · cases h
    exact .inl rfl
  rename_i spec hkind hwas hspec
  split at h
  · cases h
    exact .inl rfl
  dsimp only at h
  -- which key the comparison needs does not matter here
  generalize (if spec.method = .hash then keys.read.isSome else keys.search.isSome) = comparable at h
  split at h
  · cases h
    exact .inl rfl
  split at h
  · cases h
    exact .inl rfl
  obtain ⟨expected, -, h⟩ := bind_eq_ok.mp h
  obtain ⟨kind, hsettled, h⟩ := bind_eq_ok.mp h
  cases h
  refine .inr ⟨?_, by rw [hspec]; rfl⟩
  rw [FieldChange.settled, hspec] at hsettled
  split at hsettled
  · cases hsettled
    exact .inl rfl
  dsimp only at hsettled
  split at hsettled <;> cases hsettled <;> simp

theorem Planned.settle {old : List SealedField} {new : List SealedSpec} {keys : FieldKeys Root} {table tableId : String} {s s' : FieldStep}
    (hs : Planned old new s) (hgood : ∀ spec ∈ new, Declarable spec)
    (h : settleStep crypto keys table tableId s = .ok s') : Planned old new s' := by
  rcases settleStep_cases h with rfl | ⟨rfl | rfl, hdeclared⟩
  · exact hs
  · exact ⟨trivial, hs.kept, hs.declared, hs.added⟩
  · obtain ⟨spec, hspec⟩ := Option.isSome_iff_exists.mp hdeclared
    exact ⟨⟨spec, hspec, (hgood spec (hs.declared spec hspec)).1⟩, hs.kept, hs.declared, hs.added⟩

/-- What is known of the plan at one place of the analysis, and of the identity the table had. -/
structure PlanAt (db : Database Lock) (a : Analysis Root) (i : Nat) (plan : TablePlan) (t : Described)
    (new : List SealedSpec) : Prop where
  steps : ∀ s ∈ plan.steps, Planned t.fields new s
  table : plan.table = t.name
  newId : plan.newTableId = (t.fields.isEmpty && !new.isEmpty)
  dropId : plan.dropTableId = (!t.fields.isEmpty && new.isEmpty)
  oldId : a.oldIds[i]? = some t.tableId
  described : ∃ tables, db.tables = some tables ∧ t ∈ tables

theorem Accepted.planAt {tables : List Described} {planned : List (TablePlan × Option String)}
    (ha : Accepted crypto tools db c a tables planned) {i : Nat} {plan : TablePlan} (hi : a.plans[i]? = some plan) :
    ∃ t new, PlanAt db a i plan t new ∧ c.tables[i]? = some (t.name, new) := by
  obtain ⟨⟨plan₀, id⟩, hplan₀, hsettle⟩ := getElem?_collect ha.settled hi
  obtain ⟨⟨name, new⟩, hentry, hnamed⟩ := getElem?_collect ha.plans hplan₀
  rw [planNamed] at hnamed
  split at hnamed
  · cases hnamed
  rename_i t ht
  obtain ⟨plan₁, hplan, hnamed⟩ := bind_eq_ok.mp hnamed
  cases hnamed
  obtain ⟨hgood, hsteps, htable, hnew, hdrop⟩ := planTable_planned hplan
  obtain rfl : t.name = name := by simpa using List.find?_some ht
  have hold : a.oldIds[i]? = some t.tableId := by rw [ha.oldIds, List.getElem?_map, hplan₀]; rfl
  have hdescribed : ∃ tables, db.tables = some tables ∧ t ∈ tables :=
    ⟨tables, ha.described, List.mem_of_find?_eq_some ht⟩
  unfold settlePlan at hsettle
  split at hsettle
  · obtain ⟨steps, hsettled, hsettle⟩ := bind_eq_ok.mp hsettle
    cases hsettle
    refine ⟨t, new, ⟨fun s hs => ?_, htable, hnew, hdrop, hold, hdescribed⟩, hentry⟩
    obtain ⟨s₀, hs₀, hstep⟩ := (mem_collect hsettled).mp hs
    exact (hsteps s₀ hs₀).settle hgood hstep
  · cases hsettle
    exact ⟨t, new, ⟨hsteps, htable, hnew, hdrop, hold, hdescribed⟩, hentry⟩

/-! ## The rewriter of an analysis -/

/-- The identities the tables have after the change; `fresh` draws that of the table at each place. -/
def newIdsOf (fresh : Nat → String) (plans : List TablePlan) (oldIds : List (Option String)) : List (Option String) :=
  (plans.zip oldIds).mapIdx fun i p =>
    if p.1.newTableId then some (fresh i) else if p.1.dropTableId then none else p.2

/-- The rewriter `execute` makes. -/
def Analysis.rewriter (a : Analysis Root) (fresh : Nat → String) : Rewriter Root :=
  ⟨a.plans, a.oldIds, newIdsOf fresh a.plans a.oldIds, a.keys⟩

/-- A table that has protected fields has an identity: what every writer of the description keeps. -/
def Identified (db : Database Lock) : Prop :=
  ∀ tables, db.tables = some tables → ∀ t ∈ tables, t.fields ≠ [] → t.tableId.isSome

theorem checkNeeds_ok {confirmed : Bool} {keys : Option (FieldKeys Root)} {plan : TablePlan}
    (h : checkNeeds confirmed keys plan = .ok ()) (hneeds : (plan.needs.read || plan.needs.search) = true) :
    ∃ held, keys = some held ∧ (plan.needs.read = true → held.read.isSome) ∧
      (plan.needs.search = true → held.search.isSome) := by
  simp only [checkNeeds] at h
  split at h
  · cases h
  cases keys with
  | none => cases h
  | some held =>
      dsimp only at h
      split at h
      · cases h
      rename_i hread
      split at h
      · cases h
      rename_i hsearch
      refine ⟨held, rfl, fun hr => ?_, fun hs => ?_⟩
      · rw [← Option.ne_none_iff_isSome]
        simpa [hr] using hread
      · rw [← Option.ne_none_iff_isSome]
        simpa [hs] using hsearch

theorem PlanAt.newIdsOf {i : Nat} {plan : TablePlan} {t : Described} {new : List SealedSpec} (hat : PlanAt db a i plan t new)
    (hi : a.plans[i]? = some plan) (fresh : Nat → String) : (FieldChange.newIdsOf fresh a.plans a.oldIds)[i]? =
      some (if plan.newTableId then some (fresh i) else if plan.dropTableId then none else t.tableId) := by
  simp [FieldChange.newIdsOf, List.getElem?_mapIdx, hi, hat.oldId, List.zip, List.getElem?_zipWith]

theorem PlanAt.idOf {i : Nat} {plan : TablePlan} {t : Described} {new : List SealedSpec} {s : FieldStep}
    (hat : PlanAt db a i plan t new) (hi : a.plans[i]? = some plan) (hids : Identified db) (fresh : Nat → String)
    (hs : s ∈ plan.steps) : ∃ id, (a.rewriter fresh).idOf i s = .ok id := by
  obtain ⟨tables, htables, ht⟩ := hat.described
  cases hwas : s.was with
  | some field =>
      have hne : t.fields ≠ [] := List.ne_nil_of_mem ((hat.steps s hs).kept field hwas)
      obtain ⟨id, hid⟩ := Option.isSome_iff_exists.mp (hids tables htables t ht hne)
      exact ⟨id, by simp [Rewriter.idOf, Analysis.rewriter, hwas, hat.oldId, hid]⟩
  | none =>
      obtain ⟨spec, hspec⟩ := Option.isSome_iff_exists.mp ((hat.steps s hs).added hwas)
      have hnew : new.isEmpty = false := by
        rw [List.isEmpty_eq_false_iff_exists_mem]
        exact ⟨spec, (hat.steps s hs).declared spec hspec⟩
      have hplace := hat.newIdsOf hi fresh
      cases hfields : t.fields.isEmpty with
      | true =>
          refine ⟨fresh i, ?_⟩
          simp [Rewriter.idOf, Analysis.rewriter, hwas, hplace, hat.newId, hfields, hnew]
      | false =>
          have hne : t.fields ≠ [] := by simpa using hfields
          obtain ⟨id, hid⟩ := Option.isSome_iff_exists.mp (hids tables htables t ht hne)
          refine ⟨id, ?_⟩
          simp [Rewriter.idOf, Analysis.rewriter, hwas, hplace, hat.newId, hat.dropId, hfields, hnew, hid]

/-- Each step of an accepted change has what its kind needs. -/
theorem Accepted.ready {tables : List Described} {planned : List (TablePlan × Option String)}
    (ha : Accepted crypto tools db c a tables planned) (hids : Identified db) (fresh : Nat → String) {i : Nat}
    {plan : TablePlan} (hi : a.plans[i]? = some plan) {s : FieldStep} (hs : s ∈ plan.steps) :
    (a.rewriter fresh).Ready i s := by
  obtain ⟨t, new, hat, -⟩ := ha.planAt hi
  refine ⟨(hat.steps s hs).wf, fun huses => ?_⟩
  have hread : s.reads = true → plan.needs.read = true := fun h => List.any_eq_true.mpr ⟨s, hs, h⟩
  have hsearch : s.prints = true → plan.needs.search = true := fun h => List.any_eq_true.mpr ⟨s, hs, h⟩
  have hneeds : (plan.needs.read || plan.needs.search) = true := by
    rw [Bool.or_eq_true] at huses ⊢
    exact huses.imp hread hsearch
  obtain ⟨held, hkeys, hr, hp⟩ := checkNeeds_ok (ha.needs plan (List.mem_of_getElem? hi)) hneeds
  obtain ⟨id, hid⟩ := hat.idOf hi hids fresh hs
  exact ⟨held, id, hkeys, hid, fun h => hr (hread h), fun h => hp (hsearch h)⟩

/-! ## Rows and saved versions of an accepted change -/

theorem checkRows_ok {plan : TablePlan} {rows : List RawRow} (h : checkRows plan rows = .ok ()) {s : FieldStep}
    (hs : s ∈ plan.rewrites) {row : RawRow} (hrow : row ∈ rows) : (row.get s.key).isSome := by
  rw [checkRows] at h
  split at h
  swap
  · cases h
  rename_i hnone
  have hzero : lacking rows s = 0 := by simpa using List.find?_eq_none.mp hnone s hs
  have hget := List.countP_eq_zero.mp hzero row hrow
  simpa [Option.isSome_iff_ne_none] using hget

theorem readVersion_ok {table : String} {v : String × Bytes} {o : Option RawRow}
    (h : readVersion tools table v = .ok o) {record : BackupRecord} {data : Bytes}
    (hrecord : decodeRecord tools.toSerdeJson table v.1 v.2 = .ok record) (hdata : record.data = some data) :
    ∃ row, RawRow.parse tools data = .ok row := by
  obtain ⟨v2, -, h⟩ := bind_eq_ok.mp h
  split at h
  · cases h
  obtain ⟨record', hrecord', h⟩ := bind_eq_ok.mp h
  cases hrecord.symm.trans hrecord'
  rw [hdata] at h
  obtain ⟨row, hrow, -⟩ := bind_eq_ok.mp h
  exact ⟨row, hrow⟩

/-- What an accepted change says of a table whose rows change. -/
theorem Accepted.looked {tables : List Described} {planned : List (TablePlan × Option String)}
    (ha : Accepted crypto tools db c a tables planned) {plan : TablePlan} (hplan : plan ∈ a.plans)
    (hchanges : plan.rewrites ≠ []) :
    (∀ rows, db.rows plan.table = some rows → ∀ r ∈ rows.rows, ∃ row, RawRow.parse tools r.2 = .ok row ∧
        ∀ s ∈ plan.rewrites, (row.get s.key).isSome) ∧
      ∀ v ∈ versionsOf db plan.table, ∃ o, readVersion tools plan.table v = .ok o := by
  obtain ⟨seen, hseen⟩ := ha.seen plan hplan
  rw [lookAt, if_neg hchanges] at hseen
  split at hseen
  · cases hseen
  rename_i table htable
  obtain ⟨rows, hrows, hseen⟩ := bind_eq_ok.mp hseen
  obtain ⟨⟨⟩, hcheck, hseen⟩ := bind_eq_ok.mp hseen
  obtain ⟨versions, hversions, -⟩ := bind_eq_ok.mp hseen
  refine ⟨fun rows' hrows' r hr => ?_, fun v hv => ?_⟩
  · cases htable.symm.trans hrows'
    obtain ⟨row, hrow, hparse⟩ := exists_collect hrows hr
    exact ⟨row, hparse, fun s hs => checkRows_ok hcheck hs hrow⟩
  · obtain ⟨o, -, ho⟩ := exists_collect hversions hv
    exact ⟨o, ho⟩

/-! ## An accepted change, carried out -/

/-- Every row and every saved version of a table is rewritten, and the check accepts it. The draws of nonces and salts
go by the key of the row, and by that of the version. -/
def CarriedOut (crypto : Primitives Root N) (tools : RawTools) (db : Database Lock) (w : Rewriter Root)
    (draw drawVersion : String → Nat → N × Bytes) (table : String) : Prop :=
  (∀ rows, db.rows table = some rows → ∀ r ∈ rows.rows, w.Passes crypto tools (draw r.1) table r.1 r.2) ∧
    ∀ v ∈ versionsOf db table, ∀ record data, decodeRecord tools.toSerdeJson table v.1 v.2 = .ok record →
      record.data = some data → w.Passes crypto tools (drawVersion v.1) table record.key data

/-- Every value that changes is fit for its step; a saved version has to hold it. -/
def Feasible (crypto : Primitives Root N) (tools : RawTools) (db : Database Lock) (w : Rewriter Root)
    (draw drawVersion : String → Nat → N × Bytes) (i : Nat) (plan : TablePlan) : Prop :=
  (∀ rows, db.rows plan.table = some rows → ∀ r ∈ rows.rows, ∀ row, RawRow.parse tools r.2 = .ok row →
      ∀ s ∈ plan.rewrites, ∀ raw, row.get s.key = some raw → w.Fits crypto tools i r.1 (draw r.1) s raw) ∧
    ∀ v ∈ versionsOf db plan.table, ∀ record data row, decodeRecord tools.toSerdeJson plan.table v.1 v.2 = .ok record →
      record.data = some data → RawRow.parse tools data = .ok row → ∀ s ∈ plan.rewrites,
        ∃ raw, row.get s.key = some raw ∧ w.Fits crypto tools i record.key (drawVersion v.1) s raw

theorem Rewriter.find_some {w : Rewriter Root} {table : String} {i : Nat} {plan : TablePlan}
    (h : w.find table = some (i, plan)) : w.plans[i]? = some plan ∧ plan.table = table ∧ plan.rewrites ≠ [] := by
  obtain ⟨⟨p, j⟩, hp, hpair⟩ := Option.map_eq_some_iff.mp h
  cases hpair
  have hmem := List.mk_mem_zipIdx_iff_getElem?.mp (List.mem_of_find?_eq_some hp)
  have htest := List.find?_some hp
  simp only [Bool.and_eq_true, beq_iff_eq] at htest
  refine ⟨hmem, htest.1, fun hnone => ?_⟩
  obtain ⟨s, hs, hkind⟩ := List.any_eq_true.mp htest.2
  have hrewrites : s ∈ p.rewrites := List.mem_filter.mpr ⟨hs, hkind⟩
  rw [hnone] at hrewrites
  exact List.not_mem_nil hrewrites

/-- One row or version of a plan with one step a field. -/
theorem Accepted.passes_iff {tables : List Described} {planned : List (TablePlan × Option String)}
    (ha : Accepted crypto tools db c a tables planned) (hcrypto : Total crypto) (hids : Identified db)
    (fresh : Nat → String) {table rowKey : String} {i : Nat} {plan : TablePlan} {draw : Nat → N × Bytes}
    (hfind : (a.rewriter fresh).find table = some (i, plan)) (hkeys : (plan.rewrites.map FieldStep.key).Nodup)
    {bytes : Bytes} {row : RawRow} (hrow : RawRow.parse tools bytes = .ok row) :
    (a.rewriter fresh).Passes crypto tools draw table rowKey bytes ↔ ∀ s ∈ plan.rewrites, ∃ raw,
      row.get s.key = some raw ∧ (a.rewriter fresh).Fits crypto tools i rowKey draw s raw := by
  rw [Rewriter.rewrite_verify_iff hfind hkeys hrow]
  refine forall₂_congr fun s hs => exists_congr fun raw => and_congr_right fun _ => ?_
  obtain ⟨hstep, hkind⟩ := List.mem_filter.mp hs
  have hready := ha.ready hids fresh (Rewriter.find_some hfind).1 hstep
  exact Rewriter.stepPasses_iff_fits hcrypto hready (by simpa using hkind)

end Analysis

/-! ## Concrete changes -/

namespace Sample

/-- A plain database with the table `t`; it has an identity if it has protected fields. -/
def database (fields : List SealedField) (rows : List (String × Bytes)) (versions : List (String × Bytes)) :
    Database Unit where
  path := "p"
  present := true
  plainFile := true
  tables := some [⟨"t", if fields.isEmpty then none else some "i", fields⟩]
  rows table := if table = "t" then some (rows.foldl (fun t r => t.insert r.1 r.2) Table.empty) else none
  lock := some ()
  carried := none
  uniquePaths _ := []
  refs := []
  history := some fun table =>
    if table = "t" then some (versions.foldl (fun t r => t.insert r.1 r.2) Table.empty) else none

/-- The field `f` of `t` is declared, the keys are there, and everything is allowed and confirmed. -/
def change (specs : List SealedSpec) : ChangeFields Nat Unit where
  keys := .field (fun _ => .ok .plain) (.ok .plain)
  tables := [("t", specs)]
  oneWayConfirmed := true
  allowWithout := ["f"]

def spec (id : Nat) (method : Method) : SealedSpec := ⟨id, "f", method, some .argon2id, [], 0, 0⟩

/-- The row `{"f": value}`. -/
def row (value : Bytes) : Bytes := RawRow.encode tools [("f", value)]

/-- The value `null` sealed as field 1 of the table with the identity `i`, in the row `r`. -/
def sealedNull : Bytes :=
  (sealPlain Primitives.plain FieldKeys.plain tools "i" (spec 1 .encrypt) "r" () nullText).toOption.getD []

/-- A saved version of the row `r` with no fields. -/
def emptyVersion : BackupRecord :=
  { version := 1, timestamp := 0, date := "d", operation := .set, table := "t", key := "r", data := some [123, 125],
    restoredVersion := none, bulkId := none, dateFromMigration := false }

def emptyVersionBytes : Bytes := (encodeRecord tools.toSerdeJson (0, "") emptyVersion).toOption.getD []

/-- An accepted change of `t` that is not carried out. -/
def Fails (db : Database Unit) (specs : List SealedSpec) : Prop :=
  ∃ a, analyze .plain tools db (change specs) = .ok a ∧
    ¬ CarriedOut .plain tools db (a.rewriter fun _ => "i") (fun _ _ => ((), [])) (fun _ _ => ((), [])) "t"

/-- The database holds `old` for the row `r`, now or in a saved version. -/
def Holds (db : Database Unit) (old : Bytes) : Prop :=
  (∃ rows, db.rows "t" = some rows ∧ ("r", old) ∈ rows.rows) ∨
    ∃ v ∈ versionsOf db "t", ∃ record, decodeRecord tools.toSerdeJson "t" v.1 v.2 = .ok record ∧ record.key = "r" ∧
      record.data = some old

/-- The rewriting and the check of an accepted change, run. -/
def passes (db : Database Unit) (specs : List SealedSpec) (old : Bytes) : Option Bool :=
  (analyze .plain tools db (change specs)).toOption.map fun a =>
    let w := a.rewriter fun _ => "i"
    (w.rewrite Primitives.plain tools "t" "r" (fun _ => ((), [])) old >>=
      fun new => w.verify Primitives.plain tools "t" "r" old new).isOk

theorem fails_of_run {db : Database Unit} {specs : List SealedSpec} {old : Bytes} (hold : Holds db old)
    (h : passes db specs old = some false) : Fails db specs := by
  rw [passes, Option.map_eq_some_iff] at h
  obtain ⟨a, ha, hrun⟩ := h
  have hfails : ¬ (a.rewriter fun _ => "i").Passes .plain tools (fun _ => ((), [])) "t" "r" old := by
    rintro ⟨new, hnew, hverify⟩
    dsimp only at hrun
    rw [hnew, ok_bind, hverify] at hrun
    cases hrun
  refine ⟨a, eq_ok_of_toOption ha, fun hdone => hfails ?_⟩
  rcases hold with ⟨rows, hrows, hmem⟩ | ⟨v, hv, record, hrecord, hkey, hdata⟩
  · exact hdone.1 rows hrows _ hmem
  · have hpass := hdone.2 v hv record old hrecord hdata
    rwa [hkey] at hpass

theorem identified_database (fields : List SealedField) (rows versions : List (String × Bytes)) :
    Identified (database fields rows versions) := by
  intro tables htables t ht hfields
  cases htables
  cases List.mem_singleton.mp ht
  have hne : fields.isEmpty = false := by simpa using hfields
  simp [hne]

theorem total_plain : Total Primitives.plain where
  encryption _ _ _ := ⟨_, rfl⟩
  hash _ _ _ := ⟨_, rfl⟩
  full _ _ _ := ⟨_, rfl⟩
  part _ _ _ := ⟨_, rfl⟩
  b64 raw := by
    have hbyte : ∀ n : Fin 256, UInt8.ofNat (Char.ofNat n).toNat = UInt8.ofNat n := by decide +kernel
    have hback : ∀ b : UInt8, UInt8.ofNat (Char.ofNat b.toNat).toNat = b := fun b => by
      simpa using hbyte ⟨b.toNat, b.toNat_lt⟩
    simp [Primitives.plain, Function.comp_def, hback]
  b64_ne raw hraw := by
    cases raw with
    | nil => exact absurd rfl hraw
    | cons b raw => simp [Primitives.plain, String.ext_iff]

end Sample

end CloveDb.FieldChange
