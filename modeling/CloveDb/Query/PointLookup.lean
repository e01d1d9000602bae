/-
# CloveDb.Query.PointLookup — a query for one key

A query whose condition asks for one string at the id path of its entity may read the row of that key
instead of the table (`Query::point_key`). The lookup trusts the stored contract: with it, no other row
can meet the condition, so every visit of the rows ends as the scan does.
-/
import CloveDb.Fields.Order
import CloveDb.Journal.Identity
import CloveDb.Query.Page

namespace CloveDb.Query

open CloveDb.Lib CloveDb.Fields CloveDb.Journal

/-! ## The lookup -/

/-- `id_contract::enforced` -/
def enforced (s : Store) (table : String) (path : Path) : Bool := s.idContracts.get table == some path

/-- `Query::point_key`; `declared` is the id field of the entity. -/
def Query.pointKey (q : Query) (s : Store) (declared : Option Path) : Option String :=
  match declared with
  | none => none
  | some declared =>
      if !enforced s q.table declared then none
      else
        match q.predicate.map Predicate.expression with
        | some (.compare path .eq values) =>
            if path = declared && path.transforms.isEmpty then
              match values with
              | [.string key] => some key
              | _ => none
            else none
        | _ => none

/-- `ReadView` of the table of a query. -/
def viewOf (serde : Serde) (s : Store) (table : String) : ReadView where
  head := s.log.head
  databaseUuid := s.log.dbUuid
  rows := s.rows table
  lastWrite row := (s.lastWrite.get (serde.pair table row)).getD 0

variable (tools : PageTools)

/-- The loop of `rows` with any visit of the rows that meet the condition; `false` ends it. -/
def Query.rowsWith {σ : Type} (q : Query) (visit : String → Bytes → σ → Result (σ × Bool)) :
    List (String × Bytes) → σ → Result σ
  | [], a => .ok a
  | (key, bytes) :: rest, a => do
      if ← q.accepts tools bytes then
        let (a, more) ← visit key bytes a
        if more then q.rowsWith visit rest a else .ok a
      else q.rowsWith visit rest a

variable {tools}

theorem visitRows_eq_rowsWith (q : Query) (view : ReadView) (rows : List (String × Bytes)) (acc : List Row) :
    q.visitRows tools view rows acc = q.rowsWith tools (q.visit tools view) rows acc := by
  induction rows generalizing acc with
  | nil => rfl
  | cons r rest ih =>
      unfold Query.visitRows Query.rowsWith
      simp only [ih]

/-- Rows that do not meet the condition are passed over. -/
theorem rowsWith_filter {σ : Type} (q : Query) (visit : String → Bytes → σ → Result (σ × Bool))
    (p : String × Bytes → Bool) {rows : List (String × Bytes)}
    (h : ∀ r ∈ rows, p r = false → q.accepts tools r.2 = .ok false) (a : σ) :
    q.rowsWith tools visit (rows.filter p) a = q.rowsWith tools visit rows a := by
  induction rows generalizing a with
  | nil => rfl
  | cons r rest ih =>
      have hrest := ih fun r' hr' => h r' (List.mem_cons_of_mem _ hr')
      cases hp : p r with
      | false =>
          rw [List.filter_cons_of_neg (by simp [hp]), hrest, Query.rowsWith, h r List.mem_cons_self hp]
          rfl
      | true =>
          rw [List.filter_cons_of_pos hp, Query.rowsWith, Query.rowsWith]
          simp only [hrest]

/-! ## What a contract says of the condition -/

variable (tools) in
/-- Only equal strings compare as equal. -/
theorem compareValues_strings (a b : String) :
    ∃ c, compareValues tools.toTools (.string a) (.string b) = .ok c ∧ (c = some .eq → a = b) := by
  unfold compareValues
  split
  · exact ⟨none, rfl, nofun⟩
  · refine ⟨_, rfl, fun heq => ?_⟩
    have hagrees := Codec.agrees_text (utf8 a) (utf8 b)
    have hcodes : ordering ([7] ++ Codec.text (utf8 a)) ([7] ++ Codec.text (utf8 b)) = .eq := Option.some.inj heq
    rw [(hagrees.prepend [7]).ordering_eq_of, ordering_eq] at hcodes
    exact utf8_injective hcodes

theorem check_value {out : Outside} {path : Path} {key : String} {bytes : Bytes}
    (h : IdContract.check out path key bytes = .ok ()) : pathValue out bytes path = .ok (.string key) := by
  obtain ⟨v, hv, h⟩ := bind_eq_ok.mp h
  cases v with
  | string v =>
      dsimp only at h
      split at h
      · rename_i heq
        rw [hv, heq]
      · cases h
  | _ => cases h

theorem plain_quantifies {path : Path} (h : IdContract.plain path = true) :
    path.steps.any Step.quantifies = false := by
  simp only [IdContract.plain, Bool.and_eq_true, List.all_eq_true] at h
  rw [List.any_eq_false]
  intro step hstep
  have hkind := h.2 step hstep
  cases step <;> simp_all [Step.quantifies]

/-- A row that holds its own key at the path is not asked for under another one. -/
theorem matches_other {path : Path} (hplain : IdContract.plain path = true) {key other : String} {bytes : Bytes}
    (hcheck : IdContract.check tools.toOutside path other bytes = .ok ()) (hne : other ≠ key) :
    rowMatches tools.toTools bytes (.compare path .eq [.string key]) = .ok false := by
  have hkind : path.kind = .auto := by
    simp only [IdContract.plain, Bool.and_eq_true, decide_eq_true_eq] at hplain
    exact hplain.1.1
  obtain ⟨c, hc, heq⟩ := compareValues_strings tools other key
  have hvalues : collect (Codec.interpret tools.toOutside path.kind) [.string key] = .ok [.string key] := by
    rw [hkind]
    rfl
  have hno : (c == some .eq) = false := by
    rw [beq_eq_false_iff_ne]
    exact fun h => hne (heq h)
  rw [rowMatches, hvalues, ok_bind, testPath, if_neg (by simp [plain_quantifies hplain]), check_value hcheck, ok_bind,
    scalar, hc, ok_bind]
  simp only [Compare.ordered, Bool.and_false, Bool.false_eq_true, if_false, hno]
  rfl

/-! ## Lookup and scan -/

/-- What `point_key` found out. -/
theorem pointKey_some {q : Query} {s : Store} {declared : Option Path} {key : String}
    (h : q.pointKey s declared = some key) :
    ∃ path p, declared = some path ∧ s.idContracts.get q.table = some path ∧ q.predicate = some p ∧
      p.expression = .compare path .eq [.string key] := by
  unfold Query.pointKey at h
  split at h
  · cases h
  rename_i path
  split at h
  · cases h
  rename_i henforced
  split at h
  · rename_i path' values hpredicate
    split at h
    · rename_i hpath
      split at h
      · cases h
        obtain ⟨p, hp, hexpr⟩ := Option.map_eq_some_iff.mp hpredicate
        simp only [Bool.and_eq_true, decide_eq_true_eq] at hpath
        refine ⟨path, p, rfl, ?_, hp, by rw [hexpr, hpath.1]⟩
        simpa [enforced] using henforced
      · cases h
    · cases h
  · cases h

/-- The rows of the lookup are the rows of the table with that key. -/
theorem indexed_rows_eq (view : ReadView) (key : String) :
    (Source.indexed [key]).rows view = view.rows.rows.filter fun r => r.1 == key := by
  refine (view.rows.filter_rows_eq _ ?_ fun r => ?_).symm
  · simp only [Source.rows, List.filterMap_cons, List.filterMap_nil]
    cases view.rows.get key with
    | none => exact List.Pairwise.nil
    | some bytes => exact List.pairwise_singleton _ _
  · unfold Source.rows
    rw [view.rows.mem_rows_iff, beq_iff_eq]
    cases hget : view.rows.get key with
    | none =>
        simp only [List.filterMap_cons, hget, Option.map_none, List.filterMap_nil, List.not_mem_nil, false_iff]
        rintro ⟨hr, rfl⟩
        rw [hget] at hr
        cases hr
    | some bytes =>
        simp only [List.filterMap_cons, hget, Option.map_some, List.filterMap_nil, List.mem_singleton]
        constructor
        · rintro rfl
          exact ⟨hget, rfl⟩
        · rintro ⟨hr, rfl⟩
          rw [hget] at hr
          cases hr
          rfl

variable {q : Query} {s : Store} {declared : Option Path} {key : String}

/-- In a store that keeps its contracts, any visit of the one row ends as the visit of the table. -/
theorem rowsWith_point (hs : Identified tools.toOutside s) (hkey : q.pointKey s declared = some key)
    {view : ReadView} (hview : view.rows = s.rows q.table) {σ : Type}
    (visit : String → Bytes → σ → Result (σ × Bool)) (a : σ) :
    q.rowsWith tools visit ((Source.indexed [key]).rows view) a = q.rowsWith tools visit view.rows.rows a := by
  obtain ⟨path, p, -, hpath, hp, hexpr⟩ := pointKey_some hkey
  rw [indexed_rows_eq]
  refine rowsWith_filter q visit _ (fun r hr hother => ?_) a
  have hget : (s.rows q.table).get r.1 = some r.2 := hview ▸ (view.rows.mem_rows_iff r.1 r.2).mp hr
  unfold Query.accepts
  rw [hp]
  dsimp only
  rw [hexpr]
  exact matches_other (hs.plain _ _ hpath) (hs.rows _ _ hpath r.1 r.2 hget) (by simpa using hother)

/-- Two rows that hold their keys. -/
def keyedTools : PageTools :=
  { Tools.listed [([1], .object [(some "id", .string (some "a"))]), ([2], .object [(some "id", .string (some "b"))])] with
    similarityText := fun _ _ => "0"
    queryBytes := fun _ _ _ => [] }

def keyedPath : Path := ⟨[.key "id"], .auto, []⟩

/-- The contract is recorded, then both rows are written. -/
def keyedConfigured : Store :=
  committedTo sampleStore (writeWithSink keyedTools.toOutside .simple .unlimited
    (Unique.configureWrite keyedTools.toOutside .simple [("notes", keyedPath)] []) sampleStore)

def keyedStore : Store :=
  committedTo keyedConfigured (applyChanges sampleManager .simple keyedTools.toOutside .unlimited
    [("notes", "a", [1]), ("notes", "b", [2])] [] keyedConfigured)

def keyedQuery : Query := ⟨"notes", some ⟨.compare keyedPath .eq [.string "b"], []⟩, [], none, none, none⟩

end CloveDb.Query
