/-
# CloveDb.FieldCrypto.Filters — accepted filters see protected fields through issued fingerprints only

Two rows that `seal_row` wrote and that agree on everything unprotected, and on which issued fingerprints they have,
cannot be told apart by a filter that `check_filter` accepts, as long as no comparison with a protected field reads
fingerprints as moments: the checker looks at the steps and the transformations of a path and not at its kind. A query
ordered by a protected field is refused.
-/
import CloveDb.Fields.Order
import CloveDb.Query.Page

namespace CloveDb.FieldCrypto

open CloveDb.Lib CloveDb.Fields CloveDb.Query

/-! ## What two rows have in common -/

/-- The text stored at some steps of a row. -/
def storedAt (steps : List Step) (object : Table String Json) : Option String :=
  match select steps (objectJson object) with
  | .ok (.string s) => some s
  | _ => none

/-- The fingerprints an issued text lists are among those that are stored. -/
def listedIn (tools : Tools) (issued : String) (stored : Option String) : Prop :=
  ∃ s, stored = some s ∧ ∀ t ∈ tokens tools issued, t ∈ tokens tools s

/-- The rows agree on every unprotected field, and on the issued fingerprints of the protected ones. -/
structure Alike (tools : Tools) (specs : List SealedSpec) (issued : List String) (a b : Table String Json) : Prop where
  unprotected : ∀ k, (∀ spec ∈ specs, spec.key ≠ k) → a.get k = b.get k
  prints : ∀ spec ∈ specs, ∀ steps, printSteps spec = some steps →
    ∀ tag ∈ issued, storedAt steps a = some tag ↔ storedAt steps b = some tag
  parts : ∀ spec ∈ specs, ∀ steps, partsSteps spec = some steps →
    ∀ tag ∈ issued, listedIn tools tag (storedAt steps a) ↔ listedIn tools tag (storedAt steps b)

/-- Every path begins with the name of a field. What an `elem_match` has inside is about its items. -/
def Rooted : Expr → Prop
  | .compare path _ _ => ∃ k rest, path.steps = .key k :: rest
  | .presence path _ => ∃ k rest, path.steps = .key k :: rest
  | .elemMatch path _ => ∃ k rest, path.steps = .key k :: rest
  | .and a b => Rooted a ∧ Rooted b
  | .or a b => Rooted a ∧ Rooted b
  | .not a => Rooted a
  | .never => True
  | .invalid _ => True

/-- No comparison with a protected field reads texts as moments: its kind is the plain one, or one of its literals is
no moment of its kind. -/
def PlainKinds (tools : Tools) (specs : List SealedSpec) : Expr → Prop
  | .compare path _ values => protectedBy specs path ≠ none → path.kind = .auto ∨
      ∀ read, collect (Codec.interpret tools.toOutside path.kind) values ≠ .ok read
  | .and a b => PlainKinds tools specs a ∧ PlainKinds tools specs b
  | .or a b => PlainKinds tools specs a ∧ PlainKinds tools specs b
  | .not a => PlainKinds tools specs a
  | _ => True

/-! ## Unprotected fields -/

section Unprotected

variable {tools : Tools} {x y : Bytes} {k : String}

/-- Paths into one field select the same from two rows. -/
def SameAt (tools : Tools) (x y : Bytes) (k : String) : Prop :=
  ∀ rest, extract tools.toOutside x (.key k :: rest) = extract tools.toOutside y (.key k :: rest)

theorem SameAt.pathValue (h : SameAt tools x y k) {path : Path} {rest : List Step} (hsteps : path.steps = .key k :: rest) :
    pathValue tools.toOutside x path = pathValue tools.toOutside y path := by
  rw [Fields.pathValue, Fields.pathValue, hsteps, h rest]

theorem SameAt.quantifiedN (h : SameAt tools x y k) (leaf : Value → Result Bool) (n : Nat) {path : Path}
    {rest : List Step} (hsteps : path.steps = .key k :: rest) :
    quantifiedN tools x leaf n path = quantifiedN tools y leaf n path := by
  induction n generalizing path rest with
  | zero => rw [Query.quantifiedN, Query.quantifiedN, h.pathValue hsteps]
  | succ n ih =>
      rw [Query.quantifiedN, Query.quantifiedN]
      cases hfound : path.steps.findIdx? Step.quantifies with
      | none =>
          dsimp only
          rw [h.pathValue hsteps]
      | some i =>
          -- the step that quantifies is not the first one
          obtain ⟨j, rfl⟩ : ∃ j, i = j + 1 := by
            cases i with
            | zero =>
                rw [hsteps, List.findIdx?_cons] at hfound
                simp [Step.quantifies] at hfound
            | succ j => exact ⟨j, rfl⟩
          have htake : path.steps.take (j + 1) = .key k :: rest.take j := by rw [hsteps, List.take_succ_cons]
          have hset : ∀ m, (atIndex path (j + 1) m).steps = .key k :: rest.set j (.index m) := by
            intro m
            rw [atIndex, hsteps, List.set_cons_succ]
          dsimp only
          rw [htake, h]
          simp only [ih (hset _)]

theorem SameAt.testPath (h : SameAt tools x y k) (leaf : Value → Result Bool) {path : Path} {rest : List Step}
    (hsteps : path.steps = .key k :: rest) : testPath tools x path leaf = testPath tools y path leaf := by
  rw [Query.testPath, Query.testPath, quantified, quantified, h.quantifiedN leaf _ hsteps, h.pathValue hsteps]

end Unprotected

/-! ## Fingerprints -/

section Fingerprints

variable {tools : Tools}

theorem compareValues_string (s t : String) :
    compareValues tools (.string s) (.string t) = .ok (some (ordering (utf8 s) (utf8 t))) := by
  have hagree : ordering (7 :: Codec.text (utf8 s)) (7 :: Codec.text (utf8 t)) = ordering (utf8 s) (utf8 t) :=
    ((Codec.agrees_text (utf8 s) (utf8 t)).prepend [7]).ordering_eq_of
  rw [compareValues, if_neg (by simp [Value.discriminant, Value.isEmpty])]
  show Except.ok (some (ordering (7 :: Codec.text (utf8 s)) (7 :: Codec.text (utf8 t)))) = _
  rw [hagree]

theorem ordering_utf8_eq {s t : String} : ordering (utf8 s) (utf8 t) = .eq ↔ s = t := by
  rw [ordering_eq, utf8_injective.eq_iff]

theorem isAmong_strings (s : String) (tags : List String) :
    isAmong tools (.string s) (tags.map .string) = .ok (tags.contains s) := by
  induction tags with
  | nil => rfl
  | cons t tags ih =>
      rw [List.map_cons, isAmong, compareValues_string, ok_bind]
      by_cases heq : s = t
      · subst heq
        rw [if_pos (by rw [ordering_self])]
        simp [pure, Except.pure]
      · rw [if_neg (by rw [Option.some.injEq, ordering_utf8_eq]; exact heq), ih]
        simp [heq]

/-- An equality with issued fingerprints answers whether the stored one is among them. -/
theorem scalar_print {op : Compare} (hop : op = .eq ∨ op = .isIn) (s : String) (tags : List String) :
    scalar tools (.string s) op (tags.map .string) =
      .ok (if op = .eq then tags.head? == some s else tags.contains s) := by
  cases tags with
  | nil => rcases hop with rfl | rfl <;> rfl
  | cons t tags =>
      rw [List.map_cons]
      unfold scalar
      dsimp only
      rw [compareValues_string, ok_bind]
      rcases hop with rfl | rfl
      · show Except.ok (some (ordering (utf8 s) (utf8 t)) == some Ordering.eq) = .ok (some t == some s)
        congr 1
        rw [Bool.eq_iff_iff, beq_iff_eq, beq_iff_eq, Option.some.injEq, Option.some.injEq, ordering_utf8_eq]
        exact eq_comm
      · exact isAmong_strings s (t :: tags)

/-- A list of parts answers whether all of it is stored. -/
theorem scalar_parts (s : String) (tags : List String) :
    scalar tools (.string s) .parts (tags.map .string) = .ok (tags.head?.any (compareTexts tools .parts s)) := by
  cases tags with
  | nil => rfl
  | cons t tags =>
      rw [List.map_cons]
      unfold scalar
      dsimp only
      rw [compareValues_string]
      rfl

theorem compareTexts_parts (s t : String) :
    compareTexts tools .parts s t = true ↔ tokens tools t ≠ [] ∧ ∀ w ∈ tokens tools t, w ∈ tokens tools s := by
  simp [compareTexts]

end Fingerprints

/-! ## Stored rows -/

section Rows

variable {tools : RowTools} {object : Table String Json}

theorem extract_row (hread : tools.Reads object) (steps : List Step) :
    extract tools.toOutside (tools.printRow object) steps = select steps (objectJson object) := by
  rw [extract, hread]

theorem sameAt_of_get_eq {a b : Table String Json} (ha : tools.Reads a) (hb : tools.Reads b) {k : String}
    (h : a.get k = b.get k) : SameAt tools.toTools (tools.printRow a) (tools.printRow b) k := by
  intro rest
  rw [extract_row ha, extract_row hb, select_objectJson, select_objectJson, h]

theorem select_text (s : String) : select [] (text s) = .ok (.string s) := rfl

/-- A sealed row has a text where the fingerprint of a whole value is stored. -/
theorem select_print {spec : SealedSpec} (hwell : sealedWell object spec = true) {steps : List Step}
    (hsteps : printSteps spec = some steps) : ∃ s, select steps (objectJson object) = .ok (.string s) := by
  unfold printSteps at hsteps
  unfold sealedWell at hwell
  split_ifs at hsteps with hsearch hprint
  · obtain rfl := Option.some.inj hsteps
    rw [if_neg (by rw [hsearch]; decide)] at hwell
    obtain ⟨s, hs⟩ := isText_eq_some hwell
    exact ⟨s, by rw [select_objectJson, hs]; rfl⟩
  · obtain rfl := Option.some.inj hsteps
    rw [if_pos hprint] at hwell
    split at hwell
    · rename_i fields hfields
      simp only [Bool.and_eq_true] at hwell
      obtain ⟨s, hs⟩ := isText_eq_some hwell.1.2
      refine ⟨s, ?_⟩
      rw [select_objectJson, hfields]
      exact (select_entry hs []).trans (select_text s)
    · cases hwell

/-- And one where the fingerprints of parts are. -/
theorem select_parts {spec : SealedSpec} (hwell : sealedWell object spec = true) {steps : List Step}
    (hsteps : partsSteps spec = some steps) : ∃ s, select steps (objectJson object) = .ok (.string s) := by
  unfold partsSteps at hsteps
  split_ifs at hsteps with hparts
  obtain rfl := Option.some.inj hsteps
  have hprint : spec.method.hasStoredPrint = true := by
    cases hmethod : spec.method <;> rw [hmethod] at hparts <;> first | rfl | cases hparts
  unfold sealedWell at hwell
  rw [if_pos hprint] at hwell
  split at hwell
  · rename_i fields hfields
    simp only [Bool.and_eq_true, Bool.or_eq_true, hparts, Bool.not_true, Bool.false_eq_true, false_or] at hwell
    obtain ⟨s, hs⟩ := isAnyText_eq_some hwell.2
    refine ⟨s, ?_⟩
    rw [select_objectJson, hfields]
    exact (select_entry hs []).trans (select_text s)
  · cases hwell

theorem storedAt_of_select {steps : List Step} {s : String}
    (h : select steps (objectJson object) = .ok (.string s)) : storedAt steps object = some s := by
  rw [storedAt, h]

theorem select_of_storedAt {steps : List Step} {s : String} (h : storedAt steps object = some s) :
    select steps (objectJson object) = .ok (.string s) := by
  unfold storedAt at h
  split at h
  · cases h
    assumption
  · cases h

/-- No step of where fingerprints are stored quantifies. -/
theorem steps_plain {spec : SealedSpec} {steps : List Step}
    (h : printSteps spec = some steps ∨ partsSteps spec = some steps) : steps.any Step.quantifies = false := by
  unfold printSteps partsSteps at h
  rcases h with h | h <;> split_ifs at h <;> obtain rfl := Option.some.inj h <;> rfl

/-- A test of what is stored at the steps of fingerprints is a test of the text there. -/
theorem testPath_stored (hread : tools.Reads object) {path : Path} (hplain : path.steps.any Step.quantifies = false)
    (htransforms : path.transforms = []) {s : String} (hs : select path.steps (objectJson object) = .ok (.string s))
    (leaf : Value → Result Bool) :
    testPath tools.toTools (tools.printRow object) path leaf =
      (Codec.interpret tools.toOutside path.kind (.string s) >>= leaf) := by
  rw [testPath, hplain, if_neg Bool.false_ne_true, pathValue, extract_row hread, hs, ok_bind, htransforms]
  cases hread : Codec.interpret tools.toOutside path.kind (.string s) with
  | error e => rfl
  | ok v =>
      rw [ok_bind]
      have happly : apply tools.toOutside [] v = .ok v := by
        cases v <;> simp [apply]
      rw [happly]

end Rows

/-! ## Filters -/

section Filters

variable {tools : RowTools} {specs : List SealedSpec} {issued : List String} {a b : Table String Json}

theorem interpret_auto_strings (tags : List String) :
    collect (Codec.interpret tools.toOutside .auto) (tags.map .string) = .ok (tags.map .string) := by
  have hid : ∀ v ∈ tags.map Value.string, Codec.interpret tools.toOutside .auto v = .ok (id v) := by
    intro v hv
    obtain ⟨t, -, rfl⟩ := List.mem_map.mp hv
    rfl
  rw [collect_of_ok hid, List.map_id]

/-- Which of some issued fingerprints the stored one is, is the same in both rows. -/
theorem Alike.print_answer (h : Alike tools.toTools specs issued a b) {spec : SealedSpec} (hspec : spec ∈ specs)
    {steps : List Step} (hsteps : printSteps spec = some steps) {s t : String} (hs : storedAt steps a = some s)
    (ht : storedAt steps b = some t) (op : Compare) {tags : List String} (htags : ∀ tag ∈ tags, tag ∈ issued) :
    (if op = .eq then tags.head? == some s else tags.contains s) =
      if op = .eq then tags.head? == some t else tags.contains t := by
  have hsame : ∀ tag ∈ tags, s = tag ↔ t = tag := by
    intro tag htag
    have := h.prints spec hspec steps hsteps tag (htags tag htag)
    rwa [hs, ht, Option.some.injEq, Option.some.injEq] at this
  split
  · cases tags with
    | nil => rfl
    | cons tag tags =>
        rw [List.head?_cons, Bool.eq_iff_iff, beq_iff_eq, beq_iff_eq, Option.some.injEq, Option.some.injEq, eq_comm,
          eq_comm (a := tag)]
        exact hsame tag List.mem_cons_self
  · rw [Bool.eq_iff_iff, List.contains_iff_mem, List.contains_iff_mem]
    constructor
    · intro hmem
      exact (hsame s hmem).mp rfl ▸ hmem
    · intro hmem
      exact (hsame t hmem).mpr rfl ▸ hmem

/-- Whether all of an issued list of parts is stored, is the same in both rows. -/
theorem Alike.parts_answer (h : Alike tools.toTools specs issued a b) {spec : SealedSpec} (hspec : spec ∈ specs)
    {steps : List Step} (hsteps : partsSteps spec = some steps) {s t : String} (hs : storedAt steps a = some s)
    (ht : storedAt steps b = some t) {tags : List String} (htags : ∀ tag ∈ tags, tag ∈ issued) :
    tags.head?.any (compareTexts tools.toTools .parts s) = tags.head?.any (compareTexts tools.toTools .parts t) := by
  cases tags with
  | nil => rfl
  | cons tag tags =>
      have hsame := h.parts spec hspec steps hsteps tag (htags tag List.mem_cons_self)
      rw [hs, ht] at hsame
      simp only [listedIn, Option.some.injEq, exists_eq_left'] at hsame
      rw [List.head?_cons, Option.any_some, Option.any_some, Bool.eq_iff_iff, compareTexts_parts, compareTexts_parts,
        hsame]

variable (ha : tools.Reads a) (hb : tools.Reads b) (hwellA : ∀ spec ∈ specs, sealedWell a spec = true)
  (hwellB : ∀ spec ∈ specs, sealedWell b spec = true)

include ha hb hwellA hwellB in
/-- An accepted comparison with a protected field. -/
theorem compare_protected (halike : Alike tools.toTools specs issued a b) {path : Path} {op : Compare}
    {values : List Value} {spec : SealedSpec} (hspec : protectedBy specs path = some spec)
    (hcheck : checkFilter specs issued (.compare path op values) = .ok ()) (hkind : path.kind = .auto) :
    rowMatches tools.toTools (tools.printRow a) (.compare path op values) =
      rowMatches tools.toTools (tools.printRow b) (.compare path op values) := by
  obtain ⟨htransforms, ⟨tags, htags, rfl⟩, hwhere⟩ := checkFilter_compare hspec hcheck
  have hmem := (protectedBy_mem hspec).1
  have hplain : path.steps.any Step.quantifies = false := steps_plain (hwhere.imp And.left And.left)
  have hstored : ∀ {object : Table String Json}, (∀ spec ∈ specs, sealedWell object spec = true) →
      ∃ s, select path.steps (objectJson object) = .ok (.string s) := by
    intro object hwell
    rcases hwhere with ⟨hsteps, -⟩ | ⟨hsteps, -⟩
    · exact select_print (hwell spec hmem) hsteps
    · exact select_parts (hwell spec hmem) hsteps
  obtain ⟨s, hs⟩ := hstored hwellA
  obtain ⟨t, ht⟩ := hstored hwellB
  rw [rowMatches, rowMatches, hkind, interpret_auto_strings, ok_bind, ok_bind,
    testPath_stored ha hplain htransforms hs, testPath_stored hb hplain htransforms ht, hkind]
  show scalar tools.toTools (.string s) op _ = scalar tools.toTools (.string t) op _
  rcases hwhere with ⟨hsteps, hop⟩ | ⟨hsteps, rfl⟩
  · rw [scalar_print hop, scalar_print hop,
      halike.print_answer hmem hsteps (storedAt_of_select hs) (storedAt_of_select ht) op htags]
  · rw [scalar_parts, scalar_parts,
      halike.parts_answer hmem hsteps (storedAt_of_select hs) (storedAt_of_select ht) htags]

/-- A path that begins with no protected field begins with one both rows agree on. -/
theorem Alike.sameAt (halike : Alike tools.toTools specs issued a b) (ha : tools.Reads a) (hb : tools.Reads b)
    {path : Path} {k : String} {rest : List Step} (hsteps : path.steps = .key k :: rest)
    (hspec : protectedBy specs path = none) :
    SameAt tools.toTools (tools.printRow a) (tools.printRow b) k := by
  refine sameAt_of_get_eq ha hb (halike.unprotected k fun spec hmem hkey => ?_)
  rw [protectedBy, hsteps] at hspec
  have := List.find?_eq_none.mp hspec spec hmem
  exact this (beq_iff_eq.mpr hkey)

include ha hb hwellA hwellB in
/-- Two rows that are alike give an accepted filter one answer. -/
theorem rowMatches_alike (halike : Alike tools.toTools specs issued a b) {e : Expr} (hrooted : Rooted e)
    (hcheck : checkFilter specs issued e = .ok ()) (hkinds : PlainKinds tools.toTools specs e) :
    rowMatches tools.toTools (tools.printRow a) e = rowMatches tools.toTools (tools.printRow b) e := by
  induction e with
  | compare path op values =>
      obtain ⟨k, rest, hsteps⟩ := hrooted
      cases hspec : protectedBy specs path with
      | none =>
          rw [rowMatches, rowMatches]
          simp only [(halike.sameAt ha hb hsteps hspec).testPath _ hsteps]
      | some spec =>
          rcases hkinds (by rw [hspec]; exact Option.some_ne_none _) with hkind | hfails
          · exact compare_protected ha hb hwellA hwellB halike hspec hcheck hkind
          · -- a literal that is no moment is an error before the row is looked at
            rw [rowMatches, rowMatches]
            cases hread : collect (Codec.interpret tools.toOutside path.kind) values with
            | error e => rfl
            | ok read => exact absurd hread (hfails read)
  | presence path op =>
      obtain ⟨k, rest, hsteps⟩ := hrooted
      rw [checkFilter] at hcheck
      cases hspec : protectedBy specs path with
      | none => rw [rowMatches, rowMatches, (halike.sameAt ha hb hsteps hspec).testPath _ hsteps]
      | some spec =>
          rw [hspec] at hcheck
          cases hcheck
  | elemMatch path inner _ =>
      obtain ⟨k, rest, hsteps⟩ := hrooted
      rw [checkFilter] at hcheck
      cases hspec : protectedBy specs path with
      | none => rw [rowMatches, rowMatches, (halike.sameAt ha hb hsteps hspec).pathValue hsteps]
      | some spec =>
          rw [hspec] at hcheck
          cases hcheck
  | and p q ihp ihq =>
      rw [checkFilter, bind_eq_ok] at hcheck
      obtain ⟨_, hp, hq⟩ := hcheck
      rw [rowMatches, rowMatches, ihp hrooted.1 hp hkinds.1, ihq hrooted.2 hq hkinds.2]
  | or p q ihp ihq =>
      rw [checkFilter, bind_eq_ok] at hcheck
      obtain ⟨_, hp, hq⟩ := hcheck
      rw [rowMatches, rowMatches, ihp hrooted.1 hp hkinds.1, ihq hrooted.2 hq hkinds.2]
  | not p ih => rw [rowMatches, rowMatches, ih hrooted hcheck hkinds]
  | never => rw [rowMatches, rowMatches]
  | invalid message => rw [rowMatches, rowMatches]

end Filters

/-! ## Fingerprints read as moments -/

section Moments

variable {tools : RowTools} {specs : List SealedSpec} {issued : List String}

theorem interpret_string_time {kind : ValueKind} (hkind : kind ≠ .auto) {s : String} {v : Value}
    (h : Codec.interpret tools.toOutside kind (.string s) = .ok v) : ∃ n, v = .time n := by
  have hscalar : Codec.interpretScalar tools.toOutside kind (.string s) = .ok v := by
    rw [← h]
    cases kind with
    | auto => exact absurd rfl hkind
    | _ => rfl
  unfold Codec.interpretScalar at hscalar
  split at hscalar
  · rename_i heq
    cases heq
  · rename_i heq
    cases heq
  all_goals first | (cases hscalar; done) | (split at hscalar <;> cases hscalar; exact ⟨_, rfl⟩)

theorem compareValues_time (n m : I128) : compareValues tools.toTools (.time n) (.time m) =
    .ok (some (ordering (6 :: Codec.signed n) (6 :: Codec.signed m))) := rfl

theorem isAmong_times (n : I128) {values : List Value} (h : ∀ v ∈ values, ∃ m, v = .time m) :
    ∃ yes, isAmong tools.toTools (.time n) values = .ok yes := by
  induction values with
  | nil => exact ⟨_, rfl⟩
  | cons v values ih =>
      obtain ⟨m, rfl⟩ := h v List.mem_cons_self
      rw [isAmong, compareValues_time, ok_bind]
      split
      · exact ⟨_, rfl⟩
      · exact ih fun v hv => h v (List.mem_cons_of_mem _ hv)

/-- Moments are compared without error. -/
theorem scalar_times {op : Compare} (hop : op = .eq ∨ op = .isIn) (n : I128) {values : List Value}
    (h : ∀ v ∈ values, ∃ m, v = .time m) : ∃ yes, scalar tools.toTools (.time n) op values = .ok yes := by
  cases values with
  | nil => exact ⟨_, rfl⟩
  | cons v values =>
      obtain ⟨m, hm⟩ := h v List.mem_cons_self
      subst hm
      unfold scalar
      dsimp only
      rw [compareValues_time, ok_bind]
      rcases hop with rfl | rfl
      · exact ⟨_, rfl⟩
      · exact isAmong_times n h

/-- A comparison that reads fingerprints as moments has an answer on a row whose own reads as one, and an error on a
row whose own does not. -/
theorem compare_tells_apart {a b : Table String Json} (ha : tools.Reads a) (hb : tools.Reads b) {path : Path}
    {op : Compare} {values : List Value} {spec : SealedSpec} (hspec : protectedBy specs path = some spec)
    (hsteps : printSteps spec = some path.steps)
    (hcheck : checkFilter specs issued (.compare path op values) = .ok ()) {read : List Value}
    (hvalues : collect (Codec.interpret tools.toOutside path.kind) values = .ok read) {s t : String}
    (hs : select path.steps (objectJson a) = .ok (.string s)) (ht : select path.steps (objectJson b) = .ok (.string t))
    {v : Value} (hv : Codec.interpret tools.toOutside path.kind (.string s) = .ok v) {e : ClError}
    (he : Codec.interpret tools.toOutside path.kind (.string t) = .error e) :
    rowMatches tools.toTools (tools.printRow a) (.compare path op values) ≠
      rowMatches tools.toTools (tools.printRow b) (.compare path op values) := by
  have hkind : path.kind ≠ .auto := by
    intro hauto
    rw [hauto] at he
    cases he
  obtain ⟨htransforms, ⟨tags, -, rfl⟩, hwhere⟩ := checkFilter_compare hspec hcheck
  have hop : op = .eq ∨ op = .isIn := by
    rcases hwhere with ⟨-, hop⟩ | ⟨hparts, -⟩
    · exact hop
    · -- the parts of a field are stored elsewhere
      unfold printSteps at hsteps
      unfold partsSteps at hparts
      split_ifs at hparts
      rw [← hparts] at hsteps
      split_ifs at hsteps <;> simp at hsteps
  have hplain := steps_plain (hwhere.imp And.left And.left)
  have htimes : ∀ v ∈ read, ∃ n, v = .time n := by
    intro v hv
    obtain ⟨w, hw, hread⟩ := (mem_collect hvalues).mp hv
    obtain ⟨tag, -, rfl⟩ := List.mem_map.mp hw
    exact interpret_string_time hkind hread
  obtain ⟨n, rfl⟩ := interpret_string_time hkind hv
  obtain ⟨yes, hyes⟩ := scalar_times hop n htimes
  rw [rowMatches, rowMatches, hvalues, ok_bind, ok_bind, testPath_stored ha hplain htransforms hs,
    testPath_stored hb hplain htransforms ht, hv, he, ok_bind, hyes]
  intro heq
  cases heq

end Moments

/-! ## Orders -/

theorem mem_orderPaths {order : List (OrderSource × Direction)} {path : Path} :
    path ∈ orderPaths order ↔ ∃ o ∈ order, o.1.path = some path := by
  have hfold : ∀ (paths out : List Path),
      path ∈ paths.foldl (fun out p => if out.contains p then out else out ++ [p]) out ↔ path ∈ out ∨ path ∈ paths := by
    intro paths
    induction paths with
    | nil => simp
    | cons p paths ih =>
        intro out
        rw [List.foldl_cons, ih]
        by_cases hp : out.contains p = true
        · rw [if_pos hp, List.mem_cons]
          have hmem := List.contains_iff_mem.mp hp
          constructor
          · exact Or.imp_right .inr
          · rintro (h | rfl | h)
            exacts [.inl h, .inl hmem, .inr h]
        · rw [if_neg hp, List.mem_append, List.mem_singleton, List.mem_cons, or_assoc]
  rw [orderPaths, hfold, List.mem_filterMap]
  simp only [List.not_mem_nil, false_or]

theorem refuseProtected_error {specs : List SealedSpec} {paths : List Path}
    (h : ∃ path ∈ paths, protectedBy specs path ≠ none) :
    ∃ spec ∈ specs, refuseProtected specs paths = .error (denied spec.key) := by
  induction paths with
  | nil =>
      obtain ⟨path, hpath, -⟩ := h
      cases hpath
  | cons p paths ih =>
      rw [refuseProtected]
      cases hspec : protectedBy specs p with
      | some spec => exact ⟨spec, (protectedBy_mem hspec).1, rfl⟩
      | none =>
          refine ih ?_
          obtain ⟨path, hpath, hprotected⟩ := h
          rcases List.mem_cons.mp hpath with rfl | hpath
          · exact absurd hspec hprotected
          · exact ⟨path, hpath, hprotected⟩

/-- A query ordered by a protected field is refused before it reads a row. -/
theorem pageIn_refused {pages : PageTools} {q : Query} {specs : List SealedSpec} (hspecs : q.specs = some specs)
    (h : ∃ o ∈ q.order, ∃ path, o.1.path = some path ∧ protectedBy specs path ≠ none) (view : ReadView)
    (source : Source) : ∃ spec ∈ specs, q.pageIn pages view source = .error (denied spec.key) := by
  have hpaths : ∃ path ∈ orderPaths q.order, protectedBy specs path ≠ none := by
    obtain ⟨o, ho, path, hpath, hprotected⟩ := h
    exact ⟨path, mem_orderPaths.mpr ⟨o, ho, hpath⟩, hprotected⟩
  obtain ⟨spec, hmem, hrefused⟩ := refuseProtected_error hpaths
  refine ⟨spec, hmem, ?_⟩
  rw [Query.pageIn, Query.fingerprint, Query.refuseProtectedQuery, hspecs]
  dsimp only
  rw [hrefused]
  rfl

/-! ## The result -/

namespace Dates

/-- Two texts are days, and rows print as their `token`. -/
def row (token : String) : Table String Json := Table.empty.insert "token" (text token)

def outside : Outside :=
  { Outside.listed [(utf8 "2024-01-11", objectJson (row "2024-01-11")), (utf8 "x", objectJson (row "x"))] with
    parseDate := fun s =>
      if s = "2024-01-10" then some ⟨1704844800000000000, by decide⟩
      else if s = "2024-01-11" then some ⟨1704931200000000000, by decide⟩
      else none }

def tools : RowTools :=
  { Tools.listed [] with
    toOutside := outside
    readText := fun _ => none
    printRow := fun object => match object.get "token" with
      | some (.string (some s)) => utf8 s
      | _ => [] }

def specs : List SealedSpec := [⟨1, "token", .searchPrint, none, [], 0, 0⟩]

/-- An entity whose fingerprint was read from a row. -/
def entity (token : String) : Entity Unit := ⟨.ok [.stored token], .ok (some (row token))⟩

def filter (kind : ValueKind) : Expr := .compare ⟨[.key "token"], kind, []⟩ .eq [.string "2024-01-10"]

def sealed (key token : String) : Result (Table String Json) :=
  sealObject .plain .plain tools "0011" specs key (entity token)

theorem alike : Alike tools.toTools specs ["2024-01-10"] (row "2024-01-11") (row "x") where
  unprotected k hk := by
    have hne : k ≠ "token" := fun h => hk _ List.mem_cons_self h.symm
    rw [row, row, Table.get_insert_ne _ _ hne, Table.get_insert_ne _ _ hne]
  prints spec hspec steps hsteps tag htag := by
    obtain rfl := List.mem_singleton.mp hspec
    obtain rfl := List.mem_singleton.mp htag
    obtain rfl : [Step.key "token"] = steps := Option.some.inj hsteps
    decide
  parts spec hspec steps hsteps := by
    obtain rfl := List.mem_singleton.mp hspec
    cases hsteps

end Dates

end CloveDb.FieldCrypto
