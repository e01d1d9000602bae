/-
# CloveDb.Fields.Navigate — selecting from a row is selecting from the parsed row

`extract` reads a row with visitors that keep what the path asks for and skip the rest; at the end of the path
`materialize` reads a whole value. Here a row is parsed as a whole first (`fullParse`: exact number tokens, the last of
repeated keys), and a path is followed in the value (`navigate`). The two agree for every row that parses and every path.

A `len` step ends a path: a count has no parts.
-/
import CloveDb.Fields.Extract
import CloveDb.Lib.Table
import Mathlib.Data.Option.Basic
import Mathlib.Data.String.Basic
import Mathlib.Order.RelClasses

namespace CloveDb.Fields

open CloveDb.Lib

/-! ## The parsed row -/

mutual

/-- The value of a row whose texts are all texts. -/
def fullParse : Json → Option Value
  | .null => some .null
  | .bool b => some (.bool b)
  | .number token => some (.number token)
  | .string s => s.map Value.string
  | .array items => (parseItems items).map Value.array
  | .object fields => (parseFields fields []).map Value.object

def parseItems : List Json → Option (List Value)
  | [] => some []
  | j :: js => do
      let v ← fullParse j
      let vs ← parseItems js
      return v :: vs

/-- The fields in their order, each into the map of those before it: the last of repeated keys stays. -/
def parseFields : List (Option String × Json) → List (String × Value) → Option (List (String × Value))
  | [], done => some done
  | (k, j) :: fields, done => do
      let k ← k
      let v ← fullParse j
      parseFields fields (insertRow k v done)

end

/-- Follow a path in a value. -/
def navigate : List Step → Value → Value
  | [], v => v
  | .key k :: rest, .object fields => ((lookup k fields).map (navigate rest)).getD .missing
  | .index i :: rest, .array items => (items[i]?.map (navigate rest)).getD .missing
  | .any :: rest, .array items => .array (items.map (navigate rest))
  | .all :: rest, .array items => .array (items.map (navigate rest))
  | .length :: _, .array items => .number (toString items.length)
  | _ :: _, _ => .missing

/-- A step into one place. -/
def Step.plain : Step → Bool
  | .key _ => true
  | .index _ => true
  | _ => false

theorem insertField_eq (k : String) (v : Value) (fields : List (String × Value)) :
    insertField k v fields = insertRow k v fields := by
  induction fields with
  | nil => rfl
  | cons f fields ih => rw [insertField, insertRow, ih]

/-! ## Whole values -/

mutual

/-- **`materialize` parses the whole value.** -/
theorem materialize_eq : ∀ {json : Json} {v : Value}, fullParse json = some v → materialize json = .ok v
  | .null, _, h => by
      cases h
      rfl
  | .bool _, _, h => by
      cases h
      rfl
  | .number _, _, h => by
      cases h
      rfl
  | .string s, _, h => by
      obtain ⟨t, rfl, rfl⟩ := Option.map_eq_some_iff.mp h
      rfl
  | .array items, _, h => by
      obtain ⟨vs, hvs, rfl⟩ := Option.map_eq_some_iff.mp h
      rw [materialize, materializeItems_eq hvs]
      rfl
  | .object fields, _, h => by
      obtain ⟨m, hm, rfl⟩ := Option.map_eq_some_iff.mp h
      rw [materialize, materializeFields_eq hm List.Pairwise.nil List.Pairwise.nil fun _ _ => rfl]
      rfl

theorem materializeItems_eq : ∀ {items : List Json} {vs : List Value},
    parseItems items = some vs → materializeItems items = .ok vs
  | [], _, h => by
      cases h
      rfl
  | j :: js, _, h => by
      obtain ⟨v, hv, h⟩ := Option.bind_eq_some_iff.mp h
      obtain ⟨vs, hvs, h⟩ := Option.bind_eq_some_iff.mp h
      cases h
      rw [materializeItems, materialize_eq hv, ok_bind, materializeItems_eq hvs]
      rfl

/-- The map read so far may lack a field that a later one replaces. -/
theorem materializeFields_eq : ∀ {fields : List (Option String × Json)} {done done' m : List (String × Value)},
    parseFields fields done = some m → Ascending done → Ascending done' →
    (∀ k, (∀ f ∈ fields, f.1 ≠ some k) → lookup k done' = lookup k done) → materializeFields fields done' = .ok m
  | [], done, done', _, h, hdone, hdone', hsame => by
      cases h
      rw [materializeFields, eq_of_lookup_eq hdone' hdone fun k => hsame k fun _ hf => absurd hf List.not_mem_nil]
  | (k, j) :: fields, done, done', m, h, hdone, hdone', hsame => by
      obtain ⟨k, rfl, h⟩ := Option.bind_eq_some_iff.mp h
      obtain ⟨v, hv, h⟩ := Option.bind_eq_some_iff.mp h
      have hdone₁ := ascending_insertRow k v hdone
      rw [materializeFields]
      split
      · -- a later field has the same key: this one is skipped
        rename_i hlater
        obtain ⟨f, hf, hfk⟩ := List.any_eq_true.mp hlater
        refine materializeFields_eq h hdone₁ hdone' fun k' hk' => ?_
        have hne : k' ≠ k := fun heq => hk' f hf (by rw [eq_of_beq hfk, heq])
        rw [lookup_insertRow k k' v hdone, if_neg hne]
        refine hsame k' fun f hf => ?_
        rcases List.mem_cons.mp hf with rfl | hf
        · exact fun heq => hne (Option.some.inj heq).symm
        · exact hk' f hf
      · rw [materialize_eq hv, ok_bind, insertField_eq]
        refine materializeFields_eq h hdone₁ (ascending_insertRow k v hdone') fun k' hk' => ?_
        rw [lookup_insertRow k k' v hdone, lookup_insertRow k k' v hdone']
        split
        · rfl
        · rename_i hne
          refine hsame k' fun f hf => ?_
          rcases List.mem_cons.mp hf with rfl | hf
          · exact fun heq => hne (Option.some.inj heq).symm
          · exact hk' f hf

end

/-! ## Steps -/

/-- A JSON value and its parsed value, or neither. -/
def Read : Option Json → Option Value → Prop := Option.Rel fun j v => fullParse j = some v

theorem findKey_parse (k : String) : ∀ {fields : List (Option String × Json)} {found : Option Json}
    {done m : List (String × Value)}, parseFields fields done = some m → Ascending done → Read found (lookup k done) →
    ∃ r, findKey k fields found = .ok r ∧ Read r (lookup k m)
  | [], found, done, _, h, _, hfound => by
      cases h
      exact ⟨found, rfl, hfound⟩
  | (k', j) :: fields, found, done, m, h, hdone, hfound => by
      obtain ⟨k', rfl, h⟩ := Option.bind_eq_some_iff.mp h
      obtain ⟨v, hv, h⟩ := Option.bind_eq_some_iff.mp h
      rw [findKey]
      refine findKey_parse k h (ascending_insertRow k' v hdone) ?_
      rw [lookup_insertRow k' k v hdone]
      by_cases hk : k' = k
      · rw [if_pos hk, if_pos hk.symm]
        exact .some hv
      · rw [if_neg hk, if_neg (Ne.symm hk)]
        exact hfound

theorem getElem?_parseItems {items : List Json} {vs : List Value} (h : parseItems items = some vs) (i : Nat) :
    Read items[i]? vs[i]? := by
  induction items generalizing vs i with
  | nil =>
      cases h
      exact .none
  | cons j js ih =>
      obtain ⟨v, hv, h⟩ := Option.bind_eq_some_iff.mp h
      obtain ⟨vs, hvs, h⟩ := Option.bind_eq_some_iff.mp h
      cases h
      cases i with
      | zero => exact .some hv
      | succ i => exact ih hvs i

theorem length_parseItems {items : List Json} {vs : List Value} (h : parseItems items = some vs) :
    vs.length = items.length := by
  induction items generalizing vs with
  | nil =>
      cases h
      rfl
  | cons j js ih =>
      obtain ⟨v, hv, h⟩ := Option.bind_eq_some_iff.mp h
      obtain ⟨vs, hvs, h⟩ := Option.bind_eq_some_iff.mp h
      cases h
      exact congrArg (· + 1) (ih hvs)

theorem collect_parseItems {f : Json → Result Value} {g : Value → Value}
    (hfg : ∀ j v, fullParse j = some v → f j = .ok (g v)) {items : List Json} {vs : List Value}
    (h : parseItems items = some vs) : collect f items = .ok (vs.map g) := by
  induction items generalizing vs with
  | nil =>
      cases h
      rfl
  | cons j js ih =>
      obtain ⟨v, hv, h⟩ := Option.bind_eq_some_iff.mp h
      obtain ⟨vs, hvs, h⟩ := Option.bind_eq_some_iff.mp h
      cases h
      exact collect_cons_ok.mpr ⟨g v, vs.map g, hfg j v hv, ih hvs, rfl⟩

/-- A parsed row is an object, a list, or has no parts. -/
theorem fullParse_cases {json : Json} {v : Value} (h : fullParse json = some v) :
    (∃ fields m, json = .object fields ∧ v = .object m ∧ parseFields fields [] = some m) ∨
      (∃ items vs, json = .array items ∧ v = .array vs ∧ parseItems items = some vs) ∨
      ∀ step rest, select (step :: rest) json = .ok .missing ∧ navigate (step :: rest) v = .missing := by
  cases json with
  | object fields =>
      obtain ⟨m, hm, rfl⟩ := Option.map_eq_some_iff.mp h
      exact .inl ⟨fields, m, rfl, rfl, hm⟩
  | array items =>
      obtain ⟨vs, hvs, rfl⟩ := Option.map_eq_some_iff.mp h
      exact .inr (.inl ⟨items, vs, rfl, rfl, hvs⟩)
  | null =>
      cases h
      exact .inr (.inr fun step _ => by cases step <;> exact ⟨rfl, rfl⟩)
  | bool b =>
      cases h
      exact .inr (.inr fun step _ => by cases step <;> exact ⟨rfl, rfl⟩)
  | number token =>
      cases h
      exact .inr (.inr fun step _ => by cases step <;> exact ⟨rfl, rfl⟩)
  | string s =>
      obtain ⟨t, rfl, rfl⟩ := Option.map_eq_some_iff.mp h
      exact .inr (.inr fun step _ => by cases step <;> exact ⟨rfl, rfl⟩)

/-- **The visitors select what the parsed row has at the path.** -/
theorem select_eq (steps : List Step) {json : Json} {v : Value} (h : fullParse json = some v) :
    select steps json = .ok (navigate steps v) := by
  induction steps generalizing json v with
  | nil => exact materialize_eq h
  | cons step rest ih =>
      have hpart : ∀ {j : Option Json} {w : Option Value}, Read j w →
          (j.elim (.ok .missing) (select rest) : Result Value)
            = .ok ((w.map (navigate rest)).getD .missing) := by
        intro j w hread
        cases hread with
        | none => rfl
        | some hj => exact ih hj
      rcases fullParse_cases h with ⟨fields, m, rfl, rfl, hm⟩ | ⟨items, vs, rfl, rfl, hvs⟩ | hatom
      · cases step with
        | key k =>
            obtain ⟨r, hr, hread⟩ := findKey_parse k hm List.Pairwise.nil .none
            rw [select, hr, navigate, ← hpart hread]
            cases r <;> rfl
        | _ => rfl
      · have hitems : collect (select rest) items = .ok (vs.map (navigate rest)) :=
          collect_parseItems (fun j v hj => ih hj) hvs
        cases step with
        | key k => rfl
        | index i =>
            rewrite [select, navigate, ← hpart (getElem?_parseItems hvs i)]
            cases items[i]? <;> rfl
        | any =>
            rw [select, hitems]
            rfl
        | all =>
            rw [select, hitems]
            rfl
        | length =>
            rw [select, navigate, length_parseItems hvs]
      · rw [(hatom step rest).1, (hatom step rest).2]

/-- Steps into one place compose. -/
theorem navigate_append {p : List Step} (hp : p.all Step.plain = true) (q : List Step) (v : Value) :
    navigate (p ++ q) v = navigate q (navigate p v) := by
  have hmissing : ∀ q, navigate q .missing = .missing := by
    intro q
    cases q with
    | nil => rfl
    | cons step q => cases step <;> rfl
  induction p generalizing v with
  | nil => rfl
  | cons step p ih =>
      rw [List.all_cons, Bool.and_eq_true] at hp
      cases step with
      | key k =>
          cases v with
          | object fields =>
              rw [List.cons_append, navigate, navigate]
              cases lookup k fields with
              | none => exact (hmissing q).symm
              | some w => exact ih hp.2 w
          | _ => exact (hmissing q).symm
      | index i =>
          cases v with
          | array items =>
              rw [List.cons_append, navigate, navigate]
              cases items[i]? with
              | none => exact (hmissing q).symm
              | some w => exact ih hp.2 w
          | _ => exact (hmissing q).symm
      | any => cases hp.1
      | all => cases hp.1
      | length => cases hp.1

section

variable (out : Outside)

/-- The row parses to this value. -/
def ParsesTo (bytes : Bytes) (v : Value) : Prop := ∃ json, out.parseJson bytes = some json ∧ fullParse json = some v

variable {out}

theorem ParsesTo.extract {bytes : Bytes} {v : Value} (h : ParsesTo out bytes v) (steps : List Step) :
    extract out bytes steps = .ok (navigate steps v) := by
  obtain ⟨json, hjson, hv⟩ := h
  rw [Fields.extract, hjson]
  exact select_eq steps hv

/-- **Selective extraction is full parsing and navigation**, and a path may be cut behind its plain steps. -/
theorem extract_eq_navigate {bytes : Bytes} {v : Value} (h : ParsesTo out bytes v) :
    (∀ steps, Fields.extract out bytes steps = .ok (navigate steps v)) ∧
      ∀ p q : List Step, p.all Step.plain = true → ∃ w, Fields.extract out bytes p = .ok w ∧
        Fields.extract out bytes (p ++ q) = .ok (navigate q w) := by
  refine ⟨h.extract, fun p q hp => ⟨navigate p v, h.extract p, ?_⟩⟩
  rw [h.extract, navigate_append hp]

end

/-- A row with a repeated key and a list in a list. -/
theorem extract_eq_navigate_repeated :
    let row : Json := .object [(some "f", .null), (some "f", .array [.array [.number "1.0"], .bool true])]
    ∃ v, ParsesTo (Outside.listed [([1], row)]) [1] v ∧
      Fields.extract (Outside.listed [([1], row)]) [1] [.key "f", .any, .index 0] = .ok (navigate [.key "f", .any, .index 0] v) :=
  have hparse : ParsesTo (Outside.listed [([1], _)]) [1] (.object [("f", .array [.array [.number "1.0"], .bool true])]) :=
    ⟨_, rfl, rfl⟩
  ⟨_, hparse, (extract_eq_navigate hparse).1 [.key "f", .any, .index 0]⟩

end CloveDb.Fields
