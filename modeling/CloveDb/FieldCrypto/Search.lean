/-
# CloveDb.FieldCrypto.Search — which conditions on protected fields a query accepts

`field_crypto/search.rs`. A condition may touch a protected field only where its fingerprints are stored, only as an
equality (or a list of equalities) with whole-value fingerprints or as a list of parts, and only with texts that a
field handle issued. `partCandidates` is what the handle of a field with fingerprints of parts builds.
-/
import CloveDb.FieldCrypto.RowCodec

namespace CloveDb.FieldCrypto

open CloveDb.Lib CloveDb.Fields CloveDb.Query

/-! ## Where fingerprints are stored -/

/-- `print_steps` -/
def printSteps (spec : SealedSpec) : Option (List Step) :=
  if spec.method = .searchPrint then some [.key spec.key]
  else if spec.method.hasStoredPrint then some [.key spec.key, .key "f"]
  else none

/-- `parts_steps` -/
def partsSteps (spec : SealedSpec) : Option (List Step) :=
  if spec.method.hasParts then some [.key spec.key, .key "p"] else none

/-! ## The filter -/

/-- The protected field a path begins with. -/
def protectedBy (specs : List SealedSpec) (path : Path) : Option SealedSpec :=
  match path.steps with
  | .key k :: _ => specs.find? fun spec => spec.key == k
  | _ => none

def denied (key : String) : ClError :=
  .validation ("`" ++ key ++ "` is a protected field: it cannot be used to filter, order, group or aggregate")

/-- A text out of the list of issued ones. -/
def isIssued (issued : List String) : Value → Bool
  | .string s => issued.contains s
  | _ => false

/-- `check_filter`. An `elem_match` looks into the items of an ordinary field: what is inside is not checked. -/
def checkFilter (specs : List SealedSpec) (issued : List String) : Expr → Result Unit
  | .compare path op values =>
      match protectedBy specs path with
      | none => .ok ()
      | some spec =>
          let onPrint := printSteps spec == some path.steps && path.transforms.isEmpty
          let onParts := partsSteps spec == some path.steps && path.transforms.isEmpty
          let known := !values.isEmpty && values.all (isIssued issued)
          if onPrint && (op == .eq || op == .isIn) && known then .ok ()
          else if onParts && op == .parts && known && values.length == 1 then .ok ()
          else if onPrint || onParts then
            .error (.validation
              ("`" ++ spec.key ++ "`: a condition on this field must be built with its handle and a search grant"))
          else .error (denied spec.key)
  | .presence path _ =>
      match protectedBy specs path with
      | some spec => .error (denied spec.key)
      | none => .ok ()
  | .elemMatch path _ =>
      match protectedBy specs path with
      | some spec => .error (denied spec.key)
      | none => .ok ()
  | .and a b => do
      checkFilter specs issued a
      checkFilter specs issued b
  | .or a b => do
      checkFilter specs issued a
      checkFilter specs issued b
  | .not a => checkFilter specs issued a
  | .never => .ok ()
  | .invalid _ => .ok ()

theorem protectedBy_mem {specs : List SealedSpec} {path : Path} {spec : SealedSpec}
    (h : protectedBy specs path = some spec) : spec ∈ specs ∧ ∃ rest, path.steps = .key spec.key :: rest := by
  unfold protectedBy at h
  split at h
  · rename_i k rest hsteps
    have hkey : spec.key = k := by simpa using List.find?_some h
    exact ⟨List.mem_of_find?_eq_some h, rest, hkey ▸ hsteps⟩
  · cases h

theorem exists_issued {issued : List String} {values : List Value} (h : values.all (isIssued issued) = true) :
    ∃ tags : List String, (∀ t ∈ tags, t ∈ issued) ∧ values = tags.map .string := by
  induction values with
  | nil => exact ⟨[], by simp, rfl⟩
  | cons v values ih =>
      rw [List.all_cons, Bool.and_eq_true] at h
      obtain ⟨tags, hissued, rfl⟩ := ih h.2
      cases v with
      | string s =>
          have hs : s ∈ issued := by simpa [isIssued] using h.1
          exact ⟨s :: tags, List.forall_mem_cons.mpr ⟨hs, hissued⟩, rfl⟩
      | _ => cases h.1

/-- What an accepted comparison with a protected field is: one with issued texts, where fingerprints are stored. -/
theorem checkFilter_compare {specs : List SealedSpec} {issued : List String} {path : Path} {op : Compare}
    {values : List Value} {spec : SealedSpec} (hspec : protectedBy specs path = some spec)
    (h : checkFilter specs issued (.compare path op values) = .ok ()) :
    path.transforms = [] ∧ (∃ tags : List String, (∀ t ∈ tags, t ∈ issued) ∧ values = tags.map .string) ∧
      ((printSteps spec = some path.steps ∧ (op = .eq ∨ op = .isIn)) ∨
        (partsSteps spec = some path.steps ∧ op = .parts)) := by
  simp only [checkFilter, hspec] at h
  split_ifs at h with hprint hparts
  · simp only [Bool.and_eq_true, Bool.or_eq_true, beq_iff_eq, List.isEmpty_iff] at hprint
    exact ⟨hprint.1.1.2, exists_issued hprint.2.2, .inl ⟨hprint.1.1.1, hprint.1.2⟩⟩
  · simp only [Bool.and_eq_true, beq_iff_eq, List.isEmpty_iff] at hparts
    exact ⟨hparts.1.1.1.2, exists_issued hparts.1.2.2, .inr ⟨hparts.1.1.1.1, hparts.1.1.2⟩⟩

/-- More issued fingerprints refuse nothing more. -/
theorem checkFilter_mono {specs : List SealedSpec} {issued issued' : List String} (hsub : issued ⊆ issued') {e : Expr}
    (h : checkFilter specs issued e = .ok ()) : checkFilter specs issued' e = .ok () := by
  induction e with
  | compare path op values =>
      have hvalues : values.all (isIssued issued) = true → values.all (isIssued issued') = true := by
        intro hall
        obtain ⟨tags, htags, rfl⟩ := exists_issued hall
        rw [List.all_eq_true]
        intro v hv
        obtain ⟨t, ht, rfl⟩ := List.mem_map.mp hv
        exact List.contains_iff_mem.mpr (hsub (htags t ht))
      rw [checkFilter] at h ⊢
      cases hspec : protectedBy specs path with
      | none => rfl
      | some spec =>
          rw [hspec] at h
          dsimp only at h ⊢
          split_ifs at h with hprint hparts
          · simp only [Bool.and_eq_true] at hprint
            rw [if_pos]
            simp only [Bool.and_eq_true]
            exact ⟨hprint.1, hprint.2.1, hvalues hprint.2.2⟩
          · simp only [Bool.and_eq_true] at hparts
            split_ifs with hfirst hsecond
            · rfl
            · rfl
            · refine absurd ?_ hsecond
              simp only [Bool.and_eq_true]
              exact ⟨⟨hparts.1.1, hparts.1.2.1, hvalues hparts.1.2.2⟩, hparts.2⟩
            · refine absurd ?_ hsecond
              simp only [Bool.and_eq_true]
              exact ⟨⟨hparts.1.1, hparts.1.2.1, hvalues hparts.1.2.2⟩, hparts.2⟩
  | presence path op => exact h
  | elemMatch path inner _ => exact h
  | and a b iha ihb =>
      rw [checkFilter, bind_eq_ok] at h
      obtain ⟨u, ha, hb⟩ := h
      rw [checkFilter, iha ha, ok_bind, ihb hb]
  | or a b iha ihb =>
      rw [checkFilter, bind_eq_ok] at h
      obtain ⟨u, ha, hb⟩ := h
      rw [checkFilter, iha ha, ok_bind, ihb hb]
  | not a ih => exact ih h
  | never => rfl
  | invalid message => rfl

/-! ## The handle of a field with fingerprints of parts -/

/-- `MAX_QUERY_PARTS` -/
def maxQueryParts : Nat := 64

/-- `to_string` of an error. Making fingerprints only fails with `Validation`. -/
def errorText : ClError → String
  | .validation message => "Validation error: " ++ message
  | _ => ""

/-- The field a handle stands for is its `spec`; the grant brings the keys and the table. -/
def partCandidates {Root N : Type} (crypto : Primitives Root N) (keys : FieldKeys Root) (tools : RowTools)
    (tableId : String) (spec : SealedSpec) (sought : String) : Predicate :=
  if !spec.method.hasParts then
    ⟨.invalid ("`" ++ spec.key ++ "` has no fingerprints of parts: declare it with `print = \"parts\"`"), []⟩
  else
    let length := normalizedLen tools spec.normalize sought
    if length < spec.window then
      ⟨.invalid ("`" ++ spec.key ++ "` is searched by parts of " ++ toString spec.window ++
        " characters, and the text searched for has " ++ toString length ++
        ": a shorter text needs the slow scan, with a read grant"), []⟩
    else
      match partTags crypto keys tools tableId spec.id spec.normalize spec.window spec.bits sought with
      | .error e => ⟨.invalid (errorText e), []⟩
      | .ok tags =>
          let joined := joinTags (tags.take maxQueryParts)
          ⟨.compare ⟨[.key spec.key, .key "p"], .auto, []⟩ .parts [.string joined], [joined]⟩

end CloveDb.FieldCrypto
