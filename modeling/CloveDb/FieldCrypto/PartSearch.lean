/-
# CloveDb.FieldCrypto.PartSearch — the confirmed search by a piece of a value

`field_crypto/confirm.rs`. The candidates that the fingerprints of parts give are fetched page by page; a program that
holds the read key opens each one and keeps the rows that really contain the text.

A page takes its rows from the table or from an index; which one, and with what keys, is up to the planner at each page
(`sources`), and what is asked of an index here is that it misses no row and names keys in order. Decoding the fields
that are not protected is the entity's own business and left out, as is the event of the search.
-/
import CloveDb.FieldCrypto.Filters
import CloveDb.FieldCrypto.Parts

namespace CloveDb.FieldCrypto

open CloveDb.Lib CloveDb.Encrypted CloveDb.Fields CloveDb.Query

/-! ## The search -/

structure SearchTools extends RowTools, PageTools

/-- `PartSearch`; the handle is the `spec` of its field. -/
structure PartSearch where
  spec : SealedSpec
  text : String
  filter : Option Predicate
  limit : Option Nat

inductive PartResults where
  | confirmed (rows : List Row)
  | candidates (rows : List Row)
  deriving DecidableEq

/-- `CONFIRM_CHUNK` -/
def confirmChunk : Nat := 256

section Search

variable {Root N : Type} (crypto : Primitives Root N) (keys : FieldKeys Root) (tools : SearchTools)

/-- The table a search looks into, and the grant's name for it. -/
structure SearchedTable where
  name : String
  tableId : String
  specs : List SealedSpec

variable (table : SearchedTable)

/-- The condition of all pages. -/
def PartSearch.predicate (search : PartSearch) : Predicate :=
  let parts := partCandidates crypto keys tools.toRowTools table.tableId search.spec search.text
  match search.filter with
  | none => parts
  | some extra => parts.and extra

def PartSearch.query (search : PartSearch) (cursor : Option Query.Cursor) : Query :=
  ⟨table.name, some (search.predicate crypto keys tools table), [], some confirmChunk, cursor, some table.specs⟩

/-- `decode_row`: a row with the sealed text of the field, which stays tied to the place of the row. -/
def decodeRow (spec : SealedSpec) (row : Row) : Result (Row × String) :=
  match tools.parseJson row.bytes with
  | none => .error .serialization
  | some json =>
      match (entry spec.key json).bind readSealed with
      | none => .error .serialization
      | some (sealedText, _, _) => .ok (row, sealedText)

/-- `page` of a query, decoded. -/
def searchPage (search : PartSearch) (view : ReadView) (source : Source) (cursor : Option Query.Cursor) :
    Result (List (Row × String) × Option Query.Cursor) := do
  let page ← (search.query crypto keys tools table cursor).pageIn tools.toPageTools view source
  let items ← collect (decodeRow tools search.spec) page.rows
  return (items, page.next)

/-- Is a candidate really one? Its sealed text is opened where the row is. -/
def confirm (aead : Aead N) (spec : SealedSpec) (needle : String) (item : Row × String) : Result Bool :=
  match openEnvelope crypto aead ⟨table.tableId, spec.id, item.1.key⟩ item.2 with
  | none => .error .dataTampered
  | some plain =>
      match tools.readText plain with
      | none => .error (.validation "a field searched by parts must hold text")
      | some value => .ok (decide (needle.toList <:+: (normalizeText tools.toOutside value spec.normalize).toList))

/-- The candidates of a page, one after the other; `false` when there are enough matches. -/
def confirmRows (aead : Aead N) (search : PartSearch) (needle : String) :
    List (Row × String) → List Row → Result (List Row × Bool)
  | [], found => .ok (found, true)
  | item :: rest, found => do
      if ← confirm crypto tools table aead search.spec needle item then
        if search.limit.any (· ≤ found.length + 1) then .ok (found ++ [item.1], false)
        else confirmRows aead search needle rest (found ++ [item.1])
      else confirmRows aead search needle rest found

variable (view : ReadView) (sources : Nat → Source)

/-- The pages of a confirmed search. `none` is a search that has not come to its end with this much fuel. -/
def confirmPages (aead : Aead N) (search : PartSearch) (needle : String) :
    Nat → Nat → Option Query.Cursor → List Row → Option (Result (List Row))
  | 0, _, _, _ => none
  | fuel + 1, n, cursor, found =>
      match searchPage crypto keys tools table search view (sources n) cursor with
      | .error e => some (.error e)
      | .ok (items, next) =>
          match confirmRows crypto tools table aead search needle items found with
          | .error e => some (.error e)
          | .ok (found, false) => some (.ok found)
          | .ok (found, true) =>
              match next with
              | none => some (.ok found)
              | some next => confirmPages aead search needle fuel (n + 1) (some next) found

/-- The pages of a search without the read key. -/
def candidatePages (search : PartSearch) : Nat → Nat → Option Query.Cursor → List Row → Option (Result (List Row))
  | 0, _, _, _ => none
  | fuel + 1, n, cursor, found =>
      match searchPage crypto keys tools table search view (sources n) cursor with
      | .error e => some (.error e)
      | .ok (items, next) =>
          let found := found ++ items.map Prod.fst
          if search.limit.any (· ≤ found.length) then some (.ok (found.take (search.limit.getD found.length)))
          else
            match next with
            | none => some (.ok found)
            | some next => candidatePages search fuel (n + 1) (some next) found

/-- `PartSearch::run` -/
def PartSearch.run (search : PartSearch) (fuel : Nat) : Option (Result PartResults) :=
  match keys.cipher crypto table.tableId search.spec.id with
  | .error _ => (candidatePages crypto keys tools table view sources search fuel 0 none []).map (·.map .candidates)
  | .ok aead =>
      let needle := normalizeText tools.toOutside search.text search.spec.normalize
      (confirmPages crypto keys tools table view sources aead search needle fuel 0 none []).map (·.map .confirmed)

/-! ## What is stored, and what is asked for -/

/-- A field declared with fingerprints of parts. -/
structure PartsDeclared (spec : SealedSpec) : Prop where
  method : spec.method = .encryptPartPrints
  window : 1 ≤ spec.window
  bits : 1 ≤ spec.bits ∧ spec.bits ≤ 64

/-- A MAC has 32 bytes, and base64 is read back. -/
structure Primitives.Sound (crypto : Primitives Root N) : Prop where
  mac : ∀ key data, (crypto.mac key data).length = 32
  b64 : ∀ raw, crypto.b64Decode (crypto.b64Encode raw) = some raw

/-- Every row was written by `seal_row` with a text in the field. -/
def SealedTable (spec : SealedSpec) (rows : Table String Bytes) (value : String → String) : Prop :=
  ∀ k bytes, rows.get k = some bytes → ∃ object, bytes = tools.printRow object ∧ tools.toRowTools.Reads object ∧
    HoldsText crypto keys tools.toRowTools table.tableId table.specs spec k object (value k)

/-- The normalised value contains the normalised text. -/
def Contains (spec : SealedSpec) (sought value : String) : Prop :=
  (normalizeText tools.toOutside sought spec.normalize).toList <:+:
    (normalizeText tools.toOutside value spec.normalize).toList

instance (spec : SealedSpec) (sought value : String) : Decidable (Contains tools spec sought value) :=
  inferInstanceAs (Decidable (_ <:+: _))

section Conditions

variable {crypto keys tools table}
variable {spec : SealedSpec} (hdeclared : PartsDeclared spec) {partKey : Key32}
  (hpart : keys.partKey crypto table.tableId spec.id = .ok partKey)

include hdeclared hpart in
/-- The fingerprints of a text are those of its windows. -/
theorem partTags_eq (sought : String) : ∃ tags,
    partTags crypto keys tools.toRowTools table.tableId spec.id spec.normalize spec.window spec.bits sought = .ok tags ∧
      ∀ t, t ∈ tags ↔ ∃ piece : List Char, piece.length = spec.window ∧
        piece <:+: (normalizeText tools.toOutside sought spec.normalize).toList ∧
        partTag crypto partKey spec.window spec.bits (String.ofList piece) = t := by
  have hset : ¬(spec.window = 0 ∨ ¬(1 ≤ spec.bits ∧ spec.bits ≤ 64)) := by
    have := hdeclared.window
    have := hdeclared.bits
    omega
  rw [partTags, if_neg hset, hpart, ok_bind]
  refine ⟨_, rfl, fun t => ?_⟩
  simp only [mem_sortedSet, List.mem_map, mem_pieces hdeclared.window, and_assoc]

variable (hsound : crypto.Sound) (hhex : HexWords tools.toTools)

include hdeclared hpart hsound in
theorem isTag_of_mem {sought : String} {tags : List String}
    (htags : partTags crypto keys tools.toRowTools table.tableId spec.id spec.normalize spec.window spec.bits sought =
      .ok tags) : ∀ t ∈ tags, IsTag t := by
  obtain ⟨tags', htags', hmem⟩ := @partTags_eq Root N crypto keys tools table spec hdeclared partKey hpart sought
  cases htags.symm.trans htags'
  intro t ht
  obtain ⟨piece, -, -, rfl⟩ := (hmem t).mp ht
  exact isTag_partTag hsound.mac hdeclared.bits.1 hdeclared.bits.2 partKey spec.window _

/-- The comparison a search by parts makes. -/
def partsCondition (spec : SealedSpec) (tags : List String) : Expr :=
  .compare ⟨[.key spec.key, .key "p"], .auto, []⟩ .parts [.string (joinTags (tags.take maxQueryParts))]

include hdeclared in
theorem partCandidates_eq {sought : String} (hlong : spec.window ≤ normalizedLen tools.toRowTools spec.normalize sought)
    {tags : List String} (htags : partTags crypto keys tools.toRowTools table.tableId spec.id spec.normalize spec.window
      spec.bits sought = .ok tags) :
    partCandidates crypto keys tools.toRowTools table.tableId spec sought =
      ⟨partsCondition spec tags, [joinTags (tags.take maxQueryParts)]⟩ := by
  have hparts : spec.method.hasParts = true := by
    rw [hdeclared.method]
    rfl
  rw [partCandidates, hparts, Bool.not_true, if_neg Bool.false_ne_true, if_neg (Nat.not_lt.mpr hlong), htags]
  rfl

include hhex in
/-- The condition asks whether the fingerprints asked for are stored. -/
theorem rowMatches_parts {object : Table String Json} (hread : tools.toRowTools.Reads object) {sealedText full : String}
    {stored : List String}
    (hstored : object.get spec.key = some (storedForm sealedText (some full) (some (joinTags stored))))
    (hstoredTags : ∀ t ∈ stored, IsTag t) {tags : List String} (htags : ∀ t ∈ tags, IsTag t) (hne : tags ≠ []) :
    rowMatches tools.toTools (tools.printRow object) (partsCondition spec tags) =
      .ok (decide (∀ t ∈ tags.take maxQueryParts, t ∈ stored)) := by
  have hselect : select [.key spec.key, .key "p"] (objectJson object) = .ok (.string (joinTags stored)) := by
    rw [select_objectJson, hstored]
    exact select_entry (entry_parts sealedText full (joinTags stored)) []
  have hliterals := @interpret_auto_strings tools.toRowTools [joinTags (tags.take maxQueryParts)]
  rw [List.map_singleton] at hliterals
  rw [partsCondition, rowMatches, hliterals, ok_bind, testPath_stored hread (by rfl) rfl hselect]
  show scalar tools.toTools (.string (joinTags stored)) .parts ([joinTags (tags.take maxQueryParts)].map .string) = _
  rw [scalar_parts, List.head?_cons, Option.any_some]
  congr 1
  have hasked : ∀ t ∈ tags.take maxQueryParts, IsTag t := fun t ht => htags t (List.mem_of_mem_take ht)
  have hsome : tags.take maxQueryParts ≠ [] := by
    simp [List.take_eq_nil_iff, maxQueryParts, hne]
  rw [Bool.eq_iff_iff, compareTexts_parts, tokens_joinTags hhex hasked, tokens_joinTags hhex hstoredTags,
    decide_eq_true_iff]
  exact and_iff_right hsome

end Conditions

/-! ## One row -/

/-- The answer of the extra filter. -/
def PartSearch.extra (search : PartSearch) (bytes : Bytes) : Result Bool :=
  match search.filter with
  | none => .ok true
  | some p => rowMatches tools.toTools bytes p.expression

/-- A search that can be made: the field and its keys, the rows and the filter are what they have to be. -/
structure Searchable (search : PartSearch) (view : ReadView) (value : String → String) (aead : Aead N)
    (partKey : Key32) : Prop where
  declared : PartsDeclared search.spec
  mem : search.spec ∈ table.specs
  names : (table.specs.map SealedSpec.key).Nodup
  sound : crypto.Sound
  words : HexWords tools.toTools
  cipher : keys.cipher crypto table.tableId search.spec.id = .ok aead
  part : keys.partKey crypto table.tableId search.spec.id = .ok partKey
  rows : SealedTable crypto keys tools table search.spec view.rows value
  long : search.spec.window ≤ normalizedLen tools.toRowTools search.spec.normalize search.text
  accepted : ∀ p ∈ search.filter, checkFilter table.specs p.printed p.expression = .ok () ∧
    ∃ canonical, p.canonical tools.toPageTools = .ok canonical
  answers : ∀ k bytes, view.rows.get k = some bytes → ∃ yes, search.extra tools bytes = .ok yes

section Rows

variable {crypto keys tools table} {search : PartSearch} {view : ReadView} {value : String → String} {aead : Aead N}
  {partKey : Key32} (h : Searchable crypto keys tools table search view value aead partKey)

include h in
/-- The condition of a search on one row: an answer, and yes where the value contains the text. -/
theorem Searchable.candidate {k : String} {bytes : Bytes} (hrow : view.rows.get k = some bytes) :
    ∃ yes, rowMatches tools.toTools bytes
        (partCandidates crypto keys tools.toRowTools table.tableId search.spec search.text).expression = .ok yes ∧
      (Contains tools search.spec search.text (value k) → yes = true) := by
  obtain ⟨object, rfl, hread, hholds⟩ := h.rows k bytes hrow
  obtain ⟨plain, nonce, full, stored, -, hstored, hget⟩ := hholds.stored h.names h.declared.method h.cipher
  obtain ⟨tags, htags, hmem⟩ := @partTags_eq Root N crypto keys tools table search.spec h.declared partKey h.part search.text
  obtain ⟨stored', hstored', hmem'⟩ :=
    @partTags_eq Root N crypto keys tools table search.spec h.declared partKey h.part (value k)
  cases hstored.symm.trans hstored'
  -- the text is as long as a window, so it has one
  have hne : tags ≠ [] := by
    have hlong := h.long
    rw [normalizedLen] at hlong
    refine List.ne_nil_of_mem ((hmem _).mpr ⟨_, ?_, (List.take_prefix search.spec.window _).isInfix, rfl⟩)
    rw [List.length_take]
    omega
  rw [partCandidates_eq h.declared h.long htags]
  refine ⟨_, rowMatches_parts h.words hread hget (isTag_of_mem h.declared h.part h.sound hstored)
    (isTag_of_mem h.declared h.part h.sound htags) hne, fun hcontains => ?_⟩
  rw [decide_eq_true_iff]
  intro t ht
  obtain ⟨piece, hlen, hin, rfl⟩ := (hmem t).mp (List.mem_of_mem_take ht)
  exact (hmem' _).mpr ⟨piece, hlen, hin.trans hcontains, rfl⟩

/-- A row meets the condition of the pages. -/
def PartSearch.asked (crypto : Primitives Root N) (keys : FieldKeys Root) (tools : SearchTools) (table : SearchedTable)
    (search : PartSearch) (r : String × Bytes) : Bool :=
  match (search.query crypto keys tools table none).accepts tools.toPageTools r.2 with
  | .ok yes => yes
  | .error _ => false

include h in
/-- The condition of the pages has an answer on every row: what the fingerprints say, and the extra filter. -/
theorem Searchable.asked {k : String} {bytes : Bytes} (hrow : view.rows.get k = some bytes) (cursor : Option Query.Cursor) :
    (search.query crypto keys tools table cursor).accepts tools.toPageTools bytes =
        .ok (search.asked crypto keys tools table (k, bytes)) ∧
      (Contains tools search.spec search.text (value k) →
        (search.asked crypto keys tools table (k, bytes) = true ↔ search.extra tools bytes = .ok true)) := by
  obtain ⟨yes, hparts, hcontains⟩ := h.candidate hrow
  obtain ⟨extra, hextra⟩ := h.answers k bytes hrow
  have haccepts : ∀ c, (search.query crypto keys tools table c).accepts tools.toPageTools bytes = .ok (yes && extra) := by
    intro c
    show rowMatches tools.toTools bytes (search.predicate crypto keys tools table).expression = _
    rw [PartSearch.predicate]
    rw [PartSearch.extra] at hextra
    cases hfilter : search.filter with
    | none =>
        rw [hfilter] at hextra
        cases hextra
        dsimp only
        rw [hparts, Bool.and_true]
    | some p =>
        rw [hfilter] at hextra
        dsimp only at hextra ⊢
        rw [Predicate.and, rowMatches, hparts, ok_bind]
        cases yes with
        | false => rfl
        | true => rw [if_pos rfl, hextra, Bool.true_and]
  have hasked : search.asked crypto keys tools table (k, bytes) = (yes && extra) := by
    rw [PartSearch.asked, haccepts none]
  refine ⟨(haccepts cursor).trans (by rw [hasked]), fun hin => ?_⟩
  rw [hasked, hcontains hin, Bool.true_and, hextra, Except.ok.injEq]

include h in
/-- A row is decoded and opened, and the value decides. -/
theorem Searchable.confirmed {k : String} {bytes : Bytes} (hrow : view.rows.get k = some bytes) :
    ∃ sealedText, decodeRow tools search.spec (plainRow (k, bytes)) = .ok (plainRow (k, bytes), sealedText) ∧
      confirm crypto tools table aead search.spec
          (normalizeText tools.toOutside search.text search.spec.normalize) (plainRow (k, bytes), sealedText) =
        .ok (decide (Contains tools search.spec search.text (value k))) := by
  obtain ⟨object, rfl, hread, hholds⟩ := h.rows k bytes hrow
  obtain ⟨plain, nonce, full, stored, hvalue, -, hget⟩ := hholds.stored h.names h.declared.method h.cipher
  refine ⟨sealEnvelope crypto aead ⟨table.tableId, search.spec.id, k⟩ nonce plain, ?_, ?_⟩
  · have hparse : tools.parseJson (plainRow (k, tools.printRow object)).bytes = some (objectJson object) := hread
    rw [decodeRow, hparse]
    dsimp only
    rw [entry_objectJson, hget, Option.bind_some, readSealed_storedForm]
  · have hopen : openEnvelope crypto aead ⟨table.tableId, search.spec.id, (plainRow (k, tools.printRow object)).key⟩
        (sealEnvelope crypto aead ⟨table.tableId, search.spec.id, k⟩ nonce plain) = some plain :=
      openEnvelope_sealEnvelope crypto h.sound.b64 aead _ nonce plain
    rw [confirm, hopen]
    dsimp only
    rw [hvalue]
    rfl

end Rows

/-! ## All pages -/

theorem protectedBy_of_mem {specs : List SealedSpec} (hnames : (specs.map SealedSpec.key).Nodup) {spec : SealedSpec}
    (hmem : spec ∈ specs) {path : Path} {rest : List Step} (hsteps : path.steps = .key spec.key :: rest) :
    protectedBy specs path = some spec := by
  cases hfound : protectedBy specs path with
  | none =>
      rw [protectedBy, hsteps] at hfound
      exact absurd (beq_self_eq_true _) (List.find?_eq_none.mp hfound spec hmem)
  | some spec' =>
      obtain ⟨hmem', rest', hsteps'⟩ := protectedBy_mem hfound
      have hkey : spec'.key = spec.key := by
        rw [hsteps, List.cons.injEq, Step.key.injEq] at hsteps'
        exact hsteps'.1.symm
      exact congrArg some (List.inj_on_of_nodup_map hnames hmem' hmem hkey)

section Pages

variable {crypto keys tools table} {search : PartSearch} {view : ReadView} {value : String → String} {aead : Aead N}
  {partKey : Key32} (h : Searchable crypto keys tools table search view value aead partKey)

include h in
/-- The condition of the pages is accepted. -/
theorem Searchable.fingerprint :
    ∃ fingerprint, ∀ cursor, (search.query crypto keys tools table cursor).fingerprint tools.toPageTools = .ok fingerprint := by
  obtain ⟨tags, htags, -⟩ := @partTags_eq Root N crypto keys tools table search.spec h.declared partKey h.part search.text
  have hparts := partCandidates_eq h.declared h.long htags
  have hcheck : checkFilter table.specs [joinTags (tags.take maxQueryParts)] (partsCondition search.spec tags) = .ok () := by
    have hmethod := h.declared.method
    rw [partsCondition, checkFilter, protectedBy_of_mem h.names h.mem rfl]
    simp [printSteps, partsSteps, hmethod, Method.hasStoredPrint, Method.hasParts, isIssued]
  have hpredicate : checkFilter table.specs (search.predicate crypto keys tools table).printed
        (search.predicate crypto keys tools table).expression = .ok () ∧
      ∃ canonical, (search.predicate crypto keys tools table).canonical tools.toPageTools = .ok canonical := by
    rw [PartSearch.predicate, hparts]
    cases hfilter : search.filter with
    | none => exact ⟨hcheck, _, rfl⟩
    | some p =>
        obtain ⟨haccepted, canonical, hcanonical⟩ := h.accepted p hfilter
        dsimp only
        constructor
        · rw [Predicate.and, checkFilter, checkFilter_mono (List.subset_append_left _ _) hcheck, ok_bind,
            checkFilter_mono (List.subset_append_right _ _) haccepted]
        · rw [Predicate.canonical, bind_eq_ok] at hcanonical
          obtain ⟨u, hchecked, hnormal⟩ := hcanonical
          refine ⟨.and (partsCondition search.spec tags) canonical, ?_⟩
          rw [Predicate.canonical, Predicate.and, Expr.check, hchecked, Expr.normalize, hnormal]
          rfl
  obtain ⟨hfilter, canonical, hcanonical⟩ := hpredicate
  refine ⟨tools.queryBytes table.name (some canonical) [], fun cursor => ?_⟩
  rw [Query.fingerprint, Query.refuseProtectedQuery]
  show ((checkFilter table.specs (search.predicate crypto keys tools table).printed
    (search.predicate crypto keys tools table).expression) >>= fun _ => do
      let canonical ← (search.predicate crypto keys tools table).canonical tools.toPageTools
      .ok (tools.queryBytes table.name (some canonical) [])) = _
  rw [hfilter, ok_bind, hcanonical, ok_bind]

include h in
/-- The candidates of a page, decoded and confirmed. -/
theorem Searchable.confirmRows (hlimit : search.limit = none) {xs : List (String × Bytes)}
    (hxs : ∀ r ∈ xs, view.rows.get r.1 = some r.2) (found : List Row) :
    ∃ items, collect (decodeRow tools search.spec) (xs.map plainRow) = .ok items ∧
      FieldCrypto.confirmRows crypto tools table aead search
          (normalizeText tools.toOutside search.text search.spec.normalize) items found =
        .ok (found ++ (xs.filter fun r => decide (Contains tools search.spec search.text (value r.1))).map plainRow,
          true) := by
  induction xs generalizing found with
  | nil => exact ⟨[], rfl, by rw [FieldCrypto.confirmRows, List.filter_nil, List.map_nil, List.append_nil]⟩
  | cons r xs ih =>
      obtain ⟨sealedText, hdecode, hconfirm⟩ := h.confirmed (hxs r List.mem_cons_self)
      have hrest := fun found => ih (fun r hr => hxs r (List.mem_cons_of_mem _ hr)) found
      cases hhit : decide (Contains tools search.spec search.text (value r.1)) with
      | false =>
          obtain ⟨items, hitems, hconfirmed⟩ := hrest found
          refine ⟨(plainRow r, sealedText) :: items, collect_cons_ok.mpr ⟨_, _, hdecode, hitems, rfl⟩, ?_⟩
          rw [FieldCrypto.confirmRows, hconfirm, hhit, ok_bind, if_neg Bool.false_ne_true, hconfirmed,
            List.filter_cons_of_neg (by rw [hhit]; exact Bool.false_ne_true)]
      | true =>
          obtain ⟨items, hitems, hconfirmed⟩ := hrest (found ++ [plainRow r])
          refine ⟨(plainRow r, sealedText) :: items, collect_cons_ok.mpr ⟨_, _, hdecode, hitems, rfl⟩, ?_⟩
          rw [FieldCrypto.confirmRows, hconfirm, hhit, ok_bind, if_pos rfl, hlimit, Option.any_none,
            if_neg Bool.false_ne_true, hconfirmed, List.filter_cons_of_pos (by rw [hhit]), List.map_cons,
            List.append_assoc]
          rfl

/-- What follows the last row of a page is what the page left. -/
theorem afterKey_last {l : List (String × Bytes)} (hl : Ascending l) {cursor next : Option Query.Cursor} {n : Nat}
    {r : String × Bytes} (hlast : ((l.filter fun x => afterKey cursor x.1).take n).getLast? = some r)
    (hnext : ∀ k, afterKey next k = decide (r.1 < k)) :
    (l.filter fun x => afterKey next x.1) = (l.filter fun x => afterKey cursor x.1).drop n := by
  have hr := (List.mem_filter.mp (List.mem_of_mem_take (List.mem_of_getLast? hlast))).2
  rw [← filter_after_last (hl.filter _) hlast, List.filter_filter]
  refine List.filter_congr fun x _ => ?_
  rw [hnext]
  cases hlt : decide (r.1 < x.1) with
  | false => rfl
  | true =>
      -- a row after the last one is also after the cursor before it
      symm
      rw [Bool.true_and]
      cases cursor with
      | none => rfl
      | some c =>
          rw [afterKey, Option.all_some, decide_eq_true_iff] at hr ⊢
          exact hr.trans (decide_eq_true_iff.mp hlt)

include h in
/-- A search goes through what is left of the rows page by page. -/
theorem Searchable.confirmPages (hlimit : search.limit = none) {sources : Nat → Source}
    (hcovers : ∀ n, (sources n).Covers view (search.asked crypto keys tools table)) {fingerprint : Bytes}
    (hfingerprint : ∀ cursor,
      (search.query crypto keys tools table cursor).fingerprint tools.toPageTools = .ok fingerprint)
    (fuel n : Nat) (cursor : Option Query.Cursor) (hcursor : ∀ c ∈ cursor, c.order = [] ∧ c.valid fingerprint view = true)
    (found : List Row)
    (hfuel : ((view.rows.rows.filter (search.asked crypto keys tools table)).filter
      fun r => afterKey cursor r.1).length < fuel) :
    FieldCrypto.confirmPages crypto keys tools table view sources aead search
        (normalizeText tools.toOutside search.text search.spec.normalize) fuel n cursor found =
      some (.ok (found ++ (((view.rows.rows.filter (search.asked crypto keys tools table)).filter
        fun r => afterKey cursor r.1).filter
          fun r => decide (Contains tools search.spec search.text (value r.1))).map plainRow)) := by
  induction fuel generalizing n cursor found with
  | zero => exact absurd hfuel (Nat.not_lt_zero _)
  | succ fuel ih =>
      have hget : ∀ r ∈ view.rows.rows, view.rows.get r.1 = some r.2 := fun r hr => (view.rows.mem_rows_iff r.1 r.2).mp hr
      obtain ⟨rows, hrows, hpage⟩ := pageIn_plain (q := search.query crypto keys tools table cursor) rfl rfl
        (by decide : 0 < confirmChunk) (fun c hc => (hcursor c hc).1) (hfingerprint cursor)
        (fun c hc => (hcursor c hc).2) (fun r hr => (h.asked (hget r hr) cursor).1) (hcovers n)
      have hafter : (search.query crypto keys tools table cursor).after = cursor := rfl
      rw [hafter] at hrows
      set candidates := view.rows.rows.filter (search.asked crypto keys tools table) with hcandidates
      set rest := candidates.filter fun r => afterKey cursor r.1 with hrest
      have hxs : ∀ r ∈ rest.take confirmChunk, view.rows.get r.1 = some r.2 := fun r hr =>
        hget r (List.mem_of_mem_filter (List.mem_of_mem_filter (List.mem_of_mem_take hr)))
      obtain ⟨items, hitems, hconfirmed⟩ := h.confirmRows hlimit hxs found
      rw [FieldCrypto.confirmPages, searchPage, hpage, ok_bind, hrows, hitems, ok_bind]
      dsimp only [pure, Except.pure]
      rw [hconfirmed]
      dsimp only
      rw [List.getLast?_map]
      cases hlast : (rest.take confirmChunk).getLast? with
      | none =>
          have hnil : rest = [] := by
            rw [List.getLast?_eq_none_iff, List.take_eq_nil_iff] at hlast
            exact hlast.resolve_left (by decide)
          rw [hnil]
          rfl
      | some r =>
          have hne : rest ≠ [] := fun hnil => by
            rw [hnil] at hlast
            cases hlast
          have hleft : (candidates.filter fun x => afterKey
              (some ⟨fingerprint, [], r.1, view.head, view.databaseUuid⟩) x.1) = rest.drop confirmChunk :=
            afterKey_last (view.rows.ascending.filter _) hlast fun k => rfl
          have hvalid : ∀ c ∈ some (Query.Cursor.mk fingerprint [] r.1 view.head view.databaseUuid),
              c.order = [] ∧ c.valid fingerprint view = true := by
            intro c hc
            cases hc
            exact ⟨rfl, by simp [Query.Cursor.valid]⟩
          have hshorter : (rest.drop confirmChunk).length < fuel := by
            have := List.length_pos_of_ne_nil hne
            rw [List.length_drop, confirmChunk]
            omega
          show FieldCrypto.confirmPages crypto keys tools table view sources aead search _ fuel (n + 1)
            (some ⟨fingerprint, [], r.1, view.head, view.databaseUuid⟩) _ = _
          rw [ih (n + 1) _ hvalid _ (by rw [hleft]; exact hshorter), hleft, List.append_assoc, ← List.map_append,
            ← List.filter_append, List.take_append_drop]

end Pages

end Search

namespace Phones

def spec : SealedSpec := ⟨1, "phone", .encryptPartPrints, none, [], 3, 12⟩

def entity : Entity Unit := ⟨.ok [.new (utf8 "5550123") () []], .ok (some (Table.empty.insert "phone" .null))⟩

/-- Texts are their own JSON, and every row prints the same. -/
def codec : RowTools := { Tools.listed [] with readText := fromUtf8, printRow := fun _ => [1] }

def row : Table String Json :=
  match sealObject .plain .plain codec "0011" [spec] "a" entity with
  | .ok object => object
  | .error _ => Table.empty

def tools : SearchTools :=
  { codec with
    parseJson := fun bytes => if bytes = [1] then some (objectJson row) else none
    similarityText := fun _ _ => "0"
    queryBytes := fun _ _ _ => [] }

theorem sealObject_row : sealObject .plain .plain tools.toRowTools "0011" [spec] "a" entity = .ok row := by
  obtain ⟨object, hobject⟩ := exists_of_isOk (x := sealObject .plain .plain codec "0011" [spec] "a" entity)
    (by decide)
  rw [row, hobject]
  exact hobject

def table : SearchedTable := ⟨"people", "0011", [spec]⟩

def view : ReadView := ⟨1, [], Table.empty.insert "a" [1], fun _ => 1⟩

def search : PartSearch := ⟨spec, "012", none, none⟩

theorem sound : Primitives.plain.Sound where
  mac key data := length_leBytes 32 _
  b64 raw := by
    show some ((String.ofList (raw.map fun b => Char.ofNat b.toNat)).toList.map fun c => UInt8.ofNat c.toNat) = some raw
    rw [String.toList_ofList, List.map_map]
    congr 1
    refine (List.map_congr_left fun b _ => ?_).trans (List.map_id raw)
    have hvalid : b.toNat.isValidChar := .inl (b.toNat_lt.trans (by decide))
    show UInt8.ofNat (Char.ofNat b.toNat).toNat = b
    rw [Char.ofNat, dif_pos hvalid]
    exact UInt8.ofNat_toNat

theorem searchable : Searchable .plain .plain tools table search view (fun _ => "5550123") Aead.marking
    ⟨List.replicate 32 2, List.length_replicate⟩ where
  declared := ⟨rfl, by decide, by decide⟩
  mem := List.mem_singleton_self spec
  names := by decide
  sound := sound
  words := ⟨by decide, List.all_eq_true.mp (by decide), fun _ _ => rfl⟩
  cipher := rfl
  part := rfl
  rows := by
    intro k bytes hrow
    obtain rfl : k = "a" := by
      by_contra hne
      rw [view, Table.get_insert_ne _ _ hne] at hrow
      cases hrow
    cases hrow
    exact ⟨row, rfl, rfl, .new sealObject_row rfl List.mem_cons_self (fromUtf8_utf8 "5550123")⟩
  long := by decide
  accepted := by
    intro p hp
    cases hp
  answers := fun _ _ _ => ⟨true, rfl⟩

end Phones

end CloveDb.FieldCrypto
