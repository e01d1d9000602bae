/-
# CloveDb.Indexes.Maintain — an index kept up to date is the index built anew

Whatever rows are written and removed, an index holds exactly the keys of the current rows, each reverse
record what its row has put there, each term count the number of rows with the term, and the counters are
sums over the current rows. The step that carries this is that the keys of two rows are never the same, so
that what one row takes out again no other row has put in.
-/
import CloveDb.Fields.Order
import CloveDb.Indexes.Rows
import CloveDb.Indexes.TrigramBuild

namespace CloveDb.Indexes

open CloveDb.Lib CloveDb.Fields CloveDb.Query
open CloveDb.Lib.Table (insertAll insertAll_append insertAll_perm get_insertAll_iff)

variable (tools : Tools)

/-! ## Keys of different rows -/

theorem rowSuffix_eq (row : String) : rowSuffix tools row = .ok (7 :: Codec.text (utf8 row)) := rfl

/-- Codes of values, whatever they are, compare in some way that a start of both decides. -/
theorem agrees_equality {v w : Value} {a b : Bytes} (ha : Codec.encodeEquality tools.toOutside v = .ok a)
    (hb : Codec.encodeEquality tools.toOutside w = .ok b) : ∃ o, Agrees o a b :=
  ⟨_, Codec.append_agrees v w ha hb⟩

theorem agrees_keyPart {direction : Option Direction} {v w : Value} {a b : Bytes}
    (ha : keyPart tools direction v = .ok a) (hb : keyPart tools direction w = .ok b) : ∃ o, Agrees o a b := by
  obtain ⟨x, hx, ha⟩ := bind_eq_ok.mp ha
  obtain ⟨y, hy, hb⟩ := bind_eq_ok.mp hb
  obtain ⟨o, ho⟩ := agrees_equality tools hx hy
  by_cases hdesc : direction = some .desc
  · rw [if_pos hdesc] at ha hb
    cases ha
    cases hb
    exact ⟨_, ho.complement⟩
  · rw [if_neg hdesc] at ha hb
    cases ha
    cases hb
    exact ⟨o, ho⟩

theorem agrees_keyParts {directions : List Direction} {vs ws : List Value} (hlength : vs.length = ws.length)
    {i : Nat} {a b : Bytes} (ha : keyParts tools directions i vs = .ok a)
    (hb : keyParts tools directions i ws = .ok b) : ∃ o, Agrees o a b := by
  induction vs generalizing ws i a b with
  | nil =>
      obtain rfl := List.length_eq_zero_iff.mp hlength.symm
      cases ha
      cases hb
      exact ⟨.eq, rfl⟩
  | cons v vs ih =>
      obtain ⟨w, ws, rfl⟩ := List.exists_cons_of_length_eq_add_one hlength.symm
      obtain ⟨x, hx, ha⟩ := bind_eq_ok.mp ha
      obtain ⟨xs, hxs, ha⟩ := bind_eq_ok.mp ha
      obtain ⟨y, hy, hb⟩ := bind_eq_ok.mp hb
      obtain ⟨ys, hys, hb⟩ := bind_eq_ok.mp hb
      cases ha
      cases hb
      obtain ⟨o, ho⟩ := agrees_keyPart tools hx hy
      obtain ⟨o', ho'⟩ := ih (Nat.succ.inj hlength) hxs hys
      exact ⟨_, ho.append ho'⟩

/-- The values of a compound definition have one part for each path. -/
def Shaped (d : Definition) (v : Value) : Prop :=
  1 < d.paths.length → ∃ vs, v = .array vs ∧ vs.length = d.paths.length

/-- A key that a row may put into an index. -/
def KeyOf (d : Definition) (row : String) (k : Bytes) : Prop :=
  ∃ v, Shaped d v ∧ definitionKey tools d v row = .ok k

/-- Codes with row keys behind them are equal only for one row. -/
theorem row_eq_of_suffix {o : Ordering} {a b : Bytes} (h : Agrees o a b) {row row' : String}
    (heq : a ++ 7 :: Codec.text (utf8 row) = b ++ 7 :: Codec.text (utf8 row')) : row = row' := by
  have hsuffix := (Codec.agrees_text (utf8 row) (utf8 row')).prepend [7]
  have hall := (h.append hsuffix).ordering_eq_of
  rw [List.singleton_append, List.singleton_append, heq, ordering_self] at hall
  exact utf8_injective (ordering_eq.mp (Ordering.then_eq_eq.mp hall.symm).2)

/-- No key is a key of two rows. -/
theorem KeyOf.row_eq {d : Definition} {row row' : String} {k : Bytes} (h : KeyOf tools d row k)
    (h' : KeyOf tools d row' k) : row = row' := by
  obtain ⟨v, hv, hk⟩ := h
  obtain ⟨w, hw, hk'⟩ := h'
  unfold definitionKey at hk hk'
  split at hk
  · rename_i hsingle
    rw [if_pos hsingle] at hk'
    obtain ⟨a, ha, hk⟩ := bind_eq_ok.mp hk
    obtain ⟨b, hb, hk'⟩ := bind_eq_ok.mp hk'
    obtain ⟨o, ho⟩ := agrees_equality tools ha hb
    exact row_eq_of_suffix ho (Except.ok.inj (hk.trans hk'.symm))
  · rename_i hmany
    rw [if_neg hmany] at hk'
    obtain ⟨vs, rfl, hvs⟩ := hv (not_le.mp hmany)
    obtain ⟨ws, rfl, hws⟩ := hw (not_le.mp hmany)
    obtain ⟨a, ha, hk⟩ := bind_eq_ok.mp hk
    obtain ⟨b, hb, hk'⟩ := bind_eq_ok.mp hk'
    obtain ⟨o, ho⟩ := agrees_keyParts tools (hvs.trans hws.symm) ha hb
    have hparts : ∃ o', Agrees o' ([8] ++ a ++ [0]) ([8] ++ b ++ [0]) :=
      ⟨_, (ho.prepend [8]).append (show Agrees .eq [0] [0] from rfl)⟩
    obtain ⟨o', ho'⟩ := hparts
    exact row_eq_of_suffix ho' (Except.ok.inj (hk.trans hk'.symm))

/-! ## Reverse records are read back -/

theorem getBytes_putBytes {bytes : Bytes} (h : bytes.length < 2 ^ 64) (rest : Bytes) :
    getBytes (putBytes bytes ++ rest) = .ok (bytes, rest) := by
  unfold getBytes putBytes
  rw [List.append_assoc, getVarint_putVarint h, ok_bind]
  dsimp only
  rw [if_neg (by rw [List.length_append]; omega), List.take_left, List.drop_left]
  rfl

theorem getItems_flatten {α : Type} {put : α → Bytes} {item : Bytes → Result (α × Bytes)} {items : List α}
    (h : ∀ a ∈ items, ∀ rest, item (put a ++ rest) = .ok (a, rest)) (rest : Bytes) :
    getItems item items.length ((items.map put).flatten ++ rest) = .ok (items, rest) := by
  induction items with
  | nil => rfl
  | cons a items ih =>
      rw [List.map_cons, List.flatten_cons, List.append_assoc, List.length_cons, getItems,
        h a List.mem_cons_self, ok_bind]
      dsimp only
      rw [ih fun b hb => h b (List.mem_cons_of_mem _ hb)]
      rfl

theorem getKey_putKey (suffix : Bytes) {key : Bytes} (hkey : key.length < 2 ^ 64) (rest : Bytes) :
    getKey suffix (putKey suffix key ++ rest) = .ok (key, rest) := by
  unfold putKey
  split
  · rename_i hsuffix
    obtain ⟨front, rfl⟩ := List.isSuffixOf_iff_suffix.mp hsuffix
    have htake : (front ++ suffix).take ((front ++ suffix).length - suffix.length) = front := by
      rw [List.length_append, Nat.add_sub_cancel, List.take_left]
    rw [htake, List.append_assoc, List.singleton_append, getKey,
      getBytes_putBytes (by rw [List.length_append] at hkey; omega), ok_bind]
    dsimp only
    rw [if_pos rfl]
    rfl
  · rw [List.append_assoc, List.singleton_append, getKey, getBytes_putBytes hkey, ok_bind]
    dsimp only
    rw [if_neg (by decide)]
    rfl

theorem getTerm_putBytes {t : String} (ht : (utf8 t).length < 2 ^ 64) (rest : Bytes) :
    getTerm (putBytes (utf8 t) ++ rest) = .ok (t, rest) := by
  unfold getTerm
  rw [getBytes_putBytes ht, ok_bind]
  dsimp only
  rw [fromUtf8_utf8]
  rfl

/-- Counters that fit their fields. -/
structure RowStats.Bounded (s : RowStats) : Prop where
  missing : s.missing < 2 ^ 64
  nulls : s.nulls < 2 ^ 64
  fanout : s.fanout < 2 ^ 64
  json : s.jsonBytes < 2 ^ 64
  keys : s.keyBytes < 2 ^ 64
  unorderable : s.unorderable < 2 ^ 64

theorem getStats_putStats {s : RowStats} (h : s.Bounded) (hvalues : s.values = []) :
    getStats s.key (putStats (some s)) = .ok (some s) := by
  unfold putStats getStats
  simp only [List.append_assoc, List.cons_append, List.nil_append]
  rw [getVarint_putVarint h.missing, ok_bind]
  dsimp only
  rw [getVarint_putVarint h.nulls, ok_bind]
  dsimp only
  rw [getVarint_putVarint h.fanout, ok_bind]
  dsimp only
  rw [getVarint_putVarint h.json, ok_bind]
  dsimp only
  rw [getVarint_putVarint h.keys, ok_bind]
  dsimp only
  have hlast := getVarint_putVarint h.unorderable []
  rw [List.append_nil] at hlast
  rw [hlast, ok_bind, ← hvalues]
  rfl

/-- A record within the sizes that it can name: those of the types of its fields. -/
structure Reverse.Fits (r : Reverse) : Prop where
  keys : r.keys.length < 2 ^ 64
  key : ∀ k ∈ r.keys, k.length < 2 ^ 64
  terms : r.terms.length < 2 ^ 64
  term : ∀ t ∈ r.terms, (utf8 t).length < 2 ^ 64
  stats : ∀ s ∈ r.stats, s.Bounded

/-- The record without what is not stored: the key of its row is known, and the values are not kept. -/
def Reverse.stored (row : String) (r : Reverse) : Reverse :=
  { r with stats := r.stats.map fun s => { s with key := row, values := [] } }

/-- The counters are read back, of any row. -/
theorem getStats_stored (row : String) {stats : Option RowStats} (h : ∀ s ∈ stats, s.Bounded) :
    getStats row (putStats stats) = .ok (stats.map fun s => { s with key := row, values := [] }) := by
  cases stats with
  | none => rfl
  | some s =>
      have hs := h s rfl
      have hbounded : ({ s with key := row, values := [] } : RowStats).Bounded :=
        ⟨hs.missing, hs.nulls, hs.fanout, hs.json, hs.keys, hs.unorderable⟩
      exact getStats_putStats hbounded rfl

/-- **A reverse record is read back**: its keys, with or without the suffix of the row, its terms and its counters. -/
theorem decodeReverse_encodeReverse (older : Bytes → Result Reverse) (row : String) {r : Reverse} (h : r.Fits) {bytes : Bytes}
    (hbytes : encodeReverse tools row r = .ok bytes) : decodeReverse tools older row bytes = .ok (r.stored row) := by
  cases hbytes
  simp only [List.append_assoc, List.cons_append, List.nil_append]
  rw [decodeReverse, rowSuffix_eq, ok_bind, getVarint_putVarint h.keys, ok_bind]
  dsimp only
  rw [getItems_flatten fun k hk => getKey_putKey _ (h.key k hk), ok_bind]
  dsimp only
  rw [getVarint_putVarint h.terms, ok_bind]
  dsimp only
  rw [getItems_flatten fun t ht => getTerm_putBytes (h.term t ht), ok_bind]
  dsimp only
  rw [getStats_stored row h.stats]
  rfl

/-- What a row puts into an index, within the sizes a record can name. -/
structure RowIndex.Fits (i : RowIndex) : Prop where
  keys : i.keys.length < 2 ^ 64
  key : ∀ k ∈ i.keys, k.length < 2 ^ 64
  terms : i.terms.length < 2 ^ 64
  term : ∀ t ∈ i.terms, (utf8 t).length < 2 ^ 64
  stats : i.stats.Bounded

instance (s : RowStats) : Decidable s.Bounded :=
  decidable_of_iff (s.missing < 2 ^ 64 ∧ s.nulls < 2 ^ 64 ∧ s.fanout < 2 ^ 64 ∧ s.jsonBytes < 2 ^ 64 ∧
      s.keyBytes < 2 ^ 64 ∧ s.unorderable < 2 ^ 64)
    ⟨fun ⟨a, b, c, d, e, f⟩ => ⟨a, b, c, d, e, f⟩, fun ⟨a, b, c, d, e, f⟩ => ⟨a, b, c, d, e, f⟩⟩

instance (i : RowIndex) : Decidable i.Fits :=
  decidable_of_iff (i.keys.length < 2 ^ 64 ∧ (∀ k ∈ i.keys, k.length < 2 ^ 64) ∧ i.terms.length < 2 ^ 64 ∧
      (∀ t ∈ i.terms, (utf8 t).length < 2 ^ 64) ∧ i.stats.Bounded)
    ⟨fun ⟨a, b, c, d, e⟩ => ⟨a, b, c, d, e⟩, fun ⟨a, b, c, d, e⟩ => ⟨a, b, c, d, e⟩⟩

/-- The record of a row. -/
def RowIndex.reverse (i : RowIndex) : Reverse := ⟨i.keys, i.terms, some { i.stats with values := [] }⟩

/-- The record of a row as it is stored. -/
def RowIndex.record (row : String) (i : RowIndex) : Bytes :=
  [2] ++ putVarint i.keys.length ++ (i.keys.map (putKey (7 :: Codec.text (utf8 row)))).flatten ++
    putVarint i.terms.length ++ (i.terms.map fun t => putBytes (utf8 t)).flatten ++
    putStats (some { i.stats with values := [] })

theorem encodeReverse_eq (row : String) (i : RowIndex) : encodeReverse tools row i.reverse = .ok (i.record row) := rfl

theorem decodeReverse_record (older : Bytes → Result Reverse) {row : String} {i : RowIndex} (h : i.Fits)
    (hkey : i.stats.key = row) : decodeReverse tools older row (i.record row) = .ok i.reverse := by
  have hfits : i.reverse.Fits := by
    refine ⟨h.keys, h.key, h.terms, h.term, ?_⟩
    intro s hs
    cases hs
    exact ⟨h.stats.missing, h.stats.nulls, h.stats.fanout, h.stats.json, h.stats.keys, h.stats.unorderable⟩
  rw [decodeReverse_encodeReverse tools older row hfits (encodeReverse_eq tools row i), ← hkey]
  rfl

/-! ## An index and its rows -/

/-- The rows of an index, each with what it has put there. -/
abbrev Contents := Table String RowIndex

/-- No count is kept of a term that no row has. -/
def positive (n : Nat) : Option Nat := if n = 0 then none else some n

/-- The rows with a term. -/
def rowsWith (term : String) (I : Contents) : Nat := I.total fun r => flag (decide (term ∈ r.2.terms))

/-- The sums over the rows. -/
def Reservoir.ofRows (I : Contents) : Reservoir :=
  ⟨I.total fun _ => 1, I.total fun r => r.2.stats.missing, I.total fun r => r.2.stats.nulls,
    I.total fun r => r.2.stats.fanout, I.total fun r => r.2.stats.jsonBytes,
    I.total fun r => r.2.stats.keyBytes, I.total fun r => r.2.stats.unorderable⟩

/-- What a row may put into an index: keys of its own, each key and each term once. -/
structure RowIndex.Proper (d : Definition) (row : String) (i : RowIndex) : Prop where
  fits : i.Fits
  named : i.stats.key = row
  keys : ∀ k ∈ i.keys, KeyOf tools d row k
  distinct : i.keys.Nodup
  terms : i.terms.Nodup

/-- The tables are those of some rows. -/
structure Held (d : Definition) (s : IndexTables) (I : Contents) : Prop where
  proper : ∀ {row i}, I.get row = some i → i.Proper tools d row
  entries : ∀ k row, s.entries.get k = some row ↔ ∃ i, I.get row = some i ∧ k ∈ i.keys
  reverse : ∀ row, s.reverse.get row = (I.get row).map fun i => i.record row
  terms : d.kind = .token → ∀ term, s.terms.get term = positive (rowsWith term I)

variable {tools} {d : Definition} {s : IndexTables} {I : Contents}

theorem get_dropTerms {terms : List String} (hterms : terms.Nodup) (t : Table String Nat) (n : String → Nat)
    (h : ∀ term, t.get term = positive (flag (decide (term ∈ terms)) + n term)) (term : String) :
    (terms.foldl dropTerm t).get term = positive (n term) := by
  induction terms generalizing t with
  | nil =>
      rw [List.foldl_nil, h]
      simp [flag]
  | cons u terms ih =>
      rw [List.nodup_cons] at hterms
      rw [List.foldl_cons]
      refine ih hterms.2 _ (fun term => ?_)
      have hu := h u
      have hcount : (t.get u).getD 0 = 1 + n u := by
        rw [hu]
        simp [flag, positive]
      unfold dropTerm
      rw [hcount]
      by_cases hterm : term = u
      · subst hterm
        have hnot : flag (decide (term ∈ terms)) = 0 := by simp [flag, hterms.1]
        rw [hnot, Nat.zero_add]
        dsimp only
        split
        · rw [Table.get_remove_self]
          unfold positive
          rw [if_pos (by omega)]
        · rw [Table.get_insert_self]
          unfold positive
          rw [if_neg (by omega), Nat.add_sub_cancel_left]
      · have hsame : flag (decide (term ∈ u :: terms)) = flag (decide (term ∈ terms)) := by
          simp [flag, hterm]
        dsimp only
        split
        · rw [Table.get_remove_ne _ hterm, h, hsame]
        · rw [Table.get_insert_ne _ _ hterm, h, hsame]

theorem get_countTerms {terms : List String} (hterms : terms.Nodup) (t : Table String Nat) (n : String → Nat)
    (h : ∀ term, t.get term = positive (n term)) (term : String) :
    (terms.foldl countTerm t).get term = positive (flag (decide (term ∈ terms)) + n term) := by
  induction terms generalizing t n with
  | nil =>
      rw [List.foldl_nil, h]
      simp [flag]
  | cons u terms ih =>
      rw [List.nodup_cons] at hterms
      rw [List.foldl_cons]
      have hstep : ∀ term, (countTerm t u).get term = positive (n term + flag (decide (term = u))) := by
        intro term
        unfold countTerm
        by_cases hterm : term = u
        · subst hterm
          rw [Table.get_insert_self, h]
          unfold positive
          by_cases hn : n term = 0 <;> simp [hn, flag]
        · rw [Table.get_insert_ne _ _ hterm, h]
          simp [flag, hterm]
      rw [ih hterms.2 _ _ hstep]
      congr 1
      by_cases hterm : term = u
      · subst hterm
        simp [flag, hterms.1]
        omega
      · simp [flag, hterm]

/-- **A row is removed.** -/
theorem Held.removeRow (h : Held tools d s I) (older : Bytes → Result Reverse) (row : String) :
    ∃ s', Indexes.removeRow tools older d row s
        = .ok ((I.get row).map fun i => { i.stats with values := [] }, s') ∧ Held tools d s' (I.remove row) := by
  unfold Indexes.removeRow
  rw [h.reverse]
  cases hi : I.get row with
  | none =>
      refine ⟨s, rfl, ?_⟩
      rw [Table.remove_of_get_none I hi]
      exact h
  | some i =>
      have hproper := h.proper hi
      refine ⟨⟨i.keys.foldl (fun t k => t.remove k) s.entries, s.reverse.remove row,
        if d.kind = .token then i.terms.foldl dropTerm s.terms else s.terms⟩, ?_, ?_⟩
      · show (decodeReverse tools older row (i.record row) >>= fun old => _) = _
        rw [decodeReverse_record tools older hproper.fits hproper.named]
        rfl
      · have hother : ∀ {row' i'}, (I.remove row).get row' = some i' → row' ≠ row ∧ I.get row' = some i' := by
          intro row' i' hi'
          rw [Table.get_remove] at hi'
          split at hi'
          · cases hi'
          · rename_i hne
            exact ⟨hne, hi'⟩
        refine ⟨fun hi' => h.proper (hother hi').2, fun k row' => ?_, fun row' => ?_, fun htoken term => ?_⟩
        · show (i.keys.foldl (fun t k => t.remove k) s.entries).get k = some row' ↔ _
          rw [Table.get_foldl_remove]
          split
          · rename_i hk
            refine ⟨nofun, ?_⟩
            rintro ⟨i', hi', hk'⟩
            obtain ⟨hne, hi''⟩ := hother hi'
            exact absurd (((h.proper hi'').keys k hk').row_eq tools (hproper.keys k hk)) hne
          · rename_i hk
            rw [h.entries]
            constructor
            · rintro ⟨i', hi', hk'⟩
              refine ⟨i', ?_, hk'⟩
              rw [Table.get_remove_ne]
              · exact hi'
              · rintro rfl
                rw [hi] at hi'
                cases hi'
                exact hk hk'
            · rintro ⟨i', hi', hk'⟩
              exact ⟨i', (hother hi').2, hk'⟩
        · show (s.reverse.remove row).get row' = _
          rw [Table.get_remove, Table.get_remove, h.reverse]
          split <;> rfl
        · show (if d.kind = .token then i.terms.foldl dropTerm s.terms else s.terms).get term = _
          rw [if_pos htoken]
          refine get_dropTerms hproper.terms s.terms (fun term => rowsWith term (I.remove row)) (fun term => ?_) term
          rw [h.terms htoken]
          unfold rowsWith
          rw [Table.total_of_get _ hi]

/-- The entries of a row. -/
def RowIndex.items (row : String) (i : RowIndex) : Pending := i.keys.map fun k => (k, row)

theorem RowIndex.items_keys (row : String) (i : RowIndex) : (i.items row).map Prod.fst = i.keys := by
  unfold RowIndex.items
  rw [List.map_map]
  exact List.map_id _

/-- The tables with the entries that wait put into them. -/
def IndexTables.with (s : IndexTables) (pending : Pending) : IndexTables :=
  { s with entries := insertAll pending s.entries }

/-- **A row is put** into an index that does not have it. -/
theorem Held.put (h : Held tools d s I) {row : String} (hnone : I.get row = none) {i : RowIndex}
    (hi : i.Proper tools d row) :
    Held tools d ⟨insertAll (i.items row) s.entries, s.reverse.insert row (i.record row),
      if d.kind = .token then i.terms.foldl countTerm s.terms else s.terms⟩ (I.insert row i) := by
  have hremove : I.remove row = I := Table.remove_of_get_none I hnone
  have hcases : ∀ {row' i'}, (I.insert row i).get row' = some i' ↔
      row' = row ∧ i' = i ∨ row' ≠ row ∧ I.get row' = some i' := by
    intro row' i'
    rw [Table.get_insert]
    by_cases hrow : row' = row
    · simp [hrow, eq_comm]
    · simp [hrow]
  refine ⟨fun {row' i'} hi' => ?_, fun k row' => ?_, fun row' => ?_, fun htoken term => ?_⟩
  · rcases hcases.mp hi' with ⟨rfl, rfl⟩ | ⟨-, hi'⟩
    · exact hi
    · exact h.proper hi'
  · have hnodup : ((i.items row).map Prod.fst).Nodup := by
      rw [i.items_keys]
      exact hi.distinct
    rw [get_insertAll_iff hnodup, i.items_keys, h.entries]
    constructor
    · rintro (hmem | ⟨-, i', hi', hk⟩)
      · obtain ⟨k', hk', heq⟩ := List.mem_map.mp hmem
        cases heq
        exact ⟨i, hcases.mpr (.inl ⟨rfl, rfl⟩), hk'⟩
      · refine ⟨i', hcases.mpr (.inr ⟨?_, hi'⟩), hk⟩
        rintro rfl
        rw [hnone] at hi'
        cases hi'
    · rintro ⟨i', hi', hk⟩
      rcases hcases.mp hi' with ⟨rfl, rfl⟩ | ⟨hne, hi'⟩
      · exact .inl (List.mem_map.mpr ⟨k, hk, rfl⟩)
      · -- the keys of another row are none of this one
        refine .inr ⟨fun hk' => hne ?_, i', hi', hk⟩
        exact ((h.proper hi').keys k hk).row_eq tools (hi.keys k hk')
  · show (s.reverse.insert row (i.record row)).get row' = _
    rw [Table.get_insert, Table.get_insert, h.reverse]
    by_cases hrow : row' = row
    · rw [if_pos hrow, if_pos hrow, hrow]
      rfl
    · rw [if_neg hrow, if_neg hrow]
  · show (if d.kind = .token then i.terms.foldl countTerm s.terms else s.terms).get term = _
    rw [if_pos htoken, get_countTerms hi.terms s.terms (fun term => rowsWith term I) (h.terms htoken)]
    unfold rowsWith
    rw [Table.total_insert, hremove]

theorem putRow_eq (row : String) (i : RowIndex) (pending : Option Pending) :
    putRow tools d row i pending s = .ok (pending.map (· ++ i.items row),
      ⟨if pending.isSome then s.entries else insertAll (i.items row) s.entries,
        s.reverse.insert row (i.record row),
        if d.kind = .token then i.terms.foldl countTerm s.terms else s.terms⟩) := rfl

/-! ## What a row puts into an index -/

theorem mem_keySet {keys : List Bytes} {k : Bytes} : k ∈ keySet keys ↔ k ∈ keys := by
  unfold keySet
  rw [Table.mem_keys_ofList, List.map_map]
  simp [Function.comp_def]

/-- Values that have a key have the shape of the definition. -/
theorem shaped_of_mem {bytes : Bytes} {seq : Nat} {sampled values : List Value} {row : String} {k : Bytes}
    (h : indexedValues tools d bytes seq sampled = .ok values) {v : Value} (hv : v ∈ values)
    (hk : definitionKey tools d v row = .ok k) : Shaped d v := by
  intro hmany
  unfold indexedValues at h
  split at h
  · -- the number of a change is no compound value, and has no key here
    cases h
    rw [List.mem_singleton] at hv
    subst hv
    unfold definitionKey at hk
    rw [if_neg (by omega)] at hk
    cases hk
  · rw [if_neg (by omega)] at h
    obtain ⟨tuple, htuple, h⟩ := bind_eq_ok.mp h
    cases h
    rw [List.mem_singleton] at hv
    exact ⟨tuple, hv, collect_length htuple⟩

/-- What a row is indexed by, part by part. -/
theorem rowIndex_cases {row : String} {bytes : Bytes} {seq : Nat} {i : RowIndex}
    (h : rowIndex tools d row bytes seq = .ok i) :
    ∃ sampled stats values keys, sampledValues tools d bytes seq = .ok sampled ∧
      RowStats.make tools row bytes.length sampled = .ok stats ∧
      indexedValues tools d bytes seq sampled = .ok values ∧
      collect (fun v => definitionKey tools d v row) values = .ok keys ∧
      i = ⟨keySet keys, if d.kind = .token then textsOf values else [],
        if 1 < d.paths.length then { stats with unorderable := flag (anyUnorderable tools values) } else stats⟩ := by
  obtain ⟨sampled, hsampled, h⟩ := bind_eq_ok.mp h
  obtain ⟨stats, hstats, h⟩ := bind_eq_ok.mp h
  obtain ⟨values, hvalues, h⟩ := bind_eq_ok.mp h
  obtain ⟨keys, hkeys, h⟩ := bind_eq_ok.mp h
  cases h
  exact ⟨sampled, stats, values, keys, hsampled, hstats, hvalues, hkeys, rfl⟩

theorem rowIndex_keys {row : String} {bytes : Bytes} {seq : Nat} {i : RowIndex}
    (h : rowIndex tools d row bytes seq = .ok i) :
    ∃ values, rowValues tools d bytes seq = .ok values ∧
      ∀ k, k ∈ i.keys ↔ ∃ v ∈ values, definitionKey tools d v row = .ok k := by
  obtain ⟨sampled, stats, values, keys, hsampled, -, hvalues, hkeys, rfl⟩ := rowIndex_cases h
  refine ⟨values, ?_, fun k => mem_keySet.trans (mem_collect hkeys)⟩
  unfold rowValues
  rw [hsampled]
  exact hvalues

theorem rowIndex_proper {row : String} {bytes : Bytes} {seq : Nat} {i : RowIndex}
    (h : rowIndex tools d row bytes seq = .ok i) (hfits : i.Fits) :
    i.Proper tools d row := by
  obtain ⟨sampled, stats, values, keys, -, hstats, hvalues, hkeys, rfl⟩ := rowIndex_cases h
  obtain ⟨encoded, -, hstats⟩ := bind_eq_ok.mp hstats
  cases hstats
  refine ⟨hfits, ?_, fun k hk => ?_, Table.rows_nodup_keys _, ?_⟩
  · show RowStats.key (if _ then _ else _) = row
    split <;> rfl
  · obtain ⟨v, hv, hkey⟩ := (mem_collect hkeys).mp (mem_keySet.mp hk)
    exact ⟨v, shaped_of_mem hvalues hv hkey, hkey⟩
  · show (if d.kind = .token then textsOf values else []).Nodup
    split
    · exact Table.rows_nodup_keys _
    · exact List.nodup_nil

/-! ## Counters -/

theorem Reservoir.drop_ofRows {row : String} {i : RowIndex} (h : I.get row = some i) :
    (Reservoir.ofRows I).drop { i.stats with values := [] } = Reservoir.ofRows (I.remove row) := by
  unfold Reservoir.ofRows Reservoir.drop
  simp only [Table.total_of_get _ h, Nat.add_sub_cancel_left]

theorem Reservoir.count_ofRows {row : String} (h : I.get row = none) (i : RowIndex) :
    (Reservoir.ofRows I).count i.stats = Reservoir.ofRows (I.insert row i) := by
  unfold Reservoir.ofRows Reservoir.count
  simp only [Table.total_insert, Table.remove_of_get_none I h, Nat.add_comm]

theorem Reservoir.apply_remove (row : String) :
    (Reservoir.ofRows I).apply ((I.get row).map fun i => { i.stats with values := [] }) none
      = Reservoir.ofRows (I.remove row) := by
  cases hi : I.get row with
  | none =>
      rw [Table.remove_of_get_none I hi]
      rfl
  | some i => exact drop_ofRows hi

theorem Reservoir.apply_write (row : String) (i : RowIndex) :
    (Reservoir.ofRows I).apply ((I.get row).map fun i => { i.stats with values := [] }) (some i.stats)
      = Reservoir.ofRows (I.insert row i) := by
  have hagain : (I.remove row).insert row i = I.insert row i := Table.ext_get fun row' => by
    rw [Table.get_insert, Table.get_insert, Table.get_remove]
    split <;> rfl
  show Reservoir.count ((Reservoir.ofRows I).apply _ none) i.stats = _
  rw [apply_remove, count_ofRows (Table.get_remove_self I row), hagain]

/-! ## Runs -/

/-- What each current row puts into an index. -/
def IndexOf (tools : Tools) (d : Definition) (rows : SourceRows) (I : Contents) : Prop :=
  ∀ row, match rows.get row with
    | none => I.get row = none
    | some (bytes, seq) => ∃ i, rowIndex tools d row bytes seq = .ok i ∧ I.get row = some i

/-- An index, its counters and the current rows go together. -/
def Maintained (tools : Tools) (d : Definition) (s : IndexTables) (r : Reservoir) (rows : SourceRows) : Prop :=
  ∃ I, Held tools d s I ∧ r = Reservoir.ofRows I ∧ IndexOf tools d rows I

theorem IndexOf.remove {rows : SourceRows} (h : IndexOf tools d rows I) (row : String) :
    IndexOf tools d (rows.remove row) (I.remove row) := by
  intro row'
  have hrow' := h row'
  rw [Table.get_remove, Table.get_remove]
  by_cases hrow : row' = row
  · rw [if_pos hrow, if_pos hrow]
  · rw [if_neg hrow, if_neg hrow]
    exact hrow'

theorem IndexOf.insert {rows : SourceRows} (h : IndexOf tools d rows I) {row : String} {bytes : Bytes}
    {seq : Nat} {i : RowIndex} (hi : rowIndex tools d row bytes seq = .ok i) :
    IndexOf tools d (rows.insert row (bytes, seq)) (I.insert row i) := by
  intro row'
  have hrow' := h row'
  rw [Table.get_insert, Table.get_insert]
  by_cases hrow : row' = row
  · subst hrow
    rw [if_pos rfl, if_pos rfl]
    exact ⟨i, hi, rfl⟩
  · rw [if_neg hrow, if_neg hrow]
    exact hrow'

/-- The sizes of what a row puts into an index are those of vectors in memory. -/
def RowFits (tools : Tools) (d : Definition) (row : String) (bytes : Bytes) (seq : Nat) : Prop :=
  ∀ i, rowIndex tools d row bytes seq = .ok i → i.Fits

instance (tools : Tools) (d : Definition) (row : String) (bytes : Bytes) (seq : Nat) :
    Decidable (RowFits tools d row bytes seq) :=
  match h : rowIndex tools d row bytes seq with
  | .ok i => decidable_of_iff i.Fits ⟨fun hi _ hj => by cases h.symm.trans hj; exact hi, fun hi => hi i h⟩
  | .error _ => isTrue fun _ hi => nomatch h.symm.trans hi

def RowChange.Fits (tools : Tools) (d : Definition) : RowChange → Prop
  | .upsert row bytes seq => RowFits tools d row bytes seq
  | .delete _ => True

/-- The rows after a change. -/
def RowChange.onRows : RowChange → SourceRows → SourceRows
  | .upsert row bytes seq, rows => rows.insert row (bytes, seq)
  | .delete row, rows => rows.remove row

/-- A change that can be read: its row has values and keys. -/
def RowChange.Readable (tools : Tools) (d : Definition) : RowChange → Prop
  | .upsert row bytes seq => ∃ i, rowIndex tools d row bytes seq = .ok i
  | .delete _ => True

/-- A row that was written was read. -/
theorem rowIndex_of_writeRowCore {older : Bytes → Result Reverse} {row : String} {bytes : Bytes} {seq : Nat}
    {pending : Option Pending} {fresh : Bool} {out : RowDelta × Option Pending × IndexTables}
    (h : writeRowCore tools older d row bytes seq pending fresh s = .ok out) :
    ∃ i, rowIndex tools d row bytes seq = .ok i := by
  unfold writeRowCore at h
  -- the rest of the function stands after either way to take the old entries out
  have hrest : ∃ x : Option RowStats × IndexTables,
      (rowIndex tools d row bytes seq >>= fun i => putRow tools d row i pending x.2 >>= fun y =>
        (.ok (⟨x.1, i.stats⟩, y) : Result _)) = .ok out := by
    dsimp only at h
    split at h
    · exact ⟨_, h⟩
    · obtain ⟨x, -, h⟩ := bind_eq_ok.mp h
      exact ⟨x, h⟩
  obtain ⟨x, hx⟩ := hrest
  obtain ⟨i, hi, -⟩ := bind_eq_ok.mp hx
  exact ⟨i, hi⟩

/-- **A change** is applied if its row can be read, and then index and rows go together again. -/
theorem Maintained.change {r : Reservoir} {rows : SourceRows} (h : Maintained tools d s r rows)
    (older : Bytes → Result Reverse) {c : RowChange} (hc : c.Fits tools d) :
    (∀ s' r', c.run tools older d s r = .ok (s', r') → Maintained tools d s' r' (c.onRows rows)) ∧
      (c.Readable tools d → ∃ s' r', c.run tools older d s r = .ok (s', r')) := by
  obtain ⟨I, hheld, rfl, hindex⟩ := h
  cases c with
  | delete row =>
      obtain ⟨s', hremove, hheld'⟩ := hheld.removeRow older row
      have hrun : RowChange.run tools older d s (Reservoir.ofRows I) (.delete row)
          = .ok (s', Reservoir.ofRows (I.remove row)) := by
        show (removeRow tools older d row s >>= fun x => _) = _
        rw [hremove, ok_bind]
        dsimp only
        rw [Reservoir.apply_remove]
        rfl
      refine ⟨fun s'' r'' hok => ?_, fun _ => ⟨_, _, hrun⟩⟩
      rw [hrun] at hok
      cases hok
      exact ⟨I.remove row, hheld', rfl, hindex.remove row⟩
  | upsert row bytes seq =>
      obtain ⟨t, hremove, hheld'⟩ := hheld.removeRow older row
      have hnone : (I.remove row).get row = none := Table.get_remove_self I row
      have hagain : (I.remove row).insert row = I.insert row := by
        funext i
        refine Table.ext_get fun row' => ?_
        rw [Table.get_insert, Table.get_insert, Table.get_remove]
        split <;> rfl
      have hrun : ∀ {i}, rowIndex tools d row bytes seq = .ok i → ∃ s',
          RowChange.run tools older d s (Reservoir.ofRows I) (.upsert row bytes seq)
            = .ok (s', Reservoir.ofRows (I.insert row i)) ∧ Held tools d s' (I.insert row i) := by
        intro i hi
        have hput := hheld'.put hnone (rowIndex_proper hi (hc i hi))
        rw [hagain] at hput
        refine ⟨_, ?_, hput⟩
        show (writeRow tools older d row bytes seq s >>= fun x => _) = _
        unfold writeRow writeRowCore
        simp only [Bool.false_eq_true, if_false, hremove, ok_bind, hi, putRow_eq]
        show (Except.ok (_, (Reservoir.ofRows I).apply _ (some i.stats)) : Result _) = _
        rw [Reservoir.apply_write]
        rfl
      constructor
      · intro s' r' hok
        obtain ⟨⟨delta, t'⟩, hwrite, -⟩ := bind_eq_ok.mp hok
        obtain ⟨_, hcore, -⟩ := bind_eq_ok.mp hwrite
        obtain ⟨i, hi⟩ := rowIndex_of_writeRowCore hcore
        obtain ⟨s'', hrun', hheld''⟩ := hrun hi
        rw [hrun'] at hok
        cases hok
        exact ⟨I.insert row i, hheld'', rfl, hindex.insert hi⟩
      · rintro ⟨i, hi⟩
        obtain ⟨s'', hrun', -⟩ := hrun hi
        exact ⟨_, _, hrun'⟩

/-- The rows after some changes. -/
def afterChanges (cs : List RowChange) (rows : SourceRows) : SourceRows := cs.foldl (fun rows c => c.onRows rows) rows

/-- So do all of them, one after the other. -/
theorem Maintained.changes (older : Bytes → Result Reverse) {cs : List RowChange} (hcs : ∀ c ∈ cs, c.Fits tools d)
    {r : Reservoir} {rows : SourceRows} (h : Maintained tools d s r rows) :
    (∀ s' r', runChanges tools older d cs s r = .ok (s', r') → Maintained tools d s' r' (afterChanges cs rows)) ∧
      ((∀ c ∈ cs, c.Readable tools d) → ∃ s' r', runChanges tools older d cs s r = .ok (s', r')) := by
  induction cs generalizing s r rows with
  | nil =>
      refine ⟨fun s' r' hok => ?_, fun _ => ⟨s, r, rfl⟩⟩
      cases hok
      exact h
  | cons c cs ih =>
      obtain ⟨hkeeps, hok⟩ := h.change older (hcs c List.mem_cons_self)
      have hrest : ∀ c ∈ cs, c.Fits tools d := fun c hc => hcs c (List.mem_cons_of_mem _ hc)
      constructor
      · intro s' r' hrun
        obtain ⟨⟨t, q⟩, hstep, hrun⟩ := bind_eq_ok.mp hrun
        exact (ih hrest (hkeeps t q hstep)).1 s' r' hrun
      · intro hread
        obtain ⟨t, q, hstep⟩ := hok (hread c List.mem_cons_self)
        obtain ⟨s', r', hrun⟩ := (ih hrest (hkeeps t q hstep)).2 fun c hc => hread c (List.mem_cons_of_mem _ hc)
        refine ⟨s', r', ?_⟩
        rw [runChanges, hstep, ok_bind]
        exact hrun

theorem maintained_empty : Maintained tools d IndexTables.empty Reservoir.zero Table.empty :=
  ⟨Table.empty, ⟨nofun, fun _ _ => ⟨nofun, fun ⟨_, h, _⟩ => nomatch h⟩, fun _ => rfl, fun _ _ => rfl⟩, rfl, fun _ => rfl⟩

/-! ## Builds -/

/-- Entries with different keys are all inserted. -/
theorem insertRun_ok {pending : Pending} (h : (pending.map Prod.fst).Nodup) (s : IndexTables) :
    insertRun pending s = .ok (s.with pending) := by
  let le : Bytes × String → Bytes × String → Bool := fun a b => decide (a.1 ≤ b.1)
  have hperm := List.mergeSort_perm pending le
  have hnodup : ((pending.mergeSort le).map Prod.fst).Nodup := (hperm.map Prod.fst).nodup_iff.mpr h
  have hsorted : (pending.mergeSort le).Pairwise fun a b => le a b = true :=
    @List.pairwise_mergeSort _ le (fun a b c hab hbc => by
        simp only [le, decide_eq_true_eq] at hab hbc ⊢
        exact hab.trans hbc)
      (fun a b => by
        simp only [le, Bool.or_eq_true, decide_eq_true_eq]
        exact le_total a.1 b.1) pending
  have hasc : ((pending.mergeSort le).map Prod.fst).Pairwise (· < ·) := by
    rw [List.pairwise_map]
    refine (hsorted.and (List.pairwise_map.mp hnodup)).imp fun {a b} hab => ?_
    exact lt_of_le_of_ne (of_decide_eq_true hab.1) hab.2
  show (Trigram.runItems (pending.mergeSort le) s.entries >>= fun entries => _) = _
  rw [Trigram.runItems_ok hasc, insertAll_perm hperm hnodup]
  rfl

/-- An index under construction: the tables with the entries that wait are those of the rows so far. -/
structure Building (tools : Tools) (d : Definition) (s : IndexTables) (pending : Pending) (I : Contents) : Prop where
  held : Held tools d (s.with pending) I
  distinct : (pending.map Prod.fst).Nodup

/-- A row that is new to the index is written, its entries waiting. -/
theorem Building.writeRowCore {pending : Pending} (h : Building tools d s pending I)
    (older : Bytes → Result Reverse) (fresh : Bool) {row : String} (hnone : I.get row = none) {bytes : Bytes}
    {seq : Nat} {i : RowIndex} (hi : rowIndex tools d row bytes seq = .ok i) (hfits : i.Fits) :
    ∃ s', Indexes.writeRowCore tools older d row bytes seq (some pending) fresh s
        = .ok (⟨none, i.stats⟩, some (pending ++ i.items row), s') ∧
      Building tools d s' (pending ++ i.items row) (I.insert row i) := by
  have hproper := rowIndex_proper hi hfits
  have hremove : removeRow tools older d row s = .ok (none, s) := by
    unfold removeRow
    have hreverse := h.held.reverse row
    rw [hnone] at hreverse
    rw [show s.reverse.get row = none from hreverse]
  refine ⟨⟨s.entries, s.reverse.insert row (i.record row),
    if d.kind = .token then i.terms.foldl countTerm s.terms else s.terms⟩, ?_, ?_, ?_⟩
  · unfold Indexes.writeRowCore
    cases fresh
    · simp only [Bool.false_eq_true, if_false, hremove, ok_bind, hi, putRow_eq]
      rfl
    · simp only [if_true, ok_bind, hi, putRow_eq]
      rfl
  · have hput := h.held.put hnone hproper
    unfold IndexTables.with at hput ⊢
    rw [insertAll_append]
    exact hput
  · -- an entry that waits belongs to a row of the index, and this row is none
    rw [List.map_append, i.items_keys]
    refine List.nodup_append.mpr ⟨h.distinct, hproper.distinct, fun k hk k' hk' heq => ?_⟩
    subst heq
    obtain ⟨row', hget⟩ := Table.exists_get_insertAll h.distinct s.entries hk
    obtain ⟨i', hi', hmem⟩ := (h.held.entries k row').mp hget
    have hrow := ((h.held.proper hi').keys k hmem).row_eq tools (hproper.keys k hk')
    rw [hrow, hnone] at hi'
    cases hi'

/-- The rows of a build, with the bytes and the number of each. -/
abbrev SourceRow := String × Bytes × Nat

def SourceRow.Fits (tools : Tools) (d : Definition) (x : SourceRow) : Prop := RowFits tools d x.1 x.2.1 x.2.2

theorem Building.finish {pending : Pending} (h : Building tools d s pending I) :
    ∃ s', insertRun pending s = .ok s' ∧ Held tools d s' I :=
  ⟨_, insertRun_ok h.distinct s, h.held⟩

theorem Held.building (h : Held tools d s I) : Building tools d s [] I := ⟨h, List.nodup_nil⟩

/-- **A build**, with its entries inserted in any runs. -/
theorem Building.buildRows (older : Bytes → Result Reverse) (fresh : Bool) {xs : List SourceRow}
    (hfits : ∀ x ∈ xs, SourceRow.Fits tools d x) (hxs : (xs.map Prod.fst).Nodup) (runs : List Bool)
    {pending : Pending} (h : Building tools d s pending I) {rows : SourceRows} (hindex : IndexOf tools d rows I)
    (hnew : ∀ x ∈ xs, rows.get x.1 = none) :
    (∀ s' r', Indexes.buildRows tools older d fresh xs runs pending s (Reservoir.ofRows I) = .ok (s', r') →
        Maintained tools d s' r' (insertAll xs rows)) ∧
      ((∀ x ∈ xs, ∃ i, rowIndex tools d x.1 x.2.1 x.2.2 = .ok i) → ∃ s' r',
        Indexes.buildRows tools older d fresh xs runs pending s (Reservoir.ofRows I) = .ok (s', r')) := by
  induction xs generalizing runs pending s I rows with
  | nil =>
      obtain ⟨s', hrun, hheld⟩ := h.finish
      have hbuild : Indexes.buildRows tools older d fresh [] runs pending s (Reservoir.ofRows I)
          = .ok (s', Reservoir.ofRows I) := by
        rw [Indexes.buildRows, hrun]
        rfl
      refine ⟨fun s'' r'' hok => ?_, fun _ => ⟨_, _, hbuild⟩⟩
      rw [hbuild] at hok
      cases hok
      exact ⟨I, hheld, rfl, hindex⟩
  | cons x xs ih =>
      obtain ⟨row, bytes, seq⟩ := x
      rw [List.map_cons, List.nodup_cons] at hxs
      have hfits' : ∀ x ∈ xs, SourceRow.Fits tools d x := fun x hx => hfits x (List.mem_cons_of_mem _ hx)
      have hnone : I.get row = none := by
        have hrow := hindex row
        rw [hnew _ List.mem_cons_self] at hrow
        exact hrow
      have hnew' : ∀ x ∈ xs, (rows.insert row (bytes, seq)).get x.1 = none := fun x hx => by
        have hne : x.1 ≠ row := by
          rintro rfl
          exact hxs.1 (List.mem_map.mpr ⟨x, hx, rfl⟩)
        rw [Table.get_insert_ne _ _ hne]
        exact hnew x (List.mem_cons_of_mem _ hx)
      -- with the row written, the rest is as for the rows with it
      have hstep : ∀ {i}, rowIndex tools d row bytes seq = .ok i → ∃ t held runs',
          Indexes.buildRows tools older d fresh ((row, bytes, seq) :: xs) runs pending s (Reservoir.ofRows I)
            = Indexes.buildRows tools older d fresh xs runs' held t (Reservoir.ofRows (I.insert row i)) ∧
          Building tools d t held (I.insert row i) := by
        intro i hi
        obtain ⟨t, hwrite, hbuilding⟩ := h.writeRowCore older fresh hnone hi (hfits _ List.mem_cons_self i hi)
        have hcount : (Reservoir.ofRows I).apply none (some i.stats) = Reservoir.ofRows (I.insert row i) :=
          Reservoir.count_ofRows hnone i
        cases hrun : runs.headD false with
        | false =>
            refine ⟨t, pending ++ i.items row, runs.tail, ?_, hbuilding⟩
            rw [Indexes.buildRows, hwrite, ok_bind]
            simp only [hrun, Bool.false_eq_true, if_false, hcount, Option.getD_some]
        | true =>
            obtain ⟨t', hinsert, hheld⟩ := hbuilding.finish
            refine ⟨t', [], runs.tail, ?_, hheld.building⟩
            rw [Indexes.buildRows, hwrite, ok_bind]
            simp only [hrun, if_true, hcount, Option.getD_some, hinsert, ok_bind]
      constructor
      · intro s' r' hok
        obtain ⟨_, hcore, -⟩ := bind_eq_ok.mp hok
        obtain ⟨i, hi⟩ := rowIndex_of_writeRowCore hcore
        obtain ⟨t, held, runs', heq, hbuilding⟩ := hstep hi
        rw [heq] at hok
        exact (ih hfits' hxs.2 runs' hbuilding (hindex.insert hi) hnew').1 s' r' hok
      · intro hread
        obtain ⟨i, hi⟩ := hread _ List.mem_cons_self
        obtain ⟨t, held, runs', heq, hbuilding⟩ := hstep hi
        rw [heq]
        exact (ih hfits' hxs.2 runs' hbuilding (hindex.insert hi) hnew').2 fun x hx =>
          hread x (List.mem_cons_of_mem _ hx)

theorem buildIndex_maintained (older : Bytes → Result Reverse) (fresh : Bool) (runs : List Bool)
    {source : SourceRows} (hfits : ∀ x ∈ source.rows, SourceRow.Fits tools d x) :
    (∀ s r, buildIndex tools older d fresh runs source = .ok (s, r) → Maintained tools d s r source) ∧
      ((∀ x ∈ source.rows, ∃ i, rowIndex tools d x.1 x.2.1 x.2.2 = .ok i) →
        ∃ s r, buildIndex tools older d fresh runs source = .ok (s, r)) := by
  obtain ⟨I, hheld, hzero, hindex⟩ : Maintained tools d _ _ _ := maintained_empty
  have hbuild := hheld.building.buildRows older fresh hfits source.rows_nodup_keys runs hindex fun _ _ => rfl
  rw [← hzero, show insertAll source.rows Table.empty = source from Table.ofList_rows source] at hbuild
  exact hbuild

/-! ## The index and the rows -/

/-- The values that decide whether a row has an order. -/
def orderedValues (tools : Tools) (d : Definition) (bytes : Bytes) (seq : Nat) : Result (List Value) :=
  if 1 < d.paths.length then rowValues tools d bytes seq else sampledValues tools d bytes seq

/-- An index is exactly what its definition makes of the current rows. -/
structure Exact (tools : Tools) (older : Bytes → Result Reverse) (d : Definition) (s : IndexTables)
    (r : Reservoir) (current : SourceRows) (I : Contents) : Prop where
  /-- what each row puts into the index, and no other row does -/
  rows : IndexOf tools d current I
  /-- the entries are the keys of the values of the rows -/
  entries : ∀ k row, s.entries.get k = some row ↔ ∃ bytes seq values v, current.get row = some (bytes, seq) ∧
    rowValues tools d bytes seq = .ok values ∧ v ∈ values ∧ definitionKey tools d v row = .ok k
  /-- the current rows have a record, which lists the keys and terms of its row -/
  reverse : ∀ row, (s.reverse.get row).isSome = (current.get row).isSome
  record : ∀ {row i}, I.get row = some i → ∃ bytes stats, s.reverse.get row = some bytes ∧
    decodeReverse tools older row bytes = .ok ⟨i.keys, i.terms, stats⟩
  /-- the count of a term is the number of rows with it, and terms of no row have none -/
  terms : d.kind = .token → ∀ term n, s.terms.get term = some n ↔ 0 < n ∧ n = rowsWith term I
  dictionary : d.kind = .token → ∀ term, term ∈ dictionary s ↔ ∃ row i, I.get row = some i ∧ term ∈ i.terms
  /-- the counters are sums over the rows -/
  counters : r = Reservoir.ofRows I
  /-- an index is orderable if the values of all rows have an order -/
  orderable : r.unorderable = 0 ↔ ∀ row bytes seq values, current.get row = some (bytes, seq) →
    orderedValues tools d bytes seq = .ok values → anyUnorderable tools values = false

theorem IndexOf.get_iff {current : SourceRows} (h : IndexOf tools d current I) {row : String} {i : RowIndex} :
    I.get row = some i ↔ ∃ bytes seq, current.get row = some (bytes, seq) ∧ rowIndex tools d row bytes seq = .ok i := by
  have hrow := h row
  cases hget : current.get row with
  | none =>
      rw [hget] at hrow
      rw [show I.get row = none from hrow]
      exact ⟨nofun, fun ⟨_, _, h, _⟩ => nomatch h⟩
  | some x =>
      obtain ⟨bytes, seq⟩ := x
      rw [hget] at hrow
      obtain ⟨i', hi', hrow⟩ := hrow
      rw [hrow]
      constructor
      · intro hi
        cases hi
        exact ⟨bytes, seq, rfl, hi'⟩
      · rintro ⟨_, _, heq, hi⟩
        cases heq
        rw [hi'] at hi
        cases hi
        rfl

theorem IndexOf.isSome_eq {current : SourceRows} (h : IndexOf tools d current I) (row : String) :
    (I.get row).isSome = (current.get row).isSome := by
  have hrow := h row
  cases hget : current.get row with
  | none =>
      rw [hget] at hrow
      rw [show I.get row = none from hrow]
      rfl
  | some x =>
      rw [hget] at hrow
      obtain ⟨i, -, hrow⟩ := hrow
      rw [hrow]
      rfl

/-- The current rows determine what is in the index. -/
theorem IndexOf.unique {current : SourceRows} {J : Contents} (h : IndexOf tools d current I)
    (h' : IndexOf tools d current J) : I = J := by
  refine Table.ext_get fun row => Option.ext fun i => ?_
  exact h.get_iff.trans h'.get_iff.symm

theorem positive_eq_some {n m : Nat} : positive n = some m ↔ 0 < m ∧ m = n := by
  unfold positive
  split
  · simp only [reduceCtorEq, false_iff]
    omega
  · rw [Option.some.injEq]
    omega

theorem rowsWith_pos {term : String} : 0 < rowsWith term I ↔ ∃ row i, I.get row = some i ∧ term ∈ i.terms := by
  have hzero : rowsWith term I = 0 ↔ ∀ row i, I.get row = some i → term ∉ i.terms := by
    unfold rowsWith
    rw [Table.total_eq_zero]
    simp [flag]
  rw [Nat.pos_iff_ne_zero, Ne, hzero]
  push Not
  rfl

/-- Whether a row counts as one without an order. -/
theorem rowIndex_unorderable {row : String} {bytes : Bytes} {seq : Nat} {i : RowIndex}
    (h : rowIndex tools d row bytes seq = .ok i) :
    ∃ values, orderedValues tools d bytes seq = .ok values ∧
      i.stats.unorderable = flag (anyUnorderable tools values) := by
  obtain ⟨sampled, stats, values, keys, hsampled, hstats, hvalues, -, rfl⟩ := rowIndex_cases h
  obtain ⟨encoded, -, hstats⟩ := bind_eq_ok.mp hstats
  cases hstats
  unfold orderedValues rowValues
  rw [hsampled, ok_bind, hvalues]
  by_cases hmany : 1 < d.paths.length
  · rw [if_pos hmany]
    exact ⟨values, rfl, by rw [if_pos hmany]⟩
  · rw [if_neg hmany]
    exact ⟨sampled, rfl, by rw [if_neg hmany]⟩

theorem Held.exact (h : Held tools d s I) (older : Bytes → Result Reverse) {current : SourceRows}
    (hindex : IndexOf tools d current I) : Exact tools older d s (Reservoir.ofRows I) current I where
  rows := hindex
  entries := by
    intro k row
    rw [h.entries]
    constructor
    · rintro ⟨i, hi, hk⟩
      obtain ⟨bytes, seq, hget, hread⟩ := hindex.get_iff.mp hi
      obtain ⟨values, hvalues, hkeys⟩ := rowIndex_keys hread
      obtain ⟨v, hv, hkey⟩ := (hkeys k).mp hk
      exact ⟨bytes, seq, values, v, hget, hvalues, hv, hkey⟩
    · rintro ⟨bytes, seq, values, v, hget, hvalues, hv, hkey⟩
      have hrow := hindex row
      rw [hget] at hrow
      obtain ⟨i, hread, hi⟩ := hrow
      obtain ⟨values', hvalues', hkeys⟩ := rowIndex_keys hread
      cases hvalues.symm.trans hvalues'
      exact ⟨i, hi, (hkeys k).mpr ⟨v, hv, hkey⟩⟩
  reverse := by
    intro row
    rw [h.reverse, Option.isSome_map, hindex.isSome_eq]
  record := by
    intro row i hi
    have hproper := h.proper hi
    refine ⟨i.record row, _, ?_, decodeReverse_record tools older hproper.fits hproper.named⟩
    rw [h.reverse, hi]
    rfl
  terms := by
    intro htoken term n
    rw [h.terms htoken, positive_eq_some]
  dictionary := by
    intro htoken term
    unfold dictionary
    rw [Table.mem_keys_iff, ← rowsWith_pos]
    constructor
    · rintro ⟨n, hn⟩
      rw [h.terms htoken, positive_eq_some] at hn
      omega
    · intro hpos
      exact ⟨_, by rw [h.terms htoken, positive_eq_some]; exact ⟨hpos, rfl⟩⟩
  counters := rfl
  orderable := by
    show (I.total fun r => r.2.stats.unorderable) = 0 ↔ _
    rw [Table.total_eq_zero]
    have hflag : ∀ b, flag b = 0 ↔ b = false := by decide
    constructor
    · intro hzero row bytes seq values hget hvalues
      have hrow := hindex row
      rw [hget] at hrow
      obtain ⟨i, hread, hi⟩ := hrow
      obtain ⟨values', hvalues', hstat⟩ := rowIndex_unorderable hread
      cases hvalues.symm.trans hvalues'
      rw [← hflag, ← hstat]
      exact hzero row i hi
    · intro hall row i hi
      obtain ⟨bytes, seq, hget, hread⟩ := hindex.get_iff.mp hi
      obtain ⟨values, hvalues, hstat⟩ := rowIndex_unorderable hread
      rw [hstat, hflag]
      exact hall row bytes seq values hget hvalues

/-- An index to start from: an empty one, or one just built. -/
inductive Origin (tools : Tools) (older : Bytes → Result Reverse) (d : Definition) :
    IndexTables → Reservoir → SourceRows → Prop
  | empty : Origin tools older d IndexTables.empty Reservoir.zero Table.empty
  | built {s : IndexTables} {r : Reservoir} {source : SourceRows} (fresh : Bool) (runs : List Bool)
      (fits : ∀ x ∈ source.rows, SourceRow.Fits tools d x)
      (run : buildIndex tools older d fresh runs source = .ok (s, r)) : Origin tools older d s r source

theorem Origin.maintained {older : Bytes → Result Reverse} {r : Reservoir} {source : SourceRows}
    (h : Origin tools older d s r source) : Maintained tools d s r source := by
  cases h with
  | empty => exact maintained_empty
  | built fresh runs fits run => exact (buildIndex_maintained older fresh runs fits).1 s r run

/-- **Maintenance is exact.** From an empty index or one just built, changes to rows leave the index that the
current rows have; a rebuild makes the same tables and counters. The changes are applied if each new row can
be read. -/
theorem maintenance_exact (tools : Tools) (older : Bytes → Result Reverse) (d : Definition) {s : IndexTables}
    {r : Reservoir} {source : SourceRows} (hstart : Origin tools older d s r source) {cs : List RowChange}
    (hcs : ∀ c ∈ cs, c.Fits tools d) :
    (∀ s' r', runChanges tools older d cs s r = .ok (s', r') →
        (∃ I, Exact tools older d s' r' (afterChanges cs source) I) ∧
        ∀ s'' r'', Origin tools older d s'' r'' (afterChanges cs source) →
          s'.entries = s''.entries ∧ s'.reverse = s''.reverse ∧ (d.kind = .token → s'.terms = s''.terms) ∧ r' = r'') ∧
      ((∀ c ∈ cs, c.Readable tools d) → ∃ s' r', runChanges tools older d cs s r = .ok (s', r')) := by
  obtain ⟨hkeeps, hok⟩ := hstart.maintained.changes older hcs
  refine ⟨fun s' r' hrun => ?_, hok⟩
  obtain ⟨I, hheld, rfl, hindex⟩ := hkeeps s' r' hrun
  refine ⟨⟨I, hheld.exact older hindex⟩, fun s'' r'' hagain => ?_⟩
  obtain ⟨J, hheld', rfl, hindex'⟩ := hagain.maintained
  obtain rfl := hindex.unique hindex'
  refine ⟨Table.ext_get fun k => Option.ext fun row => ?_, Table.ext_get fun row => ?_, fun htoken => ?_, rfl⟩
  · exact (hheld.entries k row).trans (hheld'.entries k row).symm
  · rw [hheld.reverse, hheld'.reverse]
  · refine Table.ext_get fun term => ?_
    rw [hheld.terms htoken, hheld'.terms htoken]

/-- The tokens of a text are indexed for a row that is built in, and for one that comes later, when the first goes. -/
theorem maintenance_exact_tokens :
    let tools := Tools.listed [([1], .object [(some "t", .string (some "ab c ab"))])]
    let d : Definition := ⟨"T", [⟨[.key "t"], .auto, []⟩], .token, [.asc]⟩
    let source : SourceRows := Table.empty.insert "r" ([1], 1)
    let cs := [RowChange.upsert "q" [1] 2, .delete "r"]
    ∃ s r s' r', buildIndex tools (fun _ => corruptReverse) d true [] source = .ok (s, r) ∧
      runChanges tools (fun _ => corruptReverse) d cs s r = .ok (s', r') ∧
      ∃ I, Exact tools (fun _ => corruptReverse) d s' r' (afterChanges cs source) I := by
  intro tools d source cs
  have hread : ∀ row seq, row = "r" ∧ seq = 1 ∨ row = "q" ∧ seq = 2 →
      RowFits tools d row [1] seq ∧ ∃ i, rowIndex tools d row [1] seq = .ok i := by
    rintro row seq (⟨rfl, rfl⟩ | ⟨rfl, rfl⟩)
    · exact ⟨by decide, exists_of_isOk (by decide)⟩
    · exact ⟨by decide, exists_of_isOk (by decide)⟩
  have hsource : ∀ x ∈ source.rows, x = ("r", [1], 1) := fun x hx => List.mem_singleton.mp hx
  have hfits : ∀ x ∈ source.rows, SourceRow.Fits tools d x := fun x hx => by
    rw [hsource x hx]
    exact (hread "r" 1 (.inl ⟨rfl, rfl⟩)).1
  obtain ⟨s, r, hbuild⟩ := (buildIndex_maintained (fun _ => corruptReverse) true [] hfits).2 fun x hx => by
    rw [hsource x hx]
    exact (hread "r" 1 (.inl ⟨rfl, rfl⟩)).2
  have hcs : ∀ c ∈ cs, c.Fits tools d ∧ c.Readable tools d := fun c hc => by
    simp only [cs, List.mem_cons, List.not_mem_nil, or_false] at hc
    rcases hc with rfl | rfl
    · exact hread "q" 2 (.inr ⟨rfl, rfl⟩)
    · exact ⟨trivial, trivial⟩
  obtain ⟨hexact, hruns⟩ := maintenance_exact tools (fun _ => corruptReverse) d (.built true [] hfits hbuild)
    fun c hc => (hcs c hc).1
  obtain ⟨s', r', hrun⟩ := hruns fun c hc => (hcs c hc).2
  exact ⟨s, r, s', r', hbuild, hrun, (hexact s' r' hrun).1⟩

end CloveDb.Indexes
