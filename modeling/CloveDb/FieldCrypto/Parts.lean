/-
# CloveDb.FieldCrypto.Parts — fingerprints of parts, stored and asked for

The windows of a text are its pieces of one length; a piece of a piece is a piece, so the fingerprints of a text sought
are among those of every value that contains it. Fingerprints are words of lower-case hex digits, so joining them with
blanks and taking the words again gives them back.

`HoldsText` says what a row that `seal_row` wrote has in a field: a new value, or one written back as it was read.
-/
import CloveDb.FieldCrypto.Search

namespace CloveDb.FieldCrypto

open CloveDb.Lib CloveDb.Encrypted CloveDb.Fields CloveDb.Query

/-! ## Pieces -/

theorem mem_pieces {window : Nat} (hwindow : 1 ≤ window) {p cs : List Char} :
    p ∈ pieces window cs ↔ p.length = window ∧ p <:+: cs := by
  induction cs with
  | nil =>
      rw [pieces, List.infix_nil]
      constructor
      · intro h
        cases h
      · rintro ⟨hlen, rfl⟩
        exact absurd hlen (by simp; omega)
  | cons c cs ih =>
      rw [pieces, List.infix_cons_iff]
      split
      · rename_i hshort
        constructor
        · intro h
          cases h
        · rintro ⟨hlen, hin⟩
          have hle : p.length ≤ (c :: cs).length := by
            rcases hin with hin | hin
            · exact hin.length_le
            · exact hin.length_le.trans (Nat.le_succ _)
          omega
      · rename_i hlong
        rw [List.mem_cons, ih]
        constructor
        · rintro (rfl | ⟨hlen, hin⟩)
          · exact ⟨by rw [List.length_take]; omega, .inl (List.take_prefix _ _)⟩
          · exact ⟨hlen, .inr hin⟩
        · rintro ⟨hlen, hin | hin⟩
          · exact .inl (hlen ▸ List.prefix_iff_eq_take.mp hin)
          · exact .inr ⟨hlen, hin⟩

/-! ## Tags -/

def hexDigits : List Char := "0123456789abcdef".toList

theorem hexDigit_mem (n : Nat) : hexDigit n ∈ hexDigits := by
  rw [hexDigit, List.getD_eq_getElem?_getD]
  cases h : "0123456789abcdef".toList[n]? with
  | none => exact (by decide : '0' ∈ hexDigits)
  | some c => exact List.mem_of_getElem? h

/-- A word of lower-case hex digits. -/
def IsTag (s : String) : Prop := s.toList ≠ [] ∧ ∀ c ∈ s.toList, c ∈ hexDigits

section Tags

variable {Root N : Type} {crypto : Primitives Root N} (hmac : ∀ key data, (crypto.mac key data).length = 32)

include hmac in
theorem length_keptBytes {bits : Nat} (hbits : bits ≤ 64) (key : Key32) (data : Bytes) :
    (keptBytes bits (crypto.mac key data)).length = (bits + 7) / 8 := by
  have htake : ((crypto.mac key data).take ((bits + 7) / 8)).length = (bits + 7) / 8 := by
    rw [List.length_take, hmac]
    omega
  unfold keptBytes
  dsimp only
  split
  · rename_i hnil
    rw [hnil] at htake
    exact htake
  · rename_i first rest hcons
    rw [hcons] at htake
    exact htake

theorem length_flatMap_hexByte (bs : Bytes) : (bs.flatMap hexByte).length = 2 * bs.length := by
  induction bs with
  | nil => rfl
  | cons b bs ih =>
      rw [List.flatMap_cons, List.length_append, ih, List.length_cons]
      show 2 + 2 * bs.length = 2 * (bs.length + 1)
      omega

include hmac in
/-- A fingerprint of a window is a word of hex digits. -/
theorem isTag_partTag {bits : Nat} (hlow : 1 ≤ bits) (hbits : bits ≤ 64) (key : Key32) (window : Nat) (s : String) :
    IsTag (partTag crypto key window bits s) := by
  rw [IsTag, partTag, String.toList_ofList]
  constructor
  · intro hnil
    have hlen := congrArg List.length hnil
    rw [List.length_drop, length_flatMap_hexByte, length_keptBytes hmac hbits, List.length_nil] at hlen
    omega
  · intro c hc
    obtain ⟨b, -, hb⟩ := List.mem_flatMap.mp (List.mem_of_mem_drop hc)
    simp only [hexByte, List.mem_cons, List.not_mem_nil, or_false] at hb
    rcases hb with rfl | rfl
    · exact hexDigit_mem _
    · exact hexDigit_mem _

end Tags

/-! ## Words -/

/-- What the tokenizer has to know of the characters of fingerprints. -/
structure HexWords (tools : Tools) : Prop where
  blank : tools.alphanumeric ' ' = false
  digits : ∀ c ∈ hexDigits, tools.alphanumeric c = true
  lower : ∀ s : String, (∀ c ∈ s.toList, c ∈ hexDigits) → tools.lowercase s = s

theorem splitOnP_intercalate {p : Char → Bool} {sep : Char} (hsep : p sep = true) {words : List (List Char)}
    (hwords : ∀ w ∈ words, ∀ c ∈ w, p c = false) (hne : words ≠ []) :
    ([sep].intercalate words).splitOnP p = words := by
  induction words with
  | nil => exact absurd rfl hne
  | cons w words ih =>
      have hw := hwords w List.mem_cons_self
      cases words with
      | nil =>
          rw [List.intercalate_singleton]
          exact List.splitOnP_eq_singleton hw
      | cons w' words =>
          rw [List.intercalate_cons_cons, List.append_assoc, List.singleton_append,
            List.splitOnP_append_cons_of_forall_mem hw sep hsep, ih (fun w hw => hwords w (List.mem_cons_of_mem _ hw)) (List.cons_ne_nil _ _)]

/-- The words of joined fingerprints are the fingerprints. -/
theorem tokens_joinTags {tools : Tools} (hhex : HexWords tools) {tags : List String} (htags : ∀ t ∈ tags, IsTag t) :
    tokens tools (joinTags tags) = tags := by
  rw [tokens, joinTags, String.toList_ofList]
  cases tags with
  | nil => rfl
  | cons tag rest =>
      have hwords : ∀ w ∈ (tag :: rest).map String.toList, w ≠ [] ∧ ∀ c ∈ w, c ∈ hexDigits := by
        intro w hw
        obtain ⟨t, ht, rfl⟩ := List.mem_map.mp hw
        exact htags t ht
      rw [splitOnP_intercalate (by rw [hhex.blank]; rfl)
        (fun w hw c hc => by rw [hhex.digits c ((hwords w hw).2 c hc)]; rfl) (by simp),
        List.filter_eq_self.mpr fun w hw => by simpa using (hwords w hw).1, List.map_map]
      refine (List.map_congr_left fun t ht => ?_).trans (List.map_id _)
      show tools.lowercase (String.ofList t.toList) = t
      rw [String.ofList_toList]
      exact hhex.lower t (htags t ht).2

/-! ## Values in rows -/

/-- An optional text of a stored object. -/
def optionalText : Option Json → Option (Option String)
  | none => some none
  | some .null => some none
  | some (.string (some s)) => some (some s)
  | _ => none

/-- `StoredSealed`: a sealed field as it is read back. -/
def readSealed : Json → Option (String × Option String × Option String)
  | .string (some s) => some (s, none, none)
  | .object fields =>
      match entry "s" (.object fields), optionalText (entry "f" (.object fields)),
        optionalText (entry "p" (.object fields)) with
      | some (.string (some s)), some f, some p => some (s, f, p)
      | _, _, _ => none
  | _ => none

theorem storedForm_parts (sealedText full parts : String) : storedForm sealedText (some full) (some parts) =
    objectJson (((Table.empty.insert "s" (text sealedText)).insert "f" (text full)).insert "p" (text parts)) := rfl

theorem entry_parts (sealedText full parts : String) :
    entry "p" (storedForm sealedText (some full) (some parts)) = some (text parts) := by
  rw [storedForm_parts, entry_objectJson, Table.get_insert_self]

/-- The entries of the object of a stored form. -/
theorem entry_storedObject (sealedText : String) (full parts : Option String) :
    (storedObject sealedText full parts).get "s" = some (text sealedText) ∧
      (storedObject sealedText full parts).get "f" = full.map text ∧
      (storedObject sealedText full parts).get "p" = parts.map text := by
  cases full <;> cases parts <;> refine ⟨?_, ?_, ?_⟩ <;> rfl

/-- A stored form is read back as what it was made of. -/
theorem readSealed_storedForm (sealedText : String) (full parts : Option String) :
    readSealed (storedForm sealedText full parts) = some (sealedText, full, parts) := by
  have hobject : readSealed (objectJson (storedObject sealedText full parts)) = some (sealedText, full, parts) := by
    obtain ⟨hs, hf, hp⟩ := entry_storedObject sealedText full parts
    rw [← entry_objectJson] at hs hf hp
    unfold objectJson at hs hf hp ⊢
    rw [readSealed, hs, hf, hp]
    cases full <;> cases parts <;> rfl
  cases full with
  | none =>
      cases parts with
      | none => rfl
      | some parts => exact hobject
  | some full => exact hobject

section Holding

variable {Root N : Type} (crypto : Primitives Root N) (keys : FieldKeys Root) (tools : RowTools) (tableId : String)
  (specs : List SealedSpec) (spec : SealedSpec) (key : String)

/-- Row `key` was written by `seal_row` with a text in the field `spec`: as a new value, or as one read from the row
before it and written back. -/
inductive HoldsText : Table String Json → String → Prop
  | new {entity : Entity N} {object : Table String Json} {parts : List (Part N)} {plain : Bytes} {nonce : N}
      {salt : Bytes} {value : String} :
      sealObject crypto keys tools tableId specs key entity = .ok object → entity.parts = .ok parts →
      (spec, .new plain nonce salt) ∈ specs.zip parts → tools.readText plain = some value → HoldsText object value
  | back {old : Table String Json} {value : String} {stored : Json} {sealedText : String} {full ps : Option String}
      {entity : Entity N} {object : Table String Json} {parts : List (Part N)} {bound : Option Place} :
      HoldsText old value → old.get spec.key = some stored → readSealed stored = some (sealedText, full, ps) →
      sealObject crypto keys tools tableId specs key entity = .ok object → entity.parts = .ok parts →
      (spec, .closed sealedText full ps bound) ∈ specs.zip parts → HoldsText object value

variable {crypto keys tools tableId specs spec key}

/-- A new value in a field with fingerprints of parts. -/
theorem sealPart_new (hmethod : spec.method = .encryptPartPrints) {aead : Aead N}
    (hcipher : keys.cipher crypto tableId spec.id = .ok aead) {plain : Bytes} {nonce : N} {salt : Bytes} {value : String}
    (hvalue : tools.readText plain = some value) {stored : Json}
    (h : sealPart crypto keys tools tableId key spec (.new plain nonce salt) = .ok stored) :
    ∃ full tags, partTags crypto keys tools tableId spec.id spec.normalize spec.window spec.bits value = .ok tags ∧
      stored = storedForm (sealEnvelope crypto aead ⟨tableId, spec.id, key⟩ nonce plain) (some full)
        (some (joinTags tags)) := by
  have hfull : spec.method.hasStoredPrint = true := by rw [hmethod]; rfl
  have hparts : spec.method.hasParts = true := by rw [hmethod]; rfl
  have hsealing : spec.method.isSealing = true := by rw [hmethod]; rfl
  rw [sealPart, if_pos hsealing, bind_eq_ok] at h
  obtain ⟨full, hmade, h⟩ := h
  rw [bind_eq_ok] at h
  obtain ⟨parts, hpartsMade, h⟩ := h
  rw [hcipher, ok_bind] at h
  rw [whenHeld, if_pos hfull, bind_eq_ok] at hmade
  obtain ⟨full, -, hmade⟩ := hmade
  cases hmade
  rw [whenHeld, if_pos hparts, partsOfJson, hvalue, bind_eq_ok] at hpartsMade
  obtain ⟨joined, hjoined, hpartsMade⟩ := hpartsMade
  cases hpartsMade
  dsimp only at hjoined
  rw [bind_eq_ok] at hjoined
  obtain ⟨tags, htags, hjoined⟩ := hjoined
  cases hjoined
  exact ⟨full, tags, htags, (Except.ok.inj h).symm⟩

/-- What is stored of a value, however often it was written back. -/
theorem HoldsText.stored (hkeys : (specs.map SealedSpec.key).Nodup) (hmethod : spec.method = .encryptPartPrints)
    {aead : Aead N} (hcipher : keys.cipher crypto tableId spec.id = .ok aead) {object : Table String Json}
    {value : String} (h : HoldsText crypto keys tools tableId specs spec key object value) :
    ∃ plain nonce full tags, tools.readText plain = some value ∧
      partTags crypto keys tools tableId spec.id spec.normalize spec.window spec.bits value = .ok tags ∧
      object.get spec.key = some (storedForm (sealEnvelope crypto aead ⟨tableId, spec.id, key⟩ nonce plain) (some full)
        (some (joinTags tags))) := by
  have hpairs : ∀ parts : List (Part N), parts.length = specs.length →
      ((specs.zip parts).map fun pair => pair.1.key).Nodup := by
    intro parts hlen
    rwa [zip_keys hlen]
  induction h with
  | @new entity object parts plain nonce salt value hseal hparts hmem hvalue =>
      obtain ⟨parts', start, hparts', hlen, -, hdone, -⟩ := sealObject_ok hseal
      cases hparts.symm.trans hparts'
      obtain ⟨stored, hstored, hget⟩ := sealParts_get hdone (hpairs parts hlen) hmem
      obtain ⟨full, tags, htags, rfl⟩ := sealPart_new hmethod hcipher hvalue hstored
      exact ⟨plain, nonce, full, tags, hvalue, htags, hget⟩
  | @back old value stored sealedText full ps entity object parts bound _ hold hread hseal hparts hmem ih =>
      obtain ⟨plain, nonce, oldFull, tags, hvalue, htags, hget⟩ := ih
      cases hold.symm.trans hget
      rw [readSealed_storedForm] at hread
      cases hread
      obtain ⟨parts', start, hparts', hlen, -, hdone, -⟩ := sealObject_ok hseal
      cases hparts.symm.trans hparts'
      obtain ⟨stored, hstored, hget⟩ := sealParts_get hdone (hpairs parts hlen) hmem
      refine ⟨plain, nonce, oldFull, tags, hvalue, htags, ?_⟩
      rw [sealPart] at hstored
      · split_ifs at hstored
        cases hstored
        exact hget
      · rw [hmethod]
        rfl
      · rw [hmethod]
        rfl

end Holding

end CloveDb.FieldCrypto
