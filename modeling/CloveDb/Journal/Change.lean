/-
# CloveDb.Journal.Change — the rows of the change log

`ChangeKind` of `journal.rs` with its stored form: a version byte, a tag, three parts with their
lengths, and a size. Decoding an encoded change gives it back (`decode_encode`), so a row of the log
says exactly what was done. Whatever is accepted says where it ends: with anything after it, it is
refused (`decode_append`), so no row that is accepted is the beginning of another.
-/
import CloveDb.Lib.Bytes
import CloveDb.Units

namespace CloveDb.Journal

open CloveDb.Lib

/-- One effect on the stored data. After-images are the exact stored bytes. -/
inductive ChangeKind where
  | upsert (table key : String) (value : Bytes)
  | delete (table key : String)
  | tableReset (table snapshot : String)
  | blobPut (table key blobId : String) (size : UInt64)
  | blobDelete (table key blobId : String) (size : UInt64)
  deriving DecidableEq, Repr

/-- One committed effect, ordered by its sequence number. -/
structure Change where
  seq : Nat
  kind : ChangeKind
  deriving DecidableEq, Repr

namespace ChangeKind

/-- `parts`: tag, table, key, payload and size. -/
def parts : ChangeKind → UInt8 × Bytes × Bytes × Bytes × UInt64
  | .upsert table key value => (0, utf8 table, utf8 key, value, 0)
  | .delete table key => (1, utf8 table, utf8 key, [], 0)
  | .tableReset table snapshot => (2, utf8 table, [], utf8 snapshot, 0)
  | .blobPut table key blobId size => (3, utf8 table, utf8 key, utf8 blobId, size)
  | .blobDelete table key blobId size => (4, utf8 table, utf8 key, utf8 blobId, size)

def encodePart (part : Bytes) : Result Bytes :=
  if part.length < 2 ^ 64 then .ok (beBytes 8 part.length ++ part)
  else .error (.validation "journal row too large")

def encodeParts (tag : UInt8) (table key payload : Bytes) (size : UInt64) : Result Bytes := do
  let table ← encodePart table
  let key ← encodePart key
  let payload ← encodePart payload
  return [1, tag] ++ table ++ key ++ payload ++ beBytes 8 size.toNat

def encode (c : ChangeKind) : Result Bytes :=
  match c.parts with
  | (tag, table, key, payload, size) => encodeParts tag table key payload size

def bad {α : Type} : Result α := .error (.validation "corrupt or unsupported journal row")

/-- The first `n` bytes and the rest. -/
def take (n : Nat) (bytes : Bytes) : Result (Bytes × Bytes) :=
  if bytes.length < n then bad else .ok (bytes.take n, bytes.drop n)

def number (bytes : Bytes) : Result (Nat × Bytes) := do
  let (a, rest) ← take 8 bytes
  return (beNat a, rest)

def part (bytes : Bytes) : Result (Bytes × Bytes) := do
  let (len, rest) ← number bytes
  take len rest

def text (bytes : Bytes) : Result String :=
  match fromUtf8 bytes with
  | none => bad
  | some s => .ok s

/-- The end of `decode`: the parts to a change. -/
def ofParts (tag : UInt8) (table key : String) (payload : Bytes) (size : UInt64) :
    Result ChangeKind :=
  if tag = 0 then .ok (.upsert table key payload)
  else if tag = 1 then .ok (.delete table key)
  else if tag = 2 then do
    let snapshot ← text payload
    return .tableReset table snapshot
  else if tag = 3 then do
    let blobId ← text payload
    return .blobPut table key blobId size
  else if tag = 4 then do
    let blobId ← text payload
    return .blobDelete table key blobId size
  else bad

def decode (bytes : Bytes) : Result ChangeKind :=
  match bytes with
  | 1 :: tag :: rest => do
      let (table, rest) ← part rest
      let table ← text table
      let (key, rest) ← part rest
      let key ← text key
      let (payload, rest) ← part rest
      let (size, rest) ← number rest
      if rest.isEmpty then ofParts tag table key payload (UInt64.ofNat size) else bad
  | _ => bad

/-! ## The round trip -/

theorem take_append {a rest : Bytes} {n : Nat} (h : a.length = n) : take n (a ++ rest) = .ok (a, rest) := by
  subst h
  rw [take, if_neg (by rw [List.length_append]; omega), List.take_left, List.drop_left]

theorem number_append {n : Nat} (h : n < 2 ^ 64) (rest : Bytes) :
    number (beBytes 8 n ++ rest) = .ok (n, rest) := by
  rw [number, take_append (length_beBytes 8 n), ok_bind]
  show Except.ok (beNat (beBytes 8 n), rest) = _
  rw [beNat_beBytes_of_lt h]

theorem part_append {p encoded : Bytes} (h : encodePart p = .ok encoded) (rest : Bytes) :
    part (encoded ++ rest) = .ok (p, rest) := by
  unfold encodePart at h
  split at h
  · rename_i hlen
    cases h
    rw [part, List.append_assoc, number_append hlen, ok_bind]
    exact take_append rfl
  · cases h

theorem text_utf8 (s : String) : text (utf8 s) = .ok s := by
  rw [text, fromUtf8_utf8]

theorem decode_encodeParts {tag : UInt8} {table key : String} {payload row : Bytes} {size : UInt64}
    (h : encodeParts tag (utf8 table) (utf8 key) payload size = .ok row) :
    decode row = ofParts tag table key payload size := by
  unfold encodeParts at h
  obtain ⟨tableBytes, h1, h⟩ := bind_eq_ok.mp h
  obtain ⟨keyBytes, h2, h⟩ := bind_eq_ok.mp h
  obtain ⟨payloadBytes, h3, h⟩ := bind_eq_ok.mp h
  cases h
  have hnum := number_append size.toNat_lt []
  rw [List.append_nil] at hnum
  show decode (1 :: tag :: (tableBytes ++ keyBytes ++ payloadBytes ++ beBytes 8 size.toNat)) = _
  simp only [decode, List.append_assoc]
  rw [part_append h1, ok_bind]
  dsimp only
  rw [text_utf8, ok_bind, part_append h2, ok_bind]
  dsimp only
  rw [text_utf8, ok_bind, part_append h3, ok_bind]
  dsimp only
  rw [hnum, ok_bind]
  dsimp only
  rw [UInt64.ofNat_toNat]
  rfl

/-- **The stored form is exact.** -/
theorem decode_encode {c : ChangeKind} {row : Bytes} (h : encode c = .ok row) :
    decode row = .ok c := by
  cases c with
  | upsert t k v => exact decode_encodeParts h
  | delete t k => exact decode_encodeParts h
  | tableReset t s =>
      rw [show decode row = ofParts 2 t "" (utf8 s) 0 from decode_encodeParts h]
      simp [ofParts, text_utf8, pure, Except.pure]
  | blobPut t k b size =>
      rw [decode_encodeParts h]
      simp [ofParts, text_utf8, pure, Except.pure]
  | blobDelete t k b size =>
      rw [decode_encodeParts h]
      simp [ofParts, text_utf8, pure, Except.pure]

/-! ## Cut and extended rows -/

theorem take_extend {n : Nat} {bytes a rest : Bytes} (h : take n bytes = .ok (a, rest)) (tail : Bytes) :
    take n (bytes ++ tail) = .ok (a, rest ++ tail) := by
  rw [take] at h ⊢
  split at h
  · cases h
  · rename_i hlen
    cases h
    have hle : n ≤ bytes.length := Nat.le_of_not_lt hlen
    rw [if_neg (by rw [List.length_append]; omega), List.take_append_of_le_length hle,
      List.drop_append_of_le_length hle]

theorem number_extend {bytes rest : Bytes} {n : Nat} (h : number bytes = .ok (n, rest)) (tail : Bytes) :
    number (bytes ++ tail) = .ok (n, rest ++ tail) := by
  obtain ⟨⟨a, rest'⟩, htake, h⟩ := bind_eq_ok.mp h
  cases h
  exact bind_eq_ok.mpr ⟨_, take_extend htake tail, rfl⟩

theorem part_extend {bytes p rest : Bytes} (h : part bytes = .ok (p, rest)) (tail : Bytes) :
    part (bytes ++ tail) = .ok (p, rest ++ tail) := by
  obtain ⟨⟨len, rest'⟩, hnumber, h⟩ := bind_eq_ok.mp h
  exact bind_eq_ok.mpr ⟨_, number_extend hnumber tail, take_extend h tail⟩

/-- An accepted row with anything after it is refused. -/
theorem decode_append {bytes tail : Bytes} {c : ChangeKind} (h : decode bytes = .ok c) (htail : tail ≠ []) :
    decode (bytes ++ tail) = bad := by
  rw [decode.eq_def] at h
  split at h
  · rename_i tag rest
    obtain ⟨⟨table, rest₁⟩, htable, h⟩ := bind_eq_ok.mp h
    obtain ⟨tableText, htableText, h⟩ := bind_eq_ok.mp h
    obtain ⟨⟨key, rest₂⟩, hkey, h⟩ := bind_eq_ok.mp h
    obtain ⟨keyText, hkeyText, h⟩ := bind_eq_ok.mp h
    obtain ⟨⟨payload, rest₃⟩, hpayload, h⟩ := bind_eq_ok.mp h
    obtain ⟨⟨size, rest₄⟩, hsize, h⟩ := bind_eq_ok.mp h
    -- each part is read as before, and the tail is what is left at the end
    have hleft : (rest₄ ++ tail).isEmpty = false := by
      cases hrest : rest₄ ++ tail with
      | nil => exact absurd (List.append_eq_nil_iff.mp hrest).2 htail
      | cons b rest => rfl
    show decode (1 :: tag :: (rest ++ tail)) = bad
    rw [decode, part_extend htable, ok_bind]
    dsimp only
    rw [htableText, ok_bind, part_extend hkey, ok_bind]
    dsimp only
    rw [hkeyText, ok_bind, part_extend hpayload, ok_bind]
    dsimp only
    rw [number_extend hsize, ok_bind]
    dsimp only
    rw [hleft]
    rfl
  · cases h

theorem encode_ok (c : ChangeKind) (htable : c.parts.2.1.length < 2 ^ 64) (hkey : c.parts.2.2.1.length < 2 ^ 64)
    (hpayload : c.parts.2.2.2.1.length < 2 ^ 64) : ∃ row, encode c = .ok row := by
  refine ⟨_, bind_eq_ok.mpr ⟨_, if_pos htable, bind_eq_ok.mpr ⟨_, if_pos hkey, bind_eq_ok.mpr ⟨_, if_pos hpayload, rfl⟩⟩⟩⟩

/-- **Rows of the log are exact.** A change whose parts have 64-bit lengths has a row. The row decodes to the change;
cut anywhere or with anything after it, it is refused; and no other change has it. -/
theorem rows_exact (c : ChangeKind) (htable : c.parts.2.1.length < 2 ^ 64) (hkey : c.parts.2.2.1.length < 2 ^ 64)
    (hpayload : c.parts.2.2.2.1.length < 2 ^ 64) :
    ∃ row, encode c = .ok row ∧ decode row = .ok c ∧
      (∀ cut tail, row = cut ++ tail → tail ≠ [] → ∃ e, decode cut = .error e) ∧
      (∀ tail, tail ≠ [] → ∃ e, decode (row ++ tail) = .error e) ∧
      ∀ c', encode c' = .ok row → c' = c := by
  obtain ⟨row, hrow⟩ := encode_ok c htable hkey hpayload
  have hdecode := decode_encode hrow
  refine ⟨row, hrow, hdecode, fun cut tail hcut htail => ?_, fun tail htail => ⟨_, decode_append hdecode htail⟩,
    fun c' hc' => ?_⟩
  · cases hshort : decode cut with
    | error e => exact ⟨e, rfl⟩
    | ok c' =>
        have hbad := decode_append hshort htail
        rw [← hcut, hdecode] at hbad
        cases hbad
  · exact Except.ok.inj ((decode_encode hc').symm.trans hdecode)

theorem rows_exact_upsert :
    ∃ row, encode (.upsert "notes" "a" [0, 255, 3]) = .ok row ∧ decode row = .ok (.upsert "notes" "a" [0, 255, 3]) ∧
      ∃ e, decode (row ++ [0]) = .error e := by
  obtain ⟨row, hrow, hdecode, -, hlong, -⟩ := rows_exact (.upsert "notes" "a" [0, 255, 3]) (by decide) (by decide)
    (by decide)
  exact ⟨row, hrow, hdecode, hlong [0] (by decide)⟩

end ChangeKind

end CloveDb.Journal
