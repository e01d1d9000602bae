/-
# CloveDb.FieldCrypto.KeysFile — the keys file

`field_crypto/keyfile.rs`: the two locks of the data key, each with its length, and the list of tables and their identities,
sealed with a key of its own. Everything before the sealed list is the associated data of its seal.

`parse` takes the file apart with a cursor. It accepts exactly the layout that `encode` writes (`parseKeys_iff`), so no part of a
file and no file with something behind it is accepted. What the list says is authenticated by the cipher.
-/
import CloveDb.FieldCrypto.Domains
import Mathlib.Data.Prod.Lex
import Mathlib.Data.String.Basic
import Mathlib.Logic.Equiv.List

namespace CloveDb.FieldCrypto

open CloveDb.Lib CloveDb.Encrypted

/-! ## Writing -/

/-- `LockedDataKey` -/
structure LockedDataKey where
  read : Bytes
  search : Bytes
  deriving DecidableEq

/-- A parsed file: the locks, everything before the sealed list, and the list still sealed. -/
@[ext]
structure KeyFile where
  locked : LockedDataKey
  header : Bytes
  sealedList : Bytes
  deriving DecidableEq

/-- `MAGIC` -/
def keysMagic : Bytes := utf8 "CLVK"

/-- A lock with its length as a `u16`. -/
def lockPart (lock : Bytes) : Result Bytes :=
  if lock.length < 2 ^ 16 then .ok (leBytes 2 lock.length ++ lock) else .error .dataTampered

/-- What `encode` writes before the sealed list. -/
def keysHeader (locked : LockedDataKey) : Result Bytes := do
  let read ← lockPart locked.read
  let search ← lockPart locked.search
  return keysMagic ++ 1 :: (read ++ search)

/-- The order of pairs of texts (`sort`). -/
def sortTables (ids : List (String × String)) : List (String × String) :=
  ids.mergeSort fun a b => decide (toLex a ≤ toLex b)

/-- `serde_json` for the list of tables. -/
structure ListJson where
  toVec : List (String × String) → Bytes
  fromSlice : Bytes → Option (List (String × String))
  fromSlice_toVec : ∀ ids, fromSlice (toVec ids) = some ids

section

variable {Root N : Type} (crypto : Primitives Root N) (json : ListJson)

/-- `encode`, with the nonce of the seal. -/
def encodeKeys (keys : FieldKeys Root) (nonce : N) (locked : LockedDataKey) (ids : List (String × String)) : Result Bytes := do
  let list := json.toVec (sortTables ids)
  let header ← keysHeader locked
  let cipher ← keys.keyFileCipher crypto
  let sealedList := cipher.sealInto nonce header list
  if sealedList.length < 2 ^ 32 then return header ++ leBytes 4 sealedList.length ++ sealedList
  else .error .dataTampered

end

/-! ## Reading -/

structure Cursor where
  bytes : Bytes
  pos : Nat

/-- `Cursor::take` -/
def Cursor.take (c : Cursor) (n : Nat) : Result (Bytes × Cursor) :=
  if c.pos + n ≤ c.bytes.length then .ok ((c.bytes.drop c.pos).take n, ⟨c.bytes, c.pos + n⟩) else .error .dataTampered

/-- One round of the loop over the locks. -/
def Cursor.takeLock (c : Cursor) : Result (Bytes × Cursor) := do
  let (len, c) ← c.take 2
  c.take (leNat len)

/-- `parse` -/
def parseKeys (bytes : Bytes) : Result KeyFile := do
  let (start, c) ← Cursor.take ⟨bytes, 0⟩ 4
  if start ≠ keysMagic then .error .dataTampered
  else
    let (version, c) ← c.take 1
    if version ≠ [1] then .error .dataTampered
    else
      let (read, c) ← c.takeLock
      let (search, c) ← c.takeLock
      let (len, d) ← c.take 4
      let (sealedList, d) ← d.take (leNat len)
      if d.pos ≠ bytes.length then .error .dataTampered
      else return ⟨⟨read, search⟩, bytes.take c.pos, sealedList⟩

/-- `tables`, for a cipher that opens with `opens`. -/
def KeyFile.tablesWith (json : ListJson) (opens : Bytes → Bytes → Option Bytes) (file : KeyFile) :
    Result (List (String × String)) :=
  match opens file.header file.sealedList with
  | none => .error .dataTampered
  | some plain =>
      match json.fromSlice plain with
      | none => .error .dataTampered
      | some list => .ok (sortTables list)

/-- `tables` -/
def KeyFile.tables {Root N : Type} (crypto : Primitives Root N) (json : ListJson) (keys : FieldKeys Root) (file : KeyFile) :
    Result (List (String × String)) := do
  let cipher ← keys.keyFileCipher crypto
  file.tablesWith json cipher.openInPlace

/-! ## The cursor -/

/-- A cursor that has read `front` and has `rest` before it. -/
def Cursor.between (front rest : Bytes) : Cursor := ⟨front ++ rest, front.length⟩

theorem Cursor.take_between (front part rest : Bytes) :
    (Cursor.between front (part ++ rest)).take part.length = .ok (part, Cursor.between (front ++ part) rest) := by
  unfold Cursor.between Cursor.take
  rw [if_pos (by simp only [List.length_append]; omega)]
  simp

theorem Cursor.take_ok {front rest part : Bytes} {n : Nat} {c : Cursor} (h : (Cursor.between front rest).take n = .ok (part, c)) :
    ∃ rest', rest = part ++ rest' ∧ part.length = n ∧ c = Cursor.between (front ++ part) rest' := by
  unfold Cursor.between Cursor.take at h
  split at h
  · rename_i hfits
    have hn : n ≤ rest.length := by
      dsimp only at hfits
      rw [List.length_append] at hfits
      omega
    cases h
    refine ⟨rest.drop n, ?_, ?_, ?_⟩
    · simp
    · simp only [List.drop_left, List.length_take]
      omega
    · simp only [List.drop_left, Cursor.between, List.append_assoc, List.take_append_drop, List.length_append,
        List.length_take, Nat.min_eq_left hn]
  · cases h

/-! ## The layout -/

def lockBytes (lock : Bytes) : Bytes := leBytes 2 lock.length ++ lock

def headerBytes (locked : LockedDataKey) : Bytes := keysMagic ++ ([1] ++ (lockBytes locked.read ++ lockBytes locked.search))

/-- The bytes of a file with these locks and this sealed list. -/
def layout (locked : LockedDataKey) (sealedList : Bytes) : Bytes :=
  headerBytes locked ++ (leBytes 4 sealedList.length ++ sealedList)

/-- Locks whose lengths fit a `u16`. -/
structure LockedDataKey.Sized (locked : LockedDataKey) : Prop where
  read : locked.read.length < 2 ^ 16
  search : locked.search.length < 2 ^ 16

theorem keysHeader_eq_ok {locked : LockedDataKey} {header : Bytes} :
    keysHeader locked = .ok header ↔ locked.Sized ∧ header = headerBytes locked := by
  unfold keysHeader lockPart
  by_cases hread : locked.read.length < 2 ^ 16
  · by_cases hsearch : locked.search.length < 2 ^ 16
    · rw [if_pos hread, if_pos hsearch]
      constructor
      · intro h
        cases h
        exact ⟨⟨hread, hsearch⟩, rfl⟩
      · rintro ⟨-, rfl⟩
        rfl
    · rw [if_pos hread, if_neg hsearch]
      exact ⟨nofun, fun h => absurd h.1.search hsearch⟩
  · rw [if_neg hread]
    exact ⟨nofun, fun h => absurd h.1.read hread⟩

theorem Cursor.takeLock_between (front : Bytes) {lock : Bytes} (hlock : lock.length < 2 ^ 16) (rest : Bytes) :
    (Cursor.between front (lockBytes lock ++ rest)).takeLock = .ok (lock, Cursor.between (front ++ lockBytes lock) rest) := by
  have hlength := Cursor.take_between front (leBytes 2 lock.length) (lock ++ rest)
  rw [length_leBytes] at hlength
  rw [Cursor.takeLock, lockBytes, List.append_assoc, hlength, ok_bind]
  dsimp only
  rw [leNat_leBytes_of_lt (by simpa using hlock), Cursor.take_between, List.append_assoc]

theorem Cursor.takeLock_ok {front rest lock : Bytes} {c : Cursor} (h : (Cursor.between front rest).takeLock = .ok (lock, c)) :
    ∃ rest', rest = lockBytes lock ++ rest' ∧ lock.length < 2 ^ 16 ∧ c = Cursor.between (front ++ lockBytes lock) rest' := by
  obtain ⟨⟨len, c₁⟩, hlen, h⟩ := bind_eq_ok.mp h
  obtain ⟨rest₁, rfl, htwo, rfl⟩ := Cursor.take_ok hlen
  obtain ⟨rest₂, rfl, hlock, rfl⟩ := Cursor.take_ok h
  -- the two bytes are those of the length
  have hbytes : leBytes 2 lock.length = len := by
    rw [hlock, ← htwo, leBytes_leNat]
  have hsmall := leNat_lt len
  rw [htwo] at hsmall
  refine ⟨rest₂, ?_, ?_, ?_⟩
  · rw [lockBytes, hbytes, List.append_assoc]
  · rw [hlock]
    exact hsmall
  · rw [lockBytes, hbytes, List.append_assoc]

/-- The header as the cursor passes over it. -/
theorem headerBytes_eq (locked : LockedDataKey) :
    headerBytes locked = [] ++ keysMagic ++ [1] ++ lockBytes locked.read ++ lockBytes locked.search := by
  simp only [headerBytes, List.append_assoc, List.nil_append]

theorem parseKeys_layout {locked : LockedDataKey} (hlocked : locked.Sized) {sealedList : Bytes}
    (hlist : sealedList.length < 2 ^ 32) :
    parseKeys (layout locked sealedList) = .ok ⟨locked, headerBytes locked, sealedList⟩ := by
  have hstart : Cursor.mk (layout locked sealedList) 0 = Cursor.between []
      (keysMagic ++ ([1] ++ (lockBytes locked.read ++ (lockBytes locked.search ++
        (leBytes 4 sealedList.length ++ (sealedList ++ [])))))) := by
    simp only [Cursor.between, layout, headerBytes, List.append_assoc, List.nil_append, List.append_nil, List.length_nil]
  have hlength := Cursor.take_between ([] ++ keysMagic ++ [1] ++ lockBytes locked.read ++ lockBytes locked.search)
    (leBytes 4 sealedList.length) (sealedList ++ [])
  rw [length_leBytes] at hlength
  have hmagic : keysMagic.length = 4 := by decide
  have hfirst := Cursor.take_between [] keysMagic
  rw [hmagic] at hfirst
  unfold parseKeys
  rw [hstart, hfirst, ok_bind]
  dsimp only
  rw [if_neg (fun h => h rfl)]
  rw [show (1 : Nat) = ([1] : Bytes).length from rfl, Cursor.take_between, ok_bind]
  dsimp only
  rw [if_neg (fun h => h rfl), Cursor.takeLock_between _ hlocked.read, ok_bind]
  dsimp only
  rw [Cursor.takeLock_between _ hlocked.search, ok_bind]
  dsimp only
  rw [hlength, ok_bind]
  dsimp only
  rw [leNat_leBytes_of_lt (by simpa using hlist), Cursor.take_between, ok_bind]
  dsimp only
  rw [← headerBytes_eq]
  have hend : layout locked sealedList = headerBytes locked ++ leBytes 4 sealedList.length ++ sealedList := by
    rw [layout, List.append_assoc]
  rw [if_neg (fun h => h (congrArg List.length hend).symm), layout]
  dsimp only [Cursor.between]
  rw [List.take_left]
  rfl

theorem parseKeys_ok {bytes : Bytes} {file : KeyFile} (h : parseKeys bytes = .ok file) :
    file.locked.Sized ∧ file.sealedList.length < 2 ^ 32 ∧ file.header = headerBytes file.locked ∧
      bytes = layout file.locked file.sealedList := by
  have hstart : Cursor.mk bytes 0 = Cursor.between [] bytes := rfl
  unfold parseKeys at h
  rw [hstart] at h
  obtain ⟨⟨start, c₁⟩, hmagic, h⟩ := bind_eq_ok.mp h
  obtain ⟨rest₁, rfl, -, rfl⟩ := Cursor.take_ok hmagic
  dsimp only at h
  split at h
  · cases h
  rename_i hstart'
  obtain rfl := not_not.mp hstart'
  obtain ⟨⟨version, c₂⟩, hversion, h⟩ := bind_eq_ok.mp h
  obtain ⟨rest₂, rfl, -, rfl⟩ := Cursor.take_ok hversion
  dsimp only at h
  split at h
  · cases h
  rename_i hone
  obtain rfl := not_not.mp hone
  obtain ⟨⟨read, c₃⟩, hread, h⟩ := bind_eq_ok.mp h
  obtain ⟨rest₃, rfl, hreadLen, rfl⟩ := Cursor.takeLock_ok hread
  obtain ⟨⟨search, c₄⟩, hsearch, h⟩ := bind_eq_ok.mp h
  obtain ⟨rest₄, rfl, hsearchLen, rfl⟩ := Cursor.takeLock_ok hsearch
  obtain ⟨⟨len, c₅⟩, hlen, h⟩ := bind_eq_ok.mp h
  obtain ⟨rest₅, rfl, hfour, rfl⟩ := Cursor.take_ok hlen
  obtain ⟨⟨sealedList, c₆⟩, hsealed, h⟩ := bind_eq_ok.mp h
  obtain ⟨rest₆, rfl, hlist, rfl⟩ := Cursor.take_ok hsealed
  dsimp only at h
  split at h
  · cases h
  rename_i hpos
  -- nothing is left behind the sealed list
  have hnil : rest₆ = [] := by
    have hlengths := not_not.mp hpos
    simp only [Cursor.between, List.length_append, List.length_nil] at hlengths
    exact List.length_eq_zero_iff.mp (by omega)
  have hbytes : leBytes 4 sealedList.length = len := by
    rw [hlist, ← hfour, leBytes_leNat]
  have hsmall := leNat_lt len
  rw [hfour] at hsmall
  cases h
  refine ⟨⟨hreadLen, hsearchLen⟩, ?_, ?_, ?_⟩
  · rw [hlist]
    exact hsmall
  · have hwhole : keysMagic ++ ([1] ++ (lockBytes read ++ (lockBytes search ++ (len ++ (sealedList ++ rest₆)))))
        = headerBytes ⟨read, search⟩ ++ (len ++ (sealedList ++ rest₆)) := by
      simp only [headerBytes, List.append_assoc]
    dsimp only [Cursor.between]
    rw [← headerBytes_eq ⟨read, search⟩, hwhole, List.take_left]
  · rw [hnil, layout, headerBytes, hbytes]
    simp only [List.append_assoc, List.append_nil]

/-! ## No file is the begin of another -/

theorem headerBytes_append_inj {l l' : LockedDataKey} (hl : l.Sized) (hl' : l'.Sized) {x y : Bytes}
    (h : headerBytes l ++ x = headerBytes l' ++ y) : l = l' ∧ x = y := by
  simp only [headerBytes, lockBytes, List.append_assoc] at h
  have hlocks := List.append_cancel_left (List.append_cancel_left h)
  obtain ⟨hread, hlocks⟩ := sizedPart_append_inj hl.read hl'.read hlocks
  obtain ⟨hsearch, hrest⟩ := sizedPart_append_inj hl.search hl'.search hlocks
  refine ⟨?_, hrest⟩
  cases l
  cases l'
  exact congrArg₂ LockedDataKey.mk hread hsearch

theorem layout_append {l l' : LockedDataKey} (hl : l.Sized) (hl' : l'.Sized) {s s' tail : Bytes}
    (hs : s.length < 2 ^ 32) (hs' : s'.length < 2 ^ 32) (h : layout l s ++ tail = layout l' s') : tail = [] := by
  simp only [layout, List.append_assoc] at h
  obtain ⟨-, hrest⟩ := headerBytes_append_inj hl hl' h
  obtain ⟨-, htail⟩ := sizedPart_append_inj hs hs' (hrest.trans (by rw [List.append_nil]))
  exact htail

/-- Two accepted files, one the begin of the other, are the same. -/
theorem parseKeys_append {bytes tail : Bytes} {file file' : KeyFile} (h : parseKeys bytes = .ok file)
    (h' : parseKeys (bytes ++ tail) = .ok file') : tail = [] := by
  obtain ⟨hl, hs, -, rfl⟩ := parseKeys_ok h
  obtain ⟨hl', hs', -, hbytes⟩ := parseKeys_ok h'
  exact layout_append hl hl' hs hs' hbytes

/-! ## What opens is what was written -/

theorem sortTables_pairwise (ids : List (String × String)) :
    (sortTables ids).Pairwise fun a b => decide (toLex a ≤ toLex b) = true := by
  apply List.pairwise_mergeSort
  · intro a b c hab hbc
    exact decide_eq_true (le_trans (of_decide_eq_true hab) (of_decide_eq_true hbc))
  · intro a b
    rcases le_total (toLex a) (toLex b) with h | h
    · simp [h]
    · simp [h]

theorem sortTables_sortTables (ids : List (String × String)) : sortTables (sortTables ids) = sortTables ids :=
  List.mergeSort_of_pairwise (sortTables_pairwise ids)

section

variable {Root N : Type} {crypto : Primitives Root N} {json : ListJson} {keys : FieldKeys Root} {cipher : Aead N}

/-- The arguments of one call of `encode`, with the nonce it drew. -/
structure EncodeCall (N : Type) where
  nonce : N
  locked : LockedDataKey
  ids : List (String × String)

/-- The sealed list of a call. -/
def EncodeCall.sealedList (cipher : Aead N) (json : ListJson) (call : EncodeCall N) : Bytes :=
  cipher.sealInto call.nonce (headerBytes call.locked) (json.toVec (sortTables call.ids))

/-- `encode` succeeds exactly when the lengths fit their numbers, and writes the layout. -/
theorem encodeKeys_eq_ok (hcipher : keys.keyFileCipher crypto = .ok cipher) {call : EncodeCall N} {bytes : Bytes} :
    encodeKeys crypto json keys call.nonce call.locked call.ids = .ok bytes ↔
      call.locked.Sized ∧ (call.sealedList cipher json).length < 2 ^ 32 ∧
        bytes = layout call.locked (call.sealedList cipher json) := by
  unfold encodeKeys
  constructor
  · intro h
    obtain ⟨header, hheader, h⟩ := bind_eq_ok.mp h
    obtain ⟨hsized, rfl⟩ := keysHeader_eq_ok.mp hheader
    rw [hcipher, ok_bind] at h
    dsimp only at h
    split at h
    · rename_i hsmall
      cases h
      exact ⟨hsized, hsmall, List.append_assoc _ _ _⟩
    · cases h
  · rintro ⟨hsized, hsmall, rfl⟩
    rw [keysHeader_eq_ok.mpr ⟨hsized, rfl⟩, ok_bind, hcipher, ok_bind]
    dsimp only
    unfold EncodeCall.sealedList at hsmall ⊢
    rw [if_pos hsmall]
    exact congrArg Except.ok (List.append_assoc _ _ _)

theorem encodeKeys_tooLong (hcipher : keys.keyFileCipher crypto = .ok cipher) {call : EncodeCall N}
    (hsized : call.locked.Sized) (hlong : ¬ (call.sealedList cipher json).length < 2 ^ 32) :
    encodeKeys crypto json keys call.nonce call.locked call.ids = .error .dataTampered := by
  unfold encodeKeys
  rw [keysHeader_eq_ok.mpr ⟨hsized, rfl⟩, ok_bind, hcipher, ok_bind]
  exact if_neg hlong

/-- An opener that opens only what these calls sealed. -/
def OpensOnly (cipher : Aead N) (json : ListJson) (calls : List (EncodeCall N)) (opens : Bytes → Bytes → Option Bytes) :
    Prop :=
  ∀ aad raw plain, opens aad raw = some plain → ∃ call ∈ calls, call.locked.Sized ∧ aad = headerBytes call.locked ∧
    raw = call.sealedList cipher json ∧ plain = json.toVec (sortTables call.ids)

theorem KeyFile.tables_sealed (hcipher : keys.keyFileCipher crypto = .ok cipher) (call : EncodeCall N) :
    KeyFile.tables crypto json keys ⟨call.locked, headerBytes call.locked, call.sealedList cipher json⟩
      = .ok (sortTables call.ids) := by
  rw [KeyFile.tables, hcipher, ok_bind, KeyFile.tablesWith]
  dsimp only
  rw [EncodeCall.sealedList, cipher.open_seal]
  dsimp only
  rw [json.fromSlice_toVec]
  dsimp only
  rw [sortTables_sortTables]

theorem KeyFile.tablesWith_ok {calls : List (EncodeCall N)} {opens : Bytes → Bytes → Option Bytes}
    (hopens : OpensOnly cipher json calls opens) {file : KeyFile} {list : List (String × String)}
    (h : file.tablesWith json opens = .ok list) : ∃ call ∈ calls, call.locked.Sized ∧
      file.header = headerBytes call.locked ∧ file.sealedList = call.sealedList cipher json ∧ list = sortTables call.ids := by
  unfold KeyFile.tablesWith at h
  split at h
  · cases h
  · rename_i plain hplain
    obtain ⟨call, hcall, hsized, hheader, hraw, rfl⟩ := hopens _ _ _ hplain
    rw [json.fromSlice_toVec] at h
    dsimp only at h
    rw [sortTables_sortTables] at h
    cases h
    exact ⟨call, hcall, hsized, hheader, hraw, rfl⟩

/-- The keys file opens to what was written or not at all. What `encode` writes is read back, locks and list. Nothing shorter
and nothing longer is accepted. With an ideal cipher, bytes that open are a file that `encode` made. -/
theorem keys_file_opens_written (hcipher : keys.keyFileCipher crypto = .ok cipher) :
    (∀ call : EncodeCall N, call.locked.Sized →
      (∃ bytes file, encodeKeys crypto json keys call.nonce call.locked call.ids = .ok bytes ∧
        parseKeys bytes = .ok file ∧ file.locked = call.locked ∧
        file.tables crypto json keys = .ok (sortTables call.ids)) ∨
      -- the length of the sealed list is a `u32`
      (2 ^ 32 ≤ (call.sealedList cipher json).length ∧
        encodeKeys crypto json keys call.nonce call.locked call.ids = .error .dataTampered)) ∧
    (∀ (call : EncodeCall N) (bytes : Bytes),
      encodeKeys crypto json keys call.nonce call.locked call.ids = .ok bytes →
      (∀ front rest, bytes = front ++ rest → rest ≠ [] → ∀ file, parseKeys front ≠ .ok file) ∧
      (∀ tail, tail ≠ [] → ∀ file, parseKeys (bytes ++ tail) ≠ .ok file)) ∧
    (∀ (calls : List (EncodeCall N)) (opens : Bytes → Bytes → Option Bytes), OpensOnly cipher json calls opens →
      ∀ bytes file list, parseKeys bytes = .ok file → file.tablesWith json opens = .ok list →
        ∃ call ∈ calls, encodeKeys crypto json keys call.nonce call.locked call.ids = .ok bytes ∧
          file.locked = call.locked ∧ list = sortTables call.ids) := by
  refine ⟨?_, ?_, ?_⟩
  · intro call hsized
    by_cases hsmall : (call.sealedList cipher json).length < 2 ^ 32
    · exact .inl ⟨_, _, (encodeKeys_eq_ok hcipher).mpr ⟨hsized, hsmall, rfl⟩, parseKeys_layout hsized hsmall, rfl,
        KeyFile.tables_sealed hcipher call⟩
    · exact .inr ⟨not_lt.mp hsmall, encodeKeys_tooLong hcipher hsized hsmall⟩
  · intro call bytes hbytes
    obtain ⟨hsized, hsmall, rfl⟩ := (encodeKeys_eq_ok hcipher).mp hbytes
    have hparse := parseKeys_layout hsized hsmall
    constructor
    · intro front rest hsplit hrest file hfront
      rw [hsplit] at hparse
      exact hrest (parseKeys_append hfront hparse)
    · intro tail htail file hlong
      exact htail (parseKeys_append hparse hlong)
  · intro calls opens hopens bytes file list hparse htables
    obtain ⟨hsized, hsmall, hheader, rfl⟩ := parseKeys_ok hparse
    obtain ⟨call, hcall, hsized', hheader', hraw, rfl⟩ := KeyFile.tablesWith_ok hopens htables
    -- the header is authenticated as bytes, and its bytes tell the locks
    have hlocked : file.locked = call.locked := by
      have hsame : headerBytes file.locked ++ [] = headerBytes call.locked ++ [] := by rw [← hheader, hheader']
      exact (headerBytes_append_inj hsized hsized' hsame).1
    refine ⟨call, hcall, (encodeKeys_eq_ok hcipher).mpr ⟨hsized', ?_, ?_⟩, hlocked, rfl⟩
    · rw [← hraw]
      exact hsmall
    · rw [hlocked, hraw]

end

namespace KeysSample

/-- Lists by their number, as that many zero bytes. -/
def json : ListJson where
  toVec ids := List.replicate (Encodable.encode (ids.map fun p => (p.1.toList.map Char.toNat, p.2.toList.map Char.toNat))) 0
  fromSlice bytes := (Encodable.decode (α := List (List Nat × List Nat)) bytes.length).map fun ids =>
    ids.map fun p => (String.ofList (p.1.map Char.ofNat), String.ofList (p.2.map Char.ofNat))
  fromSlice_toVec ids := by
    simp [Function.comp_def]

def call : EncodeCall Unit := ⟨(), ⟨[1, 2], [3]⟩, []⟩

/-- Opens what the call sealed, and nothing else. -/
def opens (aad raw : Bytes) : Option Bytes :=
  if aad = headerBytes call.locked ∧ raw = call.sealedList Aead.marking json then some (json.toVec (sortTables call.ids))
  else none

end KeysSample

/-- A file of two short locks and no table, for an opener that opens its sealed list only. -/
theorem keys_file_opens_written_empty :
    FieldKeys.plain.keyFileCipher Primitives.plain = .ok Aead.marking ∧
      OpensOnly Aead.marking KeysSample.json [KeysSample.call] KeysSample.opens ∧
      ∃ bytes file, encodeKeys Primitives.plain KeysSample.json .plain () KeysSample.call.locked [] = .ok bytes ∧
        parseKeys bytes = .ok file ∧ file.tablesWith KeysSample.json KeysSample.opens = .ok [] := by
  have hcipher : FieldKeys.plain.keyFileCipher Primitives.plain = .ok Aead.marking := rfl
  have hsized : KeysSample.call.locked.Sized := ⟨by decide, by decide⟩
  have hopens : OpensOnly Aead.marking KeysSample.json [KeysSample.call] KeysSample.opens := by
    intro aad raw plain hopen
    unfold KeysSample.opens at hopen
    split at hopen
    · rename_i hmade
      cases hopen
      exact ⟨KeysSample.call, List.mem_singleton_self _, hsized, hmade.1, hmade.2, rfl⟩
    · cases hopen
  have hempty : KeysSample.json.toVec (sortTables KeysSample.call.ids) = [] := by
    rw [KeysSample.call, sortTables, List.mergeSort_nil]
    rfl
  have hsmall : (KeysSample.call.sealedList Aead.marking KeysSample.json).length < 2 ^ 32 := by
    rw [EncodeCall.sealedList, Aead.length_seal, hempty]
    decide
  have hfile := parseKeys_layout hsized hsmall
  have hlist : KeyFile.tablesWith KeysSample.json KeysSample.opens
      ⟨KeysSample.call.locked, headerBytes KeysSample.call.locked, KeysSample.call.sealedList Aead.marking KeysSample.json⟩
        = .ok [] := by
    rw [KeyFile.tablesWith, KeysSample.opens, if_pos ⟨rfl, rfl⟩]
    dsimp only
    rw [KeysSample.json.fromSlice_toVec]
    dsimp only
    rw [sortTables_sortTables, KeysSample.call, sortTables, List.mergeSort_nil]
  obtain ⟨-, -, hideal⟩ := @keys_file_opens_written _ _ _ KeysSample.json _ _ hcipher
  obtain ⟨call, hcall, hmade, -, -⟩ := hideal _ _ hopens _ _ _ hfile hlist
  obtain rfl := List.mem_singleton.mp hcall
  exact ⟨hcipher, hopens, _, _, hmade, hfile, hlist⟩

end CloveDb.FieldCrypto
