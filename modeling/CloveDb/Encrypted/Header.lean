/-
# CloveDb.Encrypted.Header — redb's header page as four sealed pieces

The header functions of `encrypted_store/backend.rs`. redb uses 320 bytes of its header page: 64
main bytes and two commit slots of 128 bytes. The main bytes are kept twice, in the pieces 0 and 1
of the file, written in turn with a growing sequence number; each slot has one piece, 2 and 3.

`writeHeaderRange` returns the piece writes it makes, in order, next to its outcome, so that a
caller can apply them all or stop between two of them. `loadHeader` is a function of the four raw
pieces of the file, and the lemmas here say what it gives after one piece was replaced.
-/
import CloveDb.Encrypted.Layout

namespace CloveDb.Encrypted

open CloveDb.Lib

/-! ## The header in memory -/

/-- redb's 320 header bytes as the layer last saw them, and which main piece holds them. -/
structure Header where
  bytes : Bytes
  length_bytes : bytes.length = redbHeaderLen
  seq : UInt64
  newestCopy : Fin 2

namespace Header

/-- The header of a backend that has read and written nothing. -/
def blank : Header := ⟨zeros redbHeaderLen, length_zeros _, 0, 0⟩

/-- `bytes[offset..].copy_from_slice(data)`, for data that fits. -/
def put (h : Header) (offset : Nat) (data : Bytes) : Header :=
  { h with
    bytes := (writeAt h.bytes offset data).take redbHeaderLen
    length_bytes := by
      have := h.length_bytes
      simp only [List.length_take, length_writeAt]
      omega }

/-- Bytes 0..64. -/
def main (h : Header) : Bytes := slice h.bytes 0 64

/-- Bytes 64..192. -/
def slot1 (h : Header) : Bytes := slice h.bytes 64 128

/-- Bytes 192..320. -/
def slot2 (h : Header) : Bytes := slice h.bytes 192 128

@[ext] theorem ext {h k : Header} (hb : h.bytes = k.bytes) (hs : h.seq = k.seq)
    (hc : h.newestCopy = k.newestCopy) : h = k := by
  cases h
  cases k
  simp_all

theorem bytes_eq (h : Header) : h.bytes = h.main ++ h.slot1 ++ h.slot2 := by
  rw [main, slot1, slot2, slice_append_slice h.bytes 0 64 128, slice_append_slice h.bytes 0 192 128]
  have hs := slice_self h.bytes
  rw [h.length_bytes] at hs
  exact hs.symm

/-- The three parts of a header are its bytes. -/
theorem bytes_eq_of_parts {h k : Header} (hm : h.main = k.main) (h1 : h.slot1 = k.slot1)
    (h2 : h.slot2 = k.slot2) : h.bytes = k.bytes := by
  rw [h.bytes_eq, k.bytes_eq, hm, h1, h2]

@[simp] theorem length_main (h : Header) : h.main.length = 64 :=
  length_slice_of_le (by rw [h.length_bytes]; decide)

@[simp] theorem length_slot1 (h : Header) : h.slot1.length = 128 :=
  length_slice_of_le (by rw [h.length_bytes]; decide)

@[simp] theorem length_slot2 (h : Header) : h.slot2.length = 128 :=
  length_slice_of_le (by rw [h.length_bytes]; decide)

theorem put_bytes {h : Header} {offset : Nat} {data : Bytes}
    (hd : offset + data.length ≤ redbHeaderLen) :
    (h.put offset data).bytes = writeAt h.bytes offset data := by
  have hl := h.length_bytes
  exact List.take_of_length_le (by rw [length_writeAt]; omega)

/-- A range apart from what was put is kept. -/
theorem slice_put_apart {h : Header} {offset a n : Nat} {data : Bytes}
    (hd : offset + data.length ≤ redbHeaderLen)
    (ha : a + n ≤ offset ∨ offset + data.length ≤ a) :
    slice (h.put offset data).bytes a n = slice h.bytes a n := by
  rw [put_bytes hd, slice_writeAt_apart _ ha]
  exact h.length_bytes ▸ (Nat.le_add_right _ _).trans hd

theorem slice_put_same {h : Header} {offset n : Nat} {data : Bytes} (hn : data.length = n)
    (hd : offset + n ≤ redbHeaderLen) : slice (h.put offset data).bytes offset n = data := by
  subst hn
  rw [put_bytes hd, slice_writeAt_same]
  exact h.length_bytes ▸ (Nat.le_add_right _ _).trans hd

@[simp] theorem put_seq (h : Header) (offset : Nat) (data : Bytes) :
    (h.put offset data).seq = h.seq := rfl

@[simp] theorem put_newestCopy (h : Header) (offset : Nat) (data : Bytes) :
    (h.put offset data).newestCopy = h.newestCopy := rfl

end Header

/-! ## The pieces in the file -/

def pieceOffset (copy : Nat) : Nat := fileHeaderLen + copy * pieceLen

/-- What is sealed for a piece: 0 the main bytes behind their sequence number, 1 and 2 the commit
slots. -/
def piecePlain (h : Header) (piece plainLen : Nat) : Bytes :=
  setLen
    (match piece with
      | 0 => leBytes 8 h.seq.toNat ++ slice h.bytes 0 64
      | 1 => slice h.bytes 64 128
      | _ => slice h.bytes 192 128)
    plainLen

/-- One piece on its way to the file. -/
structure PieceWrite where
  copy : Nat
  piece : Nat
  sealed : Bytes

section

variable {N : Type} (aead : Aead N)

/-- `write_piece`, up to the file call. -/
def writePiece (nonce : N) (copy piece : Nat) (h : Header) : PieceWrite :=
  ⟨copy, piece, aead.sealInto nonce (pieceAad piece) (piecePlain h piece (pieceLen - aead.overhead))⟩

/-- The 512 bytes of one piece. -/
def pieceRaw (file : Bytes) (copy : Nat) : Bytes := slice file (pieceOffset copy) pieceLen

/-- `read_piece` on the bytes of a piece. `none`: never written. An error: written but failed
authentication, or behind the end of the file. -/
def readRaw (piece : Nat) (raw : Bytes) : Io (Option Bytes) :=
  if raw.length < pieceLen then .error .unexpectedEof
  else if raw.all (· == 0) then .ok none
  else
    match aead.openInPlace (pieceAad piece) raw with
    | some plain => .ok (some plain)
    | none => .error (.tamper none)

def readPiece (file : Bytes) (copy piece : Nat) : Io (Option Bytes) :=
  readRaw aead piece (pieceRaw file copy)

/-- One turn of the loop of `load_header` over the two main copies: the copy with the larger
sequence number wins, the first one when they are equal. -/
def betterMain (raws : Nat → Bytes) (best : Option (UInt64 × Fin 2 × Bytes)) (copy : Fin 2) :
    Option (UInt64 × Fin 2 × Bytes) :=
  match readRaw aead 0 (raws copy) with
  | .ok (some p) =>
      let seq := UInt64.ofNat (leNat (p.take 8))
      if best.all (fun b => decide (seq > b.1)) then some (seq, copy, slice p 8 64) else best
  | _ => best

def bestMain (raws : Nat → Bytes) : Option (UInt64 × Fin 2 × Bytes) :=
  betterMain aead raws (betterMain aead raws none 0) 1

/-- The end of the loop over the main copies. -/
def loadMain (raws : Nat → Bytes) (h : Header) : Header :=
  match bestMain aead raws with
  | some (seq, copy, p) => { h.put 0 p with seq := seq, newestCopy := copy }
  | none => h

/-- One turn of the loop over the commit slots: copy, piece, start of the range. -/
def loadSlot (raws : Nat → Bytes) (h : Header) (slot : Nat × Nat × Nat) : Header :=
  match readRaw aead slot.2.1 (raws slot.1) with
  | .ok (some p) => h.put slot.2.2 (p.take 128)
  | _ => h

/-- `load_header` over the four raw pieces. A piece that fails authentication leaves the header's
bytes as they were. -/
def loadRaws (raws : Nat → Bytes) (h : Header) : Header :=
  [(2, 1, 64), (3, 2, 192)].foldl (loadSlot aead raws) (loadMain aead raws h)

def loadHeader (file : Bytes) (h : Header) : Header := loadRaws aead (pieceRaw file) h

/-- The header bytes after a write of `data` at `offset`. -/
def Header.written (h : Header) (offset : Nat) (data : Bytes) : Header :=
  let n := min data.length (redbHeaderLen - offset)
  if 0 < n then h.put offset (data.take n) else h

/-- The writes of the commit slots that differ. -/
def slotWrites (nonce : Nat → N) (h h' : Header) : List PieceWrite :=
  (if h.slot1 ≠ h'.slot1 then [writePiece aead (nonce 0) 2 1 h'] else []) ++
  (if h.slot2 ≠ h'.slot2 then [writePiece aead (nonce 1) 3 2 h'] else [])

/-- `write_header_range`: the piece writes in the order they are made, and how the call ends. The
commit slots come first, the piece holding redb's primary-slot byte last. -/
def writeHeaderRange (readOnly : Bool) (nonce : Nat → N) (h : Header) (offset : Nat) (data : Bytes) :
    List PieceWrite × Io Header :=
  if (data.drop (min data.length (redbHeaderLen - offset))).any (· != 0) then
    ([], .error (bad "write into the unused part of redb's header page"))
  else
    let h' := h.written offset data
    if readOnly then ([], .ok h')
    else if h.main ≠ h'.main then
      if h'.seq.toNat + 1 < 2 ^ 64 then
        let h'' := { h' with seq := h'.seq + 1 }
        let copy := h''.newestCopy ^^^ 1
        (slotWrites aead nonce h h' ++ [writePiece aead (nonce 2) copy.val 0 h''],
          .ok { h'' with newestCopy := copy })
      else (slotWrites aead nonce h h', .error .overflow)
    else (slotWrites aead nonce h h', .ok h')

end

def PieceWrite.apply (file : Bytes) (w : PieceWrite) : Bytes :=
  writeAt file (pieceOffset w.copy) w.sealed

/-- The file after some piece writes. -/
def applyWrites (file : Bytes) (ws : List PieceWrite) : Bytes := ws.foldl PieceWrite.apply file

/-! ## Raw pieces under writes -/

/-- The pieces lie in the header area. -/
theorem pieceOffset_add_le {copy : Nat} (hc : copy < 4) : pieceOffset copy + pieceLen ≤ dataBase := by
  simp only [pieceOffset, dataBase, fileHeaderLen, piecesLen, pieceLen]
  omega

theorem pieceOffset_apart {c copy : Nat} (h : c ≠ copy) :
    pieceOffset c + pieceLen ≤ pieceOffset copy ∨ pieceOffset copy + pieceLen ≤ pieceOffset c := by
  simp only [pieceOffset, fileHeaderLen, pieceLen]
  omega

/-- Replacing one piece of the file replaces one raw piece. -/
theorem pieceRaw_writeAt {file raw : Bytes} {copy : Nat} (hf : dataBase ≤ file.length)
    (hc : copy < 4) (hr : raw.length = pieceLen) :
    pieceRaw (writeAt file (pieceOffset copy) raw) = Function.update (pieceRaw file) copy raw := by
  have hin : pieceOffset copy ≤ file.length :=
    (Nat.le_add_right _ _).trans ((pieceOffset_add_le hc).trans hf)
  funext c
  by_cases h : c = copy
  · subst h
    rw [Function.update_self, pieceRaw, ← hr, slice_writeAt_same hin]
  · rw [Function.update_of_ne h, pieceRaw, pieceRaw, slice_writeAt_apart hin]
    exact hr ▸ pieceOffset_apart h

theorem length_writeAt_piece {file raw : Bytes} {copy : Nat} (hf : dataBase ≤ file.length)
    (hc : copy < 4) (hr : raw.length = pieceLen) :
    (writeAt file (pieceOffset copy) raw).length = file.length := by
  rw [length_writeAt, hr]
  exact max_eq_left ((pieceOffset_add_le hc).trans hf)

/-- Nothing outside the four pieces changes. -/
theorem slice_writeAt_piece {file raw : Bytes} {copy a n : Nat} (hf : dataBase ≤ file.length)
    (hc : copy < 4) (hr : raw.length = pieceLen) (ha : dataBase ≤ a) :
    slice (writeAt file (pieceOffset copy) raw) a n = slice file a n := by
  have hin := pieceOffset_add_le hc
  apply slice_writeAt_after
  · exact (Nat.le_add_right _ _).trans (hin.trans hf)
  · exact hr ▸ hin.trans ha

section

variable {N : Type} (aead : Aead N)

theorem length_piecePlain (h : Header) (piece n : Nat) : (piecePlain h piece n).length = n :=
  length_setLen _ _

@[simp] theorem length_writePiece (nonce : N) (copy piece : Nat) (h : Header) :
    (writePiece aead nonce copy piece h).sealed.length = pieceLen := by
  have ho := aead.overhead_le
  simp only [writePiece, aead.length_seal, length_piecePlain, maxOverhead, pieceLen] at ho ⊢
  omega

/-- A piece the layer sealed reads back. -/
theorem readRaw_writePiece (nonce : N) (copy piece : Nat) (h : Header) :
    readRaw aead piece (writePiece aead nonce copy piece h).sealed =
      .ok (some (piecePlain h piece (pieceLen - aead.overhead))) := by
  rw [readRaw, length_writePiece, if_neg (lt_irrefl _)]
  simp only [writePiece, aead.seal_ne_zeros, aead.open_seal]
  rfl

/-- A piece that opens is long enough for every part that is read from it. -/
theorem length_of_readRaw {piece : Nat} {raw p : Bytes} (h : readRaw aead piece raw = .ok (some p)) :
    136 ≤ p.length := by
  have ho := aead.overhead_le
  rw [readRaw] at h
  split at h
  · cases h
  · rename_i hlen
    split at h
    · cases h
    · cases hu : aead.openInPlace (pieceAad piece) raw with
      | none => simp [hu] at h
      | some q =>
          simp only [hu, Except.ok.injEq, Option.some.injEq] at h
          subst h
          have := aead.length_open _ _ _ hu
          simp only [maxOverhead, pieceLen] at ho hlen
          omega

/-- A piece that does not open, whatever its bytes are. -/
theorem readRaw_closed {piece : Nat} {raw : Bytes}
    (h : aead.openInPlace (pieceAad piece) raw = none) (p : Bytes) :
    readRaw aead piece raw ≠ .ok (some p) := by
  rw [readRaw, h]
  split
  · exact nofun
  · split <;> exact nofun

/-! ## What the loaded header holds -/

/-- The sequence number and the main bytes a raw piece holds, if it opens. -/
def mainOf (raw : Bytes) : Option (UInt64 × Bytes) :=
  match readRaw aead 0 raw with
  | .ok (some p) => some (UInt64.ofNat (leNat (p.take 8)), slice p 8 64)
  | _ => none

/-- The slot bytes a raw piece holds, if it opens. -/
def slotOf (piece : Nat) (raw : Bytes) : Option Bytes :=
  match readRaw aead piece raw with
  | .ok (some p) => some (p.take 128)
  | _ => none

theorem slotOf_closed {piece : Nat} {raw : Bytes}
    (h : aead.openInPlace (pieceAad piece) raw = none) : slotOf aead piece raw = none := by
  rw [slotOf]
  split
  · rename_i p hp
    exact absurd hp (readRaw_closed aead h p)
  · rfl

theorem mainOf_closed {raw : Bytes} (h : aead.openInPlace (pieceAad 0) raw = none) :
    mainOf aead raw = none := by
  rw [mainOf]
  split
  · rename_i p hp
    exact absurd hp (readRaw_closed aead h p)
  · rfl

theorem length_of_mainOf {raw p : Bytes} {seq : UInt64} (h : mainOf aead raw = some (seq, p)) :
    p.length = 64 := by
  rw [mainOf] at h
  split at h
  · rename_i q hq
    cases h
    have := length_of_readRaw aead hq
    exact length_slice_of_le (by omega)
  · cases h

theorem betterMain_eq (raws : Nat → Bytes) (best : Option (UInt64 × Fin 2 × Bytes)) (copy : Fin 2) :
    betterMain aead raws best copy =
      match mainOf aead (raws copy) with
      | some (seq, p) =>
          if best.all (fun b => decide (seq > b.1)) then some (seq, copy, p) else best
      | none => best := by
  rw [betterMain, mainOf]
  split <;> simp

/-- The choice between the two copies, from what each holds. -/
theorem bestMain_eq (raws : Nat → Bytes) :
    bestMain aead raws =
      match mainOf aead (raws 0), mainOf aead (raws 1) with
      | some a, some b => if a.1 < b.1 then some (b.1, 1, b.2) else some (a.1, 0, a.2)
      | some a, none => some (a.1, 0, a.2)
      | none, some b => some (b.1, 1, b.2)
      | none, none => none := by
  have e0 : ((0 : Fin 2) : Nat) = 0 := rfl
  have e1 : ((1 : Fin 2) : Nat) = 1 := rfl
  rw [bestMain, betterMain_eq, betterMain_eq, e0, e1]
  cases mainOf aead (raws 0) <;> cases mainOf aead (raws 1) <;> simp

/-- The copy with the larger number is the best, also when the other does not open. -/
theorem bestMain_of_newer {raws : Nat → Bytes} {c : Fin 2} {seq : UInt64} {p : Bytes}
    (hc : mainOf aead (raws c) = some (seq, p))
    (ho : ∀ q, mainOf aead (raws (c ^^^ 1 : Fin 2)) = some q → q.1 < seq) :
    bestMain aead raws = some (seq, c, p) := by
  rw [bestMain_eq]
  obtain rfl | rfl : c = 0 ∨ c = 1 := by omega
  · have h0 : mainOf aead (raws 0) = some (seq, p) := hc
    have h1 : ∀ q, mainOf aead (raws 1) = some q → q.1 < seq := ho
    cases hm : mainOf aead (raws 1) with
    | none => simp [h0]
    | some q => simp [h0, UInt64.lt_asymm (h1 q hm)]
  · have h1 : mainOf aead (raws 1) = some (seq, p) := hc
    have h0 : ∀ q, mainOf aead (raws 0) = some q → q.1 < seq := ho
    cases hm : mainOf aead (raws 0) with
    | none => simp [h1]
    | some q => simp [h1, h0 q hm]

/-- The best copy is one that opens, and no copy that opens has a larger number. -/
theorem mainOf_of_bestMain {raws : Nat → Bytes} {c : Fin 2} {seq : UInt64} {p : Bytes}
    (h : bestMain aead raws = some (seq, c, p)) :
    mainOf aead (raws c) = some (seq, p) ∧
      ∀ q, mainOf aead (raws (c ^^^ 1 : Fin 2)) = some q → q.1 ≤ seq := by
  rw [bestMain_eq] at h
  cases h0 : mainOf aead (raws 0) with
  | none =>
      cases h1 : mainOf aead (raws 1) with
      | none => simp [h0, h1] at h
      | some b =>
          simp only [h0, h1, Option.some.injEq, Prod.mk.injEq] at h
          obtain ⟨rfl, rfl, rfl⟩ := h
          refine ⟨h1, fun q hq => ?_⟩
          exact absurd (h0.symm.trans hq) nofun
  | some a =>
      cases h1 : mainOf aead (raws 1) with
      | none =>
          simp only [h0, h1, Option.some.injEq, Prod.mk.injEq] at h
          obtain ⟨rfl, rfl, rfl⟩ := h
          refine ⟨h0, fun q hq => ?_⟩
          exact absurd (h1.symm.trans hq) nofun
      | some b =>
          simp only [h0, h1] at h
          split at h
          · rename_i hlt
            simp only [Option.some.injEq, Prod.mk.injEq] at h
            obtain ⟨rfl, rfl, rfl⟩ := h
            refine ⟨h1, fun q hq => ?_⟩
            obtain rfl := Option.some.inj (h0.symm.trans hq)
            exact UInt64.le_of_lt hlt
          · rename_i hle
            simp only [Option.some.injEq, Prod.mk.injEq] at h
            obtain ⟨rfl, rfl, rfl⟩ := h
            refine ⟨h0, fun q hq => ?_⟩
            obtain rfl := Option.some.inj (h1.symm.trans hq)
            exact UInt64.not_lt.mp hle

/-- The loaded header, part by part. -/
theorem loadMain_parts (raws : Nat → Bytes) (h : Header) :
    (loadMain aead raws h).main = ((bestMain aead raws).map (·.2.2)).getD h.main ∧
      (loadMain aead raws h).slot1 = h.slot1 ∧ (loadMain aead raws h).slot2 = h.slot2 ∧
      (loadMain aead raws h).seq = ((bestMain aead raws).map (·.1)).getD h.seq ∧
      (loadMain aead raws h).newestCopy = ((bestMain aead raws).map (·.2.1)).getD h.newestCopy := by
  rw [loadMain]
  cases hb : bestMain aead raws with
  | none => exact ⟨rfl, rfl, rfl, rfl, rfl⟩
  | some b =>
      obtain ⟨seq, copy, p⟩ := b
      have hp : p.length = 64 := length_of_mainOf aead (mainOf_of_bestMain aead hb).1
      refine ⟨?_, ?_, ?_, rfl, rfl⟩
      · exact Header.slice_put_same hp (by decide)
      · exact Header.slice_put_apart (by rw [hp]; decide) (by omega)
      · exact Header.slice_put_apart (by rw [hp]; decide) (by omega)

theorem loadSlot_parts (raws : Nat → Bytes) (h : Header) (copy piece : Nat) {start : Nat}
    (hs : start + 128 ≤ redbHeaderLen) :
    slice (loadSlot aead raws h (copy, piece, start)).bytes start 128 =
        (slotOf aead piece (raws copy)).getD (slice h.bytes start 128) ∧
      (∀ a n, a + n ≤ start ∨ start + 128 ≤ a →
        slice (loadSlot aead raws h (copy, piece, start)).bytes a n = slice h.bytes a n) ∧
      (loadSlot aead raws h (copy, piece, start)).seq = h.seq ∧
      (loadSlot aead raws h (copy, piece, start)).newestCopy = h.newestCopy := by
  simp only [loadSlot, slotOf]
  split
  · rename_i p hp
    have hl : (p.take 128).length = 128 := by
      have := length_of_readRaw aead hp
      rw [List.length_take]
      omega
    refine ⟨?_, fun a n ha => ?_, rfl, rfl⟩
    · exact Header.slice_put_same hl hs
    · exact Header.slice_put_apart (by rw [hl]; exact hs) (by rw [hl]; exact ha)
  · exact ⟨rfl, fun _ _ _ => rfl, rfl, rfl⟩

/-- `h` is what loading the raw pieces into a blank header gives, part by part. -/
structure Loads (raws : Nat → Bytes) (h : Header) : Prop where
  main : h.main = ((bestMain aead raws).map (·.2.2)).getD (zeros 64)
  seq : h.seq = ((bestMain aead raws).map (·.1)).getD 0
  newestCopy : h.newestCopy = ((bestMain aead raws).map (·.2.1)).getD 0
  slot1 : h.slot1 = (slotOf aead 1 (raws 2)).getD (zeros 128)
  slot2 : h.slot2 = (slotOf aead 2 (raws 3)).getD (zeros 128)

theorem loads_loadRaws (raws : Nat → Bytes) : Loads aead raws (loadRaws aead raws .blank) := by
  obtain ⟨hm, h1, h2, hs, hc⟩ := loadMain_parts aead raws .blank
  obtain ⟨s1, a1, q1, c1⟩ :=
    loadSlot_parts aead raws (loadMain aead raws .blank) 2 1 (show 64 + 128 ≤ _ by decide)
  obtain ⟨s2, a2, q2, c2⟩ :=
    loadSlot_parts aead raws (loadSlot aead raws (loadMain aead raws .blank) (2, 1, 64)) 3 2
      (show 192 + 128 ≤ _ by decide)
  refine ⟨?_, ?_, ?_, ?_, ?_⟩
  · exact (a2 0 64 (by omega)).trans ((a1 0 64 (by omega)).trans hm)
  · exact q2.trans (q1.trans hs)
  · exact c2.trans (c1.trans hc)
  · exact (a2 64 128 (by omega)).trans (s1.trans (congrArg _ h1))
  · exact s2.trans (congrArg _ ((a1 192 128 (by omega)).trans h2))

/-- The parts determine the loaded header. -/
theorem loadRaws_eq_iff {raws : Nat → Bytes} {h : Header} :
    loadRaws aead raws .blank = h ↔ Loads aead raws h := by
  refine ⟨fun e => e ▸ loads_loadRaws aead raws, fun hl => ?_⟩
  have hr := loads_loadRaws aead raws
  ext1
  · apply Header.bytes_eq_of_parts
    · rw [hr.main, hl.main]
    · rw [hr.slot1, hl.slot1]
    · rw [hr.slot2, hl.slot2]
  · rw [hr.seq, hl.seq]
  · rw [hr.newestCopy, hl.newestCopy]

/-! ## Reading back what the layer wrote -/

theorem take_setLen {f : Bytes} {n m : Nat} (hn : n ≤ f.length) (hm : n ≤ m) :
    (setLen f m).take n = f.take n :=
  slice_setLen (a := 0) (by omega) (by omega)

theorem plainLen_ge : 136 ≤ pieceLen - aead.overhead := by
  have := aead.overhead_le
  simp only [maxOverhead, pieceLen] at this ⊢
  omega

/-- A piece sealed from a slot's bytes gives them back. -/
theorem slotOf_writePiece {nonce : N} {copy piece : Nat} {h : Header} {slot : Bytes}
    (hs : piecePlain h piece (pieceLen - aead.overhead) = setLen slot (pieceLen - aead.overhead))
    (hl : slot.length = 128) :
    slotOf aead piece (writePiece aead nonce copy piece h).sealed = some slot := by
  have hp := plainLen_ge aead
  rw [slotOf, readRaw_writePiece, hs]
  refine congrArg some ?_
  rw [take_setLen hl.ge (by omega)]
  exact List.take_of_length_le hl.le

theorem slotOf_writePiece1 (nonce : N) (copy : Nat) (h : Header) :
    slotOf aead 1 (writePiece aead nonce copy 1 h).sealed = some h.slot1 :=
  slotOf_writePiece aead rfl h.length_slot1

theorem slotOf_writePiece2 (nonce : N) (copy : Nat) (h : Header) :
    slotOf aead 2 (writePiece aead nonce copy 2 h).sealed = some h.slot2 :=
  slotOf_writePiece aead rfl h.length_slot2

theorem mainOf_writePiece (nonce : N) (copy : Nat) (h : Header) :
    mainOf aead (writePiece aead nonce copy 0 h).sealed = some (h.seq, h.main) := by
  have hp := plainLen_ge aead
  have h8 : (leBytes 8 h.seq.toNat).length = 8 := length_leBytes _ _
  have hlen : (leBytes 8 h.seq.toNat ++ slice h.bytes 0 64).length = 72 := by
    rw [List.length_append, h8]
    exact congrArg (8 + ·) h.length_main
  rw [mainOf, readRaw_writePiece]
  refine congrArg some (Prod.ext ?_ ?_)
  · rw [piecePlain, take_setLen (by omega) (by omega), List.take_append_of_le_length h8.ge,
      List.take_of_length_le h8.le, leNat_leBytes_of_lt h.seq.toNat_lt]
    exact UInt64.ofNat_toNat
  · rw [piecePlain, slice_setLen (by omega) (by omega), slice_append_right h8.le, h8]
    exact slice_slice (by omega)

/-! ## The writes of one call -/

/-- The raw pieces after a piece write. -/
def PieceWrite.on (raws : Nat → Bytes) (w : PieceWrite) : Nat → Bytes :=
  Function.update raws w.copy w.sealed

/-- A write of a whole piece into the header area. -/
def PieceWrite.Fits (w : PieceWrite) : Prop := w.copy < 4 ∧ w.sealed.length = pieceLen

theorem pieceRaw_apply {file : Bytes} {w : PieceWrite} (hf : dataBase ≤ file.length) (hw : w.Fits) :
    pieceRaw (w.apply file) = w.on (pieceRaw file) :=
  pieceRaw_writeAt hf hw.1 hw.2

theorem length_apply {file : Bytes} {w : PieceWrite} (hf : dataBase ≤ file.length) (hw : w.Fits) :
    (w.apply file).length = file.length :=
  length_writeAt_piece hf hw.1 hw.2

/-- Piece writes change the four raw pieces and nothing else of the file. -/
theorem applyWrites_spec {file : Bytes} {ws : List PieceWrite} (hf : dataBase ≤ file.length)
    (hw : ∀ w ∈ ws, w.Fits) :
    pieceRaw (applyWrites file ws) = ws.foldl PieceWrite.on (pieceRaw file) ∧
      (applyWrites file ws).length = file.length ∧
      ∀ a n, dataBase ≤ a → slice (applyWrites file ws) a n = slice file a n := by
  induction ws generalizing file with
  | nil => exact ⟨rfl, rfl, fun _ _ _ => rfl⟩
  | cons w ws ih =>
      have hfit := hw w List.mem_cons_self
      have hlen := length_apply hf hfit
      obtain ⟨hr, hl, hs⟩ := ih (show dataBase ≤ (w.apply file).length from hlen ▸ hf)
        fun v hv => hw v (List.mem_cons_of_mem _ hv)
      refine ⟨?_, hl.trans hlen, fun a n ha => ?_⟩
      · rw [List.foldl_cons, ← pieceRaw_apply hf hfit]
        exact hr
      · exact (hs a n ha).trans (slice_writeAt_piece hf hfit.1 hfit.2 ha)

theorem writePiece_fits (nonce : N) {copy : Nat} (hc : copy < 4) (piece : Nat) (h : Header) :
    (writePiece aead nonce copy piece h).Fits :=
  ⟨hc, length_writePiece aead nonce copy piece h⟩

@[simp] theorem writePiece_on_same (nonce : N) (copy piece : Nat) (h : Header) (raws : Nat → Bytes) :
    (writePiece aead nonce copy piece h).on raws copy =
      (writePiece aead nonce copy piece h).sealed :=
  Function.update_self ..

theorem writePiece_on_ne (nonce : N) {copy c : Nat} (hc : c ≠ copy) (piece : Nat) (h : Header)
    (raws : Nat → Bytes) : (writePiece aead nonce copy piece h).on raws c = raws c :=
  Function.update_of_ne hc ..

theorem slotWrites_fits (nonce : Nat → N) (h h' : Header) :
    ∀ w ∈ slotWrites aead nonce h h', w.Fits := by
  intro w hw
  rcases List.mem_append.mp hw with hw | hw
  · split at hw
    · rw [List.mem_singleton.mp hw]
      exact writePiece_fits aead _ (by decide) _ _
    · cases hw
  · split at hw
    · rw [List.mem_singleton.mp hw]
      exact writePiece_fits aead _ (by decide) _ _
    · cases hw

@[simp] theorem written_seq (h : Header) (offset : Nat) (data : Bytes) :
    (h.written offset data).seq = h.seq := by
  rw [Header.written]
  split <;> rfl

@[simp] theorem written_newestCopy (h : Header) (offset : Nat) (data : Bytes) :
    (h.written offset data).newestCopy = h.newestCopy := by
  rw [Header.written]
  split <;> rfl

/-- Everything a call on a writable backend can do: refuse the data, write the slots that differ,
and then, when the main bytes differ, stop at the last sequence number or write them too. -/
theorem writeHeaderRange_cases {nonce : Nat → N} {h : Header} {offset : Nat} {data : Bytes}
    {ws : List PieceWrite} {out : Io Header}
    (hw : writeHeaderRange aead false nonce h offset data = (ws, out)) :
    (ws = [] ∧ out = .error (bad "write into the unused part of redb's header page")) ∨
    (h.main = (h.written offset data).main ∧
      ws = slotWrites aead nonce h (h.written offset data) ∧ out = .ok (h.written offset data)) ∨
    (ws = slotWrites aead nonce h (h.written offset data) ∧ out = .error .overflow) ∨
    (h.seq.toNat + 1 < 2 ^ 64 ∧
      ws = slotWrites aead nonce h (h.written offset data) ++
        [writePiece aead (nonce 2) (h.newestCopy ^^^ 1 : Fin 2) 0
          { h.written offset data with seq := h.seq + 1 }] ∧
      out = .ok { h.written offset data with seq := h.seq + 1, newestCopy := h.newestCopy ^^^ 1 }) := by
  rw [writeHeaderRange] at hw
  split at hw
  · cases hw
    exact Or.inl ⟨rfl, rfl⟩
  · refine Or.inr ?_
    simp only [Bool.false_eq_true, if_false, written_seq, written_newestCopy] at hw
    split at hw
    · refine Or.inr ?_
      split at hw
      · rename_i hseq
        cases hw
        exact Or.inr ⟨hseq, rfl, rfl⟩
      · cases hw
        exact Or.inl ⟨rfl, rfl⟩
    · rename_i hm
      cases hw
      exact Or.inl ⟨not_not.mp hm, rfl, rfl⟩

theorem writeHeaderRange_fits {nonce : Nat → N} {h : Header} {offset : Nat} {data : Bytes}
    {ws : List PieceWrite} {out : Io Header}
    (hw : writeHeaderRange aead false nonce h offset data = (ws, out)) : ∀ w ∈ ws, w.Fits := by
  rcases writeHeaderRange_cases aead hw with ⟨rfl, _⟩ | ⟨_, rfl, _⟩ | ⟨rfl, _⟩ | ⟨_, rfl, _⟩
  · exact fun _ => nofun
  · exact slotWrites_fits aead nonce _ _
  · exact slotWrites_fits aead nonce _ _
  · intro w hm
    rcases List.mem_append.mp hm with hm | hm
    · exact slotWrites_fits aead nonce _ _ w hm
    · rw [List.mem_singleton.mp hm]
      exact writePiece_fits aead _ ((h.newestCopy ^^^ 1).isLt.trans (by decide)) _ _

/-- What the writes of the commit slots do to the raw pieces: a slot that differs is replaced, the
main copies stay. -/
theorem slotWrites_on (raws : Nat → Bytes) (nonce : Nat → N) (h h' : Header) :
    slotOf aead 1 ((slotWrites aead nonce h h').foldl PieceWrite.on raws 2) =
        (if h.slot1 = h'.slot1 then slotOf aead 1 (raws 2) else some h'.slot1) ∧
      slotOf aead 2 ((slotWrites aead nonce h h').foldl PieceWrite.on raws 3) =
        (if h.slot2 = h'.slot2 then slotOf aead 2 (raws 3) else some h'.slot2) ∧
      (slotWrites aead nonce h h').foldl PieceWrite.on raws 0 = raws 0 ∧
      (slotWrites aead nonce h h').foldl PieceWrite.on raws 1 = raws 1 := by
  have w1 : (writePiece aead (nonce 0) 2 1 h').copy = 2 := rfl
  have w2 : (writePiece aead (nonce 1) 3 2 h').copy = 3 := rfl
  rw [slotWrites]
  by_cases d1 : h.slot1 = h'.slot1 <;> by_cases d2 : h.slot2 = h'.slot2
  all_goals simp [d1, d2, PieceWrite.on, w1, w2, slotOf_writePiece1, slotOf_writePiece2]

/-- Only the two main copies decide which is the best. -/
theorem bestMain_congr {raws raws' : Nat → Bytes} (h0 : raws' 0 = raws 0) (h1 : raws' 1 = raws 1) :
    bestMain aead raws' = bestMain aead raws := by
  rw [bestMain_eq, bestMain_eq, h0, h1]

theorem mainOf_of_bestMain_none {raws : Nat → Bytes} (h : bestMain aead raws = none) :
    mainOf aead (raws 0) = none := by
  rw [bestMain_eq] at h
  cases h0 : mainOf aead (raws 0) with
  | none => rfl
  | some a =>
      cases h1 : mainOf aead (raws 1) with
      | none => simp [h0, h1] at h
      | some b =>
          rw [h0, h1] at h
          dsimp only at h
          split at h <;> cases h

/-- The number a header holds is that of its own copy, when that copy opens. -/
theorem seq_of_newestCopy {raws : Nat → Bytes} {h : Header}
    (hseq : h.seq = ((bestMain aead raws).map (·.1)).getD 0)
    (hcopy : h.newestCopy = ((bestMain aead raws).map (·.2.1)).getD 0)
    {q : UInt64 × Bytes} (hq : mainOf aead (raws h.newestCopy) = some q) : q.1 = h.seq := by
  cases hb : bestMain aead raws with
  | none =>
      have hc : h.newestCopy = 0 := by rw [hcopy, hb]; rfl
      rw [hc] at hq
      exact absurd ((mainOf_of_bestMain_none aead hb).symm.trans hq) nofun
  | some b =>
      obtain ⟨seq, c, p⟩ := b
      have hc : h.newestCopy = c := by rw [hcopy, hb]; rfl
      have hs : h.seq = seq := by rw [hseq, hb]; rfl
      rw [hc, (mainOf_of_bestMain aead hb).1, Option.some.injEq] at hq
      rw [hs, ← hq]

theorem otherCopy_ne (c : Fin 2) : (c : Nat) ≠ (c ^^^ 1 : Fin 2) := by
  revert c
  decide

theorem otherCopy_lt_two (c : Fin 2) : ((c ^^^ 1 : Fin 2) : Nat) < 2 := (c ^^^ 1).isLt

theorem otherCopy_otherCopy (c : Fin 2) : (c ^^^ 1 ^^^ 1 : Fin 2) = c := by
  revert c
  decide

/-- Sealing a header with the next number into the other copy makes that copy the best. -/
theorem bestMain_writePiece {raws : Nat → Bytes} {h k : Header} (nonce : N)
    (hseq : h.seq = ((bestMain aead raws).map (·.1)).getD 0)
    (hcopy : h.newestCopy = ((bestMain aead raws).map (·.2.1)).getD 0) (hs : h.seq.toNat + 1 < 2 ^ 64) (hk : k.seq = h.seq + 1) :
    bestMain aead ((writePiece aead nonce (h.newestCopy ^^^ 1 : Fin 2) 0 k).on raws) =
      some (h.seq + 1, h.newestCopy ^^^ 1, k.main) := by
  have hlt : h.seq < h.seq + 1 := by
    rw [UInt64.lt_iff_toNat_lt, UInt64.toNat_add]
    simp only [UInt64.toNat_one]
    omega
  apply bestMain_of_newer
  · rw [writePiece_on_same, mainOf_writePiece, hk]
  · -- the copy the header came from is not touched
    intro q hq
    rw [otherCopy_otherCopy, writePiece_on_ne aead _ (otherCopy_ne _)] at hq
    exact seq_of_newestCopy aead hseq hcopy hq ▸ hlt

/-- A slot that was read as `old` is read as `new` once it is replaced where the two differ. -/
theorem slot_getD {old new zero : Bytes} {before after : Option Bytes} (hb : old = before.getD zero)
    (ha : after = if old = new then before else some new) : new = after.getD zero := by
  by_cases h : old = new
  · rw [ha, if_pos h, ← hb, h]
  · rw [ha, if_neg h, Option.getD_some]

/-- **A header call keeps memory and file together.** After a call that returned `Ok`, loading the
written file gives the header the call left in memory. -/
theorem writeHeaderRange_loads {raws : Nat → Bytes} {nonce : Nat → N} {h h' : Header} {offset : Nat}
    {data : Bytes} {ws : List PieceWrite} (hl : Loads aead raws h)
    (hw : writeHeaderRange aead false nonce h offset data = (ws, .ok h')) :
    Loads aead (ws.foldl PieceWrite.on raws) h' := by
  obtain ⟨e1, e2, e0, e1'⟩ := slotWrites_on aead raws nonce h (h.written offset data)
  have hb := bestMain_congr aead e0 e1'
  have h1 := slot_getD hl.slot1 e1
  have h2 := slot_getD hl.slot2 e2
  rcases writeHeaderRange_cases aead hw with ⟨_, ho⟩ | ⟨hm, rfl, ho⟩ | ⟨_, ho⟩ | ⟨hs, rfl, ho⟩
  · cases ho
  · cases ho
    refine ⟨?_, ?_, ?_, h1, h2⟩
    · rw [hb, ← hm, hl.main]
    · rw [hb, written_seq, hl.seq]
    · rw [hb, written_newestCopy, hl.newestCopy]
  · cases ho
  · cases ho
    rw [List.foldl_concat]
    have hbest := bestMain_writePiece aead (nonce 2) (hb ▸ hl.seq) (hb ▸ hl.newestCopy) hs
      (k := { h.written offset data with seq := h.seq + 1 }) rfl
    have h2ne := otherCopy_lt_two h.newestCopy
    refine ⟨?_, ?_, ?_, ?_, ?_⟩
    · rw [hbest]
      rfl
    · rw [hbest]
      rfl
    · rw [hbest]
      rfl
    · rw [writePiece_on_ne aead _ (by omega)]
      exact h1
    · rw [writePiece_on_ne aead _ (by omega)]
      exact h2

end

end CloveDb.Encrypted
