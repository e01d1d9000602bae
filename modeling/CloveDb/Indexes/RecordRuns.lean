/-
# CloveDb.Indexes.RecordRuns — decoding records, with the operations that can panic

`decode_reverse` of `indexes/worker.rs` and `Record::decode` of `indexes/trigram.rs` once more, nearer to the machine: the
cursor is cut with operations that panic outside the slice, `get_varint` shifts a `u64`, which panics from 64 on, and every
loop counts its rounds. A count of items comes from the record itself, so that a loop may be told to run 2^64 times; each
round takes a byte at least, or ends the run.

Each of these runs has the result of the plain decoder on every input and takes at most two rounds a byte. What is not in
it: memory that cannot be had, and the JSON of the older format (`older`).
-/
import CloveDb.Indexes.Maintain
import CloveDb.Indexes.TrigramStore
import CloveDb.Lib.Metered

namespace CloveDb.Indexes

open CloveDb.Lib CloveDb.Fields

abbrev Run (α : Type) := Metered ClError α

/-! ## Numbers -/

/-- The loop of `get_varint`, on a `u64`. -/
def getVarintRun : Nat → UInt64 → Bytes → Run (Nat × Bytes)
  | _, _, [] => do
      Metered.round
      Metered.fail (.validation "truncated reverse row")
  | shift, v, b :: rest => do
      Metered.round
      Metered.need (shift < 64)
      let v := v ||| ((b &&& 0x7f).toUInt64 <<< UInt64.ofNat shift)
      if b &&& 0x80 = 0 then return (v.toNat, rest)
      else if 63 < shift + 7 then Metered.fail (.validation "corrupt reverse row")
      else getVarintRun (shift + 7) v rest

/-- What a reader leaves of its budget. -/
def unread {α : Type} (p : α × Bytes) : Nat := 2 * p.2.length

theorem toNat_low (b : UInt8) : (b &&& 0x7f).toNat = b.toNat % 128 := by
  rw [UInt8.toNat_and]
  exact Nat.and_two_pow_sub_one_eq_mod b.toNat 7

theorem high_eq_zero (b : UInt8) : b &&& 0x80 = 0 ↔ b.toNat < 128 := by
  have hbits : ∀ n < 256, (n &&& 128 = 0 ↔ n < 128) := by decide +kernel
  rw [← UInt8.toNat_inj, UInt8.toNat_and]
  exact hbits b.toNat b.toNat_lt

/-- The bits of a byte are put above those read before. -/
theorem toNat_or_shift {v : UInt64} {shift : Nat} (b : UInt8) (hshift : shift < 64) (hv : v.toNat < 2 ^ shift) :
    (v ||| ((b &&& 0x7f).toUInt64 <<< UInt64.ofNat shift)).toNat = v.toNat + b.toNat % 128 * 2 ^ shift % 2 ^ 64 := by
  have hamount : (UInt64.ofNat shift).toNat % 64 = shift := by
    rw [UInt64.toNat_ofNat']
    omega
  have hsplit : b.toNat % 128 * 2 ^ shift % 2 ^ 64 = 2 ^ shift * (b.toNat % 128 % 2 ^ (64 - shift)) := by
    rw [show (2 : Nat) ^ 64 = 2 ^ shift * 2 ^ (64 - shift) by rw [← pow_add]; congr 1; omega, Nat.mul_comm,
      Nat.mul_mod_mul_left]
  rw [UInt64.toNat_or, UInt64.toNat_shiftLeft, UInt8.toNat_toUInt64, toNat_low, hamount, Nat.shiftLeft_eq, hsplit,
    Nat.or_comm, ← Nat.two_pow_add_eq_or_of_lt hv, Nat.add_comm]

theorem getVarintRun_loop (shift : Nat) (v : UInt64) (bytes : Bytes) (hshift : shift < 64) (hv : v.toNat < 2 ^ shift) :
    (getVarintRun shift v bytes).Within 2 1 (2 * bytes.length) unread (getVarintLoop shift v.toNat bytes) := by
  induction bytes generalizing shift v with
  | nil =>
      rw [getVarintRun, getVarintLoop]
      refine .round (.fail ?_)
      simp
  | cons b rest ih =>
      have hvalue := toNat_or_shift b hshift hv
      rw [getVarintRun, getVarintLoop]
      refine .round (.need hshift ?_)
      dsimp only
      by_cases hlast : b.toNat < 128
      · rw [if_pos ((high_eq_zero b).mpr hlast), if_pos hlast, ← hvalue]
        refine .ret ?_
        simp only [unread, List.length_cons]
        omega
      · rw [if_neg (fun h => hlast ((high_eq_zero b).mp h)), if_neg hlast]
        by_cases hlong : 63 < shift + 7
        · rw [if_pos hlong, if_pos hlong]
          refine .fail ?_
          simp only [List.length_cons]
          omega
        · rw [if_neg hlong, if_neg hlong, ← hvalue]
          have hnext : (v ||| ((b &&& 0x7f).toUInt64 <<< UInt64.ofNat shift)).toNat < 2 ^ (shift + 7) := by
            have hmod : b.toNat % 128 * 2 ^ shift % 2 ^ 64 ≤ b.toNat % 128 * 2 ^ shift := Nat.mod_le _ _
            have hlow : b.toNat % 128 * 2 ^ shift ≤ 127 * 2 ^ shift := Nat.mul_le_mul_right _ (by omega)
            rw [hvalue, pow_add]
            omega
          refine (ih (shift + 7) _ (by omega) hnext).mono ?_
          simp only [List.length_cons]
          omega

/-- `get_varint` does not panic, and takes a round for each byte it reads. -/
theorem getVarintRun_within (bytes : Bytes) :
    (getVarintRun 0 0 bytes).Within 2 1 (2 * bytes.length) unread (getVarint bytes) :=
  getVarintRun_loop 0 0 bytes (by decide) (by decide)

/-! ## Pieces of a record -/

/-- `get_bytes` -/
def getBytesRun (bytes : Bytes) : Run (Bytes × Bytes) := do
  let (n, rest) ← getVarintRun 0 0 bytes
  if rest.length < n then Metered.fail (.validation "truncated reverse row")
  else
    Metered.need (n ≤ rest.length)
    return (rest.take n, rest.drop n)

/-- So many items, one in each round. -/
def getItemsRun {α : Type} (item : Bytes → Run (α × Bytes)) : Nat → Bytes → Run (List α × Bytes)
  | 0, bytes => return ([], bytes)
  | n + 1, bytes => do
      Metered.round
      let (a, rest) ← item bytes
      let (as, rest) ← getItemsRun item n rest
      return (a :: as, rest)

def getKeyRun (suffix : Bytes) : Bytes → Run (Bytes × Bytes)
  | [] => Metered.fail (.validation "truncated reverse row")
  | own :: bytes => do
      let (key, rest) ← getBytesRun bytes
      return (if own = 1 then key ++ suffix else key, rest)

def getTermRun (bytes : Bytes) : Run (String × Bytes) := do
  let (text, rest) ← getBytesRun bytes
  match fromUtf8 text with
  | some t => return (t, rest)
  | none => Metered.lift corruptReverse

/-- One of the six counters. -/
def getCounterRun (bytes : Bytes) : Run (Nat × Bytes) := do
  Metered.round
  getVarintRun 0 0 bytes

def getStatsRun (row : String) (bytes : Bytes) : Run (Option RowStats) := do
  if bytes.head? = some 1 then
    Metered.need (1 ≤ bytes.length)
    let (missing, bytes) ← getCounterRun (bytes.drop 1)
    let (nulls, bytes) ← getCounterRun bytes
    let (fanout, bytes) ← getCounterRun bytes
    let (json, bytes) ← getCounterRun bytes
    let (keys, bytes) ← getCounterRun bytes
    let (unorderable, _) ← getCounterRun bytes
    return some ⟨row, missing, nulls, fanout, json, keys, [], unorderable⟩
  else return none

theorem getBytesRun_within (bytes : Bytes) :
    (getBytesRun bytes).Within 2 1 (2 * bytes.length) unread (getBytes bytes) := by
  unfold getBytesRun getBytes
  refine (getVarintRun_within bytes).bind ?_
  rintro ⟨n, rest⟩ -
  dsimp only
  by_cases hshort : rest.length < n
  · rw [if_pos hshort, if_pos hshort]
    exact .fail (by omega)
  · rw [if_neg hshort, if_neg hshort]
    refine .need (Nat.not_lt.mp hshort) (.ret ?_)
    simp only [unread, List.length_drop]
    omega

theorem getItemsRun_within {α : Type} {item : Bytes → Run (α × Bytes)} {plain : Bytes → Result (α × Bytes)}
    (h : ∀ bytes, (item bytes).Within 2 1 (2 * bytes.length) unread (plain bytes)) (n : Nat) (bytes : Bytes) :
    (getItemsRun item n bytes).Within 2 0 (2 * bytes.length) unread (getItems plain n bytes) := by
  induction n generalizing bytes with
  | zero => exact .ret (by simp only [unread]; omega)
  | succ n ih =>
      rw [getItemsRun, getItems]
      refine .round ((h bytes).bind ?_)
      rintro ⟨a, rest⟩ -
      refine (ih rest).bind ?_
      rintro ⟨as, rest'⟩ -
      exact .ret (by simp only [unread]; omega)

theorem getKeyRun_within (suffix bytes : Bytes) :
    (getKeyRun suffix bytes).Within 2 1 (2 * bytes.length) unread (getKey suffix bytes) := by
  cases bytes with
  | nil => exact .fail (by simp)
  | cons own bytes =>
      rw [getKeyRun, getKey]
      have hbytes : (getBytesRun bytes).Within 2 1 (2 * (own :: bytes).length) unread (getBytes bytes) :=
        (getBytesRun_within bytes).mono (by simp only [List.length_cons]; omega)
      refine hbytes.bind ?_
      rintro ⟨key, rest⟩ -
      exact .ret (by simp only [unread]; omega)

theorem getTermRun_within (bytes : Bytes) :
    (getTermRun bytes).Within 2 1 (2 * bytes.length) unread (getTerm bytes) := by
  unfold getTermRun getTerm
  refine (getBytesRun_within bytes).bind ?_
  rintro ⟨text, rest⟩ -
  dsimp only
  cases fromUtf8 text with
  | none => exact .fail (by omega)
  | some t => exact .ret (by simp only [unread]; omega)

theorem getCounterRun_within (bytes : Bytes) :
    (getCounterRun bytes).Within 2 0 (2 * bytes.length) unread (getVarint bytes) :=
  .round (getVarintRun_within bytes)

theorem getStatsRun_within (row : String) (bytes : Bytes) :
    (getStatsRun row bytes).Within 2 0 (2 * bytes.length) (fun _ => 0) (getStats row bytes) := by
  by_cases hhead : bytes.head? = some 1
  · obtain ⟨rest, rfl⟩ := List.head?_eq_some_iff.mp hhead
    rw [getStatsRun, if_pos hhead, getStats]
    refine .need (by simp) ?_
    have hfirst : (getCounterRun rest).Within 2 0 (2 * (1 :: rest).length) unread (getVarint rest) :=
      (getCounterRun_within rest).mono (by simp only [List.length_cons]; omega)
    refine hfirst.bind ?_
    rintro ⟨missing, bytes⟩ -
    refine (getCounterRun_within bytes).bind ?_
    rintro ⟨nulls, bytes⟩ -
    refine (getCounterRun_within bytes).bind ?_
    rintro ⟨fanout, bytes⟩ -
    refine (getCounterRun_within bytes).bind ?_
    rintro ⟨json, bytes⟩ -
    refine (getCounterRun_within bytes).bind ?_
    rintro ⟨keys, bytes⟩ -
    refine (getCounterRun_within bytes).bind ?_
    rintro ⟨unorderable, bytes⟩ -
    exact .ret (by omega)
  · have hplain : getStats row bytes = .ok none := by
      unfold getStats
      split
      · exact absurd rfl hhead
      · rfl
    rw [getStatsRun, if_neg hhead, hplain]
    exact .ret (by omega)

/-! ## The two decoders -/

section

variable (tools : Query.Tools)

/-- `decode_reverse` -/
def decodeReverseRun (older : Bytes → Result Reverse) (row : String) (bytes : Bytes) : Run Reverse := do
  if bytes.head? = some 2 then
    let suffix ← Metered.lift (rowSuffix tools row)
    Metered.need (1 ≤ bytes.length)
    let (n, bytes) ← getVarintRun 0 0 (bytes.drop 1)
    let (keys, bytes) ← getItemsRun (getKeyRun suffix) n bytes
    let (t, bytes) ← getVarintRun 0 0 bytes
    let (terms, bytes) ← getItemsRun getTermRun t bytes
    let stats ← getStatsRun row bytes
    return ⟨keys, terms, stats⟩
  else Metered.lift (older bytes)

theorem getVarintRun_within' (bytes : Bytes) :
    (getVarintRun 0 0 bytes).Within 2 0 (2 * bytes.length) unread (getVarint bytes) :=
  (getVarintRun_within bytes).mono (by omega)

theorem decodeReverseRun_within (older : Bytes → Result Reverse) (row : String) (bytes : Bytes) :
    (decodeReverseRun tools older row bytes).Within 2 0 (2 * bytes.length) (fun _ => 0)
      (decodeReverse tools older row bytes) := by
  by_cases hhead : bytes.head? = some 2
  · obtain ⟨rest, rfl⟩ := List.head?_eq_some_iff.mp hhead
    rw [decodeReverseRun, if_pos hhead, decodeReverse]
    have hsuffix : (Metered.lift (rowSuffix tools row)).Within 2 0 (2 * (2 :: rest).length)
        (fun _ => 2 * (2 :: rest).length) (rowSuffix tools row) :=
      .lift (fun _ _ => by omega) (by omega)
    refine hsuffix.bind ?_
    intro suffix _
    refine .need (by simp) ?_
    have hcount : (getVarintRun 0 0 rest).Within 2 0 (2 * (2 :: rest).length) unread (getVarint rest) :=
      (getVarintRun_within' rest).mono (by simp only [List.length_cons]; omega)
    refine hcount.bind ?_
    rintro ⟨n, bytes⟩ -
    refine (getItemsRun_within (getKeyRun_within suffix) n bytes).bind ?_
    rintro ⟨keys, bytes⟩ -
    refine (getVarintRun_within' bytes).bind ?_
    rintro ⟨t, bytes⟩ -
    refine (getItemsRun_within getTermRun_within t bytes).bind ?_
    rintro ⟨terms, bytes⟩ -
    refine (getStatsRun_within row bytes).bind ?_
    intro stats _
    exact .ret (by omega)
  · have hplain : decodeReverse tools older row bytes = older bytes := by
      unfold decodeReverse
      split
      · exact absurd rfl hhead
      · rfl
    rw [decodeReverseRun, if_neg hhead, hplain]
    exact .lift (fun _ _ => by omega) (by omega)

end

namespace Trigram

/-- The first number is stored as it is, the others by their distance (`checked_add`). -/
def nextTri (first : Bool) (last d : Nat) : Result Nat :=
  if first then .ok d else if 2 ^ 32 ≤ last + d then corrupt else .ok (last + d)

/-- The loop of `Record::decode`. -/
def decodeTrisRun : Nat → Bool → Nat → Bytes → Run (List Nat)
  | 0, _, _, _ => return []
  | n + 1, first, last, bytes => do
      Metered.round
      let (d, rest) ← getVarintRun 0 0 bytes
      if 2 ^ 32 ≤ d then Metered.lift corrupt
      else
        let last ← Metered.lift (nextTri first last d)
        let ts ← decodeTrisRun n false last rest
        return last :: ts

/-- `Record::decode` -/
def Record.decodeRun (bytes : Bytes) : Run Record := do
  if bytes.head? = some 3 then
    Metered.need (1 ≤ bytes.length)
    let (id, bytes) ← getVarintRun 0 0 (bytes.drop 1)
    match bytes with
    | [] => Metered.lift corrupt
    | flags :: bytes =>
        let (fanout, bytes) ← getVarintRun 0 0 bytes
        let (json, bytes) ← getVarintRun 0 0 bytes
        let (n, bytes) ← getVarintRun 0 0 bytes
        let tris ← decodeTrisRun n true 0 bytes
        return ⟨id, tris, flags, fanout, json⟩
  else Metered.lift corrupt

theorem decodeTrisRun_within (n : Nat) (first : Bool) (last : Nat) (bytes : Bytes) (hfirst : first = true → last = 0) :
    (decodeTrisRun n first last bytes).Within 2 0 (2 * bytes.length) (fun _ => 0) (decodeTris n last bytes) := by
  induction n generalizing first last bytes with
  | zero => exact .ret (by omega)
  | succ n ih =>
      rw [decodeTrisRun, decodeTris]
      refine .round ((getVarintRun_within bytes).bind ?_)
      rintro ⟨d, rest⟩ -
      dsimp only
      by_cases hd : 2 ^ 32 ≤ d
      · rw [if_pos hd, if_pos (by omega)]
        exact .fail (by omega)
      · rw [if_neg hd]
        have hnext : (Metered.lift (nextTri first last d)).Within 2 0 (unread (d, rest)) (fun _ => 2 * rest.length)
            (nextTri first last d) :=
          .lift (fun _ _ => by simp only [unread]; omega) (by omega)
        have hplain : (if 2 ^ 32 ≤ last + d then corrupt else (do
            let ts ← decodeTris n (last + d) rest
            return (last + d) :: ts)) = (nextTri first last d >>= fun next => (do
            let ts ← decodeTris n next rest
            return next :: ts)) := by
          cases first with
          | true => rw [hfirst rfl, Nat.zero_add, if_neg hd]; rfl
          | false =>
              unfold nextTri
              rw [if_neg Bool.false_ne_true]
              split
              · rfl
              · rfl
        rw [hplain]
        refine hnext.bind ?_
        intro next _
        refine (ih false next rest fun h => absurd h Bool.false_ne_true).bind ?_
        intro ts _
        exact .ret (by omega)

theorem Record.decodeRun_within (bytes : Bytes) :
    (Record.decodeRun bytes).Within 2 0 (2 * bytes.length) (fun _ => 0) (Record.decode bytes) := by
  by_cases hhead : bytes.head? = some 3
  · obtain ⟨rest, rfl⟩ := List.head?_eq_some_iff.mp hhead
    rw [Record.decodeRun, if_pos hhead, Record.decode]
    refine .need (by simp) ?_
    have hid : (getVarintRun 0 0 rest).Within 2 0 (2 * (3 :: rest).length) unread (getVarint rest) :=
      (getVarintRun_within' rest).mono (by simp only [List.length_cons]; omega)
    refine hid.bind ?_
    rintro ⟨id, bytes⟩ -
    cases bytes with
    | nil => exact .fail (by omega)
    | cons flags bytes =>
        have hfanout : (getVarintRun 0 0 bytes).Within 2 0 (unread (id, flags :: bytes)) unread (getVarint bytes) :=
          (getVarintRun_within' bytes).mono (by simp only [unread, List.length_cons]; omega)
        refine hfanout.bind ?_
        rintro ⟨fanout, bytes⟩ -
        refine (getVarintRun_within' bytes).bind ?_
        rintro ⟨json, bytes⟩ -
        refine (getVarintRun_within' bytes).bind ?_
        rintro ⟨n, bytes⟩ -
        refine (decodeTrisRun_within n true 0 bytes fun _ => rfl).bind ?_
        intro tris _
        exact .ret (by omega)
  · have hplain : Record.decode bytes = corrupt := by
      unfold Record.decode
      split
      · exact absurd rfl hhead
      · rfl
    rw [Record.decodeRun, if_neg hhead, hplain]
    exact .fail (by omega)

end Trigram

/-- **Reverse records are read back, and no bytes stop a decoder.** A record of any row is decoded to its keys, terms and
counters; a trigram record to itself; a number takes exactly its own bytes. On every byte string both decoders return what
the plain decoder returns, without a panic and with at most two rounds a byte. -/
theorem reverse_records_read_back (tools : Query.Tools) (older : Bytes → Result Reverse) :
    (∀ (row : String) (r : Reverse), r.Fits → ∃ bytes, encodeReverse tools row r = .ok bytes ∧
      decodeReverse tools older row bytes = .ok (r.stored row)) ∧
    (∀ r : Trigram.Record, r.Fits → Trigram.Record.decode r.encode = .ok r) ∧
    (∀ (v : Nat) (rest : Bytes), v < 2 ^ 64 → getVarint (putVarint v ++ rest) = .ok (v, rest)) ∧
    (∀ (row : String) (bytes : Bytes),
      (decodeReverseRun tools older row bytes).result = some (decodeReverse tools older row bytes) ∧
      (decodeReverseRun tools older row bytes).rounds ≤ 2 * bytes.length + 2) ∧
    ∀ bytes : Bytes, (Trigram.Record.decodeRun bytes).result = some (Trigram.Record.decode bytes) ∧
      (Trigram.Record.decodeRun bytes).rounds ≤ 2 * bytes.length + 2 := by
  refine ⟨?_, fun r => Trigram.Record.decode_encode_fits, fun v rest hv => getVarint_putVarint hv rest, ?_, ?_⟩
  · intro row r hr
    exact ⟨_, rfl, decodeReverse_encodeReverse tools older row hr rfl⟩
  · intro row bytes
    have hrun := decodeReverseRun_within tools older row bytes
    exact ⟨hrun.result, hrun.rounds_le⟩
  · intro bytes
    have hrun := Trigram.Record.decodeRun_within bytes
    exact ⟨hrun.result, hrun.rounds_le⟩

namespace Sample

/-- A key that ends with the suffix of row `r`, one that does not, a term, and counters. -/
def reverse : Reverse := ⟨[[3, 7, 114, 0, 0], [9]], ["a"], some ⟨"", 1, 0, 300, 2, 5, [], 0⟩⟩

def trigrams : Trigram.Record := ⟨300, [4, 4, 70000], 5, 1, 2⟩

end Sample

theorem reverse_records_read_back_sample :
    Sample.reverse.Fits ∧ (∃ bytes, encodeReverse (Query.Tools.listed []) "r" Sample.reverse = .ok bytes ∧
      decodeReverse (Query.Tools.listed []) (fun _ => corruptReverse) "r" bytes = .ok (Sample.reverse.stored "r")) ∧
    Trigram.Record.decode Sample.trigrams.encode = .ok Sample.trigrams := by
  have hfits : Sample.reverse.Fits := by
    refine ⟨by decide, by decide, by decide, by decide, ?_⟩
    intro s hs
    cases hs
    decide
  have htrigrams : Sample.trigrams.Fits :=
    ⟨by decide, by decide, by decide, by decide, by decide, by decide⟩
  obtain ⟨hreverse, hrecord, -⟩ := reverse_records_read_back (Query.Tools.listed []) fun _ => corruptReverse
  exact ⟨hfits, hreverse "r" Sample.reverse hfits, hrecord Sample.trigrams htrigrams⟩

end CloveDb.Indexes
