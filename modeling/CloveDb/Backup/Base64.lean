/-
# CloveDb.Backup.Base64 — payloads that are not JSON

A payload that is no JSON value goes into its record as base64 (`backup/codec.rs`, `encode_base64` and `decode_base64`).
The encoder takes three bytes at a time; the decoder takes four digits at a time and refuses padding that is not last or
that hides bits. What the encoder writes is read back byte for byte.
-/
import CloveDb.Lib.Bytes
import CloveDb.Units

namespace CloveDb.Backup

open CloveDb.Lib

/-- `ALPHABET`. -/
def alphabet : Bytes :=
  "ABCDEFGHIJKLMNOPQRSTUVWXYZabcdefghijklmnopqrstuvwxyz0123456789+/".toList.map fun c => UInt8.ofNat c.toNat

/-- `ALPHABET[i]`. -/
def letter (i : UInt8) : UInt8 := alphabet.getD i.toNat 0

/-- The byte of `=`. -/
def padByte : UInt8 := 61

/-- The four digits of a chunk of one, two or three bytes. -/
def encodeChunk (a : UInt8) (b c : Option UInt8) : Bytes :=
  let b0 := b.getD 0
  let c0 := c.getD 0
  [letter (a >>> 2), letter (((a &&& 3) <<< 4) ||| (b0 >>> 4)),
    if b.isSome then letter (((b0 &&& 15) <<< 2) ||| (c0 >>> 6)) else padByte,
    if c.isSome then letter (c0 &&& 63) else padByte]

/-- The digits of all chunks. -/
def encodeDigits : Bytes → Bytes
  | [] => []
  | [a] => encodeChunk a none none
  | [a, b] => encodeChunk a (some b) none
  | a :: b :: c :: rest => encodeChunk a (some b) (some c) ++ encodeDigits rest

/-- `encode_base64`; running out of memory is left out. -/
def encodeBase64 (bytes : Bytes) : String := String.ofList ((encodeDigits bytes).map fun d => Char.ofNat d.toNat)

/-- `invalid`. -/
def invalid (reason : String) : ClError := .backupNormalizeFailed reason

/-- The place of a digit in the alphabet. -/
def digit (d : UInt8) : Result UInt8 :=
  match alphabet.findIdx? (· == d) with
  | some i => .ok (UInt8.ofNat i)
  | none => .error (invalid "invalid base64 digit")

/-- One turn of the decoder's loop: four digits, and whether they are the last. -/
def decodeChunk (last : Bool) (c0 c1 c2 c3 : UInt8) : Result Bytes := do
  let a ← digit c0
  let b ← digit c1
  if c2 == padByte then
    if !last || c3 != padByte || b &&& 15 != 0 then .error (invalid "invalid base64 padding")
    else .ok [(a <<< 2) ||| (b >>> 4)]
  else do
    let d ← digit c2
    if c3 == padByte then
      if !last || d &&& 3 != 0 then .error (invalid "invalid base64 padding")
      else .ok [(a <<< 2) ||| (b >>> 4), (b <<< 4) ||| (d >>> 2)]
    else do
      let e ← digit c3
      .ok [(a <<< 2) ||| (b >>> 4), (b <<< 4) ||| (d >>> 2), (d <<< 6) ||| e]

def decodeDigits : Bytes → Result Bytes
  | c0 :: c1 :: c2 :: c3 :: rest => do
      let out ← decodeChunk rest.isEmpty c0 c1 c2 c3
      let more ← decodeDigits rest
      .ok (out ++ more)
  | _ => .ok []

/-- `decode_base64`. -/
def decodeBase64 (text : String) : Result Bytes :=
  if (utf8 text).length % 4 ≠ 0 then .error (invalid "invalid base64 length") else decodeDigits (utf8 text)

/-! ## Six bits and their letter -/

theorem letter_facts : ∀ i : Fin 64, digit (letter (UInt8.ofNat i)) = .ok (UInt8.ofNat i) ∧
    letter (UInt8.ofNat i) ≠ padByte ∧ letter (UInt8.ofNat i) < 128 := by
  decide

/-- A letter is a digit, and its place is what it was written for. -/
theorem letter_spec {i : UInt8} (h : i < 64) :
    digit (letter i) = .ok i ∧ letter i ≠ padByte ∧ letter i < 128 := by
  simpa using letter_facts ⟨i.toNat, UInt8.lt_iff_toNat_lt.mp h⟩

/-- A digit is the letter of its place. -/
theorem letter_digit {d i : UInt8} (h : digit d = .ok i) : i < 64 ∧ letter i = d := by
  unfold digit at h
  split at h
  next n hn =>
    obtain ⟨hlt, hbeq, -⟩ := List.findIdx?_eq_some_iff_getElem.mp hn
    have hlt64 : n < 64 := hlt
    have hsmall : (UInt8.ofNat n).toNat = n := by
      rw [UInt8.toNat_ofNat']
      omega
    obtain rfl := Except.ok.inj h
    refine ⟨UInt8.lt_iff_toNat_lt.mpr (by rw [hsmall]; exact hlt64), ?_⟩
    rw [letter, hsmall, List.getD_eq_getElem?_getD, List.getElem?_eq_getElem hlt, Option.getD_some]
    exact eq_of_beq hbeq
  next => exact absurd h (by simp)

/-- What a byte leaves of itself on each side of a cut after `6`, `4` or `2` bits. -/
theorem halves (b : UInt8) :
    b >>> 2 < 64 ∧ b &&& 3 < 4 ∧ b >>> 4 < 16 ∧ b &&& 15 < 16 ∧ b >>> 6 < 4 ∧ b &&& 63 < 64 ∧
      ((b >>> 2) <<< 2) ||| (b &&& 3) = b ∧ ((b >>> 4) <<< 4) ||| (b &&& 15) = b ∧
      ((b >>> 6) <<< 6) ||| (b &&& 63) = b :=
  forall_byte (P := fun b => b >>> 2 < 64 ∧ b &&& 3 < 4 ∧ b >>> 4 < 16 ∧ b &&& 15 < 16 ∧ b >>> 6 < 4 ∧ b &&& 63 < 64 ∧
      ((b >>> 2) <<< 2) ||| (b &&& 3) = b ∧ ((b >>> 4) <<< 4) ||| (b &&& 15) = b ∧
      ((b >>> 6) <<< 6) ||| (b &&& 63) = b) (by decide +kernel) b

theorem joined_two_four_facts : ∀ (p : Fin 4) (q : Fin 16),
    let j : UInt8 := ((UInt8.ofNat p) <<< 4) ||| UInt8.ofNat q
    j < 64 ∧ j >>> 4 = UInt8.ofNat p ∧ j <<< 4 = (UInt8.ofNat q) <<< 4 ∧ j &&& 15 = UInt8.ofNat q := by
  decide

/-- Two bits before four: the second digit. -/
theorem joined_two_four {p q : UInt8} (hp : p < 4) (hq : q < 16) :
    (p <<< 4) ||| q < 64 ∧ ((p <<< 4) ||| q) >>> 4 = p ∧ ((p <<< 4) ||| q) <<< 4 = q <<< 4 ∧
      ((p <<< 4) ||| q) &&& 15 = q := by
  simpa using joined_two_four_facts ⟨p.toNat, UInt8.lt_iff_toNat_lt.mp hp⟩ ⟨q.toNat, UInt8.lt_iff_toNat_lt.mp hq⟩

theorem joined_four_two_facts : ∀ (p : Fin 16) (q : Fin 4),
    let j : UInt8 := ((UInt8.ofNat p) <<< 2) ||| UInt8.ofNat q
    j < 64 ∧ j >>> 2 = UInt8.ofNat p ∧ j <<< 6 = (UInt8.ofNat q) <<< 6 ∧ j &&& 3 = UInt8.ofNat q := by
  decide

/-- Four bits before two: the third digit. -/
theorem joined_four_two {p q : UInt8} (hp : p < 16) (hq : q < 4) :
    (p <<< 2) ||| q < 64 ∧ ((p <<< 2) ||| q) >>> 2 = p ∧ ((p <<< 2) ||| q) <<< 6 = q <<< 6 ∧
      ((p <<< 2) ||| q) &&& 3 = q := by
  simpa using joined_four_two_facts ⟨p.toNat, UInt8.lt_iff_toNat_lt.mp hp⟩ ⟨q.toNat, UInt8.lt_iff_toNat_lt.mp hq⟩

theorem split_facts :
    (∀ (p : Fin 64) (q : Fin 4), let j : UInt8 := ((UInt8.ofNat p) <<< 2) ||| UInt8.ofNat q
      j >>> 2 = UInt8.ofNat p ∧ j &&& 3 = UInt8.ofNat q) ∧
    (∀ p q : Fin 16, let j : UInt8 := ((UInt8.ofNat p) <<< 4) ||| UInt8.ofNat q
      j >>> 4 = UInt8.ofNat p ∧ j &&& 15 = UInt8.ofNat q) ∧
    ∀ (p : Fin 4) (q : Fin 64), let j : UInt8 := ((UInt8.ofNat p) <<< 6) ||| UInt8.ofNat q
      j >>> 6 = UInt8.ofNat p ∧ j &&& 63 = UInt8.ofNat q := by
  decide

theorem digit_halves_facts : ∀ n : Fin 64, let b := UInt8.ofNat n
    b >>> 4 < 4 ∧ b >>> 2 < 16 ∧ b <<< 4 = (b &&& 15) <<< 4 ∧ b <<< 6 = (b &&& 3) <<< 6 := by
  decide

/-- What a digit gives to the bytes on each side of it. -/
theorem digit_halves {b : UInt8} (h : b < 64) :
    b >>> 4 < 4 ∧ b >>> 2 < 16 ∧ b <<< 4 = (b &&& 15) <<< 4 ∧ b <<< 6 = (b &&& 3) <<< 6 := by
  simpa using digit_halves_facts ⟨b.toNat, UInt8.lt_iff_toNat_lt.mp h⟩

/-! ## Chunks -/

/-- The first byte, from the first two digits. -/
theorem first_byte (a b : UInt8) : ((a >>> 2) <<< 2) ||| ((((a &&& 3) <<< 4) ||| (b >>> 4)) >>> 4) = a := by
  obtain ⟨-, hlow, -, -, -, -, hwhole, -, -⟩ := halves a
  obtain ⟨-, -, hhigh, -⟩ := halves b
  rw [(joined_two_four hlow hhigh).2.1, hwhole]

/-- The second byte, from the second and third digits. -/
theorem second_byte (a b c : UInt8) :
    ((((a &&& 3) <<< 4) ||| (b >>> 4)) <<< 4) ||| ((((b &&& 15) <<< 2) ||| (c >>> 6)) >>> 2) = b := by
  obtain ⟨-, hlow, -⟩ := halves a
  obtain ⟨-, -, hhigh, hlow', -, -, -, hwhole, -⟩ := halves b
  obtain ⟨-, -, -, -, hhigh', -⟩ := halves c
  rw [(joined_two_four hlow hhigh).2.2.1, (joined_four_two hlow' hhigh').2.1, hwhole]

/-- The third byte, from the last two digits. -/
theorem third_byte (b c : UInt8) : ((((b &&& 15) <<< 2) ||| (c >>> 6)) <<< 6) ||| (c &&& 63) = c := by
  obtain ⟨-, -, -, hlow, -⟩ := halves b
  obtain ⟨-, -, -, -, hhigh, -, -, -, hwhole⟩ := halves c
  rw [(joined_four_two hlow hhigh).2.2.1, hwhole]

/-- The digits a chunk is written with are places in the alphabet. -/
theorem chunk_lt (a b c : UInt8) : a >>> 2 < 64 ∧ ((a &&& 3) <<< 4) ||| (b >>> 4) < 64 ∧
    ((b &&& 15) <<< 2) ||| (c >>> 6) < 64 ∧ c &&& 63 < 64 := by
  obtain ⟨h1, hlow, -⟩ := halves a
  obtain ⟨-, -, hhigh, hlow', -⟩ := halves b
  obtain ⟨-, -, -, -, hhigh', h4, -⟩ := halves c
  exact ⟨h1, (joined_two_four hlow hhigh).1, (joined_four_two hlow' hhigh').1, h4⟩

theorem decodeChunk_three (last : Bool) (a b c : UInt8) :
    decodeChunk last (letter (a >>> 2)) (letter (((a &&& 3) <<< 4) ||| (b >>> 4)))
      (letter (((b &&& 15) <<< 2) ||| (c >>> 6))) (letter (c &&& 63)) = .ok [a, b, c] := by
  obtain ⟨h1, h2, h3, h4⟩ := chunk_lt a b c
  obtain ⟨hd3, hp3, -⟩ := letter_spec h3
  obtain ⟨hd4, hp4, -⟩ := letter_spec h4
  simp only [decodeChunk, (letter_spec h1).1, (letter_spec h2).1, hd3, hd4, ok_bind, beq_iff_eq, hp3, hp4, if_false,
    first_byte, second_byte, third_byte]

theorem decodeChunk_two (a b : UInt8) :
    decodeChunk true (letter (a >>> 2)) (letter (((a &&& 3) <<< 4) ||| (b >>> 4)))
      (letter (((b &&& 15) <<< 2) ||| ((0 : UInt8) >>> 6))) padByte = .ok [a, b] := by
  obtain ⟨h1, h2, h3, -⟩ := chunk_lt a b 0
  obtain ⟨hd3, hp3, -⟩ := letter_spec h3
  obtain ⟨-, -, -, hlow, -⟩ := halves b
  -- the two bits the padding stands for are those of the missing byte
  have hbits : (((b &&& 15) <<< 2) ||| ((0 : UInt8) >>> 6)) &&& 3 = 0 := (joined_four_two hlow (by decide)).2.2.2
  simp only [decodeChunk, (letter_spec h1).1, (letter_spec h2).1, hd3, ok_bind, beq_iff_eq, hp3, if_false, if_true,
    first_byte, second_byte, hbits, Bool.not_true, bne_self_eq_false, Bool.or_self, Bool.false_eq_true]

theorem decodeChunk_one (a : UInt8) :
    decodeChunk true (letter (a >>> 2)) (letter (((a &&& 3) <<< 4) ||| ((0 : UInt8) >>> 4))) padByte padByte = .ok [a] := by
  obtain ⟨h1, h2, -, -⟩ := chunk_lt a 0 0
  obtain ⟨-, hlow, -⟩ := halves a
  have hbits : (((a &&& 3) <<< 4) ||| ((0 : UInt8) >>> 4)) &&& 15 = 0 := (joined_two_four hlow (by decide)).2.2.2
  simp only [decodeChunk, (letter_spec h1).1, (letter_spec h2).1, ok_bind, beq_self_eq_true, if_true, first_byte, hbits,
    Bool.not_true, bne_self_eq_false, Bool.or_self, Bool.false_eq_true, if_false]

/-- The first byte is cut where its two digits met. -/
theorem first_cut {a b : UInt8} (ha : a < 64) (hb : b < 64) :
    ((a <<< 2) ||| (b >>> 4)) >>> 2 = a ∧ ((a <<< 2) ||| (b >>> 4)) &&& (3 : UInt8) = b >>> 4 := by
  have hhigh := (digit_halves hb).1
  simpa only [UInt8.ofNat_toNat] using split_facts.1 ⟨a.toNat, UInt8.lt_iff_toNat_lt.mp ha⟩ ⟨(b >>> 4).toNat, UInt8.lt_iff_toNat_lt.mp hhigh⟩

theorem second_cut {b d : UInt8} (hb : b < 64) (hd : d < 64) :
    ((b <<< 4) ||| (d >>> 2)) >>> 4 = b &&& 15 ∧ ((b <<< 4) ||| (d >>> 2)) &&& (15 : UInt8) = d >>> 2 := by
  have hlow := (halves b).2.2.2.1
  have hhigh := (digit_halves hd).2.1
  rw [(digit_halves hb).2.2.1]
  simpa only [UInt8.ofNat_toNat] using split_facts.2.1 ⟨(b &&& (15 : UInt8)).toNat, UInt8.lt_iff_toNat_lt.mp hlow⟩
    ⟨(d >>> 2).toNat, UInt8.lt_iff_toNat_lt.mp hhigh⟩

theorem third_cut {d e : UInt8} (hd : d < 64) (he : e < 64) :
    ((d <<< 6) ||| e) >>> 6 = d &&& 3 ∧ ((d <<< 6) ||| e) &&& 63 = e := by
  have hlow := (halves d).2.1
  rw [(digit_halves hd).2.2.2]
  simpa only [UInt8.ofNat_toNat] using split_facts.2.2 ⟨(d &&& (3 : UInt8)).toNat, UInt8.lt_iff_toNat_lt.mp hlow⟩ ⟨e.toNat, UInt8.lt_iff_toNat_lt.mp he⟩

/-- A chunk that is decoded is the one the encoder writes for its bytes, and a padded one is the last. -/
theorem decodeChunk_cases {last : Bool} {c0 c1 c2 c3 : UInt8} {out : Bytes}
    (h : decodeChunk last c0 c1 c2 c3 = .ok out) :
    (∃ a b c, out = [a, b, c] ∧ [c0, c1, c2, c3] = encodeChunk a (some b) (some c)) ∨
      (last = true ∧ ∃ a b, out = [a, b] ∧ [c0, c1, c2, c3] = encodeChunk a (some b) none) ∨
      (last = true ∧ ∃ a, out = [a] ∧ [c0, c1, c2, c3] = encodeChunk a none none) := by
  unfold decodeChunk at h
  obtain ⟨a, ha, hafter⟩ := bind_eq_ok.mp h
  obtain ⟨b, hb, hpads⟩ := bind_eq_ok.mp hafter
  obtain ⟨ha64, rfl⟩ := letter_digit ha
  obtain ⟨hb64, rfl⟩ := letter_digit hb
  obtain ⟨hfirst, hsecond⟩ := first_cut ha64 hb64
  have hwhole := (halves b).2.2.2.2.2.2.2.1
  clear h hafter
  split at hpads
  next hpad =>
    rw [beq_iff_eq] at hpad
    split at hpads
    · cases hpads
    next hok =>
      simp only [Bool.or_eq_true, not_or, Bool.not_eq_true, Bool.not_eq_false', bne_eq_false_iff_eq] at hok
      obtain ⟨⟨hlast, hpad'⟩, hspare⟩ := hok
      refine .inr (.inr ⟨hlast, _, (Except.ok.inj hpads).symm, ?_⟩)
      -- the spare bits are zero, so the second digit is its upper half alone
      rw [hspare] at hwhole
      simp [encodeChunk, hfirst, hsecond, hpad, hpad', hwhole]
  next =>
    obtain ⟨d, hd, hthree⟩ := bind_eq_ok.mp hpads
    obtain ⟨hd64, rfl⟩ := letter_digit hd
    obtain ⟨hthird, hfourth⟩ := second_cut hb64 hd64
    have hwhole' := (halves d).2.2.2.2.2.2.1
    clear hpads
    split at hthree
    next hpad =>
      rw [beq_iff_eq] at hpad
      split at hthree
      · cases hthree
      next hok =>
        simp only [Bool.or_eq_true, not_or, Bool.not_eq_true, Bool.not_eq_false', bne_eq_false_iff_eq] at hok
        refine .inr (.inl ⟨hok.1, _, _, (Except.ok.inj hthree).symm, ?_⟩)
        rw [hok.2] at hwhole'
        simp [encodeChunk, hfirst, hsecond, hthird, hfourth, hpad, hwhole, hwhole']
    next =>
      obtain ⟨e, he, hfour⟩ := bind_eq_ok.mp hthree
      obtain ⟨he64, rfl⟩ := letter_digit he
      obtain ⟨hfifth, hsixth⟩ := third_cut hd64 he64
      refine .inl ⟨_, _, _, (Except.ok.inj hfour).symm, ?_⟩
      simp [encodeChunk, hfirst, hsecond, hthird, hfourth, hfifth, hsixth, hwhole, hwhole']

/-! ## The round trip -/

/-- Digits are read back chunk by chunk; only the last chunk may be short, and there the padding is accepted. -/
theorem decodeDigits_encodeDigits : ∀ bytes : Bytes, decodeDigits (encodeDigits bytes) = .ok bytes
  | [] => rfl
  | [a] => by
      have h := decodeChunk_one a
      simp only [encodeDigits, encodeChunk, Option.getD_none, Option.isSome_none, Bool.false_eq_true, if_false,
        decodeDigits, List.isEmpty_nil, h, ok_bind, List.append_nil]
  | [a, b] => by
      have h := decodeChunk_two a b
      simp only [encodeDigits, encodeChunk, Option.getD_some, Option.getD_none, Option.isSome_some, Option.isSome_none,
        Bool.false_eq_true, if_false, if_true, decodeDigits, List.isEmpty_nil, h, ok_bind, List.append_nil]
  | a :: b :: c :: rest => by
      have ih := decodeDigits_encodeDigits rest
      have h := decodeChunk_three (encodeDigits rest).isEmpty a b c
      simp only [encodeDigits, encodeChunk, Option.getD_some, Option.isSome_some, if_true, List.cons_append,
        List.nil_append, decodeDigits, h, ih, ok_bind]

theorem length_encodeDigits : ∀ bytes : Bytes, (encodeDigits bytes).length % 4 = 0
  | [] => rfl
  | [_] => by simp [encodeDigits, encodeChunk]
  | [_, _] => by simp [encodeDigits, encodeChunk]
  | a :: b :: c :: rest => by
      have ih := length_encodeDigits rest
      simp only [encodeDigits, encodeChunk, List.length_append, List.length_cons, List.length_nil]
      omega

theorem encodeChunk_ascii (a : UInt8) (b c : Option UInt8) : ∀ d ∈ encodeChunk a b c, d < 128 := by
  obtain ⟨h1, h2, h3, h4⟩ := chunk_lt a (b.getD 0) (c.getD 0)
  have hpad : padByte < 128 := by decide
  intro d hd
  simp only [encodeChunk, List.mem_cons, List.not_mem_nil, or_false] at hd
  rcases hd with rfl | rfl | rfl | rfl
  · exact (letter_spec h1).2.2
  · exact (letter_spec h2).2.2
  · split
    · exact (letter_spec h3).2.2
    · exact hpad
  · split
    · exact (letter_spec h4).2.2
    · exact hpad

theorem encodeDigits_ascii : ∀ bytes : Bytes, ∀ d ∈ encodeDigits bytes, d < 128
  | [], _, hd => absurd hd List.not_mem_nil
  | [a], d, hd => encodeChunk_ascii a none none d hd
  | [a, b], d, hd => encodeChunk_ascii a (some b) none d hd
  | a :: b :: c :: rest, d, hd => by
      rcases List.mem_append.mp hd with hd | hd
      · exact encodeChunk_ascii a (some b) (some c) d hd
      · exact encodeDigits_ascii rest d hd

theorem utf8_encodeBase64 (bytes : Bytes) : utf8 (encodeBase64 bytes) = encodeDigits bytes :=
  utf8_ascii _ (encodeDigits_ascii bytes)

/-- Every payload comes back from its base64. -/
theorem decodeBase64_encodeBase64 (bytes : Bytes) : decodeBase64 (encodeBase64 bytes) = .ok bytes := by
  rw [decodeBase64, utf8_encodeBase64, if_neg (not_not_intro (length_encodeDigits bytes)),
    decodeDigits_encodeDigits]

/-- What is decoded is the digits of its bytes: the last chunk is the only one that may be padded. -/
theorem encodeDigits_of_decodeDigits {digits bytes : Bytes} (hlen : digits.length % 4 = 0)
    (h : decodeDigits digits = .ok bytes) : digits = encodeDigits bytes := by
  induction digits using decodeDigits.induct generalizing bytes with
  | case1 c0 c1 c2 c3 rest ih =>
      obtain ⟨out, hchunk, h⟩ := bind_eq_ok.mp h
      obtain ⟨more, hmore, h⟩ := bind_eq_ok.mp h
      obtain rfl := Except.ok.inj h
      have hrest := ih (by simp only [List.length_cons] at hlen; omega) hmore
      -- a padded chunk has nothing after it
      have hend : rest.isEmpty = true → rest = [] ∧ more = [] := by
        intro hempty
        obtain rfl := List.isEmpty_iff.mp hempty
        exact ⟨rfl, (Except.ok.inj hmore).symm⟩
      have hsplit : c0 :: c1 :: c2 :: c3 :: rest = [c0, c1, c2, c3] ++ rest := rfl
      obtain ⟨a, b, c, rfl, heq⟩ | ⟨hlast, a, b, rfl, heq⟩ | ⟨hlast, a, rfl, heq⟩ := decodeChunk_cases hchunk
      · rw [hsplit, heq, hrest]
        rfl
      · obtain ⟨rfl, rfl⟩ := hend hlast
        exact heq
      · obtain ⟨rfl, rfl⟩ := hend hlast
        exact heq
  | case2 digits hshort =>
      obtain rfl : digits = [] := by
        match digits, hlen, hshort with
        | [], _, _ => rfl
        | [_], hlen, _ | [_, _], hlen, _ | [_, _, _], hlen, _ => simp at hlen
        | c0 :: c1 :: c2 :: c3 :: rest, _, hshort => exact absurd rfl (hshort c0 c1 c2 c3 rest)
      obtain rfl := Except.ok.inj h
      rfl

/-- The decoder accepts one spelling of each payload. -/
theorem encodeBase64_of_decodeBase64 {text : String} {bytes : Bytes} (h : decodeBase64 text = .ok bytes) :
    text = encodeBase64 bytes := by
  unfold decodeBase64 at h
  split at h
  · cases h
  next hlen =>
    apply utf8_injective
    rw [utf8_encodeBase64]
    exact encodeDigits_of_decodeDigits (not_not.mp hlen) h

example : encodeBase64 [77, 97, 110, 77] = "TWFuTQ==" := by decide

end CloveDb.Backup
