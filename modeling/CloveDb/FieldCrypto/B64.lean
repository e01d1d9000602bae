/-
# CloveDb.FieldCrypto.B64 — the text form of sealed bytes

`field_crypto/b64.rs`: URL-safe base64 without padding. Three bytes are one number of 24 bits, written as
four letters of six bits; the last one or two bytes give two or three letters, and the decoder refuses a
text whose spare bits are not zero. What the encoder writes is read back byte for byte, and nothing else is read:
neither here nor by the padded code of `backup/codec.rs`.
-/
import CloveDb.Backup.Base64

namespace CloveDb.FieldCrypto.B64

open CloveDb.Lib

/-- `ALPHABET` -/
def alphabet : Bytes :=
  "ABCDEFGHIJKLMNOPQRSTUVWXYZabcdefghijklmnopqrstuvwxyz0123456789-_".toList.map fun c => UInt8.ofNat c.toNat

def letter (v : Nat) : UInt8 := alphabet.getD v 0

/-- The number of a chunk. -/
def group (a b c : UInt8) : Nat := a.toNat * 65536 + b.toNat * 256 + c.toNat

def encodeBytes : Bytes → Bytes
  | [] => []
  | [a] => [letter (group a 0 0 / 262144 % 64), letter (group a 0 0 / 4096 % 64)]
  | [a, b] => [letter (group a b 0 / 262144 % 64), letter (group a b 0 / 4096 % 64), letter (group a b 0 / 64 % 64)]
  | a :: b :: c :: rest =>
      letter (group a b c / 262144 % 64) :: letter (group a b c / 4096 % 64) :: letter (group a b c / 64 % 64) ::
        letter (group a b c % 64) :: encodeBytes rest

/-- `encode` -/
def encode (bytes : Bytes) : String := String.ofList ((encodeBytes bytes).map fun d => Char.ofNat d.toNat)

/-- The entry of a byte in the decoder's table. -/
def value (c : UInt8) : Option Nat := alphabet.findIdx? (· == c)

/-- The letters of a chunk, each six bits further right. -/
def chunkNumber : Nat → Bytes → Option Nat
  | _, [] => some 0
  | weight, c :: cs => do
      let v ← value c
      let n ← chunkNumber (weight / 64) cs
      return v * weight + n

/-- One turn of the decoder's loop. -/
def decodeChunk (chunk : Bytes) : Option Bytes := do
  let n ← chunkNumber 262144 chunk
  let produced := chunk.length * 6 / 8
  let spare := chunk.length * 6 - produced * 8
  if n / 2 ^ (24 - chunk.length * 6) % 2 ^ spare ≠ 0 then none
  else some ([UInt8.ofNat (n / 65536), UInt8.ofNat (n / 256), UInt8.ofNat n].take produced)

def decodeBytes : Bytes → Option Bytes
  | [] => some []
  | a :: b :: c :: d :: rest => do
      let out ← decodeChunk [a, b, c, d]
      let more ← decodeBytes rest
      return out ++ more
  | chunk => decodeChunk chunk

/-- `decode` -/
def decode (text : String) : Option Bytes :=
  if (utf8 text).length % 4 = 1 then none else decodeBytes (utf8 text)

/-! ## Letters -/

theorem letter_facts : ∀ v : Fin 64, value (letter v) = some v.val ∧ letter v < 128 := by decide

theorem value_letter {v : Nat} (h : v < 64) : value (letter v) = some v := (letter_facts ⟨v, h⟩).1

/-- A byte of the decoder's table is the letter of its entry. -/
theorem letter_of_value {c : UInt8} {v : Nat} (h : value c = some v) : v < 64 ∧ letter v = c := by
  obtain ⟨hlt, hbeq, -⟩ := List.findIdx?_eq_some_iff_getElem.mp h
  refine ⟨hlt, ?_⟩
  rw [letter, List.getD_eq_getElem?_getD, List.getElem?_eq_getElem hlt, Option.getD_some]
  exact eq_of_beq hbeq

theorem letter_ascii {v : Nat} (h : v < 64) : letter v < 128 := (letter_facts ⟨v, h⟩).2

theorem value_letter_mod (n : Nat) : value (letter (n % 64)) = some (n % 64) := value_letter (Nat.mod_lt _ (by decide))

theorem letter_mod_ascii (n : Nat) : letter (n % 64) < 128 := letter_ascii (Nat.mod_lt _ (by decide))

theorem encodeBytes_ascii : ∀ bytes : Bytes, ∀ d ∈ encodeBytes bytes, d < 128
  | [], _, hd => absurd hd List.not_mem_nil
  | [a], d, hd => by
      simp only [encodeBytes, List.mem_cons, List.not_mem_nil, or_false] at hd
      rcases hd with rfl | rfl <;> exact letter_mod_ascii _
  | [a, b], d, hd => by
      simp only [encodeBytes, List.mem_cons, List.not_mem_nil, or_false] at hd
      rcases hd with rfl | rfl | rfl <;> exact letter_mod_ascii _
  | a :: b :: c :: rest, d, hd => by
      simp only [encodeBytes, List.mem_cons] at hd
      rcases hd with rfl | rfl | rfl | rfl | hd
      · exact letter_mod_ascii _
      · exact letter_mod_ascii _
      · exact letter_mod_ascii _
      · exact letter_mod_ascii _
      · exact encodeBytes_ascii rest d hd

theorem utf8_encode (bytes : Bytes) : utf8 (encode bytes) = encodeBytes bytes :=
  utf8_ascii _ (encodeBytes_ascii bytes)

theorem length_encodeBytes : ∀ bytes : Bytes, (encodeBytes bytes).length % 4 ≠ 1
  | [] => by simp [encodeBytes]
  | [_] => by simp [encodeBytes]
  | [_, _] => by simp [encodeBytes]
  | a :: b :: c :: rest => by
      have ih := length_encodeBytes rest
      simp only [encodeBytes, List.length_cons]
      omega

/-! ## Chunks -/

theorem group_lt (a b c : UInt8) : group a b c < 16777216 := by
  have ha := a.toNat_lt
  have hb := b.toNat_lt
  have hc := c.toNat_lt
  unfold group
  omega

theorem group_bytes (a b c : UInt8) :
    UInt8.ofNat (group a b c / 65536) = a ∧ UInt8.ofNat (group a b c / 256) = b ∧ UInt8.ofNat (group a b c) = c := by
  have ha := a.toNat_lt
  have hb := b.toNat_lt
  have hc := c.toNat_lt
  refine ⟨?_, ?_, ?_⟩ <;> apply UInt8.toNat_inj.mp <;> rw [UInt8.toNat_ofNat'] <;> unfold group <;> omega

theorem chunkNumber_cons (weight n : Nat) (cs : Bytes) :
    chunkNumber weight (letter (n % 64) :: cs) = (chunkNumber (weight / 64) cs).map (n % 64 * weight + ·) := by
  rw [chunkNumber, value_letter_mod]
  cases chunkNumber (weight / 64) cs <;> rfl

/-- A number of 24 bits is its four digits. -/
theorem digits_four {n : Nat} (hn : n < 16777216) :
    n / 262144 % 64 * 262144 + (n / 4096 % 64 * 4096 + (n / 64 % 64 * 64 + (n % 64 * 1 + 0))) = n := by
  omega

theorem decodeChunk_four {n : Nat} (hn : n < 16777216) :
    decodeChunk [letter (n / 262144 % 64), letter (n / 4096 % 64), letter (n / 64 % 64), letter (n % 64)]
      = some [UInt8.ofNat (n / 65536), UInt8.ofNat (n / 256), UInt8.ofNat n] := by
  rw [decodeChunk, chunkNumber_cons, chunkNumber_cons, chunkNumber_cons, chunkNumber_cons]
  simp only [chunkNumber, Option.map_some, Nat.reduceDiv, digits_four hn, Option.bind_eq_bind, Option.bind_some]
  simp [Nat.mod_one]

/-- Without the last byte, the last digit and the two bits before it are zero. -/
theorem digits_three {n : Nat} (hn : n < 16777216) (hlast : n % 256 = 0) :
    n / 262144 % 64 * 262144 + (n / 4096 % 64 * 4096 + (n / 64 % 64 * 64 + 0)) = n ∧ n / 64 % 4 = 0 := by
  omega

theorem decodeChunk_three {n : Nat} (hn : n < 16777216) (hlast : n % 256 = 0) :
    decodeChunk [letter (n / 262144 % 64), letter (n / 4096 % 64), letter (n / 64 % 64)]
      = some [UInt8.ofNat (n / 65536), UInt8.ofNat (n / 256)] := by
  obtain ⟨hdigits, hspare⟩ := digits_three hn hlast
  rw [decodeChunk, chunkNumber_cons, chunkNumber_cons, chunkNumber_cons]
  simp only [chunkNumber, Option.map_some, Nat.reduceDiv, hdigits, Option.bind_eq_bind, Option.bind_some]
  simp [hspare]

theorem digits_two {n : Nat} (hn : n < 16777216) (hlast : n % 65536 = 0) :
    n / 262144 % 64 * 262144 + (n / 4096 % 64 * 4096 + 0) = n ∧ n / 4096 % 16 = 0 := by
  omega

theorem decodeChunk_two {n : Nat} (hn : n < 16777216) (hlast : n % 65536 = 0) :
    decodeChunk [letter (n / 262144 % 64), letter (n / 4096 % 64)] = some [UInt8.ofNat (n / 65536)] := by
  obtain ⟨hdigits, hspare⟩ := digits_two hn hlast
  rw [decodeChunk, chunkNumber_cons, chunkNumber_cons]
  simp only [chunkNumber, Option.map_some, Nat.reduceDiv, hdigits, Option.bind_eq_bind, Option.bind_some]
  simp [hspare]

/-- The letters of a chunk are the digits of its number. -/
theorem chunkNumber_cons_eq {weight n : Nat} {c : UInt8} {cs : Bytes} (h : chunkNumber weight (c :: cs) = some n) :
    ∃ v m, v < 64 ∧ c = letter v ∧ chunkNumber (weight / 64) cs = some m ∧ n = v * weight + m := by
  rw [chunkNumber] at h
  simp only [Option.bind_eq_bind, Option.bind_eq_some_iff, Option.pure_def, Option.some.injEq] at h
  obtain ⟨v, hv, m, hm, rfl⟩ := h
  obtain ⟨hlt, hletter⟩ := letter_of_value hv
  exact ⟨v, m, hlt, hletter.symm, hm, rfl⟩

/-- What the decoder makes of a chunk: its number, whose spare bits are zero, cut into bytes. -/
theorem decodeChunk_eq_some {chunk out : Bytes} (h : decodeChunk chunk = some out) :
    ∃ n, chunkNumber 262144 chunk = some n ∧
      n / 2 ^ (24 - chunk.length * 6) % 2 ^ (chunk.length * 6 - chunk.length * 6 / 8 * 8) = 0 ∧
      out = [UInt8.ofNat (n / 65536), UInt8.ofNat (n / 256), UInt8.ofNat n].take (chunk.length * 6 / 8) := by
  simp only [decodeChunk, Option.bind_eq_bind, Option.bind_eq_some_iff] at h
  obtain ⟨n, hn, h⟩ := h
  split at h
  · cases h
  next hspare => exact ⟨n, hn, not_not.mp hspare, (Option.some.inj h).symm⟩

/-- The bytes of a number of 24 bits are its group. -/
theorem group_ofNat {n : Nat} (hn : n < 16777216) :
    group (UInt8.ofNat (n / 65536)) (UInt8.ofNat (n / 256)) (UInt8.ofNat n) = n := by
  simp only [group, UInt8.toNat_ofNat']
  omega

/-- The two letters that every chunk has. -/
theorem chunkNumber_two {n : Nat} {a b : UInt8} {cs : Bytes} (h : chunkNumber 262144 (a :: b :: cs) = some n) :
    ∃ v w m, v < 64 ∧ w < 64 ∧ a = letter v ∧ b = letter w ∧ chunkNumber 64 cs = some m ∧
      n = v * 262144 + (w * 4096 + m) := by
  obtain ⟨v, n1, hv, rfl, h1, rfl⟩ := chunkNumber_cons_eq h
  obtain ⟨w, m, hw, rfl, h2, rfl⟩ := chunkNumber_cons_eq h1
  exact ⟨v, w, m, hv, hw, rfl, rfl, h2, rfl⟩

theorem encodeBytes_of_decodeChunk_four {a b c d : UInt8} {out : Bytes} (h : decodeChunk [a, b, c, d] = some out) :
    ∃ x y z, out = [x, y, z] ∧ [a, b, c, d] = encodeBytes [x, y, z] := by
  obtain ⟨n, hn, -, rfl⟩ := decodeChunk_eq_some h
  obtain ⟨v1, v2, m, h1, h2, rfl, rfl, hm, hsum⟩ := chunkNumber_two hn
  obtain ⟨v3, m3, h3, rfl, hm3, rfl⟩ := chunkNumber_cons_eq hm
  obtain ⟨v4, m4, h4, rfl, hm4, rfl⟩ := chunkNumber_cons_eq hm3
  obtain rfl := Option.some.inj hm4
  refine ⟨UInt8.ofNat (n / 65536), UInt8.ofNat (n / 256), UInt8.ofNat n, by simp, ?_⟩
  have hdigits : n < 16777216 ∧ n / 262144 % 64 = v1 ∧ n / 4096 % 64 = v2 ∧ n / 64 % 64 = v3 ∧ n % 64 = v4 := by omega
  rw [encodeBytes, encodeBytes, group_ofNat hdigits.1, hdigits.2.1, hdigits.2.2.1, hdigits.2.2.2.1, hdigits.2.2.2.2]

/-- Of three letters the last two bits are spare: the third byte of the number is zero. -/
theorem encodeBytes_of_decodeChunk_three {a b c : UInt8} {out : Bytes} (h : decodeChunk [a, b, c] = some out) :
    ∃ x y, out = [x, y] ∧ [a, b, c] = encodeBytes [x, y] := by
  obtain ⟨n, hn, hspare, rfl⟩ := decodeChunk_eq_some h
  obtain ⟨v1, v2, m, h1, h2, rfl, rfl, hm, hsum⟩ := chunkNumber_two hn
  obtain ⟨v3, m3, h3, rfl, hm3, rfl⟩ := chunkNumber_cons_eq hm
  obtain rfl := Option.some.inj hm3
  refine ⟨UInt8.ofNat (n / 65536), UInt8.ofNat (n / 256), by simp, ?_⟩
  have hbits : n / 64 % 4 = 0 := by simpa using hspare
  have hdigits : n < 16777216 ∧ n / 262144 % 64 = v1 ∧ n / 4096 % 64 = v2 ∧ n / 64 % 64 = v3 := by omega
  have hlast : UInt8.ofNat n = 0 := UInt8.toNat_inj.mp (by rw [UInt8.toNat_ofNat']; change n % 256 = 0; omega)
  have hgroup := group_ofNat hdigits.1
  rw [hlast] at hgroup
  rw [encodeBytes, hgroup, hdigits.2.1, hdigits.2.2.1, hdigits.2.2.2]

/-- Of two letters the last four. -/
theorem encodeBytes_of_decodeChunk_two {a b : UInt8} {out : Bytes} (h : decodeChunk [a, b] = some out) :
    ∃ x, out = [x] ∧ [a, b] = encodeBytes [x] := by
  obtain ⟨n, hn, hspare, rfl⟩ := decodeChunk_eq_some h
  obtain ⟨v1, v2, m, h1, h2, rfl, rfl, hm, hsum⟩ := chunkNumber_two hn
  obtain rfl := Option.some.inj hm
  refine ⟨UInt8.ofNat (n / 65536), by simp, ?_⟩
  have hbits : n / 4096 % 16 = 0 := by simpa using hspare
  have hdigits : n < 16777216 ∧ n / 262144 % 64 = v1 ∧ n / 4096 % 64 = v2 := by omega
  have hlast : UInt8.ofNat n = 0 := UInt8.toNat_inj.mp (by rw [UInt8.toNat_ofNat']; change n % 256 = 0; omega)
  have hmiddle : UInt8.ofNat (n / 256) = 0 :=
    UInt8.toNat_inj.mp (by rw [UInt8.toNat_ofNat']; change n / 256 % 256 = 0; omega)
  have hgroup := group_ofNat hdigits.1
  rw [hlast, hmiddle] at hgroup
  rw [encodeBytes, hgroup, hdigits.2.1, hdigits.2.2]

/-! ## The round trip -/

theorem decodeBytes_encodeBytes : ∀ bytes : Bytes, decodeBytes (encodeBytes bytes) = some bytes
  | [] => rfl
  | [a] => by
      have h := decodeChunk_two (group_lt a 0 0) (by simp [group])
      rw [(group_bytes a 0 0).1] at h
      exact h
  | [a, b] => by
      have h := decodeChunk_three (group_lt a b 0) (by simp [group]; omega)
      rw [(group_bytes a b 0).1, (group_bytes a b 0).2.1] at h
      exact h
  | a :: b :: c :: rest => by
      have ih := decodeBytes_encodeBytes rest
      have h := decodeChunk_four (group_lt a b c)
      rw [(group_bytes a b c).1, (group_bytes a b c).2.1, (group_bytes a b c).2.2] at h
      rw [encodeBytes, decodeBytes, h, ih]
      rfl

/-- Every byte string comes back from its text. -/
theorem decode_encode (bytes : Bytes) : decode (encode bytes) = some bytes := by
  rw [decode, utf8_encode, if_neg (length_encodeBytes bytes), decodeBytes_encodeBytes]

/-- What is decoded is the letters of its bytes. -/
theorem encodeBytes_of_decodeBytes {letters bytes : Bytes} (hlen : letters.length % 4 ≠ 1)
    (h : decodeBytes letters = some bytes) : letters = encodeBytes bytes := by
  induction letters using decodeBytes.induct generalizing bytes with
  | case1 =>
      obtain rfl := Option.some.inj h
      rfl
  | case2 a b c d rest ih =>
      simp only [decodeBytes, Option.bind_eq_bind, Option.bind_eq_some_iff, Option.pure_def, Option.some.injEq] at h
      obtain ⟨out, hchunk, more, hmore, rfl⟩ := h
      have hrest := ih (by simp only [List.length_cons] at hlen; omega) hmore
      obtain ⟨x, y, z, rfl, hletters⟩ := encodeBytes_of_decodeChunk_four hchunk
      calc a :: b :: c :: d :: rest = [a, b, c, d] ++ rest := rfl
        _ = encodeBytes ([x, y, z] ++ more) := by rw [hletters, hrest]; rfl
  | case3 chunk hnil hshort =>
      match chunk, hlen, hnil, hshort, h with
      | [_], hlen, _, _, _ => exact absurd rfl hlen
      | [_, _], _, _, _, h =>
          obtain ⟨x, rfl, hletters⟩ := encodeBytes_of_decodeChunk_two h
          exact hletters
      | [_, _, _], _, _, _, h =>
          obtain ⟨x, y, rfl, hletters⟩ := encodeBytes_of_decodeChunk_three h
          exact hletters
      | a :: b :: c :: d :: rest, _, _, hshort, _ => exact absurd rfl (hshort a b c d rest)
      | [], _, hnil, _, _ => exact absurd rfl hnil

/-- The decoder accepts one spelling of each byte string. -/
theorem encode_of_decode {text : String} {bytes : Bytes} (h : decode text = some bytes) : text = encode bytes := by
  unfold decode at h
  split at h
  · cases h
  next hlen =>
    apply utf8_injective
    rw [utf8_encode]
    exact encodeBytes_of_decodeBytes hlen h

theorem encode_injective : Function.Injective encode := by
  intro a b h
  have ha := decode_encode a
  rw [h, decode_encode b] at ha
  exact (Option.some.inj ha).symm

/-- Both text forms of bytes in the store, this one and the padded one of the histories, accept exactly what their
encoders write: every byte string comes back, and no other spelling of it is read. -/
theorem base64_codes :
    (∀ bytes, Backup.decodeBase64 (Backup.encodeBase64 bytes) = .ok bytes) ∧
      (∀ text bytes, Backup.decodeBase64 text = .ok bytes ↔ text = Backup.encodeBase64 bytes) ∧
      (∀ bytes, decode (encode bytes) = some bytes) ∧
      ∀ text bytes, decode text = some bytes ↔ text = encode bytes := by
  refine ⟨Backup.decodeBase64_encodeBase64, fun text bytes => ⟨Backup.encodeBase64_of_decodeBase64, ?_⟩,
    decode_encode, fun text bytes => ⟨encode_of_decode, ?_⟩⟩
  · rintro rfl
    exact Backup.decodeBase64_encodeBase64 bytes
  · rintro rfl
    exact decode_encode bytes

example : encode [102, 111, 111, 98, 97] = "Zm9vYmE" := by decide

end CloveDb.FieldCrypto.B64
