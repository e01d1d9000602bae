/-
# CloveDb.Encrypted.Layout — where things are in an encrypted database file

The constants and the block geometry of `encrypted_store/layout.rs`, the cipher as the file layer
sees it, and the errors the layer returns. redb's first 4096 bytes are its header page, stored as
four sealed pieces of 512 bytes; every later page of redb is one sealed block.

The cipher is a parameter: `Aead` holds the functions of `crypto::Aead` and the facts about them
that the layer rests on. A sealed string opens to what was sealed, has a fixed overhead, and is
never all zeros (the mark of a piece that was never written). `Entropy` is the random source: the
nonce of every seal and the noise a new header area starts with, which no key opens.
-/
import CloveDb.Lib.FlatFile

namespace CloveDb.Encrypted

open CloveDb.Lib

/-! ## Constants -/

/-- redb's page size. -/
def page : Nat := 4096
def fileHeaderLen : Nat := 2048
def pieceLen : Nat := 512
def piecesLen : Nat := 4 * pieceLen
/-- Physical offset of block 0. -/
def dataBase : Nat := fileHeaderLen + piecesLen
/-- The part of redb's address space that is its header page. -/
def logicalHeader : Nat := page
/-- The bytes redb really uses of its header page. -/
def redbHeaderLen : Nat := 320

/-- A page below the `n`-th ends inside the first `n` pages. -/
theorem page_end_le {i n : Nat} (h : i < n) : i * page + page ≤ n * page :=
  Nat.succ_mul i page ▸ Nat.mul_le_mul_right page h

/-! ## Geometry -/

/-- Block geometry for one cipher: `overhead` is the nonce and tag it adds. -/
structure Geometry where
  overhead : Nat

namespace Geometry

variable (geo : Geometry)

def stride : Nat := page + geo.overhead

/-- Physical offset of block `index`. -/
def blockOffset (index : Nat) : Nat := dataBase + index * geo.stride

/-- redb's length for a file that is `physical` bytes long. -/
def logicalLen (physical : Nat) : Nat :=
  if physical < dataBase then 0
  else logicalHeader + (physical - dataBase) / geo.stride * page

/-- Physical length for a redb length (zero, or the header page plus whole pages). -/
def physicalLen (logical : Nat) : Option Nat :=
  if logical = 0 then some fileHeaderLen
  else if logical < logicalHeader ∨ logical % page ≠ 0 then none
  else some (dataBase + (logical - logicalHeader) / page * geo.stride)

theorem stride_pos : 0 < geo.stride := Nat.add_pos_left (by decide) _

theorem blockOffset_succ (i : Nat) : geo.blockOffset (i + 1) = geo.blockOffset i + geo.stride := by
  simp only [blockOffset, Nat.add_mul, Nat.one_mul]
  omega

theorem blockOffset_add (i j : Nat) :
    geo.blockOffset (i + j) = geo.blockOffset i + j * geo.stride := by
  simp only [blockOffset, Nat.add_mul]
  omega

theorem blockOffset_mono {i j : Nat} (h : i ≤ j) : geo.blockOffset i ≤ geo.blockOffset j :=
  Nat.add_le_add_left (Nat.mul_le_mul_right _ h) _

/-- The blocks of a file whose length is known, whatever torn tail it has. -/
theorem logicalLen_blockOffset {n tail : Nat} (ht : tail < geo.stride) :
    geo.logicalLen (geo.blockOffset n + tail) = logicalHeader + n * page := by
  have hdiv : (n * geo.stride + tail) / geo.stride = n := by
    rw [Nat.add_comm, Nat.add_mul_div_right _ _ geo.stride_pos, Nat.div_eq_of_lt ht, Nat.zero_add]
  have hsub : geo.blockOffset n + tail - dataBase = n * geo.stride + tail := by
    rw [blockOffset]
    omega
  have hge : ¬ geo.blockOffset n + tail < dataBase := by
    rw [blockOffset]
    omega
  rw [logicalLen, if_neg hge, hsub, hdiv]

/-- A length the layer accepts round-trips. -/
theorem physicalLen_eq_some {logical physical : Nat} (h : geo.physicalLen logical = some physical)
    (h0 : logical ≠ 0) :
    ∃ n, logical = logicalHeader + n * page ∧ physical = geo.blockOffset n := by
  rw [physicalLen, if_neg h0] at h
  split at h
  · cases h
  · rename_i hc
    push Not at hc
    cases h
    refine ⟨(logical - logicalHeader) / page, ?_, rfl⟩
    simp only [page, logicalHeader] at hc ⊢
    omega

end Geometry

/-! ## Errors -/

/-- The `io::Error`s of the layer. `overflow` is the panic of an unsigned addition. -/
inductive IoError where
  | invalidInput (msg : String)
  | permissionDenied
  | unexpectedEof
  | tamper (block : Option Nat)
  | overflow
  deriving DecidableEq, Repr

/-- `bad(msg)` of the source. -/
def bad (msg : String) : IoError := .invalidInput msg

/-- `io::Result`. -/
abbrev Io (α : Type) := Except IoError α

/-! ## The cipher and the random source -/

/-- The largest overhead of the ciphers: the XChaCha nonce and tag. -/
def maxOverhead : Nat := 40

/-- An authenticated cipher under one key. -/
structure Aead (N : Type) where
  overhead : Nat
  overhead_le : overhead ≤ maxOverhead
  /-- Nonce, associated data, plaintext. -/
  sealInto : N → Bytes → Bytes → Bytes
  /-- Associated data, sealed bytes. -/
  openInPlace : Bytes → Bytes → Option Bytes
  length_seal : ∀ n aad plain, (sealInto n aad plain).length = plain.length + overhead
  length_open : ∀ aad raw plain, openInPlace aad raw = some plain →
    raw.length = plain.length + overhead
  open_seal : ∀ n aad plain, openInPlace aad (sealInto n aad plain) = some plain
  seal_ne_zeros : ∀ n aad plain, (sealInto n aad plain).all (· == 0) = false

namespace Aead

variable {N : Type} (aead : Aead N)

def geo : Geometry := ⟨aead.overhead⟩

theorem stride_eq : aead.geo.stride = page + aead.overhead := rfl

theorem overhead_marked : 28 ≤ maxOverhead := by decide

theorem length_marked (plain : Bytes) : ((1 : UInt8) :: (plain ++ zeros 27)).length = plain.length + 28 := by
  simp

/-- The marked bytes without the mark and the tag. -/
@[reducible] def unmark (raw : Bytes) : Option Bytes :=
  match raw with
  | [] => none
  | b :: rest => if b = 1 ∧ 27 ≤ rest.length then some (rest.take (rest.length - 27)) else none

theorem length_of_unmark (raw plain : Bytes) (h : unmark raw = some plain) :
    raw.length = plain.length + 28 := by
  match raw with
  | [] => cases h
  | b :: rest =>
      simp only [unmark] at h
      split at h
      · cases h
        simp only [List.length_cons, List.length_take]
        omega
      · cases h

theorem unmark_marked (plain : Bytes) : unmark (1 :: (plain ++ zeros 27)) = some plain := by
  simp [unmark]

theorem marked_ne_zeros (plain : Bytes) :
    ((1 : UInt8) :: (plain ++ zeros 27)).all (· == 0) = false := by
  simp

/-- A marking "cipher" that keeps the laws: one mark byte in front, a blank tag behind. It is the
cipher of the concrete runs below. -/
def marking : Aead Unit where
  overhead := 28
  overhead_le := overhead_marked
  sealInto _ _ plain := 1 :: (plain ++ zeros 27)
  openInPlace _ raw := unmark raw
  length_seal _ _ plain := length_marked plain
  length_open _ raw plain h := length_of_unmark raw plain h
  open_seal _ _ plain := unmark_marked plain
  seal_ne_zeros _ _ plain := marked_ne_zeros plain

end Aead

def blockAad (index : Nat) : Bytes := 98 :: leBytes 8 index

def pieceAad (piece : Nat) : Bytes := [104, UInt8.ofNat piece]

/-- The random bytes drawn over the life of a process: a nonce for the `i`-th seal of draw `t`, and
the noise of draw `t`, which does not open. -/
structure Entropy {N : Type} (aead : Aead N) where
  nonce : Nat → Nat → N
  noise : Nat → Bytes
  length_noise : ∀ t, (noise t).length = piecesLen
  noise_closed : ∀ t copy piece,
    aead.openInPlace (pieceAad piece) (slice (noise t) (copy * pieceLen) pieceLen) = none

/-- Noise without the mark, for the marking cipher. -/
def Entropy.marking : Entropy Aead.marking where
  nonce _ _ := ()
  noise _ := zeros piecesLen
  length_noise _ := length_zeros _
  noise_closed _ copy piece := by
    rw [slice, zeros, List.drop_replicate, List.take_replicate]
    cases min pieceLen (piecesLen - copy * pieceLen) <;> rfl

end CloveDb.Encrypted
