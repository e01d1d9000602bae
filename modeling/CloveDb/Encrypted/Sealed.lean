/-
# CloveDb.Encrypted.Sealed — sealed stream files

`encrypted_store/sealed.rs`: attachments and side files, written as a stream and read piece by piece. A file is a salt
and then blocks of 64 KiB, each sealed with its number, the last also with the length of the whole. The writer keeps a
full block back until more data arrives, since it may be the last. The reader takes the length from the file's size, has
the last block prove it, and opens other blocks as it reaches them.

Two things are shown of it. What was written, in whatever pieces, is read back as by a cursor. And under a cipher that
opens only what was sealed, no byte string at all opens to anything but the file whose salt it carries.
-/
import CloveDb.Encrypted.Layout

namespace CloveDb.Encrypted

open CloveDb.Lib

/-! ## Files -/

/-- `SALT_LEN`. -/
def saltLen : Nat := 32

/-- `BLOCK`: plaintext bytes in a full block. -/
def fullBlock : Nat := 64 * 1024

/-- `aad` of the source. -/
def fileAad (index : Nat) (lastTotal : Option Nat) : Bytes :=
  115 :: (leBytes 8 index ++
    match lastTotal with
    | none => [0]
    | some total => 1 :: leBytes 8 total)

/-- The cipher under one key, before anything is said about what it opens: a cipher in use opens all it sealed
(`FileKeys.Correct`), an ideal one opens only that (`FileKeys.Ideal`). -/
structure FileCipher (N : Type) where
  overhead : Nat
  overhead_pos : 0 < overhead
  sealInto : N → Bytes → Bytes → Bytes
  openInPlace : Bytes → Bytes → Option Bytes
  length_seal : ∀ n aad plain, (sealInto n aad plain).length = plain.length + overhead

/-- `FileKeys`: the key of a file, from its kind, its name and its salt, and the cipher under a key. -/
structure FileKeys (K N : Type) where
  fileKey : String → String → Bytes → Io K
  cipher : K → FileCipher N

/-! ## The writer -/

structure SealedWriter (N : Type) where
  out : Bytes
  aead : FileCipher N
  /-- the nonces the cipher draws, one a block -/
  nonces : Nat → N
  index : Nat
  buf : Bytes
  total : Nat

namespace SealedWriter

variable {K N : Type}

/-- `SealedWriter::new` into an empty output, with the salt it draws. -/
def new (keys : FileKeys K N) (label binding : String) (salt : Bytes) (nonces : Nat → N) : Io (SealedWriter N) := do
  let key ← keys.fileKey label binding salt
  .ok { out := salt, aead := keys.cipher key, nonces, index := 0, buf := [], total := 0 }

def emit (w : SealedWriter N) (last : Bool) : SealedWriter N :=
  { w with
    out := w.out ++ w.aead.sealInto (w.nonces w.index) (fileAad w.index (if last then some w.total else none)) w.buf
    index := w.index + 1
    buf := [] }

/-- `finish`: the bytes of the file. -/
def finish (w : SealedWriter N) : Bytes := (w.emit true).out

/-- `write`, with the number of bytes it took. -/
def write (w : SealedWriter N) (data : Bytes) : SealedWriter N × Nat :=
  if data = [] then (w, 0)
  else
    let w := if w.buf.length = fullBlock then w.emit false else w
    let n := min (fullBlock - w.buf.length) data.length
    ({ w with buf := w.buf ++ data.take n, total := w.total + n }, n)

/-- Calls of `write` one after the other, with the bytes they took. -/
def writes : SealedWriter N → List Bytes → SealedWriter N × Bytes
  | w, [] => (w, [])
  | w, data :: calls =>
      let (w', n) := w.write data
      let (w'', taken) := writes w' calls
      (w'', data.take n ++ taken)

/-- The calls `write_all` makes: each goes on where the one before stopped. `fuel` bounds them. -/
def writeAllCalls : Nat → SealedWriter N → Bytes → List Bytes
  | 0, _, _ => []
  | fuel + 1, w, data =>
      if data = [] then []
      else
        let (w', n) := w.write data
        data :: writeAllCalls fuel w' (data.drop n)

end SealedWriter

/-! ## The reader -/

structure SealedReader (N : Type) where
  src : Bytes
  aead : FileCipher N
  blocks : Nat
  total : Nat
  pos : Nat
  cached : Option (Nat × Bytes)

/-- `SeekFrom`. -/
inductive SeekFrom where
  | start (p : Nat)
  | ending (d : Int)
  | current (d : Int)
  deriving DecidableEq, Repr

/-- Where a seek goes, in `len` bytes from `pos`. -/
def SeekFrom.target (len pos : Nat) : SeekFrom → Int
  | .start p => p
  | .ending d => len + d
  | .current d => pos + d

namespace SealedReader

variable {K N : Type}

/-- `load`: have block `index` in the cache. -/
def load (r : SealedReader N) (index : Nat) : Io (SealedReader N) :=
  if r.cached.map Prod.fst = some index then .ok r
  else
    let last := index + 1 = r.blocks
    let plainLen := if last then r.total - index * fullBlock else fullBlock
    let buf := slice r.src (saltLen + index * (fullBlock + r.aead.overhead)) (plainLen + r.aead.overhead)
    if buf.length < plainLen + r.aead.overhead then .error .unexpectedEof
    else
      match r.aead.openInPlace (fileAad index (if last then some r.total else none)) buf with
      | none => .error (.tamper (some index))
      | some plain => .ok { r with cached := some (index, plain) }

/-- `SealedReader::new`. -/
def new (keys : FileKeys K N) (label binding : String) (src : Bytes) : Io (SealedReader N) :=
  if src.length < saltLen then .error (.tamper none)
  else do
    let key ← keys.fileKey label binding (src.take saltLen)
    let aead := keys.cipher key
    let stride := fullBlock + aead.overhead
    let payload := src.length - saltLen
    if payload < aead.overhead then .error (.tamper none)
    else
      let blocks := (payload + stride - 1) / stride
      let lastLen := payload - (blocks - 1) * stride
      if lastLen < aead.overhead then .error (.tamper (some (blocks - 1)))
      else
        load { src, aead, blocks, total := (blocks - 1) * fullBlock + (lastLen - aead.overhead), pos := 0, cached := none }
          (blocks - 1)

/-- `read` into a buffer of `len` bytes, with the bytes it put there. -/
def read (r : SealedReader N) (len : Nat) : SealedReader N × Io Bytes :=
  if r.total ≤ r.pos ∨ len = 0 then (r, .ok [])
  else
    match r.load (r.pos / fullBlock) with
    | .error e => (r, .error e)
    | .ok r =>
        let within := r.pos % fullBlock
        let plain := (r.cached.map Prod.snd).getD []
        let n := min (plain.length - within) len
        ({ r with pos := r.pos + n }, .ok (slice plain within n))

def seek (r : SealedReader N) (place : SeekFrom) : SealedReader N × Io Nat :=
  if place.target r.total r.pos < 0 then (r, .error (.invalidInput "seek before the start"))
  else
    let pos := (place.target r.total r.pos).toNat % 2 ^ 64
    ({ r with pos }, .ok pos)

/-- A call of a reader. -/
inductive Call where
  | read (len : Nat)
  | seek (place : SeekFrom)
  deriving DecidableEq, Repr

/-- What a call returned. -/
inductive Answer where
  | bytes (result : Io Bytes)
  | place (result : Io Nat)

def step (r : SealedReader N) : Call → SealedReader N × Answer
  | .read len => ((r.read len).1, .bytes (r.read len).2)
  | .seek place => ((r.seek place).1, .place (r.seek place).2)

/-- The answers to calls made one after the other, and the reader after them. -/
def run : SealedReader N → List Call → SealedReader N × List Answer
  | r, [] => (r, [])
  | r, call :: calls => ((run (r.step call).1 calls).1, (r.step call).2 :: (run (r.step call).1 calls).2)

end SealedReader

/-! ## A file, block by block -/

/-- The `i`-th block's worth of some data. -/
def chunk (data : Bytes) (i : Nat) : Bytes := slice data (i * fullBlock) fullBlock

/-- How many blocks hold `len` bytes; no bytes are one empty block. -/
def blocksOf (len : Nat) : Nat := (len - 1) / fullBlock + 1

/-- A finished file: what it was written under, and the data it holds. -/
structure SealedFile {K N : Type} (keys : FileKeys K N) where
  label : String
  binding : String
  salt : Bytes
  nonces : Nat → N
  data : Bytes
  key : K
  key_eq : keys.fileKey label binding salt = .ok key
  salt_length : salt.length = saltLen

namespace SealedFile

variable {K N : Type} {keys : FileKeys K N} (f : SealedFile keys)

def blocks : Nat := blocksOf f.data.length

def aead : FileCipher N := keys.cipher f.key

def aad (i : Nat) : Bytes := fileAad i (if i + 1 = f.blocks then some f.data.length else none)

def sealedBlock (i : Nat) : Bytes := f.aead.sealInto (f.nonces i) (f.aad i) (chunk f.data i)

/-- The bytes of the file. -/
def bytes : Bytes := f.salt ++ (((List.range (f.blocks - 1)).map f.sealedBlock).flatten ++ f.sealedBlock (f.blocks - 1))

end SealedFile

section Chunks

variable {data more : Bytes} {i : Nat}

theorem fullBlock_pos : 0 < fullBlock := by decide

theorem chunk_append (h : (i + 1) * fullBlock ≤ data.length) : chunk (data ++ more) i = chunk data i := by
  refine slice_append_left ?_
  rw [Nat.add_mul, Nat.one_mul] at h
  exact h

theorem blocksOf_pos (len : Nat) : 0 < blocksOf len := Nat.succ_pos _

/-- The blocks before the last are full; the last has what is left, which is nothing only if there is nothing. -/
theorem blocksOf_spec (len : Nat) : (blocksOf len - 1) * fullBlock ≤ len ∧ len ≤ blocksOf len * fullBlock := by
  simp only [blocksOf, fullBlock]
  omega

theorem blocksOf_eq {len index rest : Nat} (hlen : len = index * fullBlock + rest) (hrest : rest ≤ fullBlock)
    (hkept : index = 0 ∨ 0 < rest) : blocksOf len = index + 1 := by
  simp only [blocksOf, fullBlock] at *
  omega

theorem length_chunk (data : Bytes) (i : Nat) : (chunk data i).length = min fullBlock (data.length - i * fullBlock) := by
  rw [chunk, length_slice]

theorem length_chunk_full (h : i + 1 < blocksOf data.length) : (chunk data i).length = fullBlock := by
  have hspec := blocksOf_spec data.length
  rw [length_chunk]
  simp only [fullBlock] at *
  omega

theorem length_chunk_last (h : i + 1 = blocksOf data.length) : (chunk data i).length = data.length - i * fullBlock := by
  have hspec := blocksOf_spec data.length
  rw [length_chunk]
  simp only [fullBlock] at *
  omega

end Chunks

/-! ## What the writer writes -/

namespace SealedWriter

variable {N : Type}

/-- The writer has taken `data`: whole blocks of it are out, the rest is in the buffer. -/
structure Holds (w : SealedWriter N) (salt data : Bytes) : Prop where
  out : w.out = salt ++
    ((List.range w.index).map fun i => w.aead.sealInto (w.nonces i) (fileAad i none) (chunk data i)).flatten
  buf : w.buf = data.drop (w.index * fullBlock)
  full : w.index * fullBlock ≤ data.length
  fits : w.buf.length ≤ fullBlock
  total : w.total = data.length

/-- Between calls the buffer is empty only before the first block. -/
def Kept (w : SealedWriter N) : Prop := w.index = 0 ∨ 0 < w.buf.length

theorem Holds.length {w : SealedWriter N} {salt data : Bytes} (h : w.Holds salt data) :
    data.length = w.index * fullBlock + w.buf.length := by
  have hbuf := congrArg List.length h.buf
  rw [List.length_drop] at hbuf
  have hfull := h.full
  omega

/-- More bytes that fit the buffer go into it. -/
theorem Holds.put {w : SealedWriter N} {salt data : Bytes} (h : w.Holds salt data) {more : Bytes}
    (hfits : w.buf.length + more.length ≤ fullBlock) :
    Holds { w with buf := w.buf ++ more, total := w.total + more.length } salt (data ++ more) where
  out := by
    have hchunks : ∀ i ∈ List.range w.index, chunk (data ++ more) i = chunk data i := by
      intro i hi
      refine chunk_append (Nat.le_trans (Nat.mul_le_mul_right _ ?_) h.full)
      exact List.mem_range.mp hi
    rw [h.out]
    congr 2
    refine List.map_congr_left fun i hi => ?_
    rw [hchunks i hi]
  buf := by rw [List.drop_append_of_le_length h.full, h.buf]
  full := by rw [List.length_append]; exact Nat.le_add_right_of_le h.full
  fits := by rw [List.length_append]; exact hfits
  total := by rw [List.length_append, h.total]

/-- A full buffer goes out as a block that is not the last. -/
theorem Holds.emit {w : SealedWriter N} {salt data : Bytes} (h : w.Holds salt data) (hfull : w.buf.length = fullBlock) :
    Holds (w.emit false) salt data := by
  have hlength : (w.index + 1) * fullBlock = data.length := by
    rw [h.length, hfull, Nat.add_mul, Nat.one_mul]
  have hbuf : w.buf = chunk data w.index := by
    rw [chunk, slice, ← h.buf, List.take_of_length_le h.fits]
  refine ⟨?_, ?_, hlength.le, Nat.zero_le _, h.total⟩
  · simp only [SealedWriter.emit, Bool.false_eq_true, if_false, List.range_succ, List.map_append, List.map_cons,
      List.map_nil, List.flatten_append, List.flatten_cons, List.flatten_nil, List.append_nil]
    rw [h.out, List.append_assoc, ← hbuf]
  · exact (List.drop_eq_nil_of_le hlength.ge).symm

/-- One call of `write` takes a part of its data, not nothing of something. -/
theorem Holds.write {w : SealedWriter N} {salt data : Bytes} (h : w.Holds salt data) (hkept : w.Kept) (more : Bytes) :
    Holds (w.write more).1 salt (data ++ more.take (w.write more).2) ∧ (w.write more).1.Kept ∧
      (more ≠ [] → 0 < (w.write more).2) := by
  by_cases hmore : more = []
  · subst hmore
    simpa [SealedWriter.write] using ⟨h, hkept⟩
  have hpos : 0 < more.length := List.length_pos_of_ne_nil hmore
  -- the writer to put the bytes into has room, whether or not a block went out first
  obtain ⟨w', hw', hholds, hroom⟩ : ∃ w', w' = (if w.buf.length = fullBlock then w.emit false else w) ∧
      Holds w' salt data ∧ w'.buf.length < fullBlock := by
    by_cases hfull : w.buf.length = fullBlock
    · exact ⟨_, rfl, by rw [if_pos hfull]; exact h.emit hfull, by rw [if_pos hfull]; exact fullBlock_pos⟩
    · exact ⟨_, rfl, by rw [if_neg hfull]; exact h, by rw [if_neg hfull]; exact lt_of_le_of_ne h.fits hfull⟩
  have hwrite : w.write more =
      ({ w' with buf := w'.buf ++ more.take (min (fullBlock - w'.buf.length) more.length),
                 total := w'.total + min (fullBlock - w'.buf.length) more.length },
        min (fullBlock - w'.buf.length) more.length) := by
    rw [SealedWriter.write, if_neg hmore, ← hw']
  have hn : (more.take (min (fullBlock - w'.buf.length) more.length)).length =
      min (fullBlock - w'.buf.length) more.length := by
    rw [List.length_take, Nat.min_assoc, Nat.min_self]
  have hput := hholds.put (show w'.buf.length + (more.take (min (fullBlock - w'.buf.length) more.length)).length ≤
    fullBlock by omega)
  rw [hn] at hput
  rw [hwrite]
  refine ⟨hput, .inr ?_, fun _ => ?_⟩
  · rw [List.length_append, hn]
    omega
  · simp only
    omega

/-- Any calls of `write`: the writer holds the bytes they took. -/
theorem Holds.writes {salt : Bytes} : ∀ (calls : List Bytes) {w : SealedWriter N} {data : Bytes}, w.Holds salt data →
    w.Kept → Holds (w.writes calls).1 salt (data ++ (w.writes calls).2) ∧ (w.writes calls).1.Kept
  | [], w, data, h, hkept => by simpa [SealedWriter.writes] using ⟨h, hkept⟩
  | more :: calls, w, data, h, hkept => by
      obtain ⟨hwrite, hkept', -⟩ := h.write hkept more
      have ih := Holds.writes calls hwrite hkept'
      rwa [List.append_assoc] at ih

/-- `write_all` gets all of its data taken. -/
theorem Holds.writeAll {salt : Bytes} : ∀ (fuel : Nat) {w : SealedWriter N} {data more : Bytes}, w.Holds salt data →
    w.Kept → more.length ≤ fuel → (w.writes (w.writeAllCalls fuel more)).2 = more
  | 0, w, data, more, _, _, hfuel => by
      rw [List.length_eq_zero_iff.mp (Nat.le_zero.mp hfuel)]
      rfl
  | fuel + 1, w, data, more, h, hkept, hfuel => by
      by_cases hmore : more = []
      · subst hmore
        rfl
      obtain ⟨hwrite, hkept', hpos⟩ := h.write hkept more
      have hn := hpos hmore
      have hrest : (more.drop (w.write more).2).length ≤ fuel := by
        rw [List.length_drop]
        omega
      have ih := Holds.writeAll fuel hwrite hkept' hrest
      simp only [writeAllCalls, hmore, if_false, SealedWriter.writes, ih, List.take_append_drop]

/-- What the writer gives back is the file of the data it holds. -/
theorem Holds.finish {K : Type} {keys : FileKeys K N} (f : SealedFile keys) {w : SealedWriter N}
    (h : w.Holds f.salt f.data) (hkept : w.Kept) (haead : w.aead = f.aead) (hnonces : w.nonces = f.nonces) :
    w.finish = f.bytes := by
  have hblocks : f.blocks = w.index + 1 := blocksOf_eq h.length h.fits hkept
  have hbuf : w.buf = chunk f.data w.index := by
    rw [chunk, slice, ← h.buf, List.take_of_length_le h.fits]
  have hfull : ∀ i ∈ List.range w.index, w.aead.sealInto (w.nonces i) (fileAad i none) (chunk f.data i) = f.sealedBlock i := by
    intro i hi
    have hne : i + 1 ≠ f.blocks := by
      rw [hblocks]
      have := List.mem_range.mp hi
      omega
    rw [SealedFile.sealedBlock, SealedFile.aad, if_neg hne, haead, hnonces]
  have hlast : w.aead.sealInto (w.nonces w.index) (fileAad w.index (some w.total)) w.buf = f.sealedBlock w.index := by
    rw [SealedFile.sealedBlock, SealedFile.aad, if_pos hblocks.symm, haead, hnonces, hbuf, h.total]
  rw [SealedWriter.finish, SealedWriter.emit, SealedFile.bytes, hblocks, Nat.add_sub_cancel]
  simp only [if_true]
  rw [h.out, hlast, List.map_congr_left hfull, List.append_assoc]

end SealedWriter

/-! ## Where the blocks are -/

/-- The bytes block `i` takes without its overhead. -/
def plainLen (len i : Nat) : Nat := if i + 1 = blocksOf len then len - i * fullBlock else fullBlock

theorem length_chunk_eq {data : Bytes} {i : Nat} (h : i < blocksOf data.length) :
    (chunk data i).length = plainLen data.length i := by
  rw [plainLen]
  split
  next hlast => exact length_chunk_last hlast
  next hlast => exact length_chunk_full (by omega)

theorem plainLen_full {len i : Nat} (h : i + 1 < blocksOf len) : plainLen len i = fullBlock := if_neg (Nat.ne_of_lt h)

theorem plainLen_last {len i : Nat} (h : i + 1 = blocksOf len) : plainLen len i = len - i * fullBlock := if_pos h

namespace SealedFile

variable {K N : Type} {keys : FileKeys K N} (f : SealedFile keys)

def stride : Nat := fullBlock + f.aead.overhead

/-- What the reader takes for block `i` of a file with this file's length. -/
def place (src : Bytes) (i : Nat) : Bytes :=
  slice src (saltLen + i * f.stride) (plainLen f.data.length i + f.aead.overhead)

theorem length_sealedBlock {i : Nat} (h : i < f.blocks) :
    (f.sealedBlock i).length = plainLen f.data.length i + f.aead.overhead := by
  rw [sealedBlock, f.aead.length_seal, length_chunk_eq h]

theorem blocks_pos : 0 < f.blocks := blocksOf_pos _

theorem length_sealedBlock_full {i : Nat} (h : i < f.blocks - 1) : (f.sealedBlock i).length = f.stride := by
  rw [f.length_sealedBlock (by omega), plainLen_full (Nat.add_lt_of_lt_sub h)]
  rfl

theorem length_of_mem_full : ∀ part ∈ (List.range (f.blocks - 1)).map f.sealedBlock, part.length = f.stride := by
  intro part hpart
  obtain ⟨i, hi, rfl⟩ := List.mem_map.mp hpart
  exact f.length_sealedBlock_full (List.mem_range.mp hi)

theorem length_fullPart : ((List.range (f.blocks - 1)).map f.sealedBlock).flatten.length = (f.blocks - 1) * f.stride := by
  rw [length_flatten_of_forall f.length_of_mem_full, List.length_map, List.length_range]

/-- Each block is where the reader looks for it. -/
theorem place_bytes {i : Nat} (h : i < f.blocks) : f.place f.bytes i = f.sealedBlock i := by
  have hoff : f.salt.length ≤ saltLen + i * f.stride := by
    rw [f.salt_length]
    exact Nat.le_add_right _ _
  have hsub : saltLen + i * f.stride - f.salt.length = i * f.stride := by
    rw [f.salt_length]
    omega
  rw [place, bytes, slice_append_right hoff, hsub, ← f.length_sealedBlock h]
  rcases Nat.lt_or_ge i (f.blocks - 1) with hi | hi
  · have hlt : i < ((List.range (f.blocks - 1)).map f.sealedBlock).length := by simpa using hi
    have hend : i * f.stride + f.stride ≤ (f.blocks - 1) * f.stride :=
      Nat.succ_mul i f.stride ▸ Nat.mul_le_mul_right f.stride hi
    rw [f.length_sealedBlock_full hi, slice_append_left (by rw [f.length_fullPart]; exact hend),
      slice_flatten f.length_of_mem_full hlt]
    simp
  · obtain rfl : i = f.blocks - 1 := by omega
    rw [slice_append_right (by rw [f.length_fullPart]), f.length_fullPart, Nat.sub_self, slice_self]

theorem length_bytes : f.bytes.length = saltLen + ((f.blocks - 1) * f.stride +
    (f.data.length - (f.blocks - 1) * fullBlock + f.aead.overhead)) := by
  have hpos := f.blocks_pos
  have hlast : (f.sealedBlock (f.blocks - 1)).length = f.data.length - (f.blocks - 1) * fullBlock + f.aead.overhead := by
    rw [f.length_sealedBlock (by omega), plainLen_last (show f.blocks - 1 + 1 = blocksOf f.data.length from Nat.sub_add_cancel hpos)]
  rw [bytes, List.length_append, List.length_append, f.length_fullPart, f.salt_length, hlast]

end SealedFile

/-! ## What the reader returns -/

namespace SealedReader

variable {K N : Type} {keys : FileKeys K N} {f : SealedFile keys} {r r' : SealedReader N}

/-- The reader was opened on a text that has the file's length, and has cached only the file's blocks. -/
structure Open (f : SealedFile keys) (r : SealedReader N) : Prop where
  aead : r.aead = f.aead
  blocks : r.blocks = f.blocks
  total : r.total = f.data.length
  cached : ∀ c ∈ r.cached, c.2 = chunk f.data c.1

/-- Whatever opens as block `i` in the text is block `i` of the file. -/
def Sound (f : SealedFile keys) (src : Bytes) : Prop :=
  ∀ i < f.blocks, ∀ plain, f.aead.openInPlace (f.aad i) (f.place src i) = some plain → plain = chunk f.data i

/-- Every block of the file opens in the text. -/
def Complete (f : SealedFile keys) (src : Bytes) : Prop :=
  ∀ i < f.blocks, f.place src i = f.sealedBlock i ∧ f.aead.openInPlace (f.aad i) (f.sealedBlock i) = some (chunk f.data i)

/-- `load`, in the words of the file. -/
theorem Open.load_eq (h : Open f r) (i : Nat) : r.load i =
    if r.cached.map Prod.fst = some i then .ok r
    else if (f.place r.src i).length < plainLen f.data.length i + f.aead.overhead then .error .unexpectedEof
    else
      match f.aead.openInPlace (f.aad i) (f.place r.src i) with
      | none => .error (.tamper (some i))
      | some plain => .ok { r with cached := some (i, plain) } := by
  rw [load, h.aead, h.blocks, h.total]
  rfl

theorem Complete.sound {src : Bytes} (h : Complete f src) : Sound f src := by
  intro i hi plain hopen
  obtain ⟨hplace, hblock⟩ := h i hi
  rw [hplace, hblock] at hopen
  exact (Option.some.inj hopen).symm

/-- A block that is loaded is the file's, and nothing else about the reader changes. -/
theorem Open.load (h : Open f r) (hsound : Sound f r.src) {i : Nat} (hi : i < f.blocks) (hload : r.load i = .ok r') :
    Open f r' ∧ r'.src = r.src ∧ r'.pos = r.pos ∧ r'.cached = some (i, chunk f.data i) := by
  rw [h.load_eq] at hload
  split at hload
  next hcached =>
    cases hload
    obtain ⟨c, hc, rfl⟩ := Option.map_eq_some_iff.mp hcached
    exact ⟨h, rfl, rfl, by rw [hc, ← h.cached c hc]⟩
  next =>
    split at hload
    · cases hload
    · split at hload
      · cases hload
      next plain hopen =>
        cases hload
        have hplain := hsound i hi plain hopen
        refine ⟨⟨h.aead, h.blocks, h.total, ?_⟩, rfl, rfl, by rw [hplain]⟩
        intro c hc
        cases hc
        exact hplain

/-- On the file itself every block loads. -/
theorem Open.load_ok (h : Open f r) (hsrc : Complete f r.src) {i : Nat} (hi : i < f.blocks) :
    ∃ r', r.load i = .ok r' := by
  obtain ⟨hplace, hblock⟩ := hsrc i hi
  rw [h.load_eq]
  split
  · exact ⟨r, rfl⟩
  · rw [hplace, if_neg (by rw [f.length_sealedBlock hi]; exact Nat.lt_irrefl _), hblock]
    exact ⟨_, rfl⟩

/-- What a `read` of `len` bytes may answer at a place in some data: not nothing, unless there is nothing. -/
def Returned (data : Bytes) (pos len : Nat) (out : Bytes) : Prop :=
  out = slice data pos out.length ∧ out.length ≤ len ∧ (out = [] → data.length ≤ pos ∨ len = 0)

/-- What is taken out of the block under a position, is taken out of the data there. -/
theorem returned_chunk {data : Bytes} {pos len : Nat} (hpos : pos < data.length) (hlen : len ≠ 0) :
    (slice (chunk data (pos / fullBlock)) (pos % fullBlock)
        (min ((chunk data (pos / fullBlock)).length - pos % fullBlock) len)).length =
      min ((chunk data (pos / fullBlock)).length - pos % fullBlock) len ∧
    Returned data pos len (slice (chunk data (pos / fullBlock)) (pos % fullBlock)
        (min ((chunk data (pos / fullBlock)).length - pos % fullBlock) len)) := by
  have hmod : pos / fullBlock * fullBlock + pos % fullBlock = pos := Nat.div_add_mod' _ _
  have hwithin : pos % fullBlock < fullBlock := Nat.mod_lt _ fullBlock_pos
  have hchunk := length_chunk data (pos / fullBlock)
  generalize hn : min ((chunk data (pos / fullBlock)).length - pos % fullBlock) len = n
  have hlength : (slice (chunk data (pos / fullBlock)) (pos % fullBlock) n).length = n :=
    length_slice_of_le (by omega)
  have hslice : slice (chunk data (pos / fullBlock)) (pos % fullBlock) n = slice data pos n := by
    rw [chunk, slice_slice (by omega), hmod]
  refine ⟨hlength, ?_, ?_, ?_⟩
  · rw [hlength, hslice]
  · rw [hlength]
    omega
  · intro hempty
    rw [hempty] at hlength
    simp only [List.length_nil] at hlength
    omega

/-- A `read` keeps the reader open on the file. It fails and does not move, or it returns bytes of the file from where it
stands and moves past them; on the file itself it does not fail. -/
theorem Open.read (h : Open f r) (hsound : Sound f r.src) (len : Nat) :
    Open f (r.read len).1 ∧ (r.read len).1.src = r.src ∧
      ((∃ e, (r.read len).2 = .error e ∧ (r.read len).1.pos = r.pos ∧ ¬ Complete f r.src) ∨
        ∃ out, (r.read len).2 = .ok out ∧ Returned f.data r.pos len out ∧ (r.read len).1.pos = r.pos + out.length) := by
  by_cases hnone : r.total ≤ r.pos ∨ len = 0
  · rw [SealedReader.read, if_pos hnone]
    exact ⟨h, rfl, .inr ⟨[], rfl, ⟨by simp, Nat.zero_le _, fun _ => h.total ▸ hnone⟩, rfl⟩⟩
  have hinside : r.pos < f.data.length ∧ len ≠ 0 := by
    rw [h.total] at hnone
    omega
  have hi : r.pos / fullBlock < f.blocks := by
    have hspec := blocksOf_spec f.data.length
    refine Nat.div_lt_of_lt_mul ?_
    rw [Nat.mul_comm]
    exact Nat.lt_of_lt_of_le hinside.1 hspec.2
  rw [SealedReader.read, if_neg hnone]
  cases hload : r.load (r.pos / fullBlock) with
  | error e =>
      refine ⟨h, rfl, .inl ⟨e, rfl, rfl, fun hcomplete => ?_⟩⟩
      obtain ⟨r', hr'⟩ := h.load_ok hcomplete hi
      rw [hload] at hr'
      cases hr'
  | ok r' =>
      obtain ⟨hopen, hsrc, hpos, hcached⟩ := h.load hsound hi hload
      obtain ⟨hlength, hreturned⟩ := returned_chunk hinside.1 hinside.2
      simp only [hcached, hpos, Option.map_some, Option.getD_some]
      refine ⟨⟨hopen.aead, hopen.blocks, hopen.total, ?_⟩, hsrc, .inr ⟨_, rfl, hreturned, ?_⟩⟩
      · exact hcached ▸ hopen.cached
      · rw [hlength]

/-- A `seek` only moves. -/
theorem Open.seek (h : Open f r) (place : SeekFrom) : Open f (r.seek place).1 ∧ (r.seek place).1.src = r.src := by
  rw [SealedReader.seek]
  split
  · exact ⟨h, rfl⟩
  · exact ⟨⟨h.aead, h.blocks, h.total, h.cached⟩, rfl⟩

/-- Any calls leave the reader open on the file. -/
theorem Open.run : ∀ (calls : List Call) {r : SealedReader N}, Open f r → Sound f r.src →
    Open f (r.run calls).1 ∧ (r.run calls).1.src = r.src
  | [], r, h, _ => ⟨h, rfl⟩
  | call :: calls, r, h, hsound => by
      have hstep : Open f (r.step call).1 ∧ (r.step call).1.src = r.src := by
        cases call with
        | read len => exact ⟨(h.read hsound len).1, (h.read hsound len).2.1⟩
        | seek place => exact h.seek place
      have ih := Open.run calls hstep.1 (hstep.2 ▸ hsound)
      exact ⟨ih.1, ih.2.trans hstep.2⟩

/-! ## A cursor -/

/-- The answers are those of a cursor over `data` that stands at `pos`: a read returns bytes from there and moves past
them, a seek goes where it is told. Nothing is said once a seek goes below zero or beyond the last place. -/
def Follows (data : Bytes) : Nat → List Call → List Answer → Prop
  | _, [], answers => answers = []
  | pos, .read len :: calls, answers => ∃ out rest, answers = .bytes (.ok out) :: rest ∧ Returned data pos len out ∧
      Follows data (pos + out.length) calls rest
  | pos, .seek place :: calls, answers =>
      0 ≤ place.target data.length pos → place.target data.length pos < 2 ^ 64 →
        ∃ rest, answers = .place (.ok (place.target data.length pos).toNat) :: rest ∧
          Follows data (place.target data.length pos).toNat calls rest

/-- A reader on the file itself is a cursor over its data. -/
theorem Open.follows : ∀ (calls : List Call) {r : SealedReader N}, Open f r → Complete f r.src →
    Follows f.data r.pos calls (r.run calls).2
  | [], _, _, _ => rfl
  | .read len :: calls, r, h, hsrc => by
      obtain ⟨hopen, hsame, hanswer⟩ := h.read hsrc.sound len
      rcases hanswer with ⟨e, -, -, hnot⟩ | ⟨out, hout, hreturned, hpos⟩
      · exact absurd hsrc hnot
      have ih := Open.follows calls hopen (hsame ▸ hsrc)
      rw [hpos] at ih
      exact ⟨out, _, by rw [SealedReader.run, step, hout], hreturned, ih⟩
  | .seek place :: calls, r, h, hsrc => by
      intro hlow hhigh
      generalize htarget : place.target f.data.length r.pos = target at hlow hhigh ⊢
      have hplace : target.toNat % 2 ^ 64 = target.toNat := Nat.mod_eq_of_lt (by omega)
      have hseek : r.seek place = ({ r with pos := target.toNat }, .ok target.toNat) := by
        rw [SealedReader.seek, h.total, htarget, if_neg (by omega), hplace]
      obtain ⟨hopen, hsame⟩ := h.seek place
      have ih := Open.follows calls hopen (hsame ▸ hsrc)
      rw [hseek] at ih
      exact ⟨_, by rw [SealedReader.run, step, hseek], ih⟩

/-! ## Opening -/

/-- The reader before its last block is loaded. -/
def unread (aead : FileCipher N) (src : Bytes) : SealedReader N :=
  let stride := fullBlock + aead.overhead
  let payload := src.length - saltLen
  let blocks := (payload + stride - 1) / stride
  { src, aead, blocks,
    total := (blocks - 1) * fullBlock + (payload - (blocks - 1) * stride - aead.overhead), pos := 0, cached := none }

/-- What has to hold for a file to be opened. -/
theorem new_eq_ok {label binding : String} {src : Bytes} : new keys label binding src = .ok r ↔
    saltLen ≤ src.length ∧ ∃ key, keys.fileKey label binding (src.take saltLen) = .ok key ∧
      (keys.cipher key).overhead ≤ src.length - saltLen ∧
      (keys.cipher key).overhead ≤ src.length - saltLen -
        ((unread (keys.cipher key) src).blocks - 1) * (fullBlock + (keys.cipher key).overhead) ∧
      (unread (keys.cipher key) src).load ((unread (keys.cipher key) src).blocks - 1) = .ok r := by
  rw [new]
  by_cases hsalt : src.length < saltLen
  · simp [hsalt, Nat.not_le.mpr hsalt]
  rw [if_neg hsalt]
  cases hkey : keys.fileKey label binding (src.take saltLen) with
  | error e => simp [bind, Except.bind]
  | ok key =>
      simp only [bind, Except.bind, Except.ok.injEq, exists_eq_left', Nat.not_lt.mp hsalt, true_and]
      by_cases hpayload : src.length - saltLen < (keys.cipher key).overhead
      · simp [hpayload, Nat.not_le.mpr hpayload]
      rw [if_neg hpayload]
      simp only [Nat.not_lt.mp hpayload, true_and]
      by_cases hlast : src.length - saltLen -
          ((unread (keys.cipher key) src).blocks - 1) * (fullBlock + (keys.cipher key).overhead) < (keys.cipher key).overhead
      · have hne := Nat.not_le.mpr hlast
        simp only [unread] at hlast hne ⊢
        simp [hlast, hne]
      · have hle := Nat.not_lt.mp hlast
        simp only [unread] at hlast hle ⊢
        simp [hlast, hle]

/-- The blocks and the length a reader finds in `blocks` blocks of which the last has `rest` bytes. -/
theorem unread_eq {aead : FileCipher N} {src : Bytes} {m rest : Nat} (hrest : rest ≤ fullBlock)
    (hlen : src.length = saltLen + (m * (fullBlock + aead.overhead) + (rest + aead.overhead))) :
    (unread aead src).blocks = m + 1 ∧ (unread aead src).total = m * fullBlock + rest ∧
      src.length - saltLen - m * (fullBlock + aead.overhead) = rest + aead.overhead := by
  have hpos := aead.overhead_pos
  have hpayload : src.length - saltLen = m * (fullBlock + aead.overhead) + (rest + aead.overhead) := by omega
  have hblocks : (m * (fullBlock + aead.overhead) + (rest + aead.overhead) + (fullBlock + aead.overhead) - 1) /
      (fullBlock + aead.overhead) = m + 1 := by
    refine Nat.div_eq_of_lt_le ?_ ?_
    · rw [Nat.add_mul, Nat.one_mul]
      omega
    · rw [Nat.add_mul, Nat.add_mul, Nat.one_mul]
      omega
  simp only [unread, hpayload, hblocks, Nat.add_sub_cancel, Nat.add_sub_cancel_left, and_self]

/-- The file itself opens. -/
theorem new_bytes (hcomplete : Complete f f.bytes) :
    ∃ r, new keys f.label f.binding f.bytes = .ok r ∧ Open f r ∧ r.src = f.bytes ∧ r.pos = 0 := by
  have hspec := blocksOf_spec f.data.length
  have hpos := f.blocks_pos
  have hrest : f.data.length - (f.blocks - 1) * fullBlock ≤ fullBlock := by
    have hmul : f.blocks * fullBlock = (f.blocks - 1) * fullBlock + fullBlock := by
      rw [← Nat.succ_mul, Nat.succ_eq_add_one, Nat.sub_add_cancel hpos]
    have hle : f.data.length ≤ f.blocks * fullBlock := hspec.2
    omega
  obtain ⟨hblocks, htotal, hlast⟩ := unread_eq hrest f.length_bytes
  have hsalt : f.bytes.take saltLen = f.salt := by
    rw [SealedFile.bytes, ← f.salt_length, List.take_left]
  have hopen : Open f (unread f.aead f.bytes) := by
    refine ⟨rfl, by rw [hblocks, Nat.sub_add_cancel hpos], ?_, nofun⟩
    rw [htotal]
    exact Nat.add_sub_cancel' hspec.1
  obtain ⟨r, hr⟩ := hopen.load_ok hcomplete (i := f.blocks - 1) (by omega)
  obtain ⟨hr', hsrc, hzero, -⟩ := hopen.load hcomplete.sound (by omega) hr
  refine ⟨r, new_eq_ok.mpr ⟨?_, f.key, hsalt ▸ f.key_eq, ?_, ?_, ?_⟩, hr', hsrc, hzero⟩
  · rw [f.length_bytes]
    omega
  · change f.aead.overhead ≤ _
    rw [f.length_bytes]
    omega
  · change f.aead.overhead ≤ f.bytes.length - saltLen - ((unread f.aead f.bytes).blocks - 1) * (fullBlock + f.aead.overhead)
    rw [hblocks, Nat.add_sub_cancel, hlast]
    omega
  · change (unread f.aead f.bytes).load ((unread f.aead f.bytes).blocks - 1) = .ok r
    rw [hblocks, Nat.add_sub_cancel]
    exact hr

end SealedReader

/-! ## A cipher that opens only what was sealed -/

/-- The associated data tells the number of a block, whether it is the last, and the length. -/
theorem fileAad_inj {i j : Nat} {x y : Option Nat} (hi : i < 2 ^ 64) (hj : j < 2 ^ 64) (hx : ∀ t ∈ x, t < 2 ^ 64)
    (hy : ∀ t ∈ y, t < 2 ^ 64) (h : fileAad i x = fileAad j y) : i = j ∧ x = y := by
  obtain ⟨-, htail⟩ := List.cons_eq_cons.mp h
  obtain ⟨hindex, hrest⟩ := List.append_inj htail (by simp)
  refine ⟨leBytes_injective (by simpa using hi) (by simpa using hj) hindex, ?_⟩
  cases x with
  | none =>
      cases y with
      | none => rfl
      | some t => simp at hrest
  | some s =>
      cases y with
      | none => simp at hrest
      | some t =>
          obtain ⟨-, htotal⟩ := List.cons_eq_cons.mp hrest
          rw [leBytes_injective (by simpa using hx s rfl) (by simpa using hy t rfl) htotal]

namespace FileKeys

variable {K N : Type} (keys : FileKeys K N)

/-- Every sealed block opens to what was sealed. -/
def Correct : Prop := ∀ key nonce aad plain, (keys.cipher key).openInPlace aad ((keys.cipher key).sealInto nonce aad plain) = some plain

/-- The files written under the keys, when the cipher is an ideal one: it opens only what was sealed under the same key
and associated data, files of another kind, name or salt have another key, and no salt was drawn twice. -/
structure Ideal (files : List (SealedFile keys)) : Prop where
  opens : ∀ key aad raw plain, (keys.cipher key).openInPlace aad raw = some plain →
    ∃ f ∈ files, f.key = key ∧ ∃ i < f.blocks, aad = f.aad i ∧ raw = f.sealedBlock i ∧ plain = chunk f.data i
  distinct : ∀ {label label' binding binding' salt salt' key}, keys.fileKey label binding salt = .ok key →
    keys.fileKey label' binding' salt' = .ok key → label = label' ∧ binding = binding' ∧ salt = salt'
  salts : ∀ f ∈ files, ∀ g ∈ files, f.salt = g.salt → f = g
  /-- lengths are 64-bit numbers -/
  lengths : ∀ f ∈ files, f.data.length < 2 ^ 64

end FileKeys

namespace SealedReader

variable {K N : Type} {keys : FileKeys K N} {files : List (SealedFile keys)} {f : SealedFile keys}

theorem aad_inj (hf : f.data.length < 2 ^ 64) {i j : Nat} {x : Option Nat} (hi : i < f.blocks) (hj : j < 2 ^ 64)
    (hx : ∀ t ∈ x, t < 2 ^ 64) (h : fileAad j x = f.aad i) :
    j = i ∧ x = if i + 1 = f.blocks then some f.data.length else none := by
  refine fileAad_inj hj ?_ hx ?_ h
  · have hblocks : f.blocks = (f.data.length - 1) / fullBlock + 1 := rfl
    simp only [fullBlock] at hblocks
    omega
  · intro t ht
    split at ht
    · cases ht
      exact hf
    · cases ht

/-- Files that have a key in common are one file. -/
theorem eq_of_key (h : keys.Ideal files) {f g : SealedFile keys} (hf : f ∈ files) (hg : g ∈ files) (hkey : g.key = f.key) :
    g = f :=
  h.salts g hg f hf (h.distinct g.key_eq (hkey ▸ f.key_eq)).2.2

/-- In any text at all, what opens as a block of a file is that block. -/
theorem sound_of_ideal (h : keys.Ideal files) (hf : f ∈ files) (src : Bytes) : Sound f src := by
  intro i hi plain hopen
  obtain ⟨g, hg, hkey, j, hj, haad, -, hplain⟩ := h.opens f.key _ _ _ hopen
  obtain rfl := eq_of_key h hf hg hkey
  have hlen := h.lengths g hg
  have hi64 : i < 2 ^ 64 := by
    have hblocks : g.blocks = (g.data.length - 1) / fullBlock + 1 := rfl
    simp only [fullBlock] at hblocks
    omega
  have hlast : ∀ t ∈ (if i + 1 = g.blocks then some g.data.length else none), t < 2 ^ 64 := by
    intro t ht
    split at ht
    · cases ht
      exact hlen
    · cases ht
  rw [hplain, (aad_inj hlen hj hi64 hlast haad).1]

/-- A reader opened on a text of 64-bit length has at least one block, and its numbers are 64-bit ones. -/
theorem unread_bounds {aead : FileCipher N} {src : Bytes} (hsrc : src.length < 2 ^ 64)
    (hpayload : aead.overhead ≤ src.length - saltLen)
    (hlast : aead.overhead ≤ src.length - saltLen - ((unread aead src).blocks - 1) * (fullBlock + aead.overhead)) :
    1 ≤ (unread aead src).blocks ∧ (unread aead src).blocks - 1 < 2 ^ 64 ∧ (unread aead src).total < 2 ^ 64 := by
  have hpos := aead.overhead_pos
  have hone : 1 ≤ (unread aead src).blocks := by
    refine (Nat.one_le_div_iff (by omega)).mpr ?_
    omega
  have htotal : (unread aead src).total = ((unread aead src).blocks - 1) * fullBlock +
      (src.length - saltLen - ((unread aead src).blocks - 1) * (fullBlock + aead.overhead) - aead.overhead) := rfl
  have hmul : ((unread aead src).blocks - 1) * (fullBlock + aead.overhead) =
      ((unread aead src).blocks - 1) * fullBlock + ((unread aead src).blocks - 1) * aead.overhead := Nat.mul_add _ _ _
  have hle : (unread aead src).blocks - 1 ≤ ((unread aead src).blocks - 1) * fullBlock :=
    Nat.le_mul_of_pos_right _ fullBlock_pos
  omega

/-- Loading the last block with nothing cached opens it with the length. -/
theorem load_last {r r' : SealedReader N} {i : Nat} (hcached : r.cached = none) (hlast : i + 1 = r.blocks)
    (hload : r.load i = .ok r') : ∃ plain,
      r.aead.openInPlace (fileAad i (some r.total)) (slice r.src (saltLen + i * (fullBlock + r.aead.overhead))
        (r.total - i * fullBlock + r.aead.overhead)) = some plain ∧ r' = { r with cached := some (i, plain) } := by
  simp only [load, hcached, Option.map_none, reduceCtorEq, if_false, hlast, if_true] at hload
  split at hload
  · cases hload
  · split at hload
    · cases hload
    · next plain hopen =>
        cases hload
        exact ⟨plain, hopen, rfl⟩

/-- A text that opens has the salt of a file written under that label and binding, and its length. -/
theorem open_of_ideal (h : keys.Ideal files) {label binding : String} {src : Bytes} (hsrc : src.length < 2 ^ 64)
    {r : SealedReader N} (hnew : new keys label binding src = .ok r) :
    ∃ f ∈ files, f.salt = src.take saltLen ∧ f.label = label ∧ f.binding = binding ∧ Open f r := by
  obtain ⟨-, key, hkey, hpayload, hlast, hload⟩ := new_eq_ok.mp hnew
  obtain ⟨hblocks, hblocks64, htotal64⟩ := unread_bounds hsrc hpayload hlast
  obtain ⟨plain, hopen, rfl⟩ := load_last rfl (Nat.sub_add_cancel hblocks) hload
  obtain ⟨f, hf, rfl, i, hi, haad, -, hplain⟩ := h.opens key _ _ _ hopen
  obtain ⟨hlabel, hbinding, hsalt⟩ := h.distinct f.key_eq hkey
  have htotal : ∀ t ∈ some (unread (keys.cipher f.key) src).total, t < 2 ^ 64 := by
    intro t ht
    cases ht
    exact htotal64
  -- only the last block is sealed with a length, so the text has the file's blocks and its length
  obtain ⟨hindex, hlength⟩ := aad_inj (h.lengths f hf) hi hblocks64 htotal haad
  split at hlength
  · next hi' =>
      refine ⟨f, hf, hsalt, hlabel, hbinding, rfl, ?_, Option.some.inj hlength, ?_⟩
      · rw [← hi', ← hindex]
        exact (Nat.sub_add_cancel hblocks).symm
      · intro c hc
        cases hc
        rw [hindex]
        exact hplain
  · cases hlength

end SealedReader

/-! ## Sealed stream files -/

section Main

variable {K N : Type}

theorem SealedWriter.new_eq_ok {keys : FileKeys K N} {label binding : String} {salt : Bytes} {nonces : Nat → N}
    {w : SealedWriter N} (h : SealedWriter.new keys label binding salt nonces = .ok w) :
    ∃ key, keys.fileKey label binding salt = .ok key ∧ w.aead = keys.cipher key ∧ w.nonces = nonces ∧
      w.Holds salt [] ∧ w.Kept := by
  cases hkey : keys.fileKey label binding salt with
  | error e => simp [SealedWriter.new, hkey, bind, Except.bind] at h
  | ok key =>
      simp only [SealedWriter.new, hkey, bind, Except.bind, Except.ok.injEq] at h
      subst h
      exact ⟨key, rfl, rfl, rfl, ⟨by simp, by simp, by simp, Nat.zero_le _, rfl⟩, .inl rfl⟩

theorem SealedWriter.writes_aead (calls : List Bytes) (w : SealedWriter N) :
    (w.writes calls).1.aead = w.aead ∧ (w.writes calls).1.nonces = w.nonces := by
  induction calls generalizing w with
  | nil => exact ⟨rfl, rfl⟩
  | cons data calls ih =>
      have hwrite : (w.write data).1.aead = w.aead ∧ (w.write data).1.nonces = w.nonces := by
        rw [SealedWriter.write]
        split_ifs <;> exact ⟨rfl, rfl⟩
      exact ⟨(ih _).1.trans hwrite.1, (ih _).2.trans hwrite.2⟩

/-- Sealed stream files return what was written, or an error. With a correct cipher the bytes that any calls of `write`
took are read back as by a cursor, and `write_all` gets all of its data taken. With an ideal one, any text that opens
carries the salt of a file written under that label and binding and has its length, and after any calls each read
returns that file's bytes from where it stands, or an error. -/
theorem sealed_files_return_written (keys : FileKeys K N) :
    (keys.Correct → ∀ label binding salt nonces w, salt.length = saltLen →
      SealedWriter.new keys label binding salt nonces = .ok w → ∀ calls,
        (∀ data, ((w.writes calls).1.writes ((w.writes calls).1.writeAllCalls data.length data)).2 = data) ∧
        ∃ r, SealedReader.new keys label binding (w.writes calls).1.finish = .ok r ∧
          r.total = (w.writes calls).2.length ∧
          ∀ reads, SealedReader.Follows (w.writes calls).2 0 reads (r.run reads).2) ∧
    (∀ files, keys.Ideal files → ∀ label binding src, src.length < 2 ^ 64 → ∀ r,
      SealedReader.new keys label binding src = .ok r →
        ∃ f ∈ files, f.salt = src.take saltLen ∧ f.label = label ∧ f.binding = binding ∧ r.total = f.data.length ∧
          ∀ calls len, (∃ e, ((r.run calls).1.read len).2 = .error e) ∨
            ∃ out, ((r.run calls).1.read len).2 = .ok out ∧
              SealedReader.Returned f.data (r.run calls).1.pos len out) := by
  constructor
  · intro hcorrect label binding salt nonces w hsalt hnew calls
    obtain ⟨key, hkey, haead, hnonces, hholds, hkept⟩ := SealedWriter.new_eq_ok hnew
    obtain ⟨hholds', hkept'⟩ := hholds.writes calls hkept
    refine ⟨fun data => hholds'.writeAll data.length hkept' (Nat.le_refl _), ?_⟩
    let f : SealedFile keys := ⟨label, binding, salt, nonces, (w.writes calls).2, key, hkey, hsalt⟩
    have hfinish : (w.writes calls).1.finish = f.bytes :=
      SealedWriter.Holds.finish f hholds' hkept' ((SealedWriter.writes_aead calls w).1.trans haead)
        ((SealedWriter.writes_aead calls w).2.trans hnonces)
    have hcomplete : SealedReader.Complete f f.bytes := fun i hi => ⟨f.place_bytes hi, hcorrect _ _ _ _⟩
    obtain ⟨r, hr, hopen, hsrc, hpos⟩ := SealedReader.new_bytes hcomplete
    have hfollows := fun reads => hopen.follows reads (hsrc ▸ hcomplete)
    rw [hpos] at hfollows
    exact ⟨r, hfinish ▸ hr, hopen.total, hfollows⟩
  · intro files hideal label binding src hsrc r hnew
    obtain ⟨f, hf, hsalt, hlabel, hbinding, hopen⟩ := SealedReader.open_of_ideal hideal hsrc hnew
    refine ⟨f, hf, hsalt, hlabel, hbinding, hopen.total, fun calls len => ?_⟩
    have hrun := (hopen.run calls (SealedReader.sound_of_ideal hideal hf _)).1
    rcases (hrun.read (SealedReader.sound_of_ideal hideal hf _) len).2.2 with ⟨e, he, -⟩ | ⟨out, hout, hreturned, -⟩
    · exact .inl ⟨e, he⟩
    · exact .inr ⟨out, hout, hreturned⟩

end Main

/-! ### Two sets of keys -/

/-- Keys whose cipher marks and opens whatever has the mark. -/
def markingKeys : FileKeys Unit Unit where
  fileKey _ _ _ := .ok ()
  cipher _ :=
    { overhead := Aead.marking.overhead, overhead_pos := by decide, sealInto := Aead.marking.sealInto,
      openInPlace := Aead.marking.openInPlace, length_seal := Aead.marking.length_seal }

/-- Keys that are their own names, with a cipher that opens one block: the byte 7, alone in its file. -/
def oneBlockKeys : FileKeys (String × String × Bytes) Unit where
  fileKey label binding salt := .ok (label, binding, salt)
  cipher key :=
    { overhead := 1, overhead_pos := by decide, sealInto := fun _ _ plain => plain ++ [1],
      openInPlace := fun aad raw =>
        if key = ("blob", "t/1", zeros saltLen) ∧ aad = fileAad 0 (some 1) ∧ raw = [7, 1] then some [7] else none
      length_seal := fun _ _ _ => by simp }

def oneBlockFile : SealedFile oneBlockKeys where
  label := "blob"
  binding := "t/1"
  salt := zeros saltLen
  nonces := fun _ => ()
  data := [7]
  key := ("blob", "t/1", zeros saltLen)
  key_eq := rfl
  salt_length := by simp

theorem oneBlock_ideal : oneBlockKeys.Ideal [oneBlockFile] where
  opens := by
    intro key aad raw plain hopen
    simp only [oneBlockKeys, Option.ite_none_right_eq_some] at hopen
    obtain ⟨⟨rfl, rfl, rfl⟩, hplain⟩ := hopen
    refine ⟨oneBlockFile, List.mem_singleton.mpr rfl, rfl, 0, by decide, by decide, by decide, ?_⟩
    rw [← Option.some.inj hplain]
    decide
  distinct := by
    intro label label' binding binding' salt salt' key h h'
    cases h
    cases h'
    exact ⟨rfl, rfl, rfl⟩
  salts := by
    intro f hf g hg _
    rw [List.mem_singleton.mp hf, List.mem_singleton.mp hg]
  lengths := by
    intro f hf
    rw [List.mem_singleton.mp hf]
    decide

theorem sealed_files_return_written_samples :
    (∃ w r, SealedWriter.new markingKeys "blob" "t/1" (zeros saltLen) (fun _ => ()) = .ok w ∧
      SealedReader.new markingKeys "blob" "t/1" (w.writes [[1, 2], [3]]).1.finish = .ok r ∧ r.total = 3) ∧
    ∃ r, SealedReader.new oneBlockKeys "blob" "t/1" (zeros saltLen ++ [7, 1]) = .ok r ∧ r.total = 1 := by
  constructor
  · have hcorrect : markingKeys.Correct := fun _ n aad plain => Aead.marking.open_seal n aad plain
    obtain ⟨-, r, hr, htotal, -⟩ := (sealed_files_return_written markingKeys).1 hcorrect "blob" "t/1" (zeros saltLen)
      (fun _ => ()) _ (by simp) rfl [[1, 2], [3]]
    exact ⟨_, r, rfl, hr, htotal.trans (by decide)⟩
  · cases hnew : SealedReader.new oneBlockKeys "blob" "t/1" (zeros saltLen ++ [7, 1]) with
    | error e =>
        have hok : (SealedReader.new oneBlockKeys "blob" "t/1" (zeros saltLen ++ [7, 1])).isOk = true := by decide
        rw [hnew] at hok
        cases hok
    | ok r =>
        obtain ⟨f, hf, -, -, -, htotal, -⟩ := (sealed_files_return_written oneBlockKeys).2 _ oneBlock_ideal "blob" "t/1" _
          (by decide) r hnew
        rw [List.mem_singleton.mp hf] at htotal
        exact ⟨r, rfl, htotal⟩

end CloveDb.Encrypted
