/-
# CloveDb.Encrypted.HeaderTear — a header write that is cut short

redb's header reaches the file in up to three piece writes: the two commit slots, then the main
bytes into the copy that is not the newest. Here a process makes any number of header calls and
stops somewhere in the last one, between two piece writes or inside one; the piece being written
then holds any mix of its old and its new bytes, and a mix that is neither does not open.

`torn_header_call` says what the next `load_header` finds. The proof works on the four raw pieces:
a crash replaces at most one of them by a mix, the writes before it are whole, and the order of the
writes does the rest.
-/
import CloveDb.Encrypted.Header

namespace CloveDb.Encrypted

open CloveDb.Lib

variable {N : Type} (aead : Aead N)

/-! ## Calls and crashes -/

/-- The two commit slots open, and so does a main copy. -/
structure Whole (file : Bytes) : Prop where
  slot1 : ∃ p, readPiece aead file 2 1 = .ok (some p)
  slot2 : ∃ p, readPiece aead file 3 2 = .ok (some p)
  main : ∃ (copy : Fin 2) (p : Bytes), readPiece aead file copy 0 = .ok (some p)

/-- The file and the header in memory after opening `start` and making header calls that returned.
A refused call changes neither, so it needs no case of its own. -/
inductive Ran (start : Bytes) : Bytes → Header → Prop
  | opened : Ran start start (loadHeader aead start .blank)
  | returned {file : Bytes} {h h' : Header} {nonce : Nat → N} {offset : Nat} {data : Bytes}
      {ws : List PieceWrite} (ran : Ran start file h)
      (call : writeHeaderRange aead false nonce h offset data = (ws, .ok h')) :
      Ran start (applyWrites file ws) h'

/-- The piece `w` was being written over `old` when the process stopped, and `mix` is what is
there: each byte is old or new, and a mix that is neither piece fails authentication. -/
structure Torn (old : Bytes) (w : PieceWrite) (mix : Bytes) : Prop where
  length_mix : mix.length = pieceLen
  byte : ∀ i : Nat, mix[i]? = old[i]? ∨ mix[i]? = w.sealed[i]?
  closed : mix ≠ old → mix ≠ w.sealed → aead.openInPlace (pieceAad w.piece) mix = none

/-- What a file can be when the process stops while it makes the writes `ws`. -/
inductive CrashFile : Bytes → List PieceWrite → Bytes → Prop
  | stop (file : Bytes) (ws : List PieceWrite) : CrashFile file ws file
  | torn {file mix : Bytes} {w : PieceWrite} {ws : List PieceWrite}
      (tear : Torn aead (pieceRaw file w.copy) w mix) :
      CrashFile file (w :: ws) (writeAt file (pieceOffset w.copy) mix)
  | next {file f : Bytes} {w : PieceWrite} {ws : List PieceWrite}
      (rest : CrashFile (w.apply file) ws f) : CrashFile file (w :: ws) f

/-! ## Crashes of the raw pieces -/

/-- `CrashFile`, on the raw pieces. -/
inductive CrashRaws : (Nat → Bytes) → List PieceWrite → (Nat → Bytes) → Prop
  | stop (raws : Nat → Bytes) (ws : List PieceWrite) : CrashRaws raws ws raws
  | torn {raws : Nat → Bytes} {mix : Bytes} {w : PieceWrite} {ws : List PieceWrite}
      (tear : Torn aead (raws w.copy) w mix) :
      CrashRaws raws (w :: ws) (Function.update raws w.copy mix)
  | next {raws r : Nat → Bytes} {w : PieceWrite} {ws : List PieceWrite}
      (rest : CrashRaws (w.on raws) ws r) : CrashRaws raws (w :: ws) r

variable {aead}

theorem CrashFile.raws {file f : Bytes} {ws : List PieceWrite} (h : CrashFile aead file ws f)
    (hf : dataBase ≤ file.length) (hw : ∀ w ∈ ws, w.Fits) :
    CrashRaws aead (pieceRaw file) ws (pieceRaw f) := by
  induction h with
  | stop file ws => exact .stop _ _
  | torn tear =>
      rw [pieceRaw_writeAt hf (hw _ List.mem_cons_self).1 tear.length_mix]
      exact .torn tear
  | next rest ih =>
      have hfit := hw _ List.mem_cons_self
      have ih := ih (length_apply hf hfit ▸ hf) fun v hv => hw v (List.mem_cons_of_mem _ hv)
      exact .next (pieceRaw_apply hf hfit ▸ ih)

/-- A crash in two batches of writes is a crash in the first or, after it, in the second. -/
theorem CrashRaws.of_append {raws r : Nat → Bytes} {as bs : List PieceWrite}
    (h : CrashRaws aead raws (as ++ bs) r) :
    CrashRaws aead raws as r ∨ CrashRaws aead (as.foldl PieceWrite.on raws) bs r := by
  induction as generalizing raws with
  | nil => exact Or.inr h
  | cons w as ih =>
      cases h with
      | stop => exact Or.inl (.stop _ _)
      | torn tear => exact Or.inl (.torn tear)
      | next rest => exact (ih rest).imp_left .next

/-- A crash in at most one write leaves the pieces as they were, or that piece torn; a piece that
is written in full counts as torn. -/
theorem CrashRaws.of_single {raws r : Nat → Bytes} {w : PieceWrite} (hw : w.Fits)
    (h : CrashRaws aead raws [w] r) :
    r = raws ∨ ∃ mix, Torn aead (raws w.copy) w mix ∧ r = Function.update raws w.copy mix := by
  cases h with
  | stop => exact Or.inl rfl
  | torn tear => exact Or.inr ⟨_, tear, rfl⟩
  | next rest =>
      cases rest
      exact Or.inr ⟨w.sealed, ⟨hw.2, fun _ => Or.inr rfl, fun _ hne => absurd rfl hne⟩, rfl⟩

theorem CrashRaws.of_nil {raws r : Nat → Bytes} (h : CrashRaws aead raws [] r) : r = raws := by
  cases h
  rfl

/-- A torn slot piece reads as before, as the write meant it, or not at all. -/
theorem Torn.slotOf {old mix : Bytes} {w : PieceWrite} (h : Torn aead old w mix) :
    slotOf aead w.piece mix = slotOf aead w.piece old ∨
      slotOf aead w.piece mix = slotOf aead w.piece w.sealed ∨ slotOf aead w.piece mix = none := by
  by_cases ho : mix = old
  · exact Or.inl (ho ▸ rfl)
  · by_cases hn : mix = w.sealed
    · exact Or.inr (Or.inl (hn ▸ rfl))
    · exact Or.inr (Or.inr (slotOf_closed aead (h.closed ho hn)))

/-! ## One call, from whole pieces -/

/-- Raw pieces whose slots and best main copy open, with the header they load. -/
structure Sound (aead : Aead N) (raws : Nat → Bytes) (h : Header) : Prop where
  slot1 : slotOf aead 1 (raws 2) = some h.slot1
  slot2 : slotOf aead 2 (raws 3) = some h.slot2
  main : bestMain aead raws = some (h.seq, h.newestCopy, h.main)

theorem Sound.loads {raws : Nat → Bytes} {h : Header} (hs : Sound aead raws h) :
    Loads aead raws h := by
  constructor
  · rw [hs.main]
    rfl
  · rw [hs.main]
    rfl
  · rw [hs.main]
    rfl
  · rw [hs.slot1]
    rfl
  · rw [hs.slot2]
    rfl

/-- What a crashed slot piece reads as. -/
def OldNewOrNone (old new : Bytes) (now : Option Bytes) : Prop :=
  now = some old ∨ now = some new ∨ now = none

section SlotWrite

variable {raws r : Nat → Bytes} {nonce : N} {copy piece : Nat} {k : Header} {old new : Bytes}

/-- A crash in the write of one slot touches only that slot's piece, which then reads as the old
slot, as the new one, or not at all. -/
theorem CrashRaws.slot (hc : copy < 4)
    (h : CrashRaws aead raws (if old ≠ new then [writePiece aead nonce copy piece k] else []) r)
    (ho : slotOf aead piece (raws copy) = some old)
    (hn : slotOf aead piece (writePiece aead nonce copy piece k).sealed = some new) :
    OldNewOrNone old new (slotOf aead piece (r copy)) ∧ ∀ c ≠ copy, r c = raws c := by
  split at h
  · rcases h.of_single (writePiece_fits aead nonce hc piece k) with rfl | ⟨mix, tear, rfl⟩
    · exact ⟨Or.inl ho, fun _ _ => rfl⟩
    · refine ⟨?_, fun c hc => Function.update_of_ne hc ..⟩
      have hmix : Function.update raws (writePiece aead nonce copy piece k).copy mix copy = mix :=
        Function.update_self ..
      rw [hmix, OldNewOrNone, ← ho, ← hn]
      exact tear.slotOf
  · rw [h.of_nil]
    exact ⟨Or.inl ho, fun _ _ => rfl⟩

/-- The write of one slot, made in full where the slot differs. -/
theorem slotOf_written
    (ho : slotOf aead piece (raws copy) = some old)
    (hn : slotOf aead piece (writePiece aead nonce copy piece k).sealed = some new) :
    slotOf aead piece ((if old ≠ new then [writePiece aead nonce copy piece k] else []).foldl
        PieceWrite.on raws copy) = some new ∧
      ∀ c ≠ copy, (if old ≠ new then [writePiece aead nonce copy piece k] else []).foldl
        PieceWrite.on raws c = raws c := by
  split
  · refine ⟨?_, fun c hc => writePiece_on_ne aead nonce hc piece k raws⟩
    rw [List.foldl_cons, List.foldl_nil, writePiece_on_same, hn]
  · rename_i he
    exact ⟨not_not.mp he ▸ ho, fun _ _ => rfl⟩

end SlotWrite

/-- A crash in the write of the main bytes leaves the best copy as it was or makes the new one the
best. -/
theorem CrashRaws.main {raws r : Nat → Bytes} {h k : Header} {nonce : N}
    (hseq : h.seq.toNat + 1 < 2 ^ 64) (hk : k.seq = h.seq + 1)
    (hb : bestMain aead raws = some (h.seq, h.newestCopy, h.main))
    (hc : CrashRaws aead raws [writePiece aead nonce (h.newestCopy ^^^ 1 : Fin 2) 0 k] r) :
    (bestMain aead r = bestMain aead raws ∨
      bestMain aead r = some (h.seq + 1, h.newestCopy ^^^ 1, k.main)) ∧
      ∀ c, 2 ≤ c → r c = raws c := by
  have hlt := otherCopy_lt_two h.newestCopy
  have hfit := writePiece_fits aead nonce (show ((h.newestCopy ^^^ 1 : Fin 2) : Nat) < 4 by omega) 0 k
  rcases hc.of_single hfit with rfl | ⟨mix, tear, rfl⟩
  · exact ⟨Or.inl rfl, fun _ _ => rfl⟩
  · refine ⟨?_, fun c hc => Function.update_of_ne (fun e => ?_) ..⟩
    · change Torn aead (raws (h.newestCopy ^^^ 1 : Fin 2)) _ mix at tear
      by_cases ho : mix = raws (h.newestCopy ^^^ 1 : Fin 2)
      · rw [ho]
        exact Or.inl (congrArg _ (Function.update_eq_self _ _))
      · by_cases hn : mix = (writePiece aead nonce (h.newestCopy ^^^ 1 : Fin 2) 0 k).sealed
        · rw [hn]
          exact Or.inr (bestMain_writePiece aead nonce (by rw [hb]; rfl) (by rw [hb]; rfl) hseq hk)
        · -- the torn copy does not open, so the newest copy is still the best
          left
          have hnew := (mainOf_of_bestMain aead hb).1
          rw [hb]
          apply bestMain_of_newer
          · exact (congrArg _ (Function.update_of_ne (otherCopy_ne _) ..)).trans hnew
          · intro q hq
            have hnone := mainOf_closed aead (tear.closed ho hn)
            rw [show (writePiece aead nonce (h.newestCopy ^^^ 1 : Fin 2) 0 k).copy =
              (h.newestCopy ^^^ 1 : Fin 2) from rfl, Function.update_self, hnone] at hq
            cases hq
    · have : c = (h.newestCopy ^^^ 1 : Fin 2) := e
      omega

/-- The pieces after the slot writes of a call. -/
theorem Sound.slotWrites {raws : Nat → Bytes} {h : Header} (hs : Sound aead raws h)
    (nonce : Nat → N) (h' : Header) :
    slotOf aead 1 ((slotWrites aead nonce h h').foldl PieceWrite.on raws 2) = some h'.slot1 ∧
      slotOf aead 2 ((slotWrites aead nonce h h').foldl PieceWrite.on raws 3) = some h'.slot2 ∧
      bestMain aead ((slotWrites aead nonce h h').foldl PieceWrite.on raws) =
        some (h.seq, h.newestCopy, h.main) := by
  obtain ⟨s1, k1⟩ := slotOf_written hs.slot1 (slotOf_writePiece1 aead (nonce 0) 2 h')
  obtain ⟨s2, k2⟩ := slotOf_written ((k1 3 (by decide)).symm ▸ hs.slot2)
    (slotOf_writePiece2 aead (nonce 1) 3 h')
  rw [CloveDb.Encrypted.slotWrites, List.foldl_append]
  refine ⟨?_, s2, ?_⟩
  · rw [k2 2 (by decide), s1]
  · rw [← hs.main]
    apply bestMain_congr
    · rw [k2 0 (by decide), k1 0 (by decide)]
    · rw [k2 1 (by decide), k1 1 (by decide)]

/-- A call that returned leaves whole pieces behind. -/
theorem Sound.returned {raws : Nat → Bytes} {nonce : Nat → N} {h h' : Header} {offset : Nat}
    {data : Bytes} {ws : List PieceWrite} (hs : Sound aead raws h)
    (hw : writeHeaderRange aead false nonce h offset data = (ws, .ok h')) :
    Sound aead (ws.foldl PieceWrite.on raws) h' := by
  obtain ⟨s1, s2, sm⟩ := hs.slotWrites nonce (h.written offset data)
  rcases writeHeaderRange_cases aead hw with ⟨_, ho⟩ | ⟨hm, rfl, ho⟩ | ⟨_, ho⟩ | ⟨hseq, rfl, ho⟩
  · cases ho
  · cases ho
    refine ⟨s1, s2, ?_⟩
    rw [sm, written_seq, written_newestCopy, hm]
  · cases ho
  · cases ho
    have hlt := otherCopy_lt_two h.newestCopy
    rw [List.foldl_concat]
    refine ⟨?_, ?_, ?_⟩
    · rw [writePiece_on_ne aead _ (by omega)]
      exact s1
    · rw [writePiece_on_ne aead _ (by omega)]
      exact s2
    · exact bestMain_writePiece aead (nonce 2) (by rw [sm]; rfl) (by rw [sm]; rfl) hseq rfl

/-- What the next load finds after a crash: the main bytes are the old ones, or they and both slots
are the new ones; each slot is old or new, and at most one of them reads as zeros. -/
structure Survives (before after now : Header) : Prop where
  main : now.main = before.main ∨
    now.main = after.main ∧ now.slot1 = after.slot1 ∧ now.slot2 = after.slot2
  slots :
    (now.slot1 = before.slot1 ∨ now.slot1 = after.slot1) ∧
        (now.slot2 = before.slot2 ∨ now.slot2 = after.slot2 ∨ now.slot2 = zeros 128) ∨
      (now.slot1 = before.slot1 ∨ now.slot1 = after.slot1 ∨ now.slot1 = zeros 128) ∧
        (now.slot2 = before.slot2 ∨ now.slot2 = after.slot2)

/-- A slot that reads as old, new or not at all, once loaded into a blank header. -/
theorem OldNewOrNone.getD {old new : Bytes} {now : Option Bytes} (h : OldNewOrNone old new now) :
    now.getD (zeros 128) = old ∨ now.getD (zeros 128) = new ∨ now.getD (zeros 128) = zeros 128 := by
  rcases h with rfl | rfl | rfl
  · exact Or.inl rfl
  · exact Or.inr (Or.inl rfl)
  · exact Or.inr (Or.inr rfl)

/-- A crash among the slot writes: the main copies are untouched. -/
theorem Sound.survives_slots {raws r : Nat → Bytes} {nonce : Nat → N} {h h' : Header}
    (hs : Sound aead raws h) (hc : CrashRaws aead raws (CloveDb.Encrypted.slotWrites aead nonce h h') r) :
    Survives h h' (loadRaws aead r .blank) := by
  have hl := loads_loadRaws aead r
  rcases hc.of_append with hc | hc
  · obtain ⟨ht, hr⟩ := hc.slot (by decide) hs.slot1 (slotOf_writePiece1 aead (nonce 0) 2 h')
    refine ⟨Or.inl ?_, Or.inr ⟨?_, Or.inl ?_⟩⟩
    · rw [hl.main, bestMain_congr aead (hr 0 (by decide)) (hr 1 (by decide)), hs.main]
      rfl
    · rw [hl.slot1]
      exact ht.getD
    · rw [hl.slot2, hr 3 (by decide), hs.slot2]
      rfl
  · -- the first slot is written; only the second can be torn
    obtain ⟨s1, k1⟩ := slotOf_written hs.slot1 (slotOf_writePiece1 aead (nonce 0) 2 h')
    obtain ⟨ht, hr⟩ := hc.slot (by decide) ((k1 3 (by decide)).symm ▸ hs.slot2)
      (slotOf_writePiece2 aead (nonce 1) 3 h')
    refine ⟨Or.inl ?_, Or.inl ⟨Or.inr ?_, ?_⟩⟩
    · have hm := bestMain_congr aead ((hr 0 (by decide)).trans (k1 0 (by decide)))
        ((hr 1 (by decide)).trans (k1 1 (by decide)))
      rw [hl.main, hm, hs.main]
      rfl
    · rw [hl.slot1, hr 2 (by decide), s1]
      rfl
    · rw [hl.slot2]
      exact ht.getD

/-- A crash anywhere in a call. -/
theorem Sound.survives {raws r : Nat → Bytes} {nonce : Nat → N} {h : Header} {offset : Nat}
    {data : Bytes} {ws : List PieceWrite} {out : Io Header} (hs : Sound aead raws h)
    (hw : writeHeaderRange aead false nonce h offset data = (ws, out))
    (hc : CrashRaws aead raws ws r) :
    Survives h (h.written offset data) (loadRaws aead r .blank) := by
  have hl := loads_loadRaws aead r
  rcases writeHeaderRange_cases aead hw with ⟨rfl, _⟩ | ⟨_, rfl, _⟩ | ⟨rfl, _⟩ | ⟨hseq, rfl, _⟩
  · -- a refused call writes nothing
    have hr := hc.of_nil
    rw [hr, (loadRaws_eq_iff aead).mpr hs.loads]
    exact ⟨Or.inl rfl, Or.inl ⟨Or.inl rfl, Or.inl rfl⟩⟩
  · exact hs.survives_slots hc
  · exact hs.survives_slots hc
  · rcases hc.of_append with hc | hc
    · exact hs.survives_slots hc
    · -- both slots are written; the main bytes come last
      obtain ⟨s1, s2, sm⟩ := hs.slotWrites nonce (h.written offset data)
      obtain ⟨hb, hr⟩ := CrashRaws.main hseq rfl sm hc
      have h1 : (loadRaws aead r .blank).slot1 = (h.written offset data).slot1 := by
        rw [hl.slot1, hr 2 (by decide), s1]
        rfl
      have h2 : (loadRaws aead r .blank).slot2 = (h.written offset data).slot2 := by
        rw [hl.slot2, hr 3 (by decide), s2]
        rfl
      refine ⟨?_, Or.inl ⟨Or.inr h1, Or.inr (Or.inl h2)⟩⟩
      rcases hb with hb | hb
      · left
        rw [hl.main, hb, sm]
        rfl
      · right
        refine ⟨?_, h1, h2⟩
        rw [hl.main, hb]
        rfl

/-! ## Whole runs -/

theorem bestMain_isSome {raws : Nat → Bytes} {c : Fin 2} {q : UInt64 × Bytes}
    (h : mainOf aead (raws c) = some q) : ∃ b, bestMain aead raws = some b := by
  rw [bestMain_eq]
  obtain rfl | rfl : c = 0 ∨ c = 1 := by omega
  · have h0 : mainOf aead (raws 0) = some q := h
    cases h1 : mainOf aead (raws 1) with
    | none => exact ⟨_, by rw [h0]⟩
    | some b =>
        rw [h0]
        dsimp only
        split <;> exact ⟨_, rfl⟩
  · have h1 : mainOf aead (raws 1) = some q := h
    cases h0 : mainOf aead (raws 0) with
    | none => exact ⟨_, by rw [h1]⟩
    | some b =>
        rw [h1]
        dsimp only
        split <;> exact ⟨_, rfl⟩

/-- A piece that opens lies inside the file. -/
theorem le_length_of_readPiece {file p : Bytes} {copy piece : Nat}
    (h : readPiece aead file copy piece = .ok (some p)) :
    pieceOffset copy + pieceLen ≤ file.length := by
  have hlen : ¬ (pieceRaw file copy).length < pieceLen := by
    intro hlt
    rw [readPiece, readRaw, if_pos hlt] at h
    cases h
  rw [pieceRaw, length_slice] at hlen
  simp only [pieceOffset, fileHeaderLen, pieceLen] at hlen ⊢
  omega

/-- Opening a file with whole pieces. -/
theorem Whole.sound {file : Bytes} (hw : Whole aead file) :
    dataBase ≤ file.length ∧ Sound aead (pieceRaw file) (loadHeader aead file .blank) := by
  obtain ⟨⟨p1, h1⟩, ⟨p2, h2⟩, ⟨c, p, hm⟩⟩ := hw
  have hl := loads_loadRaws aead (pieceRaw file)
  rw [readPiece] at h1 hm
  have e1 : slotOf aead 1 (pieceRaw file 2) = some (p1.take 128) := by rw [slotOf, h1]
  have e2 : slotOf aead 2 (pieceRaw file 3) = some (p2.take 128) := by
    rw [slotOf, ← readPiece, h2]
  have em : ∃ q, mainOf aead (pieceRaw file c) = some q := ⟨_, by rw [mainOf, hm]⟩
  obtain ⟨⟨seq, copy, main⟩, hb⟩ := bestMain_isSome em.choose_spec
  refine ⟨le_length_of_readPiece h2, ?_, ?_, ?_⟩
  · rw [loadHeader, hl.slot1, e1]
    rfl
  · rw [loadHeader, hl.slot2, e2]
    rfl
  · rw [loadHeader, hl.main, hl.seq, hl.newestCopy, hb]
    rfl

/-- Whole pieces stay whole over every run of calls that return. -/
theorem Ran.sound {start file : Bytes} {h : Header} (hr : Ran aead start file h)
    (hw : Whole aead start) : dataBase ≤ file.length ∧ Sound aead (pieceRaw file) h := by
  induction hr with
  | opened => exact hw.sound
  | returned _ call ih =>
      obtain ⟨hf, hs⟩ := ih
      obtain ⟨hraws, hlen, _⟩ := applyWrites_spec hf (writeHeaderRange_fits aead call)
      exact ⟨hlen ▸ hf, hraws ▸ hs.returned call⟩

/-- The writes that put a blank header into a file. -/
def blankWrites : List PieceWrite :=
  [writePiece .marking () 2 1 .blank, writePiece .marking () 3 2 .blank,
    writePiece .marking () 0 0 .blank]

theorem whole_blankWrites : Whole .marking (applyWrites (zeros dataBase) blankWrites) := by
  have hfits : ∀ w ∈ blankWrites, w.Fits := by
    simp only [blankWrites, List.mem_cons, List.not_mem_nil, or_false]
    rintro w (rfl | rfl | rfl) <;> exact writePiece_fits _ _ (by decide) _ _
  obtain ⟨hraws, -, -⟩ := applyWrites_spec (length_zeros _).ge hfits
  have hread := readRaw_writePiece Aead.marking ()
  have hon : ∀ c, pieceRaw (applyWrites (zeros dataBase) blankWrites) c =
      (writePiece .marking () 0 0 .blank).on ((writePiece .marking () 3 2 .blank).on
        ((writePiece .marking () 2 1 .blank).on (pieceRaw (zeros dataBase)))) c := congrFun hraws
  refine ⟨⟨piecePlain .blank 1 484, ?_⟩, ⟨piecePlain .blank 2 484, ?_⟩, 0,
    piecePlain .blank 0 484, ?_⟩
  · rw [readPiece, hon, writePiece_on_ne _ _ (by decide), writePiece_on_ne _ _ (by decide),
      writePiece_on_same, hread]; rfl
  · rw [readPiece, hon, writePiece_on_ne _ _ (by decide), writePiece_on_same, hread]; rfl
  · rw [readPiece, hon, show ((0 : Fin 2) : Nat) = 0 from rfl, writePiece_on_same, hread]; rfl

end CloveDb.Encrypted
