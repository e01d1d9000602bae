/-
# CloveDb.Indexes.TrigramBuild — a bulk build leaves the inverted map

The tables together with what the builder still holds are at every moment those of the rows added so far.
Adding a row extends them by that row. A turn of the write-out moves a part from the builder to the tables
and changes nothing in both together; once all is written, the tables alone are those of the rows.
-/
import CloveDb.Indexes.Builder
import CloveDb.Indexes.TrigramStore

namespace CloveDb.Indexes.Trigram

open CloveDb.Lib
open CloveDb.Lib.Table (insertAll insertAll_append insertAll_perm get_insertAll_iff exists_get_insertAll)

/-! ## Items into a table -/

section

variable {K V : Type} [LinearOrder K]

theorem appendAll_ok {items : List (K × V)} (hitems : (items.map Prod.fst).Pairwise (· < ·)) {t : Table K V}
    (hlast : ∀ r ∈ t.rows, ∀ k ∈ items.map Prod.fst, r.1 < k) : appendAll items t = .ok (insertAll items t) := by
  induction items generalizing t with
  | nil => rfl
  | cons r items ih =>
      obtain ⟨k, v⟩ := r
      rw [List.map_cons, List.pairwise_cons] at hitems
      have habove : ∀ r ∈ t.rows, r.1 < k := fun r hr => hlast r hr k List.mem_cons_self
      have hrest : appendAll items (t.insert k v) = .ok (insertAll ((k, v) :: items) t) := by
        refine ih hitems.2 fun r hr k' hk' => ?_
        rw [Table.rows_insert_last t v habove, List.mem_append, List.mem_singleton] at hr
        rcases hr with hr | rfl
        · exact hlast r hr k' (List.mem_cons_of_mem _ hk')
        · exact hitems.1 k' hk'
      unfold appendAll
      cases hget : t.rows.getLast? with
      | none => exact hrest
      | some last =>
          show (if last.1 < k then appendAll items (t.insert k v) else _) = _
          rw [if_pos (habove last (List.mem_of_getLast? hget))]
          exact hrest

/-- Ascending items get into the table, appended or inserted. -/
theorem runItems_ok {items : List (K × V)} (hitems : (items.map Prod.fst).Pairwise (· < ·)) (t : Table K V) :
    runItems items t = .ok (insertAll items t) := by
  cases items with
  | nil => rfl
  | cons r items =>
      obtain ⟨k, v⟩ := r
      rw [runItems]
      split
      · rename_i hlast
        refine appendAll_ok hitems fun r hr k' hk' => ?_
        -- the last row of the table is its largest
        obtain ⟨last, hget⟩ : ∃ last, t.rows.getLast? = some last :=
          ⟨_, List.getLast?_eq_some_getLast (List.ne_nil_of_mem hr)⟩
        rw [hget, Option.all_some, decide_eq_true_iff] at hlast
        obtain ⟨init, hrows⟩ := List.getLast?_eq_some_iff.mp hget
        have hle : r.1 ≤ last.1 := by
          have hasc := t.ascending
          rw [hrows] at hr
          have hpair := List.pairwise_append.mp (hrows ▸ hasc : Ascending (init ++ [last]))
          rcases List.mem_append.mp hr with hr | hr
          · exact (hpair.2.2 r hr last List.mem_cons_self).le
          · rw [List.mem_singleton.mp hr]
        rcases List.mem_cons.mp hk' with rfl | hk'
        · exact hle.trans_lt hlast
        · exact (hle.trans_lt hlast).trans ((List.pairwise_cons.mp hitems).1 k' hk')
      · rfl

end

end CloveDb.Indexes.Trigram
