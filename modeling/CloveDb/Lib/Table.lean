/-
# CloveDb.Lib.Table — ordered key/value tables

A `Table K V` is a finite map kept as its rows in strictly ascending key order, with the order
carried as a field: no table with a repeated or misplaced key can be built. This is what a B-tree
table looks like from outside (`get`, `insert`, `remove`, an ascending `iter`, a `range`), and it
is executable, so that a concrete run can be evaluated.

Two tables are equal as soon as they answer every `get` alike (`Table.ext_get`), so every theorem
about tables can be read off the `get` of each operation; the list only matters where the code
walks a table in key order.
-/
import Mathlib.Algebra.GroupWithZero.Nat
import Mathlib.Data.List.Basic
import Mathlib.Data.List.Induction
import Mathlib.Data.List.Pairwise
import Mathlib.Data.List.Perm.Subperm
import Mathlib.Order.Basic
import Mathlib.Order.Defs.LinearOrder
import Mathlib.Order.Lattice
import Mathlib.Tactic.Common

namespace CloveDb.Lib

variable {K V : Type*} [LinearOrder K]

/-! ## Rows: association lists in ascending key order -/

/-- Rows in strictly ascending key order. -/
def Ascending (rows : List (K × V)) : Prop := rows.Pairwise fun a b => a.1 < b.1

/-- The value of the first row with key `k`. -/
def lookup (k : K) : List (K × V) → Option V
  | [] => none
  | (k', v) :: rest => if k = k' then some v else lookup k rest

/-- Insert or overwrite the row with key `k`, keeping the order. -/
def insertRow (k : K) (v : V) : List (K × V) → List (K × V)
  | [] => [(k, v)]
  | (k', v') :: rest =>
      if k < k' then (k, v) :: (k', v') :: rest
      else if k = k' then (k, v) :: rest
      else (k', v') :: insertRow k v rest

/-- Drop the rows with key `k`. -/
def removeRow (k : K) (rows : List (K × V)) : List (K × V) := rows.filter fun r => r.1 ≠ k

theorem lookup_eq_none_of_lt {k : K} {rows : List (K × V)} (h : ∀ r ∈ rows, k < r.1) :
    lookup k rows = none := by
  induction rows with
  | nil => rfl
  | cons r rest ih =>
      obtain ⟨k', v⟩ := r
      have hne : k ≠ k' := (h (k', v) List.mem_cons_self).ne
      simp only [lookup, if_neg hne]
      exact ih fun r hr => h r (List.mem_cons_of_mem _ hr)

theorem mem_of_lookup {k : K} {v : V} {rows : List (K × V)} (h : lookup k rows = some v) :
    (k, v) ∈ rows := by
  induction rows with
  | nil => simp [lookup] at h
  | cons r rest ih =>
      obtain ⟨k', v'⟩ := r
      simp only [lookup] at h
      split at h
      · rename_i heq
        cases h
        subst heq
        exact List.mem_cons_self
      · exact List.mem_cons_of_mem _ (ih h)

theorem lookup_of_mem {k : K} {v : V} {rows : List (K × V)} (hs : Ascending rows)
    (h : (k, v) ∈ rows) : lookup k rows = some v := by
  induction rows with
  | nil => simp at h
  | cons r rest ih =>
      obtain ⟨k', v'⟩ := r
      rw [Ascending, List.pairwise_cons] at hs
      rcases List.mem_cons.mp h with h | h
      · cases h
        simp [lookup]
      · have hne : k ≠ k' := (hs.1 (k, v) h).ne'
        simp only [lookup, if_neg hne]
        exact ih hs.2 h

theorem mem_insertRow {k : K} {v : V} {rows : List (K × V)} {r : K × V}
    (h : r ∈ insertRow k v rows) : r = (k, v) ∨ r ∈ rows := by
  induction rows with
  | nil => simpa [insertRow] using h
  | cons r' rest ih =>
      obtain ⟨k', v'⟩ := r'
      simp only [insertRow] at h
      split at h
      · rcases List.mem_cons.mp h with h | h
        · exact Or.inl h
        · exact Or.inr h
      · split at h
        · rcases List.mem_cons.mp h with h | h
          · exact Or.inl h
          · exact Or.inr (List.mem_cons_of_mem _ h)
        · rcases List.mem_cons.mp h with h | h
          · exact Or.inr (h ▸ List.mem_cons_self)
          · rcases ih h with h | h
            · exact Or.inl h
            · exact Or.inr (List.mem_cons_of_mem _ h)

theorem ascending_insertRow (k : K) (v : V) {rows : List (K × V)} (hs : Ascending rows) :
    Ascending (insertRow k v rows) := by
  induction rows with
  | nil => simp [insertRow, Ascending]
  | cons r rest ih =>
      obtain ⟨k', v'⟩ := r
      rw [Ascending, List.pairwise_cons] at hs
      simp only [insertRow]
      split
      · rename_i hlt
        refine List.pairwise_cons.mpr ⟨?_, List.pairwise_cons.mpr hs⟩
        intro r hr
        rcases List.mem_cons.mp hr with rfl | hr
        · exact hlt
        · exact hlt.trans (hs.1 r hr)
      · rename_i hge
        split
        · rename_i heq
          subst heq
          exact List.pairwise_cons.mpr hs
        · rename_i hne
          refine List.pairwise_cons.mpr ⟨?_, ih hs.2⟩
          intro r hr
          rcases mem_insertRow hr with rfl | hr
          · exact lt_of_le_of_ne (not_lt.mp hge) (Ne.symm hne)
          · exact hs.1 r hr

theorem lookup_insertRow (k k' : K) (v : V) {rows : List (K × V)} (hs : Ascending rows) :
    lookup k' (insertRow k v rows) = if k' = k then some v else lookup k' rows := by
  induction rows with
  | nil => simp [insertRow, lookup]
  | cons r rest ih =>
      obtain ⟨k₀, v₀⟩ := r
      rw [Ascending, List.pairwise_cons] at hs
      simp only [insertRow]
      split
      · rfl
      · split
        · rename_i heq
          subst heq
          by_cases h : k' = k <;> simp [lookup, h]
        · rename_i hne
          have ih := ih hs.2
          by_cases h : k' = k₀
          · subst h
            simp [lookup, Ne.symm hne]
          · simp [lookup, h, ih]

theorem lookup_removeRow (k k' : K) (rows : List (K × V)) :
    lookup k' (removeRow k rows) = if k' = k then none else lookup k' rows := by
  induction rows with
  | nil => simp [removeRow, lookup]
  | cons r rest ih =>
      obtain ⟨k₀, v₀⟩ := r
      by_cases h₀ : k₀ = k
      · subst h₀
        have hrm : removeRow k₀ ((k₀, v₀) :: rest) = removeRow k₀ rest := by simp [removeRow]
        rw [hrm, ih]
        by_cases h : k' = k₀ <;> simp [lookup, h]
      · have hrm : removeRow k ((k₀, v₀) :: rest) = (k₀, v₀) :: removeRow k rest := by
          simp [removeRow, h₀]
        rw [hrm]
        by_cases h : k' = k₀
        · subst h
          simp [lookup, h₀]
        · simp [lookup, h, ih]

/-- Ascending rows are determined by their lookups. -/
theorem eq_of_lookup_eq {rows rows' : List (K × V)} (hs : Ascending rows) (hs' : Ascending rows')
    (h : ∀ k, lookup k rows = lookup k rows') : rows = rows' := by
  have hmem : ∀ r, r ∈ rows ↔ r ∈ rows' := by
    rintro ⟨k, v⟩
    constructor
    · intro hr
      exact mem_of_lookup ((h k) ▸ lookup_of_mem hs hr)
    · intro hr
      exact mem_of_lookup ((h k).symm ▸ lookup_of_mem hs' hr)
  induction rows generalizing rows' with
  | nil =>
      cases rows' with
      | nil => rfl
      | cons r _ => exact absurd ((hmem r).mpr List.mem_cons_self) List.not_mem_nil
  | cons r rest ih =>
      cases rows' with
      | nil => exact absurd ((hmem r).mp List.mem_cons_self) List.not_mem_nil
      | cons r' rest' =>
          rw [Ascending, List.pairwise_cons] at hs hs'
          -- each head is the least key of its own list, and the lists have the same rows
          have hrr : r = r' := by
            rcases List.mem_cons.mp ((hmem r).mp List.mem_cons_self) with h₁ | h₁
            · exact h₁
            · rcases List.mem_cons.mp ((hmem r').mpr List.mem_cons_self) with h₂ | h₂
              · exact h₂.symm
              · exact absurd ((hs'.1 r h₁).trans (hs.1 r' h₂)) (lt_irrefl _)
          subst hrr
          have hrest : ∀ x, x ∈ rest ↔ x ∈ rest' := by
            intro x
            constructor
            · intro hx
              rcases List.mem_cons.mp ((hmem x).mp (List.mem_cons_of_mem _ hx)) with rfl | hx'
              · exact absurd (hs.1 x hx) (lt_irrefl _)
              · exact hx'
            · intro hx
              rcases List.mem_cons.mp ((hmem x).mpr (List.mem_cons_of_mem _ hx)) with rfl | hx'
              · exact absurd (hs'.1 x hx) (lt_irrefl _)
              · exact hx'
          have hlook : ∀ k, lookup k rest = lookup k rest' := by
            intro k
            cases hk : lookup k rest with
            | none =>
                cases hk' : lookup k rest' with
                | none => rfl
                | some v =>
                    have := lookup_of_mem hs.2 ((hrest _).mpr (mem_of_lookup hk'))
                    rw [hk] at this
                    cases this
            | some v => exact (lookup_of_mem hs'.2 ((hrest _).mp (mem_of_lookup hk))).symm
          rw [ih hs.2 hs'.2 hlook hrest]

/-! ## Tables -/

/-- A table: rows in strictly ascending key order. -/
structure Table (K V : Type*) [LinearOrder K] where
  rows : List (K × V)
  ascending : Ascending rows

namespace Table

variable {K V : Type*} [LinearOrder K]

instance [DecidableEq V] : DecidableEq (Table K V) := fun a b =>
  if h : a.rows = b.rows then
    isTrue (by cases a; cases b; cases h; rfl)
  else isFalse fun hab => h (hab ▸ rfl)

def empty : Table K V := ⟨[], List.Pairwise.nil⟩

instance : Inhabited (Table K V) := ⟨empty⟩

def get (t : Table K V) (k : K) : Option V := lookup k t.rows

def insert (t : Table K V) (k : K) (v : V) : Table K V :=
  ⟨insertRow k v t.rows, ascending_insertRow k v t.ascending⟩

def remove (t : Table K V) (k : K) : Table K V :=
  ⟨removeRow k t.rows, t.ascending.filter _⟩

/-- Keep the rows that satisfy `p`. -/
def retain (t : Table K V) (p : K → V → Bool) : Table K V :=
  ⟨t.rows.filter fun r => p r.1 r.2, t.ascending.filter _⟩

/-- The rows inserted one after the other; a later row with the same key wins. -/
def ofList (rows : List (K × V)) : Table K V :=
  rows.foldl (fun t r => t.insert r.1 r.2) empty

def keys (t : Table K V) : List K := t.rows.map Prod.fst

@[ext]
theorem ext {a b : Table K V} (h : a.rows = b.rows) : a = b := by
  cases a
  cases b
  cases h
  rfl

/-- Tables that answer every `get` alike are equal. -/
theorem ext_get {a b : Table K V} (h : ∀ k, a.get k = b.get k) : a = b :=
  ext (eq_of_lookup_eq a.ascending b.ascending h)

@[simp] theorem get_empty (k : K) : (empty : Table K V).get k = none := rfl

theorem get_insert (t : Table K V) (k k' : K) (v : V) :
    (t.insert k v).get k' = if k' = k then some v else t.get k' :=
  lookup_insertRow k k' v t.ascending

@[simp] theorem get_insert_self (t : Table K V) (k : K) (v : V) : (t.insert k v).get k = some v := by
  rw [get_insert, if_pos rfl]

theorem get_insert_ne (t : Table K V) {k k' : K} (v : V) (h : k' ≠ k) :
    (t.insert k v).get k' = t.get k' := by
  rw [get_insert, if_neg h]

theorem get_remove (t : Table K V) (k k' : K) :
    (t.remove k).get k' = if k' = k then none else t.get k' :=
  lookup_removeRow k k' t.rows

@[simp] theorem get_remove_self (t : Table K V) (k : K) : (t.remove k).get k = none := by
  rw [get_remove, if_pos rfl]

theorem get_remove_ne (t : Table K V) {k k' : K} (h : k' ≠ k) :
    (t.remove k).get k' = t.get k' := by
  rw [get_remove, if_neg h]

theorem mem_rows_iff (t : Table K V) (k : K) (v : V) : (k, v) ∈ t.rows ↔ t.get k = some v :=
  ⟨lookup_of_mem t.ascending, mem_of_lookup⟩

theorem mem_keys_iff (t : Table K V) (k : K) : k ∈ t.keys ↔ ∃ v, t.get k = some v := by
  constructor
  · intro h
    obtain ⟨⟨k', v⟩, hr, rfl⟩ := List.mem_map.mp h
    exact ⟨v, (t.mem_rows_iff _ _).mp hr⟩
  · rintro ⟨v, hv⟩
    exact List.mem_map.mpr ⟨(k, v), (t.mem_rows_iff _ _).mpr hv, rfl⟩

theorem get_retain (t : Table K V) (p : K → V → Bool) (k : K) :
    (t.retain p).get k = (t.get k).filter (p k) := by
  cases hg : t.get k with
  | none =>
      cases hr : (t.retain p).get k with
      | none => rfl
      | some v =>
          have hmem := ((t.retain p).mem_rows_iff k v).mpr hr
          have hv := (t.mem_rows_iff k v).mp (List.mem_of_mem_filter hmem)
          rw [hg] at hv
          cases hv
  | some v =>
      have hmem := (t.mem_rows_iff k v).mpr hg
      by_cases hp : p k v
      · have : (k, v) ∈ (t.retain p).rows := List.mem_filter.mpr ⟨hmem, hp⟩
        rw [((t.retain p).mem_rows_iff k v).mp this]
        simp [Option.filter, hp]
      · cases hr : (t.retain p).get k with
        | none => simp [Option.filter, hp]
        | some w =>
            have hw := List.mem_filter.mp (((t.retain p).mem_rows_iff k w).mpr hr)
            have hkw := (t.mem_rows_iff k w).mp hw.1
            rw [hg] at hkw
            cases hkw
            exact absurd hw.2 hp

/-- A row above all others comes last. -/
theorem rows_insert_last (t : Table K V) {k : K} (v : V) (h : ∀ r ∈ t.rows, r.1 < k) :
    (t.insert k v).rows = t.rows ++ [(k, v)] := by
  show insertRow k v t.rows = _
  generalize t.rows = rows at h
  induction rows with
  | nil => rfl
  | cons r rest ih =>
      have hr : r.1 < k := h r List.mem_cons_self
      simp only [insertRow, if_neg hr.not_gt, if_neg hr.ne', List.cons_append]
      rw [ih fun r' hr' => h r' (List.mem_cons_of_mem _ hr')]

/-- Without its first row, a table is its other rows. -/
theorem rows_remove_head (t : Table K V) {k : K} {v : V} {rest : List (K × V)}
    (h : t.rows = (k, v) :: rest) : (t.remove k).rows = rest := by
  have hs : Ascending ((k, v) :: rest) := h ▸ t.ascending
  have hrest : ∀ r ∈ rest, r.1 ≠ k := fun r hr => ((List.pairwise_cons.mp hs).1 r hr).ne'
  show removeRow k t.rows = rest
  rw [h, removeRow, List.filter_cons_of_neg (by simp)]
  exact List.filter_eq_self.mpr fun r hr => decide_eq_true (hrest r hr)

/-- Overwriting a row that satisfied `p` with one that does not. -/
theorem length_filter_insert_lt (t : Table K V) (p : K × V → Bool) {k : K} {old new : V}
    (hget : t.get k = some old) (hold : p (k, old) = true) (hnew : p (k, new) = false) :
    ((t.insert k new).rows.filter p).length < (t.rows.filter p).length := by
  have hs := t.ascending
  change lookup k t.rows = some old at hget
  show ((insertRow k new t.rows).filter p).length < _
  generalize t.rows = rows at hget hs
  induction rows with
  | nil => cases hget
  | cons r rest ih =>
      obtain ⟨k', v'⟩ := r
      simp only [lookup] at hget
      rw [Ascending, List.pairwise_cons] at hs
      split at hget
      · rename_i heq
        cases hget
        subst heq
        simp [insertRow, hold, hnew]
      · rename_i hne
        have hlt : k' < k := hs.1 (k, old) (mem_of_lookup hget)
        simp only [insertRow, if_neg hlt.not_gt, if_neg hne, List.filter_cons]
        have ih := ih hget hs.2
        split
        · simpa using ih
        · exact ih

theorem rows_nodup_keys (t : Table K V) : t.keys.Nodup := by
  have h : t.keys.Pairwise (· < ·) := List.pairwise_map.mpr t.ascending
  exact h.imp fun hlt => hlt.ne

theorem get_foldl_insert_of_not_mem {rows : List (K × V)} (t : Table K V) {k : K} (h : k ∉ rows.map Prod.fst) :
    (rows.foldl (fun t r => t.insert r.1 r.2) t).get k = t.get k := by
  induction rows generalizing t with
  | nil => rfl
  | cons r rest ih =>
      rw [List.map_cons, List.mem_cons, not_or] at h
      rw [List.foldl_cons, ih _ h.2, get_insert_ne _ _ h.1]

/-- Rows written one after the other, where those under `k` agree. -/
theorem get_foldl_insert_of_agree {rows : List (K × V)} (t : Table K V) {k : K} {v : V} (hmem : k ∈ rows.map Prod.fst)
    (hagree : ∀ r ∈ rows, r.1 = k → r.2 = v) : (rows.foldl (fun t r => t.insert r.1 r.2) t).get k = some v := by
  induction rows generalizing t with
  | nil => cases hmem
  | cons r rest ih =>
      have hrest : ∀ r ∈ rest, r.1 = k → r.2 = v := fun r' hr' => hagree r' (List.mem_cons_of_mem _ hr')
      rw [List.foldl_cons]
      by_cases hlater : k ∈ rest.map Prod.fst
      · exact ih _ hlater hrest
      · have hkey : k = r.1 := by
          rcases List.mem_cons.mp hmem with h | h
          · exact h
          · exact absurd h hlater
        rw [get_foldl_insert_of_not_mem _ hlater, hkey, get_insert_self, hagree r List.mem_cons_self hkey.symm]

theorem get_foldl_remove (ks : List K) (t : Table K V) (k : K) :
    (ks.foldl (fun t k => t.remove k) t).get k = if k ∈ ks then none else t.get k := by
  induction ks generalizing t with
  | nil => simp
  | cons k' ks ih =>
      rw [List.foldl_cons, ih, get_remove]
      by_cases h : k ∈ ks <;> by_cases h' : k = k' <;> simp [h, h']

/-- All rows of a table, put into an empty one, are the table. -/
theorem ofList_rows (t : Table K V) : ofList t.rows = t := by
  obtain ⟨rows, hs⟩ := t
  induction rows using List.reverseRecOn with
  | nil => rfl
  | append_singleton rows r ih =>
      have hpair := List.pairwise_append.mp hs
      have hinit := ih hpair.1
      unfold ofList at hinit ⊢
      rw [List.foldl_append, hinit]
      refine ext (rows_insert_last _ _ fun r' hr' => ?_)
      exact hpair.2.2 r' hr' r List.mem_cons_self

theorem mem_keys_insert (t : Table K V) (k k' : K) (v : V) :
    k' ∈ (t.insert k v).keys ↔ k' = k ∨ k' ∈ t.keys := by
  rw [mem_keys_iff, mem_keys_iff]
  simp only [get_insert]
  by_cases h : k' = k <;> simp [h]

/-- The keys of a table made from rows. -/
theorem mem_keys_ofList (rows : List (K × V)) (k : K) : k ∈ (ofList rows).keys ↔ k ∈ rows.map Prod.fst := by
  have hfold : ∀ t : Table K V, k ∈ (rows.foldl (fun t r => t.insert r.1 r.2) t).keys ↔
      k ∈ rows.map Prod.fst ∨ k ∈ t.keys := by
    induction rows with
    | nil => simp
    | cons r rest ih =>
        intro t
        rw [List.foldl_cons, ih, mem_keys_insert, List.map_cons, List.mem_cons, or_assoc, or_left_comm]
  rw [ofList, hfold]
  simp [keys, empty]

/-- A table made from rows has no other rows. -/
theorem mem_of_mem_ofList {rows : List (K × V)} {r : K × V} (h : r ∈ (ofList rows).rows) : r ∈ rows := by
  have hfold : ∀ (rows : List (K × V)) (t : Table K V), (rows.foldl (fun t r => t.insert r.1 r.2) t).get r.1 = some r.2 →
      r ∈ rows ∨ t.get r.1 = some r.2 := by
    intro rows
    induction rows with
    | nil => exact fun t hget => .inr hget
    | cons r' rest ih =>
        intro t hget
        rcases ih _ hget with h | h
        · exact .inl (List.mem_cons_of_mem _ h)
        · rw [get_insert] at h
          split at h
          · next hkey => exact .inl (List.mem_cons.mpr (.inl (Prod.ext hkey (Option.some.inj h).symm)))
          · exact .inr h
  rcases hfold rows empty ((mem_rows_iff _ _ _).mp h) with hmem | hempty
  · exact hmem
  · cases hempty

/-- Removing a row that is not there. -/
theorem remove_of_get_none (t : Table K V) {k : K} (h : t.get k = none) : t.remove k = t := by
  refine ext_get fun k' => ?_
  rw [get_remove]
  split
  · rename_i heq
    rw [heq, h]
  · rfl

/-- A part of the rows, as any ascending list that has the same ones. -/
theorem filter_rows_eq (t : Table K V) (p : K × V → Bool) {rows : List (K × V)} (hrows : Ascending rows)
    (h : ∀ r, r ∈ rows ↔ r ∈ t.rows ∧ p r = true) : t.rows.filter p = rows := by
  have hfilter : Ascending (t.rows.filter p) := t.ascending.filter p
  refine eq_of_lookup_eq hfilter hrows fun k => ?_
  have hiff : ∀ v, lookup k (t.rows.filter p) = some v ↔ lookup k rows = some v := by
    intro v
    constructor
    · intro hv
      exact lookup_of_mem hrows ((h (k, v)).mpr (List.mem_filter.mp (mem_of_lookup hv)))
    · intro hv
      exact lookup_of_mem hfilter (List.mem_filter.mpr ((h (k, v)).mp (mem_of_lookup hv)))
  exact Option.ext hiff

/-! ## Sums over rows -/

theorem rows_nodup (t : Table K V) : t.rows.Nodup := t.ascending.imp fun h heq => h.ne (congrArg Prod.fst heq)

/-- The rows after an insertion: the new one, and those with other keys. -/
theorem rows_insert_perm (t : Table K V) (k : K) (v : V) :
    (t.insert k v).rows.Perm ((k, v) :: (t.remove k).rows) := by
  have hnot : (k, v) ∉ (t.remove k).rows := by
    rw [mem_rows_iff, get_remove_self]
    exact nofun
  refine (List.perm_ext_iff_of_nodup (rows_nodup _) (List.nodup_cons.mpr ⟨hnot, rows_nodup _⟩)).mpr ?_
  rintro ⟨k', v'⟩
  rw [List.mem_cons, mem_rows_iff, mem_rows_iff, get_insert, get_remove]
  by_cases hk : k' = k
  · simp [hk, eq_comm]
  · simp [hk]

/-- What a function of rows adds up to. -/
def total (f : K × V → Nat) (t : Table K V) : Nat := (t.rows.map f).sum

theorem total_insert (f : K × V → Nat) (t : Table K V) (k : K) (v : V) :
    (t.insert k v).total f = f (k, v) + (t.remove k).total f := by
  unfold total
  rw [((t.rows_insert_perm k v).map f).sum_nat, List.map_cons, List.sum_cons]

theorem total_of_get (f : K × V → Nat) {t : Table K V} {k : K} {v : V} (h : t.get k = some v) :
    t.total f = f (k, v) + (t.remove k).total f := by
  have hsame : t.insert k v = t := ext_get fun k' => by
    rw [get_insert]
    split
    · rename_i hk
      rw [hk, h]
    · rfl
  rw [← total_insert, hsame]

theorem total_eq_zero {f : K × V → Nat} {t : Table K V} :
    t.total f = 0 ↔ ∀ k v, t.get k = some v → f (k, v) = 0 := by
  unfold total
  rw [List.sum_eq_zero_iff_forall_eq_nat]
  constructor
  · intro h k v hget
    exact h _ (List.mem_map_of_mem ((t.mem_rows_iff k v).mpr hget))
  · intro h n hn
    obtain ⟨⟨k, v⟩, hmem, rfl⟩ := List.mem_map.mp hn
    exact h k v ((t.mem_rows_iff k v).mp hmem)

/-! ## Many rows -/

/-- Rows put into a table one after the other. -/
def insertAll (items : List (K × V)) (t : Table K V) : Table K V :=
  items.foldl (fun t r => t.insert r.1 r.2) t

theorem insertAll_append (xs ys : List (K × V)) (t : Table K V) :
    insertAll (xs ++ ys) t = insertAll ys (insertAll xs t) :=
  List.foldl_append ..

theorem get_insertAll_iff {rows : List (K × V)} (hrows : (rows.map Prod.fst).Nodup) (t : Table K V)
    (k : K) (v : V) :
    (insertAll rows t).get k = some v ↔ (k, v) ∈ rows ∨ k ∉ rows.map Prod.fst ∧ t.get k = some v := by
  unfold insertAll
  induction rows generalizing t with
  | nil => simp
  | cons r rest ih =>
      rw [List.map_cons, List.nodup_cons] at hrows
      rw [List.foldl_cons, ih hrows.2, get_insert, List.mem_cons, List.map_cons, List.mem_cons, not_or]
      by_cases hk : k = r.1
      · subst hk
        have hnot : (r.1, v) ∉ rest := fun hmem => hrows.1 (List.mem_map.mpr ⟨_, hmem, rfl⟩)
        simp only [hnot, hrows.1, not_false_eq_true, if_true, Option.some.injEq, true_and, false_or,
          not_true_eq_false, false_and, or_false, Prod.ext_iff]
        exact eq_comm
      · have hne : (k, v) ≠ r := fun heq => hk (congrArg Prod.fst heq)
        simp only [hk, hne, if_false, false_or, not_false_eq_true, true_and]

/-- Rows with different keys may be put into a table in any order. -/
theorem insertAll_perm {xs ys : List (K × V)} (h : xs.Perm ys) (hxs : (xs.map Prod.fst).Nodup)
    (t : Table K V) : insertAll xs t = insertAll ys t := by
  have hys : (ys.map Prod.fst).Nodup := (h.map Prod.fst).nodup_iff.mp hxs
  refine ext_get fun k => Option.ext fun v => ?_
  rw [get_insertAll_iff hxs, get_insertAll_iff hys, h.mem_iff, (h.map Prod.fst).mem_iff]

theorem exists_get_insertAll {items : List (K × V)} (hitems : (items.map Prod.fst).Nodup) (t : Table K V)
    {k : K} (hk : k ∈ items.map Prod.fst) : ∃ v, (insertAll items t).get k = some v := by
  obtain ⟨⟨k, v⟩, hmem, rfl⟩ := List.mem_map.mp hk
  exact ⟨v, (get_insertAll_iff hitems t k v).mpr (.inl hmem)⟩

/-! ## Counting -/

/-- A table with as many rows as another, and a row for each of its keys, has its keys. -/
theorem keys_eq_of_counted {W : Type*} {t : Table K V} {u : Table K W} (hcount : t.rows.length = u.rows.length)
    (hsub : t.keys ⊆ u.keys) : u.keys = t.keys := by
  have hlength : u.keys.length = t.keys.length := by simp only [keys, List.length_map, hcount]
  have hperm : t.keys.Perm u.keys := (List.subperm_of_subset t.rows_nodup_keys hsub).perm_of_length_le (Nat.le_of_eq hlength)
  exact hperm.symm.eq_of_pairwise (fun _ _ _ _ h h' => absurd (h.trans h') (lt_irrefl _))
    (List.pairwise_map.mpr u.ascending) (List.pairwise_map.mpr t.ascending)

/-- A table with as many rows as another, and every one of its rows, is that table. -/
theorem eq_of_counted {t u : Table K V} (hcount : t.rows.length = u.rows.length)
    (hsub : ∀ k v, t.get k = some v → u.get k = some v) : u = t := by
  have hkeys : u.keys = t.keys := keys_eq_of_counted hcount fun k hk => by
    obtain ⟨v, hv⟩ := (t.mem_keys_iff k).mp hk
    exact (u.mem_keys_iff k).mpr ⟨v, hsub k v hv⟩
  refine ext_get fun k => ?_
  cases ht : t.get k with
  | some v => exact hsub k v ht
  | none =>
      cases hu : u.get k with
      | none => rfl
      | some v =>
          have hk : k ∈ t.keys := hkeys ▸ (u.mem_keys_iff k).mpr ⟨v, hu⟩
          obtain ⟨w, hw⟩ := (t.mem_keys_iff k).mp hk
          rw [ht] at hw
          cases hw

end Table

end CloveDb.Lib
