/-
# CloveDb.Repository.Cache — reads and writes of one key beside the memory cache

`get` of `repository.rs` looks into the cache, then into a snapshot, then puts what it read into the cache;
`apply_changes`, under `set`, `delete` and `commit_batch`, commits and then puts the new values into the cache or
takes the key out. Each of these is one step, and the steps of any number of calls interleave. The cache may drop
an entry at any time.

Nothing ties a step on the cache to the commits of other calls: a reader that was slow to put in what it read puts
it over the value of a commit that came later (`slow_reader_keeps_old_value`). As long as every value is put into the
cache while it is the committed one, the cache agrees with the database once no call is under way.
-/
import CloveDb.Lib.Bytes
import CloveDb.Lib.Runs

namespace CloveDb.Repository

open CloveDb.Lib

/-- A step on the cache that `apply_changes` still has to take for the key. -/
inductive CacheOp where
  | insert (value : Bytes)
  | invalidate
  deriving DecidableEq

/-- Where a call is. -/
inductive Call where
  /-- `get`, before it looks into the cache -/
  | lookup
  /-- `get`, before its snapshot -/
  | read
  /-- `get`, before it puts what it read into the cache -/
  | fill (value : Bytes)
  /-- `apply_changes`, before its transaction commits: the values for the key in order, and whether it is deleted -/
  | commit (writes : List Bytes) (delete : Bool)
  /-- `apply_changes`, after the commit -/
  | update (ops : List CacheOp)
  /-- finished; a `get` has a result -/
  | done (result : Option (Option Bytes))
  deriving DecidableEq

/-- `set` -/
def set (value : Bytes) : Call := .commit [value] false

/-- A value that stays in the cache once its call has put it there: the call has no later one for the key. -/
def Call.leaves : Call → Option Bytes
  | .fill value => some value
  | .update [.insert value] => some value
  | _ => none

structure CacheSys where
  /-- the value of the key in the database -/
  committed : Option Bytes
  /-- the entry of the key in `memory_cache` -/
  cache : Option Bytes
  calls : List Call
  deriving DecidableEq

/-- What the writes and the delete of one transaction make of the value of the key. -/
def commitValue (old : Option Bytes) (writes : List Bytes) (delete : Bool) : Option Bytes :=
  if delete then none else (writes.getLast?).or old

/-- What `apply_changes` then does to the cache. -/
def cacheOps (writes : List Bytes) (delete : Bool) : List CacheOp :=
  writes.map .insert ++ if delete then [.invalidate] else []

inductive Action where
  /-- the next step of a call -/
  | advance (i : Nat)
  /-- the transaction of a call fails, and the call with it -/
  | refuse (i : Nat)
  /-- the cache drops the entry -/
  | evict

namespace CacheSys

/-- The next step of a call. -/
def advance (s : CacheSys) (i : Nat) : Option CacheSys :=
  match s.calls[i]? with
  | some .lookup =>
      match s.cache with
      | some value => some { s with calls := s.calls.set i (.done (some (some value))) }
      | none => some { s with calls := s.calls.set i .read }
  | some .read =>
      match s.committed with
      | some value => some { s with calls := s.calls.set i (.fill value) }
      | none => some { s with calls := s.calls.set i (.done (some none)) }
  | some (.fill value) =>
      some { s with cache := some value, calls := s.calls.set i (.done (some (some value))) }
  | some (.commit writes delete) =>
      some { s with
        committed := commitValue s.committed writes delete
        calls := s.calls.set i (.update (cacheOps writes delete)) }
  | some (.update []) => some { s with calls := s.calls.set i (.done none) }
  | some (.update (.insert value :: ops)) =>
      some { s with cache := some value, calls := s.calls.set i (.update ops) }
  | some (.update (.invalidate :: ops)) => some { s with cache := none, calls := s.calls.set i (.update ops) }
  | some (.done _) => none
  | none => none

def step (s : CacheSys) : Action → Option CacheSys
  | .advance i => s.advance i
  | .refuse i =>
      match s.calls[i]? with
      | some (.commit _ _) => some { s with calls := s.calls.set i (.done none) }
      | _ => none
  | .evict => some { s with cache := none }

/-- All calls have finished. -/
def Quiet (s : CacheSys) : Prop := ∀ c ∈ s.calls, ∃ result, c = .done result

/-- `get_uncached` -/
def getUncached (s : CacheSys) : Option Bytes := s.committed

/-- `get`, when no other call is under way. -/
def get (s : CacheSys) : Option Bytes := s.cache.or s.committed

/-- The cache holds nothing, or what is committed. -/
def Coherent (s : CacheSys) : Prop := s.cache = none ∨ s.cache = s.committed

/-- A call that still has something to do to the cache after its commit. -/
def Pending (s : CacheSys) : Prop :=
  ∃ (i : Nat) (op : CacheOp) (ops : List CacheOp), s.calls[i]? = some (Call.update (op :: ops))

/-! ## The condition on a schedule -/

/-- What a call is about to leave in the cache is what is committed. -/
def Timely (s : CacheSys) : Action → Prop
  | .advance i => ∀ value ∈ s.calls[i]?.bind Call.leaves, s.committed = some value
  | _ => True

instance (s : CacheSys) : (a : Action) → Decidable (s.Timely a)
  | .advance i => inferInstanceAs (Decidable (∀ value ∈ s.calls[i]?.bind Call.leaves, s.committed = some value))
  | .refuse _ => inferInstanceAs (Decidable True)
  | .evict => inferInstanceAs (Decidable True)

/-! ## What a run keeps -/

/-- The step of one call leaves the others where they are. -/
theorem Pending.set {s : CacheSys} {i : Nat} {c c' : Call} {committed cache : Option Bytes}
    (h : s.Pending) (hc : s.calls[i]? = some c) (hnot : ∀ op ops, c ≠ .update (op :: ops)) :
    Pending ⟨committed, cache, s.calls.set i c'⟩ := by
  obtain ⟨j, op, ops, hj⟩ := h
  have hij : i ≠ j := by
    rintro rfl
    rw [hc] at hj
    exact hnot op ops (Option.some.inj hj)
  exact ⟨j, op, ops, (List.getElem?_set_ne hij).trans hj⟩

theorem pending_of_set {s : CacheSys} {i : Nat} {c : Call} {committed cache : Option Bytes}
    (hc : s.calls[i]? = some c) (op : CacheOp) (ops : List CacheOp) :
    Pending ⟨committed, cache, s.calls.set i (.update (op :: ops))⟩ := by
  obtain ⟨hi, -⟩ := List.getElem?_eq_some_iff.mp hc
  exact ⟨i, op, ops, List.getElem?_set_self hi⟩

/-- A commit that touches the key leaves something to do to the cache, any other leaves the value. -/
theorem cacheOps_cases (old : Option Bytes) (writes : List Bytes) (delete : Bool) :
    (∃ op ops, cacheOps writes delete = op :: ops) ∨ commitValue old writes delete = old := by
  cases writes with
  | cons value writes => exact .inl ⟨_, _, rfl⟩
  | nil =>
      cases delete with
      | true => exact .inl ⟨_, _, rfl⟩
      | false => exact .inr rfl

/-- **One step**: the cache agrees with the database, or a call is still to see to that. -/
theorem step_coherent {s s' : CacheSys} {a : Action} (htimely : s.Timely a) (hstep : s.step a = some s')
    (h : s.Coherent ∨ s.Pending) : s'.Coherent ∨ s'.Pending := by
  cases a with
  | evict =>
      cases hstep
      exact .inl (.inl rfl)
  | refuse i =>
      unfold step at hstep
      dsimp only at hstep
      split at hstep
      · rename_i hc
        cases hstep
        exact h.imp id fun hpending => hpending.set hc nofun
      · cases hstep
  | advance i =>
      have hkeep : ∀ {c c'}, s.calls[i]? = some c → (∀ op ops, c ≠ .update (op :: ops)) →
          Coherent ⟨s.committed, s.cache, s.calls.set i c'⟩ ∨ Pending ⟨s.committed, s.cache, s.calls.set i c'⟩ :=
        fun hc hnot => h.imp id fun hpending => hpending.set hc hnot
      unfold step advance at hstep
      dsimp only at hstep
      split at hstep
      · -- the lookup changes neither side
        rename_i hc
        split at hstep <;> (cases hstep; exact hkeep hc nofun)
      · rename_i hc
        split at hstep <;> (cases hstep; exact hkeep hc nofun)
      · -- a reader puts in what is still committed
        rename_i value hc
        cases hstep
        exact .inl (.inr (htimely value (by rw [hc]; rfl)).symm)
      · rename_i writes delete hc
        cases hstep
        rcases cacheOps_cases s.committed writes delete with ⟨op, ops, hops⟩ | hsame
        · rw [hops]
          exact .inr (pending_of_set hc op ops)
        · rw [hsame]
          exact hkeep hc nofun
      · rename_i hc
        cases hstep
        exact hkeep hc nofun
      · -- the last of the values a call puts in is the committed one
        rename_i value ops hc
        cases hstep
        cases ops with
        | nil => exact .inl (.inr (htimely value (by rw [hc]; rfl)).symm)
        | cons op ops => exact .inr (pending_of_set hc op ops)
      · cases hstep
        exact .inl (.inl rfl)
      · cases hstep
      · cases hstep

end CacheSys

end CloveDb.Repository
