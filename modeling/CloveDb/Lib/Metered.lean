/-
# CloveDb.Lib.Metered — runs that may panic, with their loops counted

A run returns a value, returns an error, or panics, and takes some rounds of its loops. An operation that panics outside its
range is written with `need`, the begin of a round with `round`. `Within` compares such a run with a result that is computed
without either: the run does not panic, it has this result, and its rounds are paid from a budget, of which a run that
returns a value leaves a rest for what follows. A reader pays with the bytes it takes.
-/
import Mathlib.Order.Basic

namespace CloveDb.Lib

/-- The rounds a run took and what it returned; nothing if it panicked. -/
structure Metered (ε α : Type) where
  rounds : Nat
  result : Option (Except ε α)

namespace Metered

variable {ε α β : Type}

def ret (a : α) : Metered ε α := ⟨0, some (.ok a)⟩

def andThen (x : Metered ε α) (f : α → Metered ε β) : Metered ε β :=
  match x.result with
  | none => ⟨x.rounds, none⟩
  | some (.error e) => ⟨x.rounds, some (.error e)⟩
  | some (.ok a) => ⟨x.rounds + (f a).rounds, (f a).result⟩

instance : Monad (Metered ε) where
  pure := ret
  bind := andThen

def fail (e : ε) : Metered ε α := ⟨0, some (.error e)⟩

/-- A result computed without loops and panics. -/
def lift (r : Except ε α) : Metered ε α := ⟨0, some r⟩

/-- An operation panics outside its range. -/
def need (p : Prop) [Decidable p] : Metered ε Unit := ⟨0, if p then some (.ok ()) else none⟩

/-- A round of a loop begins. -/
def round : Metered ε Unit := ⟨1, some (.ok ())⟩

/-- The run has the result `r`. With the `spent` rounds before it, it stays within the budget: a value leaves `rest` of it, an
error may overdraw it by `credit`. -/
structure Within (credit spent budget : Nat) (rest : α → Nat) (x : Metered ε α) (r : Except ε α) : Prop where
  result : x.result = some r
  ok : ∀ a, r = .ok a → x.rounds + spent + rest a ≤ budget
  error : ∀ e, r = .error e → x.rounds + spent ≤ budget + credit

variable {credit spent budget : Nat} {rest : α → Nat} {rest' : β → Nat} {x : Metered ε α} {r : Except ε α}

theorem Within.ret {a : α} (h : spent + rest a ≤ budget) : Within credit spent budget rest (pure a : Metered ε α) (.ok a) where
  result := rfl
  ok := by
    intro b hb
    cases hb
    show 0 + spent + rest a ≤ budget
    omega
  error := nofun

theorem Within.fail {e : ε} (h : spent ≤ budget + credit) :
    Within credit spent budget rest (Metered.fail e) (.error e) where
  result := rfl
  ok := nofun
  error := by
    intro _ _
    show 0 + spent ≤ budget + credit
    omega

theorem Within.lift (hok : ∀ a, r = .ok a → spent + rest a ≤ budget) (herror : spent ≤ budget + credit) :
    Within credit spent budget rest (Metered.lift r) r where
  result := rfl
  ok := by
    intro a ha
    show 0 + spent + rest a ≤ budget
    rw [Nat.zero_add]
    exact hok a ha
  error := by
    intro _ _
    show 0 + spent ≤ budget + credit
    omega

/-- What follows a value pays from the rest. -/
theorem Within.bind {f : α → Metered ε β} {g : α → Except ε β} (h : Within credit spent budget rest x r)
    (hf : ∀ a, r = .ok a → Within credit 0 (rest a) rest' (f a) (g a)) :
    Within credit spent budget rest' (x >>= f) (r >>= g) := by
  have hdef : x >>= f = andThen x f := rfl
  rw [hdef, andThen, h.result]
  cases r with
  | error e => exact ⟨rfl, nofun, fun _ _ => h.error e rfl⟩
  | ok a =>
      have hfirst := h.ok a rfl
      have hnext := hf a rfl
      refine ⟨hnext.result, ?_, ?_⟩
      · intro b hb
        have hsecond := hnext.ok b hb
        show x.rounds + (f a).rounds + spent + rest' b ≤ budget
        omega
      · intro e he
        have hsecond := hnext.error e he
        show x.rounds + (f a).rounds + spent ≤ budget + credit
        omega

theorem Within.need {p : Prop} [Decidable p] {f : Unit → Metered ε α} (hp : p)
    (h : Within credit spent budget rest (f ()) r) : Within credit spent budget rest (Metered.need p >>= f) r := by
  have hdef : (Metered.need p >>= f) = ⟨0 + (f ()).rounds, (f ()).result⟩ := by
    show andThen (Metered.need p) f = _
    rw [andThen, Metered.need, if_pos hp]
  rw [hdef, Nat.zero_add]
  exact h

theorem Within.round {f : Unit → Metered ε α} (h : Within credit (spent + 1) budget rest (f ()) r) :
    Within credit spent budget rest (Metered.round >>= f) r where
  result := h.result
  ok := by
    intro a ha
    have hbound := h.ok a ha
    show 1 + (f ()).rounds + spent + rest a ≤ budget
    omega
  error := by
    intro e he
    have hbound := h.error e he
    show 1 + (f ()).rounds + spent ≤ budget + credit
    omega

/-- Rounds spent before it may be moved between the two sides. -/
theorem Within.mono {spent' budget' : Nat} (h : Within credit spent budget rest x r)
    (hbudget : budget + spent' ≤ budget' + spent) : Within credit spent' budget' rest x r where
  result := h.result
  ok := by
    intro a ha
    have hbound := h.ok a ha
    omega
  error := by
    intro e he
    have hbound := h.error e he
    omega

theorem Within.rounds_le (h : Within credit spent budget rest x r) : x.rounds ≤ budget + credit := by
  cases r with
  | error e =>
      have hbound := h.error e rfl
      omega
  | ok a =>
      have hbound := h.ok a rfl
      omega

end Metered

end CloveDb.Lib
