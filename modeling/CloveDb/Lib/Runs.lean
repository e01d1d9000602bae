/-
# CloveDb.Lib.Runs — runs of a partial step function

A system is given by a function that takes a state and an action to the next state, where the action is possible.
A run is a list of actions. What every step keeps, under a condition on the state the step is taken from, a run keeps
whose steps all meet the condition.
-/
import Mathlib.Tactic.Common

namespace CloveDb.Lib

variable {S A : Type}

/-- The state after some actions, if each was possible. -/
def runSteps (step : S → A → Option S) : S → List A → Option S
  | s, [] => some s
  | s, a :: as =>
      match step s a with
      | none => none
      | some s => runSteps step s as

/-- Every action of a run meets a condition in the state it is taken from. -/
def StepsMeet (step : S → A → Option S) (cond : S → A → Prop) : S → List A → Prop
  | _, [] => True
  | s, a :: as =>
      cond s a ∧
        match step s a with
        | none => True
        | some s => StepsMeet step cond s as

instance StepsMeet.decidable (step : S → A → Option S) (cond : S → A → Prop) [∀ s a, Decidable (cond s a)] :
    (s : S) → (as : List A) → Decidable (StepsMeet step cond s as)
  | _, [] => inferInstanceAs (Decidable True)
  | s, a :: as =>
      have : Decidable (match step s a with
          | none => True
          | some s => StepsMeet step cond s as) :=
        match step s a with
        | none => inferInstanceAs (Decidable True)
        | some s => StepsMeet.decidable step cond s as
      inferInstanceAs (Decidable (cond s a ∧ _))

/-- What each step keeps, a run keeps. -/
theorem runSteps_invariant {step : S → A → Option S} {cond : S → A → Prop} {I : S → Prop}
    (hstep : ∀ {s a s'}, cond s a → step s a = some s' → I s → I s') {s s' : S} {as : List A}
    (hmeet : StepsMeet step cond s as) (hrun : runSteps step s as = some s') (hs : I s) : I s' := by
  induction as generalizing s with
  | nil =>
      cases hrun
      exact hs
  | cons a as ih =>
      rw [runSteps] at hrun
      rw [StepsMeet] at hmeet
      obtain ⟨hcond, hmeet⟩ := hmeet
      cases hnext : step s a with
      | none =>
          rw [hnext] at hrun
          cases hrun
      | some t =>
          rw [hnext] at hrun hmeet
          exact ih hmeet hrun (hstep hcond hnext hs)

theorem stepsMeet_of_forall {step : S → A → Option S} {cond : S → A → Prop} (h : ∀ s a, cond s a) (s : S) (as : List A) :
    StepsMeet step cond s as := by
  induction as generalizing s with
  | nil => trivial
  | cons a as ih =>
      refine ⟨h s a, ?_⟩
      cases step s a with
      | none => trivial
      | some t => exact ih t

/-- What each step keeps under no condition, every run keeps. -/
theorem runSteps_keeps {step : S → A → Option S} {I : S → Prop} (hstep : ∀ {s a s'}, step s a = some s' → I s → I s')
    {s s' : S} {as : List A} (hrun : runSteps step s as = some s') (hs : I s) : I s' :=
  @runSteps_invariant S A step (fun _ _ => True) I (fun _ => hstep) s s' as (stepsMeet_of_forall (fun _ _ => trivial) s as)
    hrun hs

end CloveDb.Lib
