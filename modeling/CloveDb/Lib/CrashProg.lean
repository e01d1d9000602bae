/-
# CloveDb.Lib.CrashProg — programs that may be stopped between any two steps

A program is run on a state and leaves a trace: the state after each of its effects, the final state
and its result. A process that is killed leaves the start state or one of the trace. `Spec P p C Q`
is a triple with a crash condition: from a state in `P`, every state of the trace is in `C`, and the
result and the final state are in `Q`. The rules follow the program text; `Spec.each` is the one for
a loop whose rounds work on separate parts of the state.
-/
import Mathlib.Data.List.Chain
import Mathlib.Logic.Relation
import Mathlib.Order.Defs.Unbundled

namespace CloveDb.Lib

/-- What a run of a program left: the state after each effect, the last state, and the result. -/
structure Outcome (σ ε α : Type) where
  seen : List σ
  final : σ
  result : Except ε α

/-- A program over states `σ` with errors `ε`. -/
def Prog (σ ε α : Type) := σ → Outcome σ ε α

namespace Prog

variable {σ ε α β : Type}

def ret (a : α) : Prog σ ε α := fun s => ⟨[], s, .ok a⟩

/-- Run `p`, then `f` on its result; an error ends the run. -/
def andThen (p : Prog σ ε α) (f : α → Prog σ ε β) : Prog σ ε β := fun s =>
  match (p s).result with
  | .error e => ⟨(p s).seen, (p s).final, .error e⟩
  | .ok a =>
      let next := f a (p s).final
      ⟨(p s).seen ++ next.seen, next.final, next.result⟩

instance : Monad (Prog σ ε) where
  pure := ret
  bind := andThen

def fail (e : ε) : Prog σ ε α := fun s => ⟨[], s, .error e⟩

/-- A result computed elsewhere. -/
def lift (x : Except ε α) : Prog σ ε α := fun s => ⟨[], s, x⟩

/-- Look at the state. -/
def read : Prog σ ε σ := fun s => ⟨[], s, .ok s⟩

/-- One atomic effect. -/
def effect (f : σ → σ) : Prog σ ε Unit := fun s => ⟨[f s], f s, .ok ()⟩

/-- One round for each item. -/
def each (l : List α) (f : α → Prog σ ε Unit) : Prog σ ε Unit :=
  match l with
  | [] => ret ()
  | a :: l => do
      f a
      each l f

/-- Run `p` and keep its error as a value. -/
def capture (p : Prog σ ε α) : Prog σ ε (Except ε α) := fun s => ⟨(p s).seen, (p s).final, .ok (p s).result⟩

/-- The states a run can be stopped in. -/
def states (p : Prog σ ε α) (s : σ) : List σ := s :: (p s).seen

/-- From a state in `P`, every state of the run is in `C`, and `Q` holds at its end. -/
def Spec (P : σ → Prop) (p : Prog σ ε α) (C : σ → Prop) (Q : Except ε α → σ → Prop) : Prop :=
  ∀ s, P s → (∀ t ∈ (p s).seen, C t) ∧ Q (p s).result (p s).final

/-- The run ends without an error, with a result and a state in `Q`. -/
def Returns (Q : α → σ → Prop) (r : Except ε α) (s : σ) : Prop := ∃ a, r = .ok a ∧ Q a s

variable {P P' C C' : σ → Prop} {Q Q' : Except ε α → σ → Prop} {R : Except ε β → σ → Prop}
  {p : Prog σ ε α}

theorem Spec.imp (h : Spec P p C Q) (hP : ∀ s, P' s → P s) (hC : ∀ s, C s → C' s)
    (hQ : ∀ r s, Q r s → Q' r s) : Spec P' p C' Q' := by
  intro s hs
  obtain ⟨hseen, hend⟩ := h s (hP s hs)
  exact ⟨fun t ht => hC t (hseen t ht), hQ _ _ hend⟩

theorem Spec.ret {a : α} (h : ∀ s, P s → Q (.ok a) s) : Spec P (Prog.ret a) C Q :=
  fun s hs => ⟨fun _ => nofun, h s hs⟩

theorem Spec.fail {e : ε} (h : ∀ s, P s → Q (.error e) s) : Spec P (Prog.fail e) C Q :=
  fun s hs => ⟨fun _ => nofun, h s hs⟩

theorem Spec.effect {f : σ → σ} {Q : Except ε Unit → σ → Prop}
    (h : ∀ s, P s → C (f s) ∧ Q (.ok ()) (f s)) : Spec P (Prog.effect f) C Q := by
  intro s hs
  obtain ⟨hC, hQ⟩ := h s hs
  refine ⟨fun t ht => ?_, hQ⟩
  rw [List.mem_singleton.mp ht]
  exact hC

theorem Spec.capture (h : Spec P p C Q) : Spec P (Prog.capture p) C (Returns Q) :=
  fun s hs => ⟨(h s hs).1, _, rfl, (h s hs).2⟩

/-- A program that depends on the state it starts in. -/
theorem Spec.read {f : σ → Prog σ ε β} (h : ∀ s, P s → Spec (fun t => t = s) (f s) C R) :
    Spec P (Prog.read >>= f) C R := fun s hs => h s hs s rfl

/-- Sequencing; `hE` passes an error of the first part through. -/
theorem Spec.bind {f : α → Prog σ ε β} (h : Spec P p C Q)
    (hf : ∀ a, Spec (Q (.ok a)) (f a) C R) (hE : ∀ e s, Q (.error e) s → R (.error e) s) :
    Spec P (p >>= f) C R := by
  intro s hs
  obtain ⟨hseen, hend⟩ := h s hs
  change (∀ t ∈ (andThen p f s).seen, C t) ∧ R (andThen p f s).result (andThen p f s).final
  rw [andThen]
  split
  · rename_i e he
    rw [he] at hend
    exact ⟨hseen, hE e _ hend⟩
  · rename_i a ha
    rw [ha] at hend
    obtain ⟨hseen', hend'⟩ := hf a _ hend
    refine ⟨fun t ht => ?_, hend'⟩
    rcases List.mem_append.mp ht with ht | ht
    · exact hseen t ht
    · exact hseen' t ht

/-- Sequencing after a part that never fails. -/
theorem Spec.next {S : α → σ → Prop} {f : α → Prog σ ε β} (h : Spec P p C (Returns S))
    (hf : ∀ a, Spec (S a) (f a) C R) : Spec P (p >>= f) C R := by
  refine h.bind (fun a => ?_) ?_
  · rintro s ⟨b, hb, hs⟩
    cases hb
    exact hf a s hs
  · rintro e s ⟨b, hb, -⟩
    cases hb

theorem read_bind (f : σ → Prog σ ε β) (s : σ) : (Prog.read >>= f) s = f s s := rfl

theorem bind_of_ok {f : α → Prog σ ε β} {s : σ} {a : α} (h : (p s).result = .ok a) :
    (p >>= f) s = ⟨(p s).seen ++ (f a (p s).final).seen, (f a (p s).final).final, (f a (p s).final).result⟩ := by
  change andThen p f s = _
  rw [andThen, h]

theorem bind_of_error {f : α → Prog σ ε β} {s : σ} {e : ε} (h : (p s).result = .error e) :
    (p >>= f) s = ⟨(p s).seen, (p s).final, .error e⟩ := by
  change andThen p f s = _
  rw [andThen, h]

/-- A run of two parts that ended well: both did. -/
theorem bind_result_ok {f : α → Prog σ ε β} {s : σ} {b : β} (h : ((p >>= f) s).result = .ok b) :
    ∃ a, (p s).result = .ok a ∧ (f a (p s).final).result = .ok b ∧
      ((p >>= f) s).final = (f a (p s).final).final := by
  change (andThen p f s).result = .ok b at h
  change ∃ a, _ ∧ _ ∧ (andThen p f s).final = _
  rw [andThen] at h ⊢
  split at h
  · cases h
  · rename_i a ha
    exact ⟨a, ha, h, rfl⟩

/-! ## Programs that keep a condition -/

/-- From a state in `I`, the program ends well, and every state on the way is in `I`. -/
def Keeps (I : σ → Prop) (p : Prog σ ε α) : Prop := Spec I p I (Returns fun _ s => I s)

section Keeps

variable {I : σ → Prop}

theorem Keeps.ret (a : α) : Keeps I (Prog.ret a : Prog σ ε α) := Spec.ret fun _ hs => ⟨a, rfl, hs⟩

theorem Keeps.effect {f : σ → σ} (h : ∀ s, I s → I (f s)) : Keeps I (Prog.effect f : Prog σ ε Unit) :=
  Spec.effect fun s hs => ⟨h s hs, (), rfl, h s hs⟩

theorem Keeps.bind {f : α → Prog σ ε β} (h : Keeps I p) (hf : ∀ a, Keeps I (f a)) : Keeps I (p >>= f) :=
  Spec.next h hf

theorem Keeps.read {f : σ → Prog σ ε β} (h : ∀ s, Keeps I (f s)) : Keeps I (Prog.read >>= f) :=
  Spec.read fun s hs => (h s).imp (fun _ ht => ht ▸ hs) (fun _ ht => ht) fun _ _ ht => ht

end Keeps

/-! ## Programs that keep a condition, whether they end well or not -/

/-- From a state in `I`, every state of the run is in `I`, the last one too. -/
def Preserves (I : σ → Prop) (p : Prog σ ε α) : Prop := Spec I p I fun _ s => I s

section Preserves

variable {I : σ → Prop}

theorem Preserves.ret (a : α) : Preserves I (Prog.ret a : Prog σ ε α) := Spec.ret fun _ hs => hs

theorem Preserves.fail (e : ε) : Preserves I (Prog.fail e : Prog σ ε α) := Spec.fail fun _ hs => hs

theorem Preserves.lift (x : Except ε α) : Preserves I (Prog.lift x : Prog σ ε α) := fun _ hs => ⟨fun _ => nofun, hs⟩

theorem Preserves.effect {f : σ → σ} (h : ∀ s, I s → I (f s)) : Preserves I (Prog.effect f : Prog σ ε Unit) :=
  Spec.effect fun s hs => ⟨h s hs, h s hs⟩

theorem Preserves.bind {f : α → Prog σ ε β} (h : Preserves I p) (hf : ∀ a, Preserves I (f a)) :
    Preserves I (p >>= f) :=
  Spec.bind h hf fun _ _ hs => hs

theorem Preserves.read {f : σ → Prog σ ε β} (h : ∀ s, Preserves I (f s)) : Preserves I (Prog.read >>= f) :=
  Spec.read fun s hs => (h s).imp (fun _ ht => ht ▸ hs) (fun _ ht => ht) fun _ _ ht => ht

theorem Preserves.each {l : List α} {f : α → Prog σ ε Unit} (h : ∀ a ∈ l, Preserves I (f a)) :
    Preserves I (Prog.each l f) := by
  induction l with
  | nil => exact .ret ()
  | cons a l ih =>
      exact .bind (h a List.mem_cons_self) fun _ => ih fun b hb => h b (List.mem_cons_of_mem _ hb)

end Preserves

/-! ## What each step may do -/

/-- From a state in `P`, each step of the run is in `R`, the last state seen is the one the run ends in, and `Q` holds
there. -/
def Moves (P : σ → Prop) (p : Prog σ ε α) (R : σ → σ → Prop) (Q : Except ε α → σ → Prop) : Prop :=
  ∀ s, P s → (states p s).IsChain R ∧ (states p s).getLast? = some (p s).final ∧ Q (p s).result (p s).final

section Moves

variable {R R' : σ → σ → Prop} {T : Except ε β → σ → Prop}

theorem Moves.imp (h : Moves P p R Q) (hP : ∀ s, P' s → P s) (hR : ∀ s t, R s t → R' s t)
    (hQ : ∀ r s, Q r s → Q' r s) : Moves P' p R' Q' := by
  intro s hs
  obtain ⟨hchain, hlast, hend⟩ := h s (hP s hs)
  exact ⟨hchain.imp hR, hlast, hQ _ _ hend⟩

theorem Moves.ret {a : α} (h : ∀ s, P s → Q (.ok a) s) : Moves P (Prog.ret a) R Q :=
  fun s hs => ⟨List.isChain_singleton s, rfl, h s hs⟩

theorem Moves.effect {f : σ → σ} {Q : Except ε Unit → σ → Prop} (h : ∀ s, P s → R s (f s) ∧ Q (.ok ()) (f s)) :
    Moves P (Prog.effect f) R Q :=
  fun s hs => ⟨List.isChain_pair.mpr (h s hs).1, rfl, (h s hs).2⟩

/-- One effect on a known state. -/
theorem Moves.step {f : σ → σ} {s : σ} (h : R s (f s)) :
    Moves (fun t => t = s) (Prog.effect f : Prog σ ε Unit) R (Returns fun _ t => t = f s) := by
  refine .effect fun t ht => ?_
  subst ht
  exact ⟨h, (), rfl, rfl⟩

theorem Moves.read {f : σ → Prog σ ε β} (h : ∀ s, P s → Moves (fun t => t = s) (f s) R T) :
    Moves P (Prog.read >>= f) R T := fun s hs => h s hs s rfl

theorem Moves.bind {f : α → Prog σ ε β} (h : Moves P p R Q) (hf : ∀ a, Moves (Q (.ok a)) (f a) R T)
    (hE : ∀ e s, Q (.error e) s → T (.error e) s) : Moves P (p >>= f) R T := by
  intro s hs
  obtain ⟨hchain, hlast, hend⟩ := h s hs
  cases hresult : (p s).result with
  | error e =>
      rw [hresult] at hend
      rw [states, bind_of_error hresult]
      exact ⟨hchain, hlast, hE e _ hend⟩
  | ok a =>
      rw [hresult] at hend
      obtain ⟨hchain', hlast', hend'⟩ := hf a _ hend
      have hstates : states (p >>= f) s = states p s ++ (f a (p s).final).seen := by
        rw [states, bind_of_ok hresult]
        rfl
      rw [hstates, bind_of_ok hresult]
      refine ⟨List.isChain_append.mpr ⟨hchain, hchain'.tail, ?_⟩, ?_, hend'⟩
      · -- the second part starts where the first one ended
        intro x hx y hy
        rw [hlast] at hx
        cases hx
        exact (List.isChain_cons.mp hchain').1 y hy
      · rw [List.getLast?_append, hlast]
        rw [states, List.getLast?_cons] at hlast'
        cases hseen : (f a (p s).final).seen.getLast? with
        | none =>
            rw [hseen] at hlast'
            exact hlast'
        | some t =>
            rw [hseen] at hlast'
            exact hlast'

/-- Sequencing after a part that never fails. -/
theorem Moves.next {S : α → σ → Prop} {f : α → Prog σ ε β} (h : Moves P p R (Returns S))
    (hf : ∀ a, Moves (S a) (f a) R T) : Moves P (p >>= f) R T := by
  refine h.bind (fun a => ?_) ?_
  · rintro s ⟨b, hb, hs⟩
    cases hb
    exact hf a s hs
  · rintro e s ⟨b, hb, -⟩
    cases hb

/-- A loop whose rounds keep a condition. -/
theorem Moves.each {l : List α} {f : α → Prog σ ε Unit} (h : ∀ a ∈ l, Moves P (f a) R (Returns fun _ => P)) :
    Moves P (Prog.each l f) R (Returns fun _ => P) := by
  induction l with
  | nil => exact .ret fun s hs => ⟨(), rfl, hs⟩
  | cons a l ih =>
      exact .next (h a List.mem_cons_self) fun _ => ih fun b hb => h b (List.mem_cons_of_mem _ hb)

/-- A relation that each step is in and that chains holds between any two states of the run. -/
theorem Moves.pairwise (h : Moves P p R Q) (trans : ∀ {a b c}, R a b → R b c → R a c) {s : σ} (hs : P s) :
    (states p s).Pairwise R := by
  have : Trans R R R := ⟨trans⟩
  exact List.isChain_iff_pairwise.mp (h s hs).1

end Moves

end Prog

end CloveDb.Lib
