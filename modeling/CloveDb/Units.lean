/-
# CloveDb.Units — the errors of the library

The variants of `ClError` that the modelled code returns, with the payload each carries. Errors of
other crates that only pass through (`serde_json::Error`, `io::Error`) keep no payload.
-/
import Mathlib.Tactic.Common

namespace CloveDb

inductive ClError where
  | idFieldMismatch
  | uniqueViolation
  | duplicateGroups (groups : Nat)
  | consumerExpired
  | consumerNeedsRebuild
  | ioError
  | database
  | databaseInUse (path : String)
  | serialization
  | notFound (what : String)
  | validation (message : String)
  | migrationError (message : String)
  | notRestorable (version : Nat) (schemaAtVersion currentSchemaVersion migrationId : String)
  | targetTableOccupied (db table : String) (existingKeys : Nat)
  | backupNormalizeFailed (reason : String)
  | dataTampered
  | encryptedOpenFailed
  | invalidCursor
  | unsupportedSum
  | decimalSumLimit
  | sumOverflow
  | decoderNotFound (fromLayoutHash toLayoutHash migrationId : String)
  | layoutMismatch (table registered : String) (chainVersion : Nat)
  | legacyMigrationFormat
  deriving DecidableEq, Repr

/-- `Result<T>` of the source. -/
abbrev Result (α : Type) := Except ClError α

/-- Apply `f` to each item in order; the first error ends it (`collect::<Result<Vec<_>>>()`). -/
def collect {α β : Type} (f : α → Result β) : List α → Result (List β)
  | [] => .ok []
  | a :: as =>
      match f a with
      | .error e => .error e
      | .ok b =>
          match collect f as with
          | .error e => .error e
          | .ok bs => .ok (b :: bs)

/-- A `?` that succeeded: both halves did. -/
theorem bind_eq_ok {ε α β : Type} {x : Except ε α} {f : α → Except ε β} {b : β} :
    (x >>= f) = .ok b ↔ ∃ a, x = .ok a ∧ f a = .ok b := by
  cases x with
  | error e => simp [bind, Except.bind]
  | ok a => simp [bind, Except.bind]

theorem bind_eq_error {ε α β : Type} {x : Except ε α} {f : α → Except ε β} {e : ε} :
    (x >>= f) = .error e ↔ x = .error e ∨ ∃ a, x = .ok a ∧ f a = .error e := by
  cases x with
  | error e => simp [bind, Except.bind]
  | ok a => simp [bind, Except.bind]

@[simp] theorem ok_bind {ε α β : Type} (a : α) (f : α → Except ε β) :
    ((.ok a : Except ε α) >>= f) = f a := rfl

@[simp] theorem error_bind {ε α β : Type} (e : ε) (f : α → Except ε β) :
    ((.error e : Except ε α) >>= f) = .error e := rfl

theorem collect_cons_ok {α β : Type} {f : α → Result β} {a : α} {as : List α} {bs : List β} :
    collect f (a :: as) = .ok bs ↔
      ∃ b bs', f a = .ok b ∧ collect f as = .ok bs' ∧ bs = b :: bs' := by
  cases ha : f a with
  | error e => simp [collect, ha]
  | ok b =>
      cases hr : collect f as with
      | error e => simp [collect, ha, hr]
      | ok bs' => simp [collect, ha, hr, eq_comm]

theorem collect_length {α β : Type} {f : α → Result β} {as : List α} {bs : List β}
    (h : collect f as = .ok bs) : bs.length = as.length := by
  induction as generalizing bs with
  | nil =>
      cases h
      rfl
  | cons a as ih =>
      obtain ⟨b, bs', _, hr, rfl⟩ := collect_cons_ok.mp h
      simp [ih hr]

/-- What a successful `collect` gathered: the results of the items, and nothing else. -/
theorem mem_collect {α β : Type} {f : α → Result β} {as : List α} {bs : List β}
    (h : collect f as = .ok bs) {b : β} : b ∈ bs ↔ ∃ a ∈ as, f a = .ok b := by
  induction as generalizing bs with
  | nil =>
      cases h
      simp
  | cons a as ih =>
      obtain ⟨b', bs', hb, hr, rfl⟩ := collect_cons_ok.mp h
      rw [List.mem_cons, ih hr]
      constructor
      · rintro (rfl | ⟨a', ha', hf⟩)
        · exact ⟨a, List.mem_cons_self, hb⟩
        · exact ⟨a', List.mem_cons_of_mem _ ha', hf⟩
      · rintro ⟨a', ha', hf⟩
        rcases List.mem_cons.mp ha' with rfl | ha'
        · rw [hb] at hf
          exact Or.inl (Except.ok.inj hf).symm
        · exact Or.inr ⟨a', ha', hf⟩

theorem eq_ok_of_toOption {α : Type} : {x : Result α} → {a : α} → x.toOption = some a → x = .ok a
  | .ok _, _, h => congrArg Except.ok (Option.some.inj h)

theorem exists_of_isOk {α : Type} : {x : Result α} → x.isOk = true → ∃ a, x = .ok a
  | .ok a, _ => ⟨a, rfl⟩

theorem exists_collect {α β : Type} {f : α → Result β} {as : List α} {bs : List β}
    (h : collect f as = .ok bs) {a : α} (ha : a ∈ as) : ∃ b ∈ bs, f a = .ok b := by
  induction as generalizing bs with
  | nil => cases ha
  | cons a' as ih =>
      obtain ⟨b, bs', hb, hr, rfl⟩ := collect_cons_ok.mp h
      rcases List.mem_cons.mp ha with rfl | ha
      · exact ⟨b, List.mem_cons_self, hb⟩
      · obtain ⟨b', hb', hf⟩ := ih hr ha
        exact ⟨b', List.mem_cons_of_mem _ hb', hf⟩

/-- The results stand in the order of the items. -/
theorem mem_zip_collect {α β : Type} {f : α → Result β} {as : List α} {bs : List β}
    (h : collect f as = .ok bs) {a : α} {b : β} : (a, b) ∈ as.zip bs ↔ a ∈ as ∧ f a = .ok b := by
  induction as generalizing bs with
  | nil => simp
  | cons a' as ih =>
      obtain ⟨b', bs', hb, hr, rfl⟩ := collect_cons_ok.mp h
      rw [List.zip_cons_cons, List.mem_cons, List.mem_cons, ih hr, Prod.mk.injEq]
      constructor
      · rintro (⟨rfl, rfl⟩ | ⟨ha, hb⟩)
        · exact ⟨.inl rfl, hb⟩
        · exact ⟨.inr ha, hb⟩
      · rintro ⟨rfl | ha, hb'⟩
        · rw [hb] at hb'
          cases hb'
          exact .inl ⟨rfl, rfl⟩
        · exact .inr ⟨ha, hb'⟩

theorem collect_total {α β : Type} {f : α → Result β} {as : List α} (h : ∀ a ∈ as, ∃ b, f a = .ok b) :
    ∃ bs, collect f as = .ok bs := by
  induction as with
  | nil => exact ⟨[], rfl⟩
  | cons a as ih =>
      obtain ⟨b, hb⟩ := h a List.mem_cons_self
      obtain ⟨bs, hbs⟩ := ih fun a ha => h a (List.mem_cons_of_mem _ ha)
      exact ⟨b :: bs, collect_cons_ok.mpr ⟨b, bs, hb, hbs, rfl⟩⟩

theorem getElem?_collect {α β : Type} {f : α → Result β} {as : List α} {bs : List β} (h : collect f as = .ok bs)
    {i : Nat} {b : β} (hb : bs[i]? = some b) : ∃ a, as[i]? = some a ∧ f a = .ok b := by
  induction as generalizing bs i with
  | nil =>
      cases h
      simp at hb
  | cons a as ih =>
      obtain ⟨b', bs', hb', hr, rfl⟩ := collect_cons_ok.mp h
      cases i with
      | zero =>
          cases hb
          exact ⟨a, rfl, hb'⟩
      | succ i => exact ih hr hb

theorem collect_of_ok {α β : Type} {f : α → Result β} {g : α → β} {as : List α} (h : ∀ a ∈ as, f a = .ok (g a)) :
    collect f as = .ok (as.map g) := by
  induction as with
  | nil => rfl
  | cons a as ih =>
      exact collect_cons_ok.mpr ⟨g a, as.map g, h a List.mem_cons_self,
        ih fun b hb => h b (List.mem_cons_of_mem _ hb), rfl⟩

end CloveDb
