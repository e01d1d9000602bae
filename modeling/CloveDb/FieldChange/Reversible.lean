/-
# CloveDb.FieldChange.Reversible — protection that is put on and taken off

A field is sealed by one change of fields, later changes add, remake or drop its fingerprints, and a last one opens it.
The text of the field is then the text it had, byte for byte, and so is that of every other field, in the same order.

A run of changes is read as the single steps its plans take on a row, one after the other, so that nothing here asks for
one step a field. Only the check compares the values before and after a whole change, and only there is it needed.
`Follows` says what the steps on one field do in turn; of the keys it asks that a value is opened with the cipher and at
the place it was sealed with.
-/
import CloveDb.FieldChange.Accepted

namespace CloveDb.FieldChange

open CloveDb.Lib CloveDb.Lib.JsonText CloveDb.FieldCrypto CloveDb.Encrypted

variable {Root N : Type}

/-! ## Runs of changes -/

/-- One change as it meets a row: its rewriter and what it draws for the row. -/
structure Change (Root N : Type) where
  w : Rewriter Root
  draw : Nat → N × Bytes

/-- One step of a plan, with the rewriter that takes it. -/
structure Applied (Root N : Type) where
  w : Rewriter Root
  i : Nat
  draw : Nat → N × Bytes
  step : FieldStep

/-- The steps a change takes on the rows of a table. -/
def Change.applied (table : String) (c : Change Root N) : List (Applied Root N) :=
  match c.w.find table with
  | none => []
  | some (i, plan) => plan.rewrites.map fun s => ⟨c.w, i, c.draw, s⟩

/-- The changes of a run, one after the other, on one row or saved version. -/
def rewriteAll (crypto : Primitives Root N) (tools : RawTools) (table rowKey : String) :
    List (Change Root N) → Bytes → Result Bytes
  | [], old => .ok old
  | c :: changes, old => do
      let new ← c.w.rewrite crypto tools table rowKey c.draw old
      rewriteAll crypto tools table rowKey changes new

section Steps

variable {crypto : Primitives Root N} {tools : RawTools} {table rowKey : String}

/-- The steps taken on a row, one after the other. -/
inductive Steps (crypto : Primitives Root N) (tools : RawTools) (rowKey : String) :
    RawRow → List (Applied Root N) → RawRow → Prop
  | nil (row : RawRow) : Steps crypto tools rowKey row [] row
  | cons {row new : RawRow} {s : Applied Root N} {rest : List (Applied Root N)} {raw value : Bytes} :
      row.get s.step.key = some raw → s.w.Makes crypto tools s.i rowKey s.draw s.step raw value →
      Steps crypto tools rowKey (row.replace s.step.key value) rest new → Steps crypto tools rowKey row (s :: rest) new

theorem Steps.append {row mid new : RawRow} {xs ys : List (Applied Root N)} (hxs : Steps crypto tools rowKey row xs mid)
    (hys : Steps crypto tools rowKey mid ys new) : Steps crypto tools rowKey row (xs ++ ys) new := by
  induction hxs with
  | nil => exact hys
  | cons hget hmakes _ ih => exact .cons hget hmakes (ih hys)

theorem steps_of_rewriteSteps {w : Rewriter Root} {i : Nat} {draw : Nat → N × Bytes} {steps : List FieldStep}
    {row new : RawRow} (h : w.rewriteSteps crypto tools i rowKey draw steps row = .ok new) :
    Steps crypto tools rowKey row (steps.map fun s => ⟨w, i, draw, s⟩) new := by
  induction steps generalizing row with
  | nil =>
      cases h
      exact .nil _
  | cons s steps ih =>
      obtain ⟨raw, value, hget, hmakes, hrest⟩ := Rewriter.rewriteSteps_cons.mp h
      exact .cons hget hmakes (ih hrest)

theorem Steps.clean {row new : RawRow} {xs : List (Applied Root N)} (h : Steps crypto tools rowKey row xs new)
    (hclean : row.Clean tools) : new.Clean tools := by
  induction h with
  | nil => exact hclean
  | cons _ hmakes _ ih =>
      obtain ⟨out, parsed, -, hparsed, rfl⟩ := hmakes
      exact ih (hclean.replace _ (isValue_parseValue _ hparsed))

theorem Steps.names {row new : RawRow} {xs : List (Applied Root N)} (h : Steps crypto tools rowKey row xs new) :
    new.map Prod.fst = row.map Prod.fst := by
  induction h with
  | nil => rfl
  | cons _ _ _ ih => exact ih.trans (RawRow.names_replace _ _ _)

theorem Steps.get {row new : RawRow} {xs : List (Applied Root N)} (h : Steps crypto tools rowKey row xs new) {key : String}
    (hkey : key ∉ xs.map fun s => s.step.key) : new.get key = row.get key := by
  induction h with
  | nil => rfl
  | cons _ _ _ ih =>
      rw [List.map_cons, List.mem_cons, not_or] at hkey
      rw [ih hkey.2, RawRow.get_replace_ne _ hkey.1]

/-- One change: the steps of its plan, and a new row that is read back. -/
theorem Change.steps {c : Change Root N} {old new : Bytes} {row : RawRow} (hrow : RawRow.parse tools old = .ok row)
    (h : c.w.rewrite crypto tools table rowKey c.draw old = .ok new) :
    ∃ after, RawRow.parse tools new = .ok after ∧ Steps crypto tools rowKey row (c.applied table) after := by
  rw [Rewriter.rewrite] at h
  rw [Change.applied]
  cases hfind : c.w.find table with
  | none =>
      rw [hfind] at h
      cases h
      exact ⟨row, hrow, .nil row⟩
  | some found =>
      obtain ⟨i, plan⟩ := found
      rw [hfind] at h
      obtain ⟨row', hrow', h⟩ := bind_eq_ok.mp h
      cases hrow.symm.trans hrow'
      obtain ⟨after, hafter, h⟩ := bind_eq_ok.mp h
      cases h
      have hsteps := steps_of_rewriteSteps hafter
      exact ⟨after, RawRow.parse_encode (hsteps.clean (RawRow.parse_clean hrow)), hsteps⟩

theorem rewriteAll_steps {changes : List (Change Root N)} {old new : Bytes} {row : RawRow}
    (hrow : RawRow.parse tools old = .ok row) (h : rewriteAll crypto tools table rowKey changes old = .ok new) :
    ∃ after, RawRow.parse tools new = .ok after ∧
      Steps crypto tools rowKey row (changes.flatMap (Change.applied table)) after := by
  induction changes generalizing old row with
  | nil =>
      cases h
      exact ⟨row, hrow, .nil row⟩
  | cons c changes ih =>
      obtain ⟨mid, hmid, h⟩ := bind_eq_ok.mp h
      obtain ⟨midRow, hmidRow, hfirst⟩ := Change.steps hrow hmid
      obtain ⟨after, hafter, hrest⟩ := ih hmidRow h
      exact ⟨after, hafter, hfirst.append hrest⟩

end Steps

/-! ## What becomes of one field -/

/-- A field is as the program wrote it, or sealed with a cipher and at a place. -/
inductive Phase (N : Type) where
  | plain
  | sealed (cipher : Aead N) (place : Place)

/-- The step opens and seals with `cipher` at `place`. -/
def Applied.At (crypto : Primitives Root N) (rowKey : String) (s : Applied Root N) (cipher : Aead N) (place : Place) :
    Prop :=
  ∃ keys id, s.w.keys = some keys ∧ s.w.idOf s.i s.step = .ok id ∧ keys.cipher crypto id s.step.id = .ok cipher ∧
    place = ⟨id, s.step.id, rowKey⟩

/-- The steps on the field `key`: sealed, then fingerprints any number of times, then opened, as often as they like. -/
inductive Follows (crypto : Primitives Root N) (rowKey key : String) : Phase N → List (Applied Root N) → Phase N → Prop
  | nil (p : Phase N) : Follows crypto rowKey key p [] p
  | other {s : Applied Root N} {rest : List (Applied Root N)} {p q : Phase N} : s.step.key ≠ key →
      Follows crypto rowKey key p rest q → Follows crypto rowKey key p (s :: rest) q
  | seal {s : Applied Root N} {rest : List (Applied Root N)} {cipher : Aead N} {place : Place} {q : Phase N} :
      s.step.key = key → s.step.kind = .seal → s.At crypto rowKey cipher place →
      Follows crypto rowKey key (.sealed cipher place) rest q → Follows crypto rowKey key .plain (s :: rest) q
  | prints {s : Applied Root N} {rest : List (Applied Root N)} {cipher : Aead N} {place : Place} {q : Phase N} :
      s.step.key = key → (s.step.kind = .addPrints ∨ s.step.kind = .remakePrints) ∨ s.step.kind = .dropPrints →
      Follows crypto rowKey key (.sealed cipher place) rest q →
      Follows crypto rowKey key (.sealed cipher place) (s :: rest) q
  | open {s : Applied Root N} {rest : List (Applied Root N)} {cipher : Aead N} {place : Place} {q : Phase N} :
      s.step.key = key → s.step.kind = .open → s.At crypto rowKey cipher place →
      Follows crypto rowKey key .plain rest q → Follows crypto rowKey key (.sealed cipher place) (s :: rest) q

section Phases

variable {crypto : Primitives Root N} {tools : RawTools} {rowKey key : String}

theorem Follows.split {p q : Phase N} {xs ys : List (Applied Root N)} (h : Follows crypto rowKey key p (xs ++ ys) q) :
    ∃ r, Follows crypto rowKey key p xs r ∧ Follows crypto rowKey key r ys q := by
  induction xs generalizing p with
  | nil => exact ⟨p, .nil p, h⟩
  | cons s xs ih =>
      cases h with
      | other hkey h =>
          obtain ⟨r, hxs, hys⟩ := ih h
          exact ⟨r, .other hkey hxs, hys⟩
      | «seal» hkey hkind hat h =>
          obtain ⟨r, hxs, hys⟩ := ih h
          exact ⟨r, .seal hkey hkind hat hxs, hys⟩
      | prints hkey hkind h =>
          obtain ⟨r, hxs, hys⟩ := ih h
          exact ⟨r, .prints hkey hkind hxs, hys⟩
      | «open» hkey hkind hat h =>
          obtain ⟨r, hxs, hys⟩ := ih h
          exact ⟨r, .open hkey hkind hat hxs, hys⟩

/-- What is stored for a field whose text is `t`. -/
def Phase.Stores (crypto : Primitives Root N) (tools : RawTools) (t raw : Bytes) : Phase N → Prop
  | .plain => raw = t
  | .sealed cipher place => ∃ stored, readStored tools raw = .ok stored ∧
      openEnvelope crypto cipher place stored.sealedText = some t

/-- What is made and is a value already, the row keeps as it was made. -/
theorem makes_value {s : Applied Root N} {raw value : Bytes}
    (h : s.w.Makes crypto tools s.i rowKey s.draw s.step raw value) :
    ∃ out, s.w.make crypto tools s.i rowKey (s.draw s.step.id) s.step raw = .ok out ∧
      (tools.IsValue out → value = out) := by
  obtain ⟨out, parsed, hout, hparsed, rfl⟩ := h
  refine ⟨out, hout, fun hvalue => ?_⟩
  rw [parseValue_of_isValue _ hvalue] at hparsed
  cases hparsed
  rfl

theorem stores_seal (hb64 : ∀ raw, crypto.b64Decode (crypto.b64Encode raw) = some raw) {s : Applied Root N}
    (hready : s.w.Ready s.i s.step) (hkind : s.step.kind = .seal) {cipher : Aead N} {place : Place}
    (hat : s.At crypto rowKey cipher place) {t value : Bytes}
    (h : s.w.Makes crypto tools s.i rowKey s.draw s.step t value) :
    (Phase.sealed cipher place).Stores crypto tools t value := by
  have hwf := hready.wf
  rw [FieldStep.Wf, hkind] at hwf
  obtain ⟨spec, hspec, hspecId, hsealing, -⟩ := hwf
  obtain ⟨keys, id, hkeys, hid, hcipher, rfl⟩ := hat
  obtain ⟨out, hout, hvalue⟩ := makes_value h
  rw [Rewriter.make_seal hkind hkeys hid hspec hsealing] at hout
  obtain ⟨prints, cipher', -, hcipher', rfl⟩ := (Rewriter.sealPlain_eq_ok hsealing).mp hout
  rw [hspecId, hcipher] at hcipher'
  cases hcipher'
  rw [hvalue (isValue_printStored _), hspecId]
  exact ⟨_, readStored_printStored _, openEnvelope_sealEnvelope crypto hb64 _ _ _ _⟩

theorem stores_prints {s : Applied Root N} (hready : s.w.Ready s.i s.step)
    (hkind : (s.step.kind = .addPrints ∨ s.step.kind = .remakePrints) ∨ s.step.kind = .dropPrints) {cipher : Aead N}
    {place : Place} {t raw value : Bytes} (hraw : (Phase.sealed cipher place).Stores crypto tools t raw)
    (h : s.w.Makes crypto tools s.i rowKey s.draw s.step raw value) :
    (Phase.sealed cipher place).Stores crypto tools t value := by
  obtain ⟨stored, hstored, hopen⟩ := hraw
  obtain ⟨out, hout, hvalue⟩ := makes_value h
  -- each of the three prints the sealed text it read
  have hprinted : ∃ full parts, out = printStored tools ⟨stored.sealedText, full, parts⟩ := by
    rcases hkind with hkind | hkind
    · obtain ⟨spec, keys, id, hspec, -, hkeys, hid, -⟩ := hready.prints hkind
      obtain ⟨stored', hstored', plain, -, hwith⟩ := (Rewriter.make_prints hkind hkeys hid hspec).mp hout
      cases hstored.symm.trans hstored'
      obtain ⟨prints, -, rfl⟩ := Rewriter.withPrints_eq_ok.mp hwith
      exact ⟨prints.1, prints.2, rfl⟩
    · obtain ⟨stored', hstored', rfl⟩ := (Rewriter.make_dropPrints hkind).mp hout
      cases hstored.symm.trans hstored'
      exact ⟨none, none, rfl⟩
  obtain ⟨full, parts, rfl⟩ := hprinted
  rw [hvalue (isValue_printStored _)]
  exact ⟨_, readStored_printStored _, hopen⟩

/-- What is opened is the text, if it is opened as it was sealed. -/
theorem opens_text {s : Applied Root N} {cipher : Aead N} {place : Place} (hat : s.At crypto rowKey cipher place)
    {t raw plain : Bytes} (hraw : (Phase.sealed cipher place).Stores crypto tools t raw)
    (h : s.w.Opens crypto tools s.i rowKey s.step raw plain) : plain = t := by
  obtain ⟨stored, hstored, hopen⟩ := hraw
  obtain ⟨keys, id, hkeys, hid, hcipher, rfl⟩ := hat
  rw [Rewriter.Opens, Rewriter.openRaw, hstored, ok_bind, Rewriter.heldKeys_of hkeys, ok_bind, hid, ok_bind, openStored,
    hcipher, ok_bind, hopen] at h
  exact (Except.ok.inj h).symm

theorem stores_open {s : Applied Root N} (hkind : s.step.kind = .open) {cipher : Aead N} {place : Place}
    (hat : s.At crypto rowKey cipher place) {t raw value : Bytes} (ht : tools.IsValue t)
    (hraw : (Phase.sealed cipher place).Stores crypto tools t raw)
    (h : s.w.Makes crypto tools s.i rowKey s.draw s.step raw value) : value = t := by
  obtain ⟨out, hout, hvalue⟩ := makes_value h
  obtain ⟨hopens, -⟩ := (Rewriter.make_open hkind).mp hout
  obtain rfl := opens_text hat hraw hopens
  exact hvalue ht

/-- **The text of a field over a run of steps.** -/
theorem Follows.stores (hb64 : ∀ raw, crypto.b64Decode (crypto.b64Encode raw) = some raw) {p q : Phase N}
    {xs : List (Applied Root N)} (h : Follows crypto rowKey key p xs q) (hready : ∀ s ∈ xs, s.w.Ready s.i s.step)
    {t : Bytes} (ht : tools.IsValue t) {row new : RawRow} (hsteps : Steps crypto tools rowKey row xs new) {raw : Bytes}
    (hget : row.get key = some raw) (hraw : p.Stores crypto tools t raw) :
    ∃ raw', new.get key = some raw' ∧ q.Stores crypto tools t raw' := by
  induction h generalizing row raw with
  | nil p =>
      cases hsteps
      exact ⟨raw, hget, hraw⟩
  | other hkey _ ih =>
      cases hsteps with
      | cons _ _ hrest =>
          refine ih (fun s hs => hready s (List.mem_cons_of_mem _ hs)) hrest ?_ hraw
          rw [RawRow.get_replace_ne _ (Ne.symm hkey), hget]
  | «seal» hkey hkind hat _ ih =>
      subst hkey
      cases hsteps with
      | cons hget' hmakes hrest =>
          cases hget.symm.trans hget'
          cases hraw
          exact ih (fun s hs => hready s (List.mem_cons_of_mem _ hs)) hrest (RawRow.get_replace_self hget _)
            (stores_seal hb64 (hready _ List.mem_cons_self) hkind hat hmakes)
  | prints hkey hkind _ ih =>
      subst hkey
      cases hsteps with
      | cons hget' hmakes hrest =>
          cases hget.symm.trans hget'
          exact ih (fun s hs => hready s (List.mem_cons_of_mem _ hs)) hrest (RawRow.get_replace_self hget _)
            (stores_prints (hready _ List.mem_cons_self) hkind hraw hmakes)
  | «open» hkey hkind hat _ ih =>
      subst hkey
      cases hsteps with
      | cons hget' hmakes hrest =>
          cases hget.symm.trans hget'
          exact ih (fun s hs => hready s (List.mem_cons_of_mem _ hs)) hrest (RawRow.get_replace_self hget _)
            (stores_open hkind hat ht hraw hmakes)

/-! ## The check of one change -/

/-- What a step on a field in this phase can be. -/
def Phase.Takes (crypto : Primitives Root N) (rowKey : String) (s : Applied Root N) : Phase N → Prop
  | .plain => s.step.kind = .seal
  | .sealed cipher place => ((s.step.kind = .addPrints ∨ s.step.kind = .remakePrints) ∨ s.step.kind = .dropPrints) ∨
      s.step.kind = .open ∧ s.At crypto rowKey cipher place

theorem head_of_key {s s' : Applied Root N} {rest : List (Applied Root N)}
    (hkeys : ((s' :: rest).map fun s => s.step.key).Nodup) (hs : s ∈ s' :: rest) (hkey : s.step.key = s'.step.key) :
    s = s' := by
  rcases List.mem_cons.mp hs with rfl | hs
  · rfl
  · rw [List.map_cons, List.nodup_cons] at hkeys
    exact absurd (hkey ▸ List.mem_map_of_mem hs) hkeys.1

/-- With one step a field, the step meets the field in the phase the change found it in. -/
theorem Follows.takes {p q : Phase N} {xs : List (Applied Root N)} (h : Follows crypto rowKey key p xs q)
    (hkeys : (xs.map fun s => s.step.key).Nodup) {s : Applied Root N} (hs : s ∈ xs) (hkey : s.step.key = key) :
    p.Takes crypto rowKey s := by
  induction h with
  | nil => cases hs
  | other hne _ ih =>
      rcases List.mem_cons.mp hs with rfl | hs
      · exact absurd hkey hne
      · exact ih (List.nodup_cons.mp hkeys).2 hs
  | @«seal» s' rest _ _ _ hkey' hkind _ _ _ =>
      obtain rfl : s = s' := head_of_key hkeys hs (hkey.trans hkey'.symm)
      exact hkind
  | @prints s' rest _ _ _ hkey' hkind _ _ =>
      obtain rfl : s = s' := head_of_key hkeys hs (hkey.trans hkey'.symm)
      exact .inl hkind
  | @«open» s' rest _ _ _ hkey' hkind hat _ _ =>
      obtain rfl : s = s' := head_of_key hkeys hs (hkey.trans hkey'.symm)
      exact .inr ⟨hkind, hat⟩

/-- What a step could be made of is fit for it. -/
theorem fits_of_makes (hcrypto : Total crypto) {p : Phase N} {s : Applied Root N} (hready : s.w.Ready s.i s.step)
    (htakes : p.Takes crypto rowKey s) {t raw value : Bytes} (ht : tools.IsValue t) (hraw : p.Stores crypto tools t raw)
    (h : s.w.Makes crypto tools s.i rowKey s.draw s.step raw value) :
    s.w.Fits crypto tools s.i rowKey s.draw s.step raw := by
  have hwf := hready.wf
  obtain ⟨out, hout, -⟩ := makes_value h
  cases p with
  | plain =>
      have hkind : s.step.kind = .seal := htakes
      rw [FieldStep.Wf, hkind] at hwf
      obtain ⟨spec, hspec, -, hsealing, hset⟩ := hwf
      obtain ⟨keys, id, hkeys, hid, -, hsearch⟩ := hready.held (by simp [FieldStep.reads, FieldStep.seals, hkind])
      rw [Rewriter.make_seal hkind hkeys hid hspec hsealing] at hout
      obtain ⟨prints, -, hprints, -⟩ := (Rewriter.sealPlain_eq_ok hsealing).mp hout
      rw [Rewriter.Fits, hkind]
      intro hprinted
      have hstored := (Rewriter.printed_iff hspec).mp hprinted
      refine (printsFor_iff hcrypto (fun hprint => hsearch ?_) hset).mp ⟨prints, hprints⟩ hstored
      simp [FieldStep.prints, hkind, hspec, hprint]
  | «sealed» cipher place =>
      rcases htakes with (hkind | hkind) | ⟨hkind, hat⟩
      · obtain ⟨spec, keys, id, hspec, hset, hkeys, hid, hsearch⟩ := hready.prints hkind
        obtain ⟨stored, -, plain, hopens, hwith⟩ := (Rewriter.make_prints hkind hkeys hid hspec).mp hout
        obtain ⟨prints, hfor, -⟩ := Rewriter.withPrints_eq_ok.mp hwith
        have htext := (printsFor_iff hcrypto (fun _ => hsearch) hset).mp ⟨prints, hfor⟩
        rw [← Rewriter.printed_iff hspec] at htext
        rw [Rewriter.Fits]
        rcases hkind with hkind | hkind <;> rw [hkind] <;> exact ⟨plain, hopens, htext⟩
      · obtain ⟨stored, hstored, -⟩ := (Rewriter.make_dropPrints hkind).mp hout
        rw [Rewriter.Fits, hkind]
        exact ⟨stored, hstored⟩
      · obtain ⟨hopens, htext⟩ := (Rewriter.make_open hkind).mp hout
        obtain rfl := opens_text hat hraw hopens
        rw [Rewriter.Fits, hkind]
        exact ⟨out, hopens, htext, ht⟩

end Phases

/-! ## A run of accepted changes -/

section Runs

variable {crypto : Primitives Root N} {tools : RawTools} {table rowKey : String}

/-- The rewriter is that of a change the analysis accepted. -/
def Change.Accepted (crypto : Primitives Root N) (tools : RawTools) (c : Change Root N) : Prop :=
  ∃ (Lock : Type) (db : Database Lock) (fields : ChangeFields Root Lock) (a : Analysis Root) (fresh : Nat → String),
    Identified db ∧ analyze crypto tools db fields = .ok a ∧ c.w = a.rewriter fresh

theorem Change.Accepted.ready {c : Change Root N} (hc : c.Accepted crypto tools) :
    ∀ s ∈ c.applied table, s.w.Ready s.i s.step := by
  obtain ⟨Lock, db, fields, a, fresh, hids, h, hw⟩ := hc
  obtain ⟨tables, planned, ha⟩ := analyze_accepted h
  intro s hs
  rw [Change.applied] at hs
  cases hfind : c.w.find table with
  | none =>
      rw [hfind] at hs
      cases hs
  | some found =>
      obtain ⟨i, plan⟩ := found
      rw [hfind] at hs
      obtain ⟨step, hstep, rfl⟩ := List.mem_map.mp hs
      have hplan := (Rewriter.find_some hfind).1
      rw [hw] at hplan ⊢
      exact ha.ready hids fresh hplan (List.mem_filter.mp hstep).1

theorem ready_all {changes : List (Change Root N)} (h : ∀ c ∈ changes, c.Accepted crypto tools) :
    ∀ s ∈ changes.flatMap (Change.applied table), s.w.Ready s.i s.step := by
  intro s hs
  obtain ⟨c, hc, hs⟩ := List.mem_flatMap.mp hs
  exact (h c hc).ready s hs

theorem RawRow.eq_of_get {row new : RawRow} (hnames : new.map Prod.fst = row.map Prod.fst)
    (hnodup : (row.map Prod.fst).Nodup) (hget : ∀ key, (row.get key).isSome → new.get key = row.get key) : new = row := by
  induction row generalizing new with
  | nil => exact List.map_eq_nil_iff.mp hnames
  | cons e row ih =>
      obtain ⟨e', new', rfl, hname, hrest⟩ := List.map_eq_cons_iff.mp hnames
      obtain ⟨hfresh, hnodup⟩ := List.nodup_cons.mp hnodup
      have hhead := hget e.1 (by rw [RawRow.get_cons, if_pos rfl]; rfl)
      rw [RawRow.get_cons, RawRow.get_cons, if_pos hname.symm, if_pos rfl] at hhead
      have htail : new' = row := by
        refine ih hrest hnodup fun key hkey => ?_
        have hne : key ≠ e.1 := by
          rintro rfl
          exact hfresh (RawRow.get_isSome.mp hkey)
        have hkey' := hget key (by rw [RawRow.get_cons, if_neg hne]; exact hkey)
        rwa [RawRow.get_cons, RawRow.get_cons, if_neg hne, if_neg (hname ▸ hne)] at hkey'
      rw [htail]
      exact congrArg (· :: row) (Prod.ext hname (Option.some.inj hhead))

/-- A change with one step a field, each on a value that is fit for it, is accepted by the check. -/
theorem Change.verifies (hcrypto : Total crypto) (c : Change Root N)
    (hready : ∀ s ∈ c.applied table, s.w.Ready s.i s.step) {mid new : Bytes} {a : RawRow}
    (ha : RawRow.parse tools mid = .ok a) (hnew : c.w.rewrite crypto tools table rowKey c.draw mid = .ok new)
    (hkeys : ((c.applied table).map fun s => s.step.key).Nodup)
    (hfits : ∀ s ∈ c.applied table, ∀ raw value, a.get s.step.key = some raw →
      s.w.Makes crypto tools s.i rowKey s.draw s.step raw value → s.w.Fits crypto tools s.i rowKey s.draw s.step raw) :
    c.w.verify crypto tools table rowKey mid new = .ok () := by
  rw [Change.applied] at hready hkeys hfits
  cases hfind : c.w.find table with
  | none => rw [Rewriter.verify, hfind]
  | some found =>
      obtain ⟨i, plan⟩ := found
      rw [hfind] at hready hkeys hfits
      have hplan : (plan.rewrites.map FieldStep.key).Nodup := by simpa [Function.comp_def] using hkeys
      have hmade : ∀ s ∈ plan.rewrites, ∃ raw value, a.get s.key = some raw ∧
          c.w.Makes crypto tools i rowKey c.draw s raw value := by
        rw [Rewriter.rewrite, hfind] at hnew
        obtain ⟨a', ha', hnew⟩ := bind_eq_ok.mp hnew
        cases ha.symm.trans ha'
        obtain ⟨b, hb, -⟩ := bind_eq_ok.mp hnew
        intro s hs
        obtain ⟨raw, value, hraw, hmakes, -⟩ := (Rewriter.rewriteSteps_iff hplan).1 b hb s hs
        exact ⟨raw, value, hraw, hmakes⟩
      have hpasses : c.w.Passes crypto tools c.draw table rowKey mid := by
        refine (Rewriter.rewrite_verify_iff hfind hplan ha).mpr fun s hs => ?_
        obtain ⟨raw, value, hraw, hmakes⟩ := hmade s hs
        have happlied : (⟨c.w, i, c.draw, s⟩ : Applied Root N) ∈ plan.rewrites.map fun s => ⟨c.w, i, c.draw, s⟩ :=
          List.mem_map_of_mem hs
        have hkeep : s.kind ≠ .keep := by simpa using (List.mem_filter.mp hs).2
        exact ⟨raw, hraw, (Rewriter.stepPasses_iff_fits hcrypto (hready _ happlied) hkeep).mpr
          (hfits _ happlied raw value hraw hmakes)⟩
      obtain ⟨new', hnew', hverify⟩ := hpasses
      cases hnew.symm.trans hnew'
      exact hverify

/-- **Putting protection on and taking it off gives the same text.** In a run of accepted changes that leaves every field
plain, the last row has the fields of the first, with their texts and in their order. Each change leaves the order and
the fields it has no step for, and the check accepts it if it has one step a field. -/
theorem protection_reversible (hcrypto : Total crypto) {changes : List (Change Root N)}
    (haccepted : ∀ c ∈ changes, c.Accepted crypto tools) {old last : Bytes} {row : RawRow}
    (hrow : RawRow.parse tools old = .ok row)
    (hfollows : ∀ key, (row.get key).isSome →
      Follows crypto rowKey key .plain (changes.flatMap (Change.applied table)) .plain)
    (hrun : rewriteAll crypto tools table rowKey changes old = .ok last) :
    RawRow.parse tools last = .ok row ∧
      ∀ before c after mid new, changes = before ++ c :: after →
        rewriteAll crypto tools table rowKey before old = .ok mid →
        c.w.rewrite crypto tools table rowKey c.draw mid = .ok new →
        (∃ a b, RawRow.parse tools mid = .ok a ∧ RawRow.parse tools new = .ok b ∧ b.map Prod.fst = a.map Prod.fst ∧
          ∀ key, key ∉ (c.applied table).map (fun s => s.step.key) → b.get key = a.get key) ∧
        (((c.applied table).map fun s => s.step.key).Nodup → c.w.verify crypto tools table rowKey mid new = .ok ()) := by
  have hclean := RawRow.parse_clean hrow
  have hready := @ready_all Root N crypto tools table changes haccepted
  constructor
  · obtain ⟨lastRow, hlast, hsteps⟩ := rewriteAll_steps hrow hrun
    rw [hlast]
    refine congrArg Except.ok (RawRow.eq_of_get hsteps.names hclean.names fun key hkey => ?_)
    obtain ⟨t, ht⟩ := Option.isSome_iff_exists.mp hkey
    obtain ⟨raw, hraw, rfl⟩ := (hfollows key hkey).stores hcrypto.b64 hready
      (hclean.values _ (RawRow.mem_of_get ht)) hsteps ht rfl
    rw [hraw, ht]
  · rintro before c after mid new rfl hmid hnew
    obtain ⟨a, ha, hbefore⟩ := rewriteAll_steps hrow hmid
    obtain ⟨b, hb, hsteps⟩ := Change.steps ha hnew
    refine ⟨⟨a, b, ha, hb, hsteps.names, fun key hkey => hsteps.get hkey⟩, fun hkeys => ?_⟩
    have hreadyC : ∀ s ∈ c.applied table, s.w.Ready s.i s.step :=
      (haccepted c (List.mem_append_right _ List.mem_cons_self)).ready
    -- each field is in the phase the changes before left it in
    have hfits : ∀ s ∈ c.applied table, ∀ raw value, a.get s.step.key = some raw →
        s.w.Makes crypto tools s.i rowKey s.draw s.step raw value →
          s.w.Fits crypto tools s.i rowKey s.draw s.step raw := by
      intro s hs raw value hraw hmakes
      have hkey : (row.get s.step.key).isSome := by
        rw [RawRow.get_isSome, ← hbefore.names, ← RawRow.get_isSome, hraw]
        rfl
      obtain ⟨t, ht⟩ := Option.isSome_iff_exists.mp hkey
      have hvalue := hclean.values _ (RawRow.mem_of_get ht)
      have hpath := hfollows _ hkey
      rw [List.flatMap_append, List.flatMap_cons] at hpath
      obtain ⟨p, hfirst, hrest⟩ := hpath.split
      obtain ⟨q, hthis, -⟩ := hrest.split
      have hreadyB : ∀ s ∈ before.flatMap (Change.applied table), s.w.Ready s.i s.step :=
        ready_all fun c hc => haccepted c (List.mem_append_left _ hc)
      obtain ⟨raw', hraw', hstores⟩ := hfirst.stores hcrypto.b64 hreadyB hvalue hbefore ht rfl
      cases hraw.symm.trans hraw'
      exact fits_of_makes hcrypto (hreadyC s hs) (hthis.takes hkeys hs rfl) hvalue hstores hmakes
    exact c.verifies hcrypto hreadyC ha hnew hkeys hfits

end Runs

namespace Sample

/-- A field is sealed with a fingerprint, the fingerprint is dropped, and the field is opened. -/
def sealing : Rewriter Nat :=
  ⟨[⟨"t", [⟨1, "f", none, some (spec 1 .encryptFullPrint), .seal⟩], true, false⟩], [none], [some "i"], some .plain⟩

@[inherit_doc sealing]
def dropping : Rewriter Nat :=
  ⟨[⟨"t", [⟨1, "f", some (.fromSpec (spec 1 .encryptFullPrint)), some (spec 1 .encrypt), .dropPrints⟩], false, false⟩],
    [some "i"], [some "i"], some .plain⟩

@[inherit_doc sealing]
def opening : Rewriter Nat :=
  ⟨[⟨"t", [⟨1, "f", some (.fromSpec (spec 1 .encrypt)), none, .open⟩], false, true⟩], [some "i"], [none], some .plain⟩

def sealAndOpen : List (Change Nat Unit) := [sealing, dropping, opening].map fun w => ⟨w, fun _ => ((), [])⟩

/-- The row `{"f": "x"}`. -/
def textRow : Bytes := row (tools.printString "x")

theorem accepted_of_run {w : Rewriter Nat} {fields : List SealedField} {specs : List SealedSpec}
    (h : (analyze .plain tools (database fields [] []) (change specs)).toOption.map
      (fun a => a.rewriter fun _ => "i") = some w) (draw : Nat → Unit × Bytes) :
    (Change.mk w draw).Accepted .plain tools := by
  obtain ⟨a, ha, rfl⟩ := Option.map_eq_some_iff.mp h
  exact ⟨Unit, _, _, a, fun _ => "i", identified_database fields [] [], eq_ok_of_toOption ha, rfl⟩

end Sample

theorem protection_reversible_print :
    ∃ last, rewriteAll .plain Sample.tools "t" "r" Sample.sealAndOpen Sample.textRow = .ok last ∧
      RawRow.parse Sample.tools last = .ok [("f", Sample.tools.printString "x")] := by
  have hrun := eq_ok_of_toOption (show (rewriteAll .plain Sample.tools "t" "r" Sample.sealAndOpen
    Sample.textRow).toOption = some Sample.textRow by decide)
  have hrow : RawRow.parse Sample.tools Sample.textRow = .ok [("f", Sample.tools.printString "x")] := rfl
  refine ⟨_, hrun, (protection_reversible Sample.total_plain ?_ hrow ?_ hrun).1⟩
  · intro c hc
    simp only [Sample.sealAndOpen, List.map_cons, List.map_nil, List.mem_cons, List.not_mem_nil, or_false] at hc
    rcases hc with rfl | rfl | rfl
    · exact @Sample.accepted_of_run _ [] [Sample.spec 1 .encryptFullPrint] rfl _
    · exact @Sample.accepted_of_run _ [.fromSpec (Sample.spec 1 .encryptFullPrint)] [Sample.spec 1 .encrypt] rfl _
    · exact @Sample.accepted_of_run _ [.fromSpec (Sample.spec 1 .encrypt)] [] rfl _
  · intro key hkey
    obtain rfl : key = "f" := by simpa using RawRow.get_isSome.mp hkey
    exact .seal rfl rfl ⟨.plain, "i", rfl, rfl, rfl, rfl⟩ (.prints rfl (.inr rfl)
      (.open rfl rfl ⟨.plain, "i", rfl, rfl, rfl, rfl⟩ (.nil _)))

end CloveDb.FieldChange
