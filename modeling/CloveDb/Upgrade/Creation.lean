/-
# CloveDb.Upgrade.Creation — making a database that is encrypted as a whole

The part of `upgrade/pipeline.rs` that makes a new encrypted database, with `create_file` of `encrypted_store/store.rs`.
The main file is made under a pending name (itself made under a `.creating` name), the side files and the keys file are
written, the first commit is made, and only then the file gets its real name. An open first clears what an attempt that
was stopped has left.

A process is stopped between any two effects, also inside `clear_interrupted_creation` and inside the removal of a
folder. What a file holds before it is complete is one constructor; what the side files hold is arbitrary. One process
works at a time, and no change of the database's files is under way. A creation that fails with an error, and what it
then removes, is left out.
-/
import CloveDb.Lib.CrashProg
import CloveDb.Units
import Mathlib.Logic.Function.Basic

namespace CloveDb.Upgrade

open CloveDb.Lib

/-! ## Files -/

/-- How far the main file has come, under whichever name. -/
inductive MainFile where
  /-- not yet a database -/
  | begun
  /-- an empty database -/
  | made
  /-- with the first commit -/
  | committed
  deriving DecidableEq

/-- The names of the main file: `.cldb`, `.cldb.new`, `.cldb.new.creating`. -/
inductive Name where
  | main
  | pending
  | creating
  deriving DecidableEq

/-- `.cldb.bak`, `.inx`, `.migration`, `.blobs`, `.keys` -/
inductive Side where
  | backup
  | index
  | migration
  | attachments
  | keys
  deriving DecidableEq

inductive Item (E : Type) where
  | file (content : E)
  | folder (entries : List E)

structure Disk (E : Type) where
  files : Name → Option MainFile
  side : Side → Option (Item E)

/-- `backup_dir_path` is set. -/
structure Config where
  backup : Bool

variable {E : Type}

def Disk.set (d : Disk E) (n : Name) (f : Option MainFile) : Disk E := { d with files := Function.update d.files n f }

def Disk.setSide (d : Disk E) (s : Side) (i : Option (Item E)) : Disk E := { d with side := Function.update d.side s i }

abbrev Step (E α : Type) := Prog (Disk E) ClError α

def removeFile (n : Name) : Step E Unit := do
  let d ← Prog.read
  if (d.files n).isSome then Prog.effect (·.set n none) else Prog.ret ()

/-- One entry less in a folder. -/
def dropEntry (s : Side) (d : Disk E) : Disk E :=
  match d.side s with
  | some (.folder entries) => d.setSide s (some (.folder entries.tail))
  | _ => d

/-- `remove_any`: a folder goes entry by entry. -/
def removeAny (s : Side) : Step E Unit := do
  let d ← Prog.read
  match d.side s with
  | none => Prog.ret ()
  | some (.file _) => Prog.effect (·.setSide s none)
  | some (.folder entries) => do
      Prog.each entries fun _ => Prog.effect (dropEntry s)
      Prog.effect (·.setSide s none)

/-- What an attempt may have written beside the main file, in the order it is removed. -/
def Config.sides (config : Config) : List Side :=
  (if config.backup then [.backup] else []) ++ [.index, .migration, .attachments, .keys]

def clearInterruptedCreation (config : Config) : Step E Unit := do
  let d ← Prog.read
  if (d.files .pending).isNone && (d.files .creating).isNone then Prog.ret ()
  else do
    if (d.files .main).isNone then Prog.each config.sides removeAny else Prog.ret ()
    removeFile .creating
    removeFile .pending

/-! ## Making the files -/

/-- What a system does in an attempt: whether it has hard links, which removals it fails to make (their errors are not
looked at), and what is written beside the main file. -/
structure Attempt (config : Config) (E : Type) where
  links : Bool
  keepsCreating : Bool
  keepsPending : Bool
  writes : List (Side × Item E)
  keys : Option (Item E)
  fits : ∀ w ∈ writes, w.1 ∈ config.sides

/-- Gives a finished file its name, without replacing one that is there; `cleans` removes the file that cannot be
placed. -/
def placeWith (links keeps cleans : Bool) (taken : ClError) (tmp path : Name) : Step E Unit := do
  let d ← Prog.read
  if (d.files path).isSome then do
    if cleans then removeFile tmp else Prog.ret ()
    Prog.fail taken
  else if links then do
    Prog.effect fun d => d.set path (d.files tmp)
    if keeps then Prog.ret () else Prog.effect (·.set tmp none)
  else Prog.effect fun d => (d.set path (d.files tmp)).set tmp none

def pathTaken : ClError := .validation "a file already exists at this path"

/-- `place_new_file` of the store -/
def placeCreated {config : Config} (attempt : Attempt config E) : Step E Unit :=
  placeWith attempt.links attempt.keepsCreating true pathTaken .creating .pending

/-- `place_new_file` of the pipeline -/
def placeNewFile {config : Config} (attempt : Attempt config E) : Step E Unit :=
  placeWith attempt.links attempt.keepsPending false .ioError .pending .main

/-- `create_file` of the pending file. -/
def createFile {config : Config} (attempt : Attempt config E) : Step E Unit := do
  let d ← Prog.read
  if (d.files .pending).isSome then Prog.fail pathTaken
  else do
    removeFile .creating
    Prog.effect (·.set .creating (some .begun))
    Prog.effect (·.set .creating (some .made))
    placeCreated attempt

def writeSide (w : Side × Item E) : Step E Unit := Prog.effect (·.setSide w.1 (some w.2))

def writeKeys (keys : Option (Item E)) : Step E Unit :=
  match keys with
  | none => Prog.ret ()
  | some item => writeSide (.keys, item)

/-- The rest of `run` for a file that is not there. -/
def create {config : Config} (attempt : Attempt config E) : Step E Unit := do
  createFile attempt
  Prog.each attempt.writes writeSide
  writeKeys attempt.keys
  Prog.effect (·.set .pending (some .committed))
  placeNewFile attempt

inductive Opened where
  | found
  | made
  deriving DecidableEq

def openDatabase {config : Config} (attempt : Attempt config E) : Step E Opened := do
  clearInterruptedCreation config
  let d ← Prog.read
  if (d.files .main).isSome then Prog.ret .found
  else do
    create attempt
    Prog.ret .made

/-- The files after any number of processes, each stopped anywhere; a database that is there is used, which changes
what is beside it. -/
inductive Reached (config : Config) (start : Disk E) : Disk E → Prop
  | start : Reached config start start
  | opened {d t : Disk E} (h : Reached config start d) (attempt : Attempt config E)
      (ht : t ∈ (openDatabase attempt).states d) : Reached config start t
  | used {d t : Disk E} (h : Reached config start d) (hmain : (d.files .main).isSome = true) (hfiles : t.files = d.files) :
      Reached config start t

/-! ## What a stop leaves -/

/-- The files of a creation that was begun with `start` on the disk. -/
structure Sound (config : Config) (start d : Disk E) : Prop where
  /-- The real name is given to a complete file only. -/
  named : d.files .main = none ∨ d.files .main = some .committed
  /-- Without a pending name, nothing of an attempt is there. -/
  clean : d.files .main = none → d.files .pending = none → d.files .creating = none →
    ∀ s, d.side s = none ∨ d.side s = start.side s
  /-- What is no file of the database is not touched. -/
  beside : d.files .main = none → ∀ s ∉ config.sides, d.side s = start.side s

/-- One step: it keeps the files sound, and once the main file has its name nothing but a pending name goes. -/
def Keeps (config : Config) (start a b : Disk E) : Prop :=
  (Sound config start a → Sound config start b) ∧
    ((a.files .main).isSome = true → b.files .main = a.files .main ∧ b.side = a.side)

section Stops

variable {config : Config} {start a b d : Disk E}

@[simp] theorem Disk.set_files (d : Disk E) (n : Name) (f : Option MainFile) :
    (d.set n f).files = Function.update d.files n f := rfl

@[simp] theorem Disk.set_side (d : Disk E) (n : Name) (f : Option MainFile) : (d.set n f).side = d.side := rfl

@[simp] theorem Disk.setSide_files (d : Disk E) (s : Side) (i : Option (Item E)) : (d.setSide s i).files = d.files := rfl

@[simp] theorem Disk.setSide_side (d : Disk E) (s : Side) (i : Option (Item E)) :
    (d.setSide s i).side = Function.update d.side s i := rfl

theorem Keeps.trans {c : Disk E} (hab : Keeps config start a b) (hbc : Keeps config start b c) : Keeps config start a c := by
  refine ⟨hbc.1 ∘ hab.1, fun hmain => ?_⟩
  obtain ⟨hfile, hside⟩ := hab.2 hmain
  obtain ⟨hfile', hside'⟩ := hbc.2 (hfile ▸ hmain)
  exact ⟨hfile'.trans hfile, hside'.trans hside⟩

/-- A step of an attempt that has no real name yet and can be seen by a pending one. -/
theorem Keeps.marked (ha : a.files .main = none) (hb : b.files .main = none)
    (hmark : b.files .pending ≠ none ∨ b.files .creating ≠ none) (hbeside : ∀ s ∉ config.sides, b.side s = a.side s) :
    Keeps config start a b := by
  refine ⟨fun h => ⟨.inl hb, fun _ hp hc => ?_, fun _ s hs => ?_⟩, fun hmain => ?_⟩
  · rcases hmark with hmark | hmark
    · exact absurd hp hmark
    · exact absurd hc hmark
  · exact (hbeside s hs).trans (h.beside ha s hs)
  · rw [ha] at hmain
    cases hmain

/-- A step that leaves a complete file under its name. -/
theorem Keeps.complete (hb : b.files .main = some .committed)
    (hsame : a.files .main = none ∨ b.files .main = a.files .main ∧ b.side = a.side) : Keeps config start a b := by
  refine ⟨fun _ => ⟨.inr hb, fun hnone => ?_, fun hnone => ?_⟩, fun hmain => ?_⟩
  · rw [hb] at hnone
    cases hnone
  · rw [hb] at hnone
    cases hnone
  · rcases hsame with hnone | hsame
    · rw [hnone] at hmain
      cases hmain
    · exact hsame

/-! ## Removing -/

theorem removeFile_moves (n : Name) (d : Disk E) :
    Prog.Moves (fun s => s = d) (removeFile n) (fun a b => a = d ∧ b = d.set n none)
      (Prog.Returns fun _ b => b = d.set n none) := by
  refine .read fun s hs => ?_
  subst hs
  cases hfile : s.files n with
  | none =>
      have hsame : s.set n none = s := by
        rw [Disk.set, ← hfile, Function.update_eq_self]
      exact .ret fun t ht => ⟨(), rfl, ht.trans hsame.symm⟩
  | some f =>
      refine .effect fun t ht => ?_
      subst ht
      exact ⟨⟨rfl, rfl⟩, (), rfl, rfl⟩

/-- Only what is in `l` changes beside the main file. -/
def Within (l : List Side) (d a b : Disk E) : Prop :=
  a.files = d.files ∧ b.files = d.files ∧ ∀ u ∉ l, b.side u = a.side u

theorem removeAny_moves (s : Side) (d : Disk E) :
    Prog.Moves (fun t => t = d) (removeAny s) (Within [s] d)
      (Prog.Returns fun _ b => b.files = d.files ∧ b.side s = none ∧ ∀ u ≠ s, b.side u = d.side u) := by
  have hclear : Prog.Moves (fun t : Disk E => t.files = d.files ∧ ∀ u ≠ s, t.side u = d.side u)
      (Prog.effect (·.setSide s none) : Step E Unit) (Within [s] d)
      (Prog.Returns fun _ b => b.files = d.files ∧ b.side s = none ∧ ∀ u ≠ s, b.side u = d.side u) := by
    refine .effect fun t ht => ⟨⟨ht.1, ht.1, fun u hu => ?_⟩, (), rfl, ht.1, ?_, fun u hu => ?_⟩
    · simp [Function.update_of_ne (List.ne_of_not_mem_cons hu)]
    · simp
    · simp [Function.update_of_ne hu, ht.2 u hu]
  refine .read fun t ht => ?_
  subst ht
  cases hside : t.side s with
  | none => exact .ret fun x hx => ⟨(), rfl, by simp [hx], by rw [hx, hside], fun u _ => by rw [hx]⟩
  | some item =>
      cases item with
      | file content => exact hclear.imp (fun x hx => by simp [hx]) (fun _ _ h => h) fun _ _ h => h
      | folder entries =>
          refine .next (.imp (.each fun _ _ => .effect fun x hx => ?_) (fun x hx => ?_) (fun _ _ h => h) fun _ _ h => h)
            fun _ => hclear
          · have hdrop : (dropEntry s x).files = x.files ∧ ∀ u ≠ s, (dropEntry s x).side u = x.side u := by
              unfold dropEntry
              split
              · exact ⟨rfl, fun u hu => by simp [Function.update_of_ne hu]⟩
              · exact ⟨rfl, fun _ _ => rfl⟩
            refine ⟨⟨hx.1, hdrop.1.trans hx.1, fun u hu => hdrop.2 u (List.ne_of_not_mem_cons hu)⟩, (), rfl,
              hdrop.1.trans hx.1, fun u hu => (hdrop.2 u hu).trans (hx.2 u hu)⟩
          · subst hx
            exact ⟨rfl, fun _ _ => rfl⟩

theorem removeSides_moves (l : List Side) (d : Disk E) :
    Prog.Moves (fun t => t = d) (Prog.each l removeAny) (Within l d)
      (Prog.Returns fun _ b => b.files = d.files ∧ (∀ u ∈ l, b.side u = none) ∧ ∀ u ∉ l, b.side u = d.side u) := by
  induction l generalizing d with
  | nil => exact .ret fun t ht => ⟨(), rfl, by rw [ht], fun _ => nofun, fun u _ => by rw [ht]⟩
  | cons s l ih =>
      refine .next ((removeAny_moves s d).imp (fun _ h => h) (fun a b h => ?_) fun _ _ h => h) fun _ => ?_
      · exact ⟨h.1, h.2.1, fun u hu => h.2.2 u fun hus => hu (List.mem_cons.mpr (.inl (List.mem_singleton.mp hus)))⟩
      · intro t ht
        obtain ⟨hfiles, hnone, hothers⟩ := ht
        refine ((ih t).imp (fun _ h => h) (fun a b h => ?_) fun r b h => ?_) t rfl
        · exact ⟨h.1.trans hfiles, h.2.1.trans hfiles, fun u hu => h.2.2 u fun hul => hu (List.mem_cons_of_mem _ hul)⟩
        · obtain ⟨x, hx, hfiles', hin, hout⟩ := h
          refine ⟨x, hx, hfiles'.trans hfiles, fun u hu => ?_, fun u hu => ?_⟩
          · by_cases hul : u ∈ l
            · exact hin u hul
            · obtain rfl := (List.mem_cons.mp hu).resolve_right hul
              exact (hout u hul).trans hnone
          · rw [List.mem_cons, not_or] at hu
            exact (hout u hu.2).trans (hothers u hu.1)

/-- What clearing leaves: no pending name, and beside it all that a named file has, or nothing of an attempt. -/
structure Cleared (config : Config) (start d e : Disk E) : Prop where
  sound : Sound config start e
  pending : e.files .pending = none
  creating : e.files .creating = none
  main : e.files .main = d.files .main
  kept : (d.files .main).isSome = true → e.side = d.side

/-- The two pending names go last, the one that is looked for first. -/
theorem removeNames_moves (hsound : Sound config start d) (hsides : d.files .main = none →
    ∀ s, d.side s = none ∨ d.side s = start.side s) :
    Prog.Moves (fun t => t = d) (do removeFile .creating; removeFile .pending : Step E Unit) (Keeps config start)
      (Prog.Returns fun _ e => Cleared config start d e) := by
  have hsame : ∀ e : Disk E, e.files .main = d.files .main → e.side = d.side → Sound config start e := fun e hmain hside =>
    ⟨hmain ▸ hsound.named, fun hnone _ _ => hside ▸ hsides (hmain ▸ hnone), fun hnone => hside ▸ hsound.beside (hmain ▸ hnone)⟩
  refine .next ((removeFile_moves .creating d).imp (fun _ h => h) (fun a b h => ?_) fun _ _ h => h) fun _ => ?_
  · obtain ⟨rfl, rfl⟩ := h
    exact ⟨fun _ => hsame _ (by simp) rfl, fun _ => ⟨by simp, rfl⟩⟩
  · refine (removeFile_moves .pending (d.set .creating none)).imp (fun _ h => h) (fun a b h => ?_) fun r b h => ?_
    · obtain ⟨rfl, rfl⟩ := h
      exact ⟨fun _ => hsame _ (by simp) rfl, fun _ => ⟨by simp, rfl⟩⟩
    · obtain ⟨x, hx, rfl⟩ := h
      exact ⟨x, hx, hsame _ (by simp) rfl, by simp, by simp, by simp, fun _ => rfl⟩

theorem clear_moves (hsound : Sound config start d) :
    Prog.Moves (fun t => t = d) (clearInterruptedCreation config) (Keeps config start)
      (Prog.Returns fun _ e => Cleared config start d e) := by
  refine .read fun t ht => ?_
  subst ht
  split
  · rename_i hnone
    rw [Bool.and_eq_true, Option.isNone_iff_eq_none, Option.isNone_iff_eq_none] at hnone
    refine .ret fun x hx => ⟨(), rfl, ?_⟩
    subst hx
    exact ⟨hsound, hnone.1, hnone.2, rfl, fun _ => rfl⟩
  · rename_i hmark
    have hmark : t.files .pending ≠ none ∨ t.files .creating ≠ none := by
      rw [Bool.and_eq_true, Option.isNone_iff_eq_none, Option.isNone_iff_eq_none, not_and_or] at hmark
      exact hmark
    cases hmain : t.files .main with
    | some f =>
        have hnamed : t.files .main = none → ∀ s, t.side s = none ∨ t.side s = start.side s := fun hnone => by
          rw [hmain] at hnone
          cases hnone
        exact .next (.ret fun x hx => ⟨(), rfl, hx⟩) fun _ => removeNames_moves hsound hnamed
    | none =>
        refine .next ((removeSides_moves config.sides t).imp (fun _ h => h) (fun a b h => ?_) fun _ _ h => h) fun _ => ?_
        · exact .marked (h.1 ▸ hmain) (h.2.1 ▸ hmain) (h.2.1 ▸ hmark) h.2.2
        · intro e he
          obtain ⟨hfiles, hin, hout⟩ := he
          have hsides : ∀ s, e.side s = none ∨ e.side s = start.side s := fun s => by
            by_cases hs : s ∈ config.sides
            · exact .inl (hin s hs)
            · exact .inr ((hout s hs).trans (hsound.beside hmain s hs))
          have hsound' : Sound config start e := ⟨.inl (hfiles ▸ hmain), fun _ _ _ => hsides,
            fun _ s hs => (hout s hs).trans (hsound.beside hmain s hs)⟩
          refine ((removeNames_moves hsound' fun _ => hsides).imp (fun _ h => h) (fun _ _ h => h) fun r b h => ?_) e rfl
          obtain ⟨x, hx, hcleared⟩ := h
          refine ⟨x, hx, hcleared.sound, hcleared.pending, hcleared.creating, hcleared.main.trans (hfiles ▸ rfl), ?_⟩
          intro hsome
          rw [hmain] at hsome
          cases hsome

/-! ## Making -/

/-- A free name is given in one step; with a link the other name goes in a second one, if at all. -/
theorem placeWith_moves {links keeps cleans : Bool} {taken : ClError} {tmp path : Name} {R : Disk E → Disk E → Prop}
    (hfree : d.files path = none) (hlink : R d (d.set path (d.files tmp)))
    (hunlink : R (d.set path (d.files tmp)) ((d.set path (d.files tmp)).set tmp none))
    (hrename : R d ((d.set path (d.files tmp)).set tmp none)) :
    Prog.Moves (fun t => t = d) (placeWith links keeps cleans taken tmp path) R
      (Prog.Returns fun _ b => b = d.set path (d.files tmp) ∨ b = (d.set path (d.files tmp)).set tmp none) := by
  refine .read fun t ht => ?_
  subst ht
  rw [hfree, Option.isSome_none, if_neg Bool.false_ne_true]
  cases links with
  | false =>
      refine (Prog.Moves.step hrename).imp (fun _ h => h) (fun _ _ h => h) fun r b h => ?_
      obtain ⟨x, hx, hb⟩ := h
      exact ⟨x, hx, .inr hb⟩
  | true =>
      refine .next (Prog.Moves.step hlink) fun _ => ?_
      cases keeps with
      | true => exact .ret fun x hx => ⟨(), rfl, .inl hx⟩
      | false =>
          refine (Prog.Moves.step hunlink).imp (fun _ h => h) (fun _ _ h => h) fun r b h => ?_
          obtain ⟨x, hx, hb⟩ := h
          exact ⟨x, hx, .inr hb⟩

theorem createFile_moves (attempt : Attempt config E) :
    Prog.Moves (fun d => d.files .main = none ∧ d.files .pending = none ∧ d.files .creating = none) (createFile attempt)
      (Keeps config start) (Prog.Returns fun _ b => b.files .main = none ∧ b.files .pending = some .made) := by
  refine .read fun d hd => ?_
  obtain ⟨hmain, hpending, hcreating⟩ := hd
  rw [hpending, Option.isSome_none, if_neg Bool.false_ne_true]
  have hsame : d.set .creating none = d := by
    rw [Disk.set, ← hcreating, Function.update_eq_self]
  have hclear : Prog.Moves (fun t => t = d) (removeFile .creating) (Keeps config start)
      (Prog.Returns fun _ b => b = d) := by
    refine (removeFile_moves .creating d).imp (fun _ h => h) (fun a b h => ?_) fun r b h => ?_
    · obtain ⟨rfl, rfl⟩ := h
      rw [hsame]
      exact ⟨id, fun _ => ⟨rfl, rfl⟩⟩
    · rwa [hsame] at h
  have hbegin : Keeps config start d (d.set .creating (some .begun)) :=
    .marked hmain (by simpa using hmain) (.inr (by simp)) fun _ _ => rfl
  have hfill : Prog.Moves (fun t => t = d.set .creating (some .begun))
      (Prog.effect (·.set .creating (some .made)) : Step E Unit) (Keeps config start)
      (Prog.Returns fun _ b => b.files .main = none ∧ b.files .pending = none ∧ b.files .creating = some .made) := by
    refine .effect fun x hx => ?_
    subst hx
    exact ⟨.marked (by simpa using hmain) (by simpa using hmain) (.inr (by simp)) fun _ _ => rfl, (), rfl,
      by simpa using hmain, by simpa using hpending, by simp⟩
  refine .next hclear fun _ => .next (Prog.Moves.step hbegin) fun _ => .next hfill fun _ => ?_
  intro e he
  obtain ⟨hmain, hpending, hcreating⟩ := he
  refine ((placeWith_moves hpending ?_ ?_ ?_).imp (fun _ h => h) (fun _ _ h => h) fun r b h => ?_) e rfl
  · exact .marked hmain (by simpa using hmain) (.inl (by simp [hcreating])) fun _ _ => rfl
  · exact .marked (by simpa using hmain) (by simpa using hmain) (.inl (by simp [hcreating])) fun _ _ => rfl
  · exact .marked hmain (by simpa using hmain) (.inl (by simp [hcreating])) fun _ _ => rfl
  · obtain ⟨x, hx, rfl | rfl⟩ := h
    · exact ⟨x, hx, by simpa using hmain, by simpa using hcreating⟩
    · exact ⟨x, hx, by simpa using hmain, by simpa using hcreating⟩

theorem writeSide_moves {w : Side × Item E} (hw : w.1 ∈ config.sides) {f : MainFile} :
    Prog.Moves (fun d => d.files .main = none ∧ d.files .pending = some f) (writeSide w) (Keeps config start)
      (Prog.Returns fun _ b => b.files .main = none ∧ b.files .pending = some f) := by
  refine .effect fun d hd => ⟨.marked hd.1 hd.1 (.inl (by simp [hd.2])) fun s hs => ?_, (), rfl, hd⟩
  have hne : s ≠ w.1 := fun h => hs (h ▸ hw)
  simp [Function.update_of_ne hne]

theorem create_moves (attempt : Attempt config E) :
    Prog.Moves (fun d => d.files .main = none ∧ d.files .pending = none ∧ d.files .creating = none) (create attempt)
      (Keeps config start) (Prog.Returns fun _ b => b.files .main = some .committed) := by
  have hkeys : Prog.Moves (fun d : Disk E => d.files .main = none ∧ d.files .pending = some .made)
      (writeKeys attempt.keys) (Keeps config start)
      (Prog.Returns fun _ b => b.files .main = none ∧ b.files .pending = some .made) := by
    unfold writeKeys
    cases attempt.keys with
    | none => exact .ret fun d hd => ⟨(), rfl, hd⟩
    | some item => exact writeSide_moves (by simp [Config.sides])
  have hcommit : Prog.Moves (fun d : Disk E => d.files .main = none ∧ d.files .pending = some .made)
      (Prog.effect (·.set .pending (some .committed)) : Step E Unit) (Keeps config start)
      (Prog.Returns fun _ b => b.files .main = none ∧ b.files .pending = some .committed) :=
    .effect fun d hd => ⟨.marked hd.1 (by simpa using hd.1) (.inl (by simp)) fun _ _ => rfl, (), rfl,
      by simpa using hd.1, by simp⟩
  refine .next (createFile_moves attempt) fun _ => .next (.each fun w hw => writeSide_moves (attempt.fits w hw)) fun _ =>
    .next hkeys fun _ => .next hcommit fun _ => ?_
  intro d hd
  obtain ⟨hmain, hpending⟩ := hd
  refine ((placeWith_moves hmain ?_ ?_ ?_).imp (fun _ h => h) (fun _ _ h => h) fun r b h => ?_) d rfl
  · exact .complete (by simpa using hpending) (.inl hmain)
  · exact .complete (by simpa using hpending) (.inr ⟨by simp, rfl⟩)
  · exact .complete (by simpa using hpending) (.inl hmain)
  · obtain ⟨x, hx, rfl | rfl⟩ := h
    · exact ⟨x, hx, by simpa using hpending⟩
    · exact ⟨x, hx, by simpa using hpending⟩

/-- An open that is not stopped: it finds the complete file, or makes it with nothing of an attempt beside it. -/
theorem openDatabase_moves (attempt : Attempt config E) (hsound : Sound config start d) :
    Prog.Moves (fun t => t = d) (openDatabase attempt) (Keeps config start)
      (Prog.Returns fun opened b => b.files .main = some .committed ∧
        opened = if (d.files .main).isSome then .found else .made) := by
  refine .next (clear_moves hsound) fun _ => .read fun e he => ?_
  cases hmain : d.files .main with
  | some f =>
      have hfile : e.files .main = some .committed :=
        he.sound.named.resolve_left (by rw [he.main, hmain]; simp)
      rw [hfile, Option.isSome_some, if_pos rfl]
      exact .ret fun x hx => ⟨.found, rfl, hx ▸ hfile, rfl⟩
  | none =>
      have hfile : e.files .main = none := he.main.trans hmain
      rw [hfile, Option.isSome_none, if_neg Bool.false_ne_true]
      refine .next ((create_moves attempt).imp (fun x hx => ?_) (fun _ _ h => h) fun _ _ h => h) fun _ => ?_
      · subst hx
        exact ⟨hfile, he.pending, he.creating⟩
      · exact .ret fun x hx => ⟨.made, rfl, hx, rfl⟩

/-- Any two states of an open, stopped anywhere. -/
theorem openDatabase_pairwise (attempt : Attempt config E) (hsound : Sound config start d) :
    ((openDatabase attempt).states d).Pairwise (Keeps config start) :=
  (openDatabase_moves attempt hsound).pairwise Keeps.trans rfl

theorem Reached.sound (hnew : start.files .main = none) (h : Reached config start d) : Sound config start d := by
  induction h with
  | start => exact ⟨.inl hnew, fun _ _ _ _ => .inr rfl, fun _ _ _ => rfl⟩
  | opened _ attempt ht ih =>
      rcases List.mem_cons.mp ht with rfl | ht
      · exact ih
      · exact ((List.pairwise_cons.mp (openDatabase_pairwise attempt ih)).1 _ ht).1 ih
  | @used d t _ hmain hfiles ih =>
      have hfile : t.files .main = some .committed := by
        rw [hfiles]
        exact ih.named.resolve_left fun hnone => by
          rw [hnone] at hmain
          cases hmain
      exact (Keeps.complete hfile (.inl hnew)).1 ⟨.inl hnew, fun _ _ _ _ => .inr rfl, fun _ _ _ => rfl⟩

end Stops

namespace Stop

def config : Config := ⟨true⟩

def start : Disk Nat := ⟨fun _ => none, fun _ => none⟩

/-- A migration folder with two files, and a keys file. -/
def attempt : Attempt config Nat :=
  ⟨true, false, false, [(.migration, .folder [1, 2])], some (.file 3), by decide⟩

/-- Stopped right after the keys file was written. -/
def disk : Disk Nat := ((openDatabase attempt).states start).getD 6 start

theorem reached : Reached config start disk :=
  .opened .start attempt (List.mem_of_getElem? (i := 6) rfl)

end Stop

end CloveDb.Upgrade
