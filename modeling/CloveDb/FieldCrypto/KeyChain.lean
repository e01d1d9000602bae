/-
# CloveDb.FieldCrypto.KeyChain — any number of changes of keys

A database goes through changes of keys, one after the other, each with a new data key, any cipher and any key
derivation. One change keeps what `Carries` says (`changeKeys_spec`); a chain therefore does. So whoever opens the file
after any number of changes has, for every hash and every search fingerprint, the key it was first made with.
-/
import CloveDb.FieldCrypto.Carried

namespace CloveDb.FieldCrypto

open CloveDb.Lib CloveDb.Encrypted

/-- A data key and the algorithms it is used with. -/
structure Roots (Root : Type) where
  suite : KeySuite
  read : Root
  search : Root

namespace Roots

variable {Root : Type} (roots : Roots Root)

/-- The keys of a program that holds both roots. -/
def keys : FieldKeys Root := FieldKeys.fresh roots.suite (some roots.read) (some roots.search)

/-- The keys of a program that holds only the search key. -/
def searchOnly : FieldKeys Root := FieldKeys.fresh roots.suite none (some roots.search)

theorem full : Full roots.keys := ⟨fun _ => rfl, rfl, rfl⟩

theorem searchOnly_partOf : PartOf roots.searchOnly roots.keys := ⟨rfl, .inl rfl, .inr rfl⟩

end Roots

/-- A change of keys: the new data key, and what the ciphers draw. -/
structure KeyChange (Root N : Type) where
  roots : Roots Root
  nonce : String → N

section Chain

variable {Root N : Type} (crypto : Primitives Root N) (declared : List Declared)

/-- Changes of keys made one after the other. -/
def changeAll : KeyedFile → Roots Root → List (KeyChange Root N) → Result (KeyedFile × Roots Root)
  | file, roots, [] => .ok (file, roots)
  | file, roots, change :: changes => do
      let file ← changeKeys crypto file declared roots.keys change.roots.keys change.nonce
      changeAll file change.roots changes

/-- Each change has both roots new. -/
def AllNew : Roots Root → List (KeyChange Root N) → Prop
  | _, [] => True
  | roots, change :: changes => NewRoots crypto roots.keys change.roots.keys ∧ AllNew change.roots changes

variable {crypto declared} {original : String × Nat × CarriedKind → Result Key32} {tables : List Resolved}

/-- A chain of changes keeps the invariant, and the checks it leaves are those of the keys the file gives. -/
theorem changeAll_carries (hwf : WellFormed tables) : ∀ (changes : List (KeyChange Root N)) {file file' : KeyedFile}
    {roots last : Roots Root}, AllNew crypto roots changes → resolve file.tables declared = .ok tables →
    Carries crypto original tables roots.keys file.rows → changeAll crypto declared file roots changes = .ok (file', last) →
    Carries crypto original tables last.keys file'.rows ∧ (changes ≠ [] → ∃ keys, load crypto last.keys file'.carried = .ok keys ∧
      ∀ t ∈ tables, Checked crypto keys t file'.tables)
  | [], file, file', roots, last, _, _, hcarries, h => by
      obtain ⟨rfl, rfl⟩ := Prod.mk.inj (Except.ok.inj h)
      exact ⟨hcarries, fun hne => absurd rfl hne⟩
  | change :: changes, file, file', roots, last, hnew, hresolve, hcarries, h => by
      obtain ⟨mid, hmid, h⟩ := bind_eq_ok.mp h
      obtain ⟨hcarries', keys, hload, hremake⟩ := changeKeys_spec hwf roots.full change.roots.full hnew.1 hcarries hresolve hmid
      obtain ⟨hsame, hchecked, -⟩ := remakeMeta_spec tables hremake hwf.names hwf.specs
      have hresolve' : resolve mid.tables declared = .ok tables := (resolve_congr hsame declared).trans hresolve
      obtain ⟨hlast, hchecks⟩ := changeAll_carries hwf changes hnew.2 hresolve' hcarries' h
      refine ⟨hlast, fun _ => ?_⟩
      by_cases hmore : changes = []
      · subst hmore
        obtain ⟨rfl, rfl⟩ := Prod.mk.inj (Except.ok.inj h)
        exact ⟨keys, hload, hchecked⟩
      · exact hchecks hmore

/-- A file that carries nothing: every field derives its own key. -/
theorem carries_of_none {file : KeyedFile} (h : file.carried = none) (roots : Roots Root) :
    Carries crypto (fun place => roots.keys.keyOf crypto place.2.2 place.1 place.2.1) tables roots.keys file.rows := by
  have hrows : file.rows = [] := by rw [KeyedFile.rows, h]; rfl
  rw [hrows]
  exact ⟨fun _ hrow => absurd hrow List.not_mem_nil, fun place _ => .inr rfl⟩

/-- Whoever loads the table gets the original keys of the fields whose root it holds. -/
theorem load_carries {file : KeyedFile} {roots : Roots Root} {keys : FieldKeys Root}
    (hcarries : Carries crypto original tables roots.keys file.rows) (hpart : PartOf keys roots.keys) :
    ∃ keys', load crypto keys file.carried = .ok keys' ∧ Loads crypto original roots.keys file.rows keys keys' := by
  rw [load_eq_loadRows]
  exact loadRows_original _ hpart fun row hrow => (hcarries.entries row hrow).imp fun _ hplace => hplace.2

/-- After any number of changes of keys, whoever opens the file with the keys of today has the first key of every hash
and every search fingerprint, so hashes verify as they did and values have the fingerprints they had; the checks stored
are those that the keys make; and the search key alone gives every fingerprint key and no hash key. -/
theorem keys_survive_changes (out : Fields.Outside) (hwf : WellFormed tables) {file file' : KeyedFile}
    {first last : Roots Root} {changes : List (KeyChange Root N)} (hresolve : resolve file.tables declared = .ok tables)
    (hnone : file.carried = none) (hnew : AllNew crypto first changes)
    (h : changeAll crypto declared file first changes = .ok (file', last)) :
    ∃ keys searching, load crypto last.keys file'.carried = .ok keys ∧
      load crypto last.searchOnly file'.carried = .ok searching ∧
      (changes ≠ [] → ∀ t ∈ tables, Checked crypto keys t file'.tables) ∧
      (∀ t ∈ tables, ∀ spec ∈ t.specs, spec.method = .hash →
        keys.hashKey crypto t.tableId spec.id = first.keys.hashKey crypto t.tableId spec.id ∧
        ∀ algo rowKey secret stored, verifyValue crypto keys algo ⟨t.tableId, spec.id, rowKey⟩ secret stored =
          verifyValue crypto first.keys algo ⟨t.tableId, spec.id, rowKey⟩ secret stored) ∧
      (∀ t ∈ tables, ∀ spec ∈ t.specs, spec.method = .searchPrint →
        keys.printKey crypto t.tableId spec.id = first.keys.printKey crypto t.tableId spec.id ∧
        searching.printKey crypto t.tableId spec.id = first.keys.printKey crypto t.tableId spec.id ∧
        ∀ kinds value, printValue crypto keys out t.tableId spec.id kinds value =
          printValue crypto first.keys out t.tableId spec.id kinds value) ∧
      ∀ tableId fieldId, ∃ e, searching.hashKey crypto tableId fieldId = .error e := by
  obtain ⟨hcarries, hchecks⟩ := changeAll_carries hwf changes hnew hresolve (carries_of_none hnone first) h
  obtain ⟨keys, hkeys, hloads⟩ := load_carries hcarries (PartOf.refl last.keys)
  obtain ⟨searching, hsearching, hloads'⟩ := load_carries hcarries last.searchOnly_partOf
  have hkey : ∀ place, IsField tables place → keys.keyOf crypto place.2.2 place.1 place.2.1 =
      first.keys.keyOf crypto place.2.2 place.1 place.2.1 := fun place hfield =>
    hcarries.keyOf last.full.bare (PartOf.refl _) last.full.bare hloads hfield (last.full.holds _)
  refine ⟨keys, searching, hkeys, hsearching, ?_, ?_, ?_, ?_⟩
  · intro hne
    obtain ⟨keys', hkeys', hchecked⟩ := hchecks hne
    obtain rfl := Except.ok.inj (hkeys.symm.trans hkeys')
    exact hchecked
  · intro t ht spec hspec hmethod
    have hhash : keys.hashKey crypto t.tableId spec.id = first.keys.hashKey crypto t.tableId spec.id :=
      hkey (t.tableId, spec.id, .hash) ⟨t, ht, spec, hspec, rfl, rfl, by rw [hmethod]; rfl⟩
    refine ⟨hhash, fun algo rowKey secret stored => ?_⟩
    simp only [verifyValue, computeHash, hhash]
  · intro t ht spec hspec hmethod
    have hfield : IsField tables (t.tableId, spec.id, .print) := ⟨t, ht, spec, hspec, rfl, rfl, by rw [hmethod]; rfl⟩
    have hprint : keys.printKey crypto t.tableId spec.id = first.keys.printKey crypto t.tableId spec.id := hkey _ hfield
    refine ⟨hprint, ?_, fun kinds value => ?_⟩
    · exact hcarries.keyOf last.full.bare last.searchOnly_partOf (fun _ => rfl) hloads' hfield rfl
    · simp only [printValue, hprint]
  · intro tableId fieldId
    have hclosed : ¬Holds last.searchOnly .hash := by simp [Holds, Roots.searchOnly, FieldKeys.fresh]
    have hno : searching.carried (tableId, fieldId, .hash) = none := hloads'.rest _ (.inr hclosed)
    have hread : searching.read = none := hloads'.read
    refine ⟨.validation "this program holds no read key; protected fields can be neither written nor opened", ?_⟩
    simp only [FieldKeys.hashKey, hno, hread]

end Chain

/-! ### A table with a password and a token -/

namespace Sample

/-- The key that repeats one byte. -/
def key (b : Nat) : Key32 := ⟨List.replicate 32 (UInt8.ofNat b), List.length_replicate⟩

/-- Roots are numbers, and every key of a root is that number; the cipher marks. -/
def crypto : Primitives Nat Unit where
  encryptionKey root _ _ := some (key root)
  hashKey root _ _ := some (key root)
  fullFingerprintKey root _ _ := some (key root)
  partFingerprintKey root _ _ := some (key root)
  aead _ _ := Aead.marking
  mac key data := key.bytes ++ data
  slowHash _ input salt := input ++ salt
  hashSettings _ := []
  b64Encode _ := ""
  b64Decode _ := none

def specs : List SealedSpec :=
  [⟨1, "password", .hash, some .argon2id, [], 0, 0⟩, ⟨2, "token", .searchPrint, none, [], 0, 0⟩]

def file : KeyedFile := ⟨[⟨"people", some "0011", [⟨1, none⟩, ⟨2, none⟩]⟩], none⟩

def roots (n : Nat) : Roots Nat := ⟨⟨.aes256GcmSiv, .sha256⟩, n, n⟩

def declared : List Declared := [⟨"people", specs⟩]

def tables : List Resolved := [⟨"people", "0011", specs⟩]

def changes : List (KeyChange Nat Unit) := [⟨roots 2, fun _ => ()⟩, ⟨roots 3, fun _ => ()⟩]

theorem wellFormed : WellFormed tables where
  names := by decide
  ids := by decide
  specs := by decide
  numbers := by decide
  not_probe := by decide

/-- Different numbers are new roots. -/
theorem newRoots {m n : Nat} (h : UInt8.ofNat m ≠ UInt8.ofNat n) : NewRoots crypto (roots m).keys (roots n).keys := by
  have hkey : key m ≠ key n := by
    intro heq
    have hhead := congrArg (fun k => k.bytes.head?) heq
    exact h (Option.some.inj hhead)
  exact ⟨fun heq => hkey (Except.ok.inj heq), fun heq => hkey (Except.ok.inj heq)⟩

end Sample

theorem keys_survive_two_changes : ∃ file' keys,
    changeAll Sample.crypto Sample.declared Sample.file (Sample.roots 1) Sample.changes = .ok (file', Sample.roots 3) ∧
    load Sample.crypto (Sample.roots 3).keys file'.carried = .ok keys ∧
    keys.hashKey Sample.crypto "0011" 1 = .ok (Sample.key 1) := by
  obtain ⟨⟨file', last⟩, hrun⟩ :=
    exists_of_isOk (x := changeAll Sample.crypto Sample.declared Sample.file (Sample.roots 1) Sample.changes) (by decide)
  have hnew : AllNew Sample.crypto (Sample.roots 1) Sample.changes :=
    ⟨Sample.newRoots (by decide), Sample.newRoots (by decide), trivial⟩
  have hresolve : resolve Sample.file.tables Sample.declared = .ok Sample.tables := rfl
  obtain ⟨keys, -, hload, -, -, hhash, -⟩ := keys_survive_changes (Fields.Outside.listed []) Sample.wellFormed hresolve rfl
    hnew hrun
  have hlast : last = Sample.roots 3 := by
    obtain ⟨mid, -, h⟩ := bind_eq_ok.mp hrun
    obtain ⟨mid', -, h⟩ := bind_eq_ok.mp h
    exact (Prod.mk.inj (Except.ok.inj h)).2.symm
  subst hlast
  have hfirst := (hhash ⟨"people", "0011", Sample.specs⟩ (by simp [Sample.tables]) _ List.mem_cons_self rfl).1
  exact ⟨file', keys, hrun, hload, hfirst⟩

end CloveDb.FieldCrypto
