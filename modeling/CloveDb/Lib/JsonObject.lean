/-
# CloveDb.Lib.JsonObject — the outside of a JSON object

A parser that looks only at the top level of an object: names, and for each the raw bytes of its value with everything
before and after them. What a single value is, is left to a scanner with three laws (`JsonText`): how much of a text a
value takes does not depend on what follows a delimiter, and a value neither starts nor ends with a space. Texts of
objects written member by member are then read back exactly, spaces around values included.
-/
import CloveDb.Lib.Bytes

namespace CloveDb.Lib

/-- JSON whitespace. -/
def jsonSpace (b : UInt8) : Bool := b == 32 || b == 10 || b == 13 || b == 9

/-- A byte that ends a number: whitespace, a comma, a colon or a closing bracket. -/
def jsonDelimiter (b : UInt8) : Bool := jsonSpace b || b == 44 || b == 58 || b == 93 || b == 125

/-- Bytes in double quotes. -/
def quoted (bs : Bytes) : Bytes := 34 :: (bs ++ [34])

/-- Names that are written without escapes. -/
def plainName (s : String) : Bool := s.toList.all fun c => c.isAlphanum || c == '_'

/-- A JSON library, as far as single values go: how many bytes the value at the front of a text takes, and how strings
are written and read. -/
structure JsonText where
  scan : Bytes → Option Nat
  printString : String → Bytes
  readString : Bytes → Option String
  /-- a value is found in its own bytes -/
  scan_take : ∀ {text n}, scan text = some n → n ≤ text.length ∧ scan (text.take n) = some n
  /-- what follows a delimiter does not matter -/
  scan_append : ∀ {v rest}, scan v = some v.length → (∀ b ∈ rest.head?, jsonDelimiter b = true) →
    scan (v ++ rest) = some v.length
  scan_head : ∀ {v}, scan v = some v.length → ∃ b ∈ v.head?, jsonSpace b = false
  scan_string : ∀ s, scan (printString s) = some (printString s).length
  read_string : ∀ s, readString (printString s) = some s
  print_plain : ∀ s, plainName s = true → printString s = quoted (utf8 s)

namespace JsonText

variable (J : JsonText)

/-- The bytes are one JSON value, with no space around it. -/
def IsValue (v : Bytes) : Prop := J.scan v = some v.length

/-- A raw value, with what stands before and after it. -/
structure Raw where
  before : Bytes
  value : Bytes
  after : Bytes
  deriving DecidableEq

/-- A name and its value. -/
def parseMember (before rest : Bytes) : Option (String × Raw) := do
  let before := before ++ rest.takeWhile jsonSpace
  let rest := rest.dropWhile jsonSpace
  let n ← J.scan rest
  let name ← J.readString (rest.take n)
  let before := before ++ rest.take n ++ (rest.drop n).takeWhile jsonSpace
  match (rest.drop n).dropWhile jsonSpace with
  | 58 :: rest => do
      let before := before ++ 58 :: rest.takeWhile jsonSpace
      let rest := rest.dropWhile jsonSpace
      let n ← J.scan rest
      some (name, ⟨before, rest.take n, rest.drop n⟩)
  | _ => none

/-- Members up to the closing brace, and what follows it. -/
def parseMembers : Nat → Bytes → Bytes → Option (List (String × Raw) × Bytes)
  | 0, _, _ => none
  | fuel + 1, before, rest => do
      let (name, raw) ← J.parseMember before rest
      let before := raw.before ++ raw.value ++ raw.after.takeWhile jsonSpace
      match raw.after.dropWhile jsonSpace with
      | 44 :: rest => do
          let (fields, rest) ← parseMembers fuel (before ++ [44]) rest
          some ((name, raw) :: fields, rest)
      | 125 :: rest => some ([(name, raw)], rest)
      | _ => none

/-- The members of an object that is all of the text. -/
def parseObject (text : Bytes) : Option (List (String × Raw)) :=
  match text.dropWhile jsonSpace with
  | 123 :: rest =>
      match rest.dropWhile jsonSpace with
      | 125 :: rest => if rest.all jsonSpace then some [] else none
      | _ => do
          let (fields, rest) ← J.parseMembers text.length (text.takeWhile jsonSpace ++ [123]) rest
          if rest.all jsonSpace then some fields else none
  | _ => none

/-- The value that is all of the text but for spaces around it. -/
def parseValue (text : Bytes) : Option Raw := do
  let rest := text.dropWhile jsonSpace
  let n ← J.scan rest
  if (rest.drop n).all jsonSpace then some ⟨text.takeWhile jsonSpace, rest.take n, rest.drop n⟩ else none

/-! ## What is parsed is a value -/

theorem isValue_take {text : Bytes} {n : Nat} (h : J.scan text = some n) : J.IsValue (text.take n) := by
  obtain ⟨hle, htake⟩ := J.scan_take h
  rw [IsValue, htake, List.length_take, Nat.min_eq_left hle]

theorem isValue_parseMember {before rest : Bytes} {name : String} {raw : Raw}
    (h : J.parseMember before rest = some (name, raw)) : J.IsValue raw.value := by
  simp only [parseMember, Option.bind_eq_bind, Option.bind_eq_some_iff] at h
  obtain ⟨n, -, name', -, h⟩ := h
  split at h
  · simp only [Option.bind_eq_some_iff] at h
    obtain ⟨n', hscan, h⟩ := h
    cases h
    exact isValue_take J hscan
  · cases h

theorem isValue_parseMembers : ∀ {fuel : Nat} {before rest tail : Bytes} {fields : List (String × Raw)},
    J.parseMembers fuel before rest = some (fields, tail) → ∀ e ∈ fields, J.IsValue e.2.value
  | 0, _, _, _, _, h => by cases h
  | fuel + 1, before, rest, tail, fields, h => by
      simp only [parseMembers, Option.bind_eq_bind, Option.bind_eq_some_iff] at h
      obtain ⟨⟨name, raw⟩, hmember, h⟩ := h
      have hraw := isValue_parseMember J hmember
      intro e he
      split at h
      · simp only [Option.bind_eq_some_iff] at h
        obtain ⟨⟨fields', rest'⟩, hrest, h⟩ := h
        cases h
        rcases List.mem_cons.mp he with rfl | he
        · exact hraw
        · exact isValue_parseMembers hrest e he
      · cases h
        obtain rfl := List.mem_singleton.mp he
        exact hraw
      · cases h

theorem isValue_parseObject {text : Bytes} {fields : List (String × Raw)} (h : J.parseObject text = some fields) :
    ∀ e ∈ fields, J.IsValue e.2.value := by
  rw [parseObject] at h
  split at h
  · split at h
    · split at h
      · cases h
        exact fun e he => absurd he List.not_mem_nil
      · cases h
    · simp only [Option.bind_eq_bind, Option.bind_eq_some_iff] at h
      obtain ⟨⟨fields', rest⟩, hmembers, h⟩ := h
      split at h
      · cases h
        exact isValue_parseMembers J hmembers
      · cases h
  · cases h

theorem isValue_parseValue {text : Bytes} {raw : Raw} (h : J.parseValue text = some raw) : J.IsValue raw.value := by
  simp only [parseValue, Option.bind_eq_bind, Option.bind_eq_some_iff] at h
  obtain ⟨n, hscan, h⟩ := h
  split at h
  · cases h
    exact isValue_take J hscan
  · cases h

theorem parseValue_of_isValue {v : Bytes} (h : J.IsValue v) : J.parseValue v = some ⟨[], v, []⟩ := by
  obtain ⟨b, hb, hspace⟩ := J.scan_head h
  obtain ⟨rest, rfl⟩ := List.head?_eq_some_iff.mp hb
  have hscan : J.scan (b :: rest) = some (b :: rest).length := h
  have htake : (b :: rest).takeWhile jsonSpace = [] := by rw [List.takeWhile_cons, hspace]; rfl
  have hdrop : (b :: rest).dropWhile jsonSpace = b :: rest := by rw [List.dropWhile_cons, hspace]; rfl
  rw [parseValue]
  simp only [hdrop, htake, hscan, Option.bind_eq_bind, Option.bind_some, List.drop_length, List.take_length]
  rfl

/-! ## Objects written member by member -/

/-- A member: its name, and its value with the spaces around it. -/
structure Member where
  name : String
  lead : Bytes
  value : Bytes
  trail : Bytes

def Member.text (m : Member) : Bytes := J.printString m.name ++ 58 :: (m.lead ++ m.value ++ m.trail)

/-- The value is one, and the spaces are. -/
structure Member.Good (m : Member) : Prop where
  value : J.IsValue m.value
  lead : m.lead.all jsonSpace = true
  trail : m.trail.all jsonSpace = true

/-- Members with commas between them. -/
def membersText : List Member → Bytes
  | [] => []
  | [m] => m.text J
  | m :: ms => m.text J ++ 44 :: membersText ms

def objectText (ms : List Member) : Bytes := 123 :: (J.membersText ms ++ [125])

/-- Where the members are in a text: `before` stands before them, `tail` after. -/
def located (tail : Bytes) : Bytes → List Member → List (String × Raw)
  | _, [] => []
  | before, [m] => [(m.name, ⟨before ++ J.printString m.name ++ 58 :: m.lead, m.value, m.trail ++ tail⟩)]
  | before, m :: ms =>
      (m.name, ⟨before ++ J.printString m.name ++ 58 :: m.lead, m.value, m.trail ++ 44 :: J.membersText ms ++ tail⟩) ::
        located tail (before ++ m.text J ++ [44]) ms

variable {J}

theorem membersText_cons (m m' : Member) (ms : List Member) :
    J.membersText (m :: m' :: ms) = m.text J ++ 44 :: J.membersText (m' :: ms) := rfl

theorem located_cons (tail before : Bytes) (m m' : Member) (ms : List Member) :
    J.located tail before (m :: m' :: ms) =
      (m.name, ⟨before ++ J.printString m.name ++ 58 :: m.lead, m.value,
        m.trail ++ 44 :: J.membersText (m' :: ms) ++ tail⟩) ::
        J.located tail (before ++ m.text J ++ [44]) (m' :: ms) := rfl

theorem takeWhile_space {lead rest : Bytes} (hlead : lead.all jsonSpace = true)
    (hrest : ∀ b ∈ rest.head?, jsonSpace b = false) : (lead ++ rest).takeWhile jsonSpace = lead := by
  rw [List.takeWhile_append_of_pos (by simpa using hlead)]
  cases rest with
  | nil => simp
  | cons b rest => simp [hrest b rfl]

theorem dropWhile_space {lead rest : Bytes} (hlead : lead.all jsonSpace = true)
    (hrest : ∀ b ∈ rest.head?, jsonSpace b = false) : (lead ++ rest).dropWhile jsonSpace = rest := by
  rw [List.dropWhile_append_of_pos (by simpa using hlead)]
  cases rest with
  | nil => rfl
  | cons b rest => simp [hrest b rfl]

/-- A value does not start with a space, whatever follows it. -/
theorem IsValue.head {v : Bytes} (h : J.IsValue v) (rest : Bytes) : ∀ b ∈ (v ++ rest).head?, jsonSpace b = false := by
  obtain ⟨b, hb, hspace⟩ := J.scan_head h
  intro b' hb'
  rw [List.head?_append, Option.mem_def.mp hb] at hb'
  cases hb'
  exact hspace

/-- One member is read, up to the comma or brace after it. -/
theorem parseMember_text {m : Member} (hm : m.Good J) (before tail : Bytes) {d : UInt8} (hd : jsonDelimiter d = true) :
    J.parseMember before (m.text J ++ d :: tail) =
      some (m.name, ⟨before ++ J.printString m.name ++ 58 :: m.lead, m.value, m.trail ++ d :: tail⟩) := by
  have htext : m.text J ++ d :: tail =
      J.printString m.name ++ 58 :: (m.lead ++ (m.value ++ (m.trail ++ d :: tail))) := by
    simp [Member.text]
  have hname : J.IsValue (J.printString m.name) := J.scan_string m.name
  have hafter : ∀ b ∈ (m.trail ++ d :: tail).head?, jsonDelimiter b = true := by
    intro b hb
    cases htrail : m.trail with
    | nil =>
        rw [htrail] at hb
        cases hb
        exact hd
    | cons b' trail =>
        have hall := hm.trail
        rw [htrail] at hb hall
        cases hb
        simp only [List.all_cons, Bool.and_eq_true] at hall
        simp [jsonDelimiter, hall.1]
  have htake : ∀ rest : Bytes, (J.printString m.name ++ rest).takeWhile jsonSpace = [] := fun rest =>
    @takeWhile_space [] _ rfl (hname.head rest)
  have hdrop : ∀ rest : Bytes, (J.printString m.name ++ rest).dropWhile jsonSpace = J.printString m.name ++ rest :=
    fun rest => @dropWhile_space [] _ rfl (hname.head rest)
  have hcolon : ∀ b ∈ (58 :: (m.lead ++ (m.value ++ (m.trail ++ d :: tail)))).head?, jsonDelimiter b = true := by
    intro b hb
    cases hb
    rfl
  have hscan := J.scan_append hname hcolon
  have hvalue := J.scan_append hm.value hafter
  have hlead := takeWhile_space hm.lead (hm.value.head (m.trail ++ d :: tail))
  have hrest := dropWhile_space hm.lead (hm.value.head (m.trail ++ d :: tail))
  have h58 : jsonSpace 58 = false := rfl
  rw [htext, parseMember]
  simp only [htake, hdrop, hscan, List.take_left, List.drop_left, J.read_string, Option.bind_eq_bind,
    Option.bind_some, List.takeWhile_cons, List.dropWhile_cons, h58, Bool.false_eq_true, if_false, hlead, hrest,
    hvalue, List.append_nil]

/-- Passing the spaces after a value leads to the comma or brace, with everything up to it behind. -/
theorem after_trail {m : Member} (hm : m.Good J) (before tail : Bytes) {d : UInt8} (hd : jsonSpace d = false) :
    (m.trail ++ d :: tail).takeWhile jsonSpace = m.trail ∧ (m.trail ++ d :: tail).dropWhile jsonSpace = d :: tail ∧
      before ++ J.printString m.name ++ 58 :: m.lead ++ m.value ++ m.trail = before ++ m.text J := by
  have hhead : ∀ b ∈ (d :: tail).head?, jsonSpace b = false := by
    intro b hb
    cases hb
    exact hd
  exact ⟨takeWhile_space hm.trail hhead, dropWhile_space hm.trail hhead, by simp [Member.text]⟩

/-- Members are read up to the brace, each with its place. -/
theorem parseMembers_text (tail : Bytes) : ∀ (ms : List Member) (fuel : Nat) (before : Bytes), ms ≠ [] →
    (∀ m ∈ ms, m.Good J) → ms.length ≤ fuel →
    J.parseMembers fuel before (J.membersText ms ++ 125 :: tail) = some (J.located (125 :: tail) before ms, tail)
  | [], _, _, hne, _, _ => absurd rfl hne
  | [m], 0, _, _, _, hfuel => by simp at hfuel
  | [m], fuel + 1, before, _, hgood, _ => by
      have hm := hgood m (List.mem_singleton.mpr rfl)
      have hmember := parseMember_text hm before tail (d := 125) rfl
      obtain ⟨-, hdrop, -⟩ := after_trail hm before tail (d := 125) rfl
      simp only [membersText, parseMembers, hmember, Option.bind_eq_bind, Option.bind_some, hdrop, located]
  | m :: m' :: ms, 0, _, _, _, hfuel => by simp at hfuel
  | m :: m' :: ms, fuel + 1, before, _, hgood, hfuel => by
      have hm := hgood m List.mem_cons_self
      have htext : J.membersText (m :: m' :: ms) ++ 125 :: tail =
          m.text J ++ 44 :: (J.membersText (m' :: ms) ++ 125 :: tail) := by
        simp [membersText_cons]
      have hmember := parseMember_text hm before (J.membersText (m' :: ms) ++ 125 :: tail) (d := 44) rfl
      obtain ⟨htake, hdrop, hbefore⟩ := after_trail hm before (J.membersText (m' :: ms) ++ 125 :: tail) (d := 44) rfl
      have ih := parseMembers_text tail (m' :: ms) fuel (before ++ m.text J ++ [44]) (List.cons_ne_nil _ _)
        (fun m'' h => hgood m'' (List.mem_cons_of_mem _ h)) (Nat.le_of_succ_le_succ hfuel)
      rw [htext, parseMembers]
      simp only [hmember, Option.bind_eq_bind, Option.bind_some, htake, hdrop, hbefore, ih, located]
      simp only [List.append_assoc, List.cons_append]

/-- There are no more members than bytes. -/
theorem length_le_membersText : ∀ ms : List Member, ms.length ≤ (J.membersText ms).length
  | [] => Nat.le_refl _
  | [m] => by
      simp only [membersText, Member.text, List.length_append, List.length_cons, List.length_nil]
      omega
  | m :: m' :: ms => by
      have ih := length_le_membersText (m' :: ms)
      simp only [membersText, List.length_cons, List.length_append] at ih ⊢
      omega

/-- A plain name is printed with a quote first. -/
theorem head_plain {s : String} (h : plainName s = true) : (J.printString s).head? = some 34 := by
  rw [J.print_plain s h]
  rfl

/-- The text of members starts with a quote if the first name does. -/
theorem membersText_head {m : Member} (hname : (J.printString m.name).head? = some 34) (ms : List Member) :
    ∃ rest, J.membersText (m :: ms) = 34 :: rest := by
  obtain ⟨rest, hprint⟩ := List.head?_eq_some_iff.mp hname
  cases ms with
  | nil => exact ⟨_, by rw [membersText, Member.text, hprint]; rfl⟩
  | cons m' ms => exact ⟨_, by rw [membersText_cons, Member.text, hprint]; rfl⟩

/-- An object written member by member is read back, with the place of each value. -/
theorem parseObject_text {ms : List Member} (hne : ms ≠ []) (hgood : ∀ m ∈ ms, m.Good J)
    (hnames : ∀ m ∈ ms, (J.printString m.name).head? = some 34) :
    J.parseObject (J.objectText ms) = some (J.located [125] [123] ms) := by
  obtain ⟨m, ms', rfl⟩ := List.exists_cons_of_ne_nil hne
  obtain ⟨rest, hrest⟩ := membersText_head (J := J) (hnames m List.mem_cons_self) ms'
  have hfuel : (m :: ms').length ≤ (J.objectText (m :: ms')).length := by
    have hle := length_le_membersText (J := J) (m :: ms')
    simp only [objectText, List.length_cons, List.length_append] at hle ⊢
    omega
  have hmembers := parseMembers_text [] (m :: ms') _ [123] hne hgood hfuel
  have h123 : jsonSpace 123 = false := rfl
  have h34 : jsonSpace 34 = false := rfl
  have htext : J.objectText (m :: ms') = 123 :: (J.membersText (m :: ms') ++ [125]) := rfl
  rw [parseObject]
  simp only [htext] at hmembers ⊢
  -- the text after the brace starts with a quote, so the object is not an empty one
  rw [hrest] at hmembers ⊢
  simp only [List.takeWhile_cons, List.dropWhile_cons, List.cons_append, h123, h34, Bool.false_eq_true, if_false,
    List.nil_append] at hmembers ⊢
  rw [hmembers]
  rfl

/-! ## Names and their values -/

/-- A raw value with the spaces next to it. -/
def Raw.widened (raw : Raw) : Bytes :=
  (raw.before.reverse.takeWhile jsonSpace).reverse ++ raw.value ++ raw.after.takeWhile jsonSpace

theorem Member.widened_eq {m : Member} (hm : m.Good J) (before tail : Bytes) {d : UInt8} (hd : jsonSpace d = false) :
    Raw.widened ⟨before ++ 58 :: m.lead, m.value, m.trail ++ d :: tail⟩ = m.lead ++ m.value ++ m.trail := by
  have hlead : (before ++ 58 :: m.lead).reverse.takeWhile jsonSpace = m.lead.reverse := by
    have hrev : (before ++ 58 :: m.lead).reverse = m.lead.reverse ++ 58 :: before.reverse := by simp
    rw [hrev]
    refine takeWhile_space (by simpa using hm.lead) ?_
    intro b hb
    cases hb
    rfl
  obtain ⟨htrail, -, -⟩ := after_trail hm [] tail hd
  rw [Raw.widened, hlead, htrail, List.reverse_reverse]

theorem map_fst_located (tail : Bytes) : ∀ (before : Bytes) (ms : List Member),
    (J.located tail before ms).map Prod.fst = ms.map Member.name
  | _, [] => rfl
  | _, [_] => rfl
  | before, m :: m' :: ms => by
      have ih := map_fst_located tail (before ++ m.text J ++ [44]) (m' :: ms)
      rw [located_cons, List.map_cons, ih]
      rfl

theorem values_located (tail : Bytes) : ∀ (before : Bytes) (ms : List Member),
    (J.located tail before ms).map (fun e => (e.1, e.2.value)) = ms.map fun m => (m.name, m.value)
  | _, [] => rfl
  | _, [_] => rfl
  | before, m :: m' :: ms => by
      have ih := values_located tail (before ++ m.text J ++ [44]) (m' :: ms)
      rw [located_cons, List.map_cons, ih]
      rfl

/-- Each member is among the located ones, with its value and, around it, its spaces. -/
theorem exists_located (tail : Bytes) : ∀ (before : Bytes) (ms : List Member), (∀ m ∈ ms, m.Good J) → ∀ m ∈ ms,
    ∃ raw, (m.name, raw) ∈ J.located (125 :: tail) before ms ∧ raw.value = m.value ∧
      raw.widened = m.lead ++ m.value ++ m.trail
  | _, [], _, _, hmem => absurd hmem List.not_mem_nil
  | before, [m], hgood, m', hmem => by
      obtain rfl := List.mem_singleton.mp hmem
      exact ⟨_, List.mem_singleton.mpr rfl, rfl, Member.widened_eq (hgood _ hmem) _ tail (d := 125) rfl⟩
  | before, m :: n :: ms, hgood, m', hmem => by
      rcases List.mem_cons.mp hmem with rfl | hrest
      · have hafter : m'.trail ++ 44 :: J.membersText (n :: ms) ++ 125 :: tail =
            m'.trail ++ 44 :: (J.membersText (n :: ms) ++ 125 :: tail) := by simp
        refine ⟨_, List.mem_cons_self, rfl, ?_⟩
        rw [hafter]
        exact Member.widened_eq (hgood _ hmem) _ _ (d := 44) rfl
      · obtain ⟨raw, hraw, hvalue⟩ := exists_located tail (before ++ m.text J ++ [44]) (n :: ms)
          (fun m'' h => hgood m'' (List.mem_cons_of_mem _ h)) m' hrest
        exact ⟨raw, List.mem_cons_of_mem _ hraw, hvalue⟩

/-! ## Writing one member more, and one value alone -/

theorem membersText_concat (m : Member) : ∀ ms : List Member, ms ≠ [] →
    J.membersText (ms ++ [m]) = J.membersText ms ++ 44 :: m.text J
  | [], hne => absurd rfl hne
  | [_], _ => rfl
  | m' :: n :: ms, _ => by
      have ih := membersText_concat m (n :: ms) (List.cons_ne_nil _ _)
      rw [membersText_cons, List.cons_append, List.cons_append, membersText_cons, ← List.cons_append, ih]
      simp

/-- Putting a member in before the closing brace. -/
theorem objectText_concat {ms : List Member} (hne : ms ≠ []) (m : Member) :
    J.objectText (ms ++ [m]) = (J.objectText ms).dropLast ++ 44 :: m.text J ++ [125] := by
  have hlast : (J.objectText ms).dropLast = 123 :: J.membersText ms := by
    rw [objectText, ← List.cons_append, List.dropLast_concat]
  rw [hlast, objectText, membersText_concat m ms hne]
  simp

/-- A text that is one value and spaces is a member's value. -/
theorem parseValue_spec {text : Bytes} {raw : Raw} (h : J.parseValue text = some raw) (name : String) :
    Member.Good J ⟨name, raw.before, raw.value, raw.after⟩ ∧ raw.before ++ raw.value ++ raw.after = text := by
  simp only [parseValue, Option.bind_eq_bind, Option.bind_eq_some_iff] at h
  obtain ⟨n, hscan, h⟩ := h
  split at h
  · next hall =>
      obtain ⟨hle, htake⟩ := J.scan_take hscan
      cases h
      refine ⟨⟨?_, ?_, hall⟩, ?_⟩
      · rw [IsValue, htake, List.length_take, Nat.min_eq_left hle]
      · simp
      · rw [List.append_assoc, List.take_append_drop, List.takeWhile_append_dropWhile]
  · cases h

end JsonText

end CloveDb.Lib
