/-
# CloveDb.Lib.SizedText — texts that say their length

A text with the number of its bytes and a colon before it can be told from whatever follows, so texts joined in this way
are told apart. The number is in decimal and ends at its colon.
-/
import CloveDb.Lib.Bytes
import CloveDb.Lib.NumberedName

namespace CloveDb.Lib

theorem utf8_append (a b : String) : utf8 (a ++ b) = utf8 a ++ utf8 b := by
  simp [utf8]

/-- Without colons of their own, the parts before the first colon are told apart. -/
theorem colon_cut {as bs x y : List Char} (ha : ':' ∉ as) (hb : ':' ∉ bs) (h : as ++ ':' :: x = bs ++ ':' :: y) :
    as = bs ∧ x = y := by
  have hfront : ∀ {cs z : List Char}, ':' ∉ cs → (cs ++ ':' :: z).takeWhile (· != ':') = cs := by
    intro cs z hcs
    have hall : ∀ c ∈ cs, (c != ':') = true := fun c hc => bne_iff_ne.mpr fun heq => hcs (heq ▸ hc)
    rw [List.takeWhile_append_of_pos hall, List.takeWhile_cons_of_neg (by decide), List.append_nil]
  have hsame : as = bs := by
    rw [← hfront (z := x) ha, h, hfront hb]
  subst hsame
  exact ⟨rfl, (List.cons.inj (List.append_cancel_left h)).2⟩

theorem colon_not_mem_toString (n : Nat) : ':' ∉ (toString n).toList := by
  rw [Nat.toString_eq_ofList_toDigits, String.toList_ofList]
  exact colon_not_mem_toDigits n

/-- A number ends at its colon. -/
theorem number_cut {n m : Nat} {x y : String} (h : toString n ++ ":" ++ x = toString m ++ ":" ++ y) : n = m ∧ x = y := by
  have hlist := congrArg String.toList h
  simp only [String.toList_append, Nat.toString_eq_ofList_toDigits, String.toList_ofList, List.append_assoc] at hlist
  obtain ⟨hdigits, hrest⟩ := colon_cut (colon_not_mem_toDigits n) (colon_not_mem_toDigits m) hlist
  exact ⟨toDigits_ten_inj hdigits, String.toList_inj.mp hrest⟩

/-- `{len}:{text}` -/
def sizedText (text : String) : String := toString (utf8 text).length ++ ":" ++ text

/-- **What follows a sized text does not belong to it.** -/
theorem sizedText_append_inj {a b x y : String} (h : sizedText a ++ x = sizedText b ++ y) : a = b ∧ x = y := by
  have hcut : toString (utf8 a).length ++ ":" ++ (a ++ x) = toString (utf8 b).length ++ ":" ++ (b ++ y) := by
    simpa only [sizedText, String.append_assoc] using h
  obtain ⟨hlength, htext⟩ := number_cut hcut
  have hbytes := congrArg utf8 htext
  rw [utf8_append, utf8_append] at hbytes
  obtain ⟨ha, hx⟩ := List.append_inj hbytes hlength
  exact ⟨utf8_injective ha, utf8_injective hx⟩

/-- Texts with a slash before each. -/
def slashed : List String → String
  | [] => ""
  | p :: ps => "/" ++ p ++ slashed ps

/-- Texts with a slash between them (`join("/")`). -/
def joinSlash : List String → String
  | [] => ""
  | p :: ps => p ++ slashed ps

theorem slash_append_ne (a : String) : "" ≠ "/" ++ a := by
  intro h
  have hlist := congrArg String.toList h
  simp at hlist

theorem slashed_sized_inj {ps qs : List String} (h : slashed (ps.map sizedText) = slashed (qs.map sizedText)) : ps = qs := by
  induction ps generalizing qs with
  | nil =>
      cases qs with
      | nil => rfl
      | cons q qs =>
          rw [List.map_cons, List.map_nil, slashed, slashed, String.append_assoc] at h
          exact absurd h (slash_append_ne _)
  | cons p ps ih =>
      cases qs with
      | nil =>
          rw [List.map_cons, List.map_nil, slashed, slashed, String.append_assoc] at h
          exact absurd h.symm (slash_append_ne _)
      | cons q qs =>
          rw [List.map_cons, List.map_cons, slashed, slashed, String.append_assoc, String.append_assoc] at h
          obtain ⟨hfirst, hrest⟩ := sizedText_append_inj (String.append_right_inj _ |>.mp h)
          rw [hfirst, ih hrest]

/-- **Sized texts with slashes between them are told apart**, also where a text has slashes of its own. -/
theorem joinSlash_sized_inj {ps qs : List String} (h : joinSlash (ps.map sizedText) = joinSlash (qs.map sizedText)) :
    ps = qs := by
  have hne : ∀ (p : String) (rest : String), "" ≠ sizedText p ++ rest := by
    intro p rest hempty
    have hlist := congrArg String.toList hempty
    simp [sizedText] at hlist
  cases ps with
  | nil =>
      cases qs with
      | nil => rfl
      | cons q qs => exact absurd h (hne q _)
  | cons p ps =>
      cases qs with
      | nil => exact absurd h.symm (hne p _)
      | cons q qs =>
          obtain ⟨hfirst, hrest⟩ := sizedText_append_inj h
          rw [hfirst, slashed_sized_inj hrest]

end CloveDb.Lib
