/-
# CloveDb.Lib.NumberedName — a name, a colon and a number

Texts of the form `name:17`. They are cut at the last colon, so the name may have colons of its own; the number is in
decimal and below a bound. Cutting gives the name and the number back.
-/
import Mathlib.Data.List.Basic
import Mathlib.Tactic.Common

namespace CloveDb.Lib

/-- `name:number`. -/
def numberedName (name : String) (number : Nat) : String := name ++ ":" ++ toString number

/-- Cut at the last colon (`rsplit_once(':')`). -/
def rsplitColon (text : String) : Option (String × List Char) :=
  match text.toList.reverse.dropWhile (· != ':') with
  | [] => none
  | _ :: front => some (String.ofList front.reverse, (text.toList.reverse.takeWhile (· != ':')).reverse)

/-- An unsigned number below a bound: digits, with or without a plus sign before them (`str::parse`). -/
def parseBelow (bound : Nat) (text : List Char) : Option Nat :=
  let digits := if text.head? = some '+' then text.tail else text
  if digits ≠ [] ∧ digits.all Char.isDigit ∧ Nat.ofDigitChars 10 digits 0 < bound then
    some (Nat.ofDigitChars 10 digits 0)
  else none

theorem toDigits_ten_inj {a b : Nat} (h : Nat.toDigits 10 a = Nat.toDigits 10 b) : a = b := by
  have hvalue := congrArg (fun ds => Nat.ofDigitChars 10 ds 0) h
  simpa only [Nat.ofDigitChars_ten_toDigits] using hvalue

theorem colon_not_mem_toDigits (n : Nat) : ':' ∉ Nat.toDigits 10 n := by
  intro hmem
  have := Nat.isDigit_of_mem_toDigits (by decide) (by decide) hmem
  revert this
  decide

theorem rsplitColon_numberedName (name : String) (number : Nat) :
    rsplitColon (numberedName name number) = some (name, Nat.toDigits 10 number) := by
  have hlist : (numberedName name number).toList.reverse =
      (Nat.toDigits 10 number).reverse ++ ':' :: name.toList.reverse := by
    simp [numberedName]
  have hdigits : ∀ c ∈ (Nat.toDigits 10 number).reverse, (c != ':') = true := by
    intro c hc
    rw [bne_iff_ne]
    rintro rfl
    exact colon_not_mem_toDigits number (List.mem_reverse.mp hc)
  rw [rsplitColon, hlist, List.dropWhile_append_of_pos hdigits, List.takeWhile_append_of_pos hdigits]
  simp

/-- A name and its number are told apart. -/
theorem numberedName_inj {name name' : String} {number number' : Nat}
    (h : numberedName name number = numberedName name' number') : name = name' ∧ number = number' := by
  have hsplit := rsplitColon_numberedName name number
  rw [h, rsplitColon_numberedName, Option.some.injEq, Prod.mk.injEq] at hsplit
  exact ⟨hsplit.1.symm, toDigits_ten_inj hsplit.2.symm⟩

theorem parseBelow_toDigits {bound number : Nat} (h : number < bound) :
    parseBelow bound (Nat.toDigits 10 number) = some number := by
  have hdigits : ∀ c ∈ Nat.toDigits 10 number, c.isDigit = true := fun c hc =>
    Nat.isDigit_of_mem_toDigits (by decide) (by decide) hc
  have hplus : (Nat.toDigits 10 number).head? ≠ some '+' := by
    intro hhead
    have hmem := hdigits '+' (List.mem_of_head? hhead)
    revert hmem
    decide
  have hne : Nat.toDigits 10 number ≠ [] := Nat.toDigits_ne_nil
  simp only [parseBelow, hplus, if_false, Nat.ofDigitChars_ten_toDigits]
  rw [if_pos ⟨hne, List.all_eq_true.mpr hdigits, h⟩]

end CloveDb.Lib
