import PolicyStore.Text.Numeral
import Mathlib.Tactic.Basic

set_option autoImplicit false

namespace PolicyStore.Text.Numeral

/-!
# Decimal numerals of integers

An integer written in decimal is read as a numeral without point and exponent that denotes it.
-/

theorem isAscii_of_isDigit {c : Char} (h : c.isDigit = true) : isAscii c = true := by
  simp only [Char.isDigit, Bool.and_eq_true, decide_eq_true_eq, UInt32.le_iff_toNat_le] at h
  change 48 ≤ c.toNat ∧ c.toNat ≤ 57 at h
  simp only [isAscii, decide_eq_true_eq]
  omega

theorem isDecimalDigit_of_isDigit {c : Char} (h : c.isDigit = true) : isDecimalDigit c = true := by
  simpa only [isDecimalDigit, isAscii_of_isDigit h, if_true] using h

theorem read?_of_takeSign {cs ds : List Char} {negative : Bool} (hsign : takeSign cs = (negative, ds))
    (hne : ds ≠ []) (hds : ∀ c ∈ ds, c.isDigit = true) :
    read? cs = some ⟨negative, ds, false, [], none⟩ := by
  have hall : ∀ c ∈ ds, isDecimalDigit c = true := fun c hc => isDecimalDigit_of_isDigit (hds c hc)
  have htake : ds.takeWhile isDecimalDigit = ds := by
    rw [← List.append_nil ds, List.takeWhile_append_of_pos hall]
    rfl
  have hdrop : ds.dropWhile isDecimalDigit = [] := by
    rw [← List.append_nil ds, List.dropWhile_append_of_pos hall]
    rfl
  simp [read?, hsign, htake, hdrop, hne, readExponent?]

theorem digitsValue?_eq {ds : List Char} (hds : ∀ c ∈ ds, c.isDigit = true) :
    digitsValue? ds = some (Nat.ofDigitChars 10 ds 0) := by
  have hfold (n : Nat) : ds.foldl (fun acc c => do
      let n ← acc
      if c.isDigit then some (10 * n + (c.toNat - 0x30)) else none) (some n) =
        some (Nat.ofDigitChars 10 ds n) := by
    induction ds generalizing n with
    | nil => rfl
    | cons c cs ih =>
      have hc := hds c List.mem_cons_self
      have ih := ih fun d hd => hds d (List.mem_cons_of_mem _ hd)
      simp only [List.foldl_cons, hc, if_true, Nat.ofDigitChars_cons]
      exact ih _
  exact hfold 0

theorem isDigit_of_mem_toDigits {n : Nat} : ∀ c ∈ Nat.toDigits 10 n, c.isDigit = true :=
  fun _ hc => Nat.isDigit_of_mem_toDigits (by decide) (by decide) hc

theorem digitsValue?_toDigits (n : Nat) : digitsValue? (Nat.toDigits 10 n) = some n := by
  rw [digitsValue?_eq isDigit_of_mem_toDigits, Nat.ofDigitChars_ten_toDigits]

/-- The text of an integer is its digits, after a minus if it is negative. -/
theorem toList_toString (i : Int) : (toString i).toList =
    if 0 ≤ i then Nat.toDigits 10 i.toNat else '-' :: Nat.toDigits 10 (-i).toNat := by
  rw [Int.toString_eq_repr, Int.repr_eq_if]
  split
  · rw [Nat.toList_repr]
  · rw [String.toList_append, Nat.toList_repr]
    rfl

theorem read?_toString (i : Int) : ∃ numeral, read? (toString i).toList = some numeral ∧
    numeral.isInteger = true ∧ numeral.toInt? = some i := by
  rw [toList_toString]
  split
  · have hsign : takeSign (Nat.toDigits 10 i.toNat) = (false, Nat.toDigits 10 i.toNat) := by
      have hdigits := isDigit_of_mem_toDigits (n := i.toNat)
      unfold takeSign
      split
      · rename_i heq
        simp [heq, Char.isDigit] at hdigits
      · rename_i heq
        simp [heq, Char.isDigit] at hdigits
      · rfl
    refine ⟨_, read?_of_takeSign hsign Nat.toDigits_ne_nil isDigit_of_mem_toDigits, rfl, ?_⟩
    simp only [toInt?, digitsValue?_toDigits, Option.map_some, signed, Bool.false_eq_true, if_false,
      Option.some.injEq]
    omega
  · refine ⟨_, read?_of_takeSign rfl Nat.toDigits_ne_nil isDigit_of_mem_toDigits, rfl, ?_⟩
    simp only [toInt?, digitsValue?_toDigits, Option.map_some, signed, if_true, Option.some.injEq]
    omega

end PolicyStore.Text.Numeral
